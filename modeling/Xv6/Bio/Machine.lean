import Xv6.Param
import Xv6.Lib.Links
import Xv6.Lib.Machine

/-! The buffer cache as processes share it: `bio.c`, with `iderw` of `memide.c` and what
`log_write` does to a buffer.

A call of `bread` is three steps: the section of `bget` under `bcache.lock`, `acquiresleep`, and the
read from the disk; a call of `brelse` is two: `releasesleep`, and its section under `bcache.lock`.
Between `bread` and `brelse` the process that holds the lock may change the data, and then stores it
with `bwrite` or `log_write` before it releases the buffer. A panic makes no step. What `log_write`
does to the log itself, and when it panics, is the business of the log. -/
namespace Xv6.Bio
open Lib Function

abbrev NBUF : Nat := MAXOPBLOCKS * 3

instance : NeZero NBUF := ⟨by decide⟩

/-- A pointer into `bcache.buf`. -/
abbrev Ptr := Fin NBUF

/-- `struct buf`, without its links. The flags are `B_VALID` and `B_DIRTY`. -/
structure Buf (P : Type) where
  valid : Bool
  dirty : Bool
  dev : Nat
  blockno : Nat
  /-- The process that holds the sleep lock. -/
  lock : Option P
  refcnt : Nat
  data : Block

/-- Where a process is in the code of the cache. -/
inductive Pc where
  | out
  /-- In `bread` of block `n`, with a reference to the buffer, waiting for its lock. -/
  | wants (n : Nat) (b : Ptr)
  /-- In `bread` of block `n`, with the lock, before the look at `B_VALID`. -/
  | locked (n : Nat) (b : Ptr)
  /-- In `brelse`, without the lock. -/
  | putting (b : Ptr)
deriving DecidableEq

structure Sys (P : Type) where
  buf : Ptr → Buf P
  /-- `prev` and `next`; the head is `none`. -/
  links : Links Ptr
  disk : Disk
  pc : P → Pc
  /-- The buffers that a process has from `bread`, and has not given to `brelse`. -/
  hand : P → List Ptr
  /-- Has the data been changed and not been stored since? -/
  changed : Ptr → Bool
  /-- What was last stored in each block by `bwrite` or `log_write`. -/
  latest : Disk

variable {P : Type}

namespace Sys

def upd (s : Sys P) (b : Ptr) (f : Buf P → Buf P) : Sys P :=
  {s with buf := update s.buf b (f (s.buf b))}

@[simp] theorem upd_self (s : Sys P) (b : Ptr) (f : Buf P → Buf P) : (s.upd b f).buf b = f (s.buf b) :=
  update_self ..

theorem upd_of_ne (s : Sys P) (f : Buf P → Buf P) (h : c ≠ b) : (s.upd b f).buf c = s.buf c :=
  update_of_ne h ..

/-! ### Data and flags -/

/-- The buffer is written to the disk. -/
def flush (s : Sys P) (b : Ptr) : Sys P :=
  {s.upd b fun q => {q with dirty := false, valid := true} with
    disk := update s.disk (s.buf b).blockno (s.buf b).data}

/-- The buffer is read from the disk. -/
def load (s : Sys P) (b : Ptr) : Sys P :=
  s.upd b fun q => {q with data := s.disk q.blockno, valid := true}

/-- The holder of the buffer changes its data. -/
def modify (s : Sys P) (b : Ptr) (data : Block) : Sys P :=
  {s.upd b fun q => {q with data := data} with changed := update s.changed b true}

def mark (s : Sys P) (b : Ptr) : Sys P := s.upd b fun q => {q with dirty := true}

/-- The data of the buffer is now what the block holds. -/
def store (s : Sys P) (b : Ptr) : Sys P :=
  {s with
    changed := update s.changed b false
    latest := update s.latest (s.buf b).blockno (s.buf b).data}

def log_write (s : Sys P) (b : Ptr) : Sys P := (s.mark b).store b

theorem modify_buf (s : Sys P) (b : Ptr) (data : Block) :
    (s.modify b data).buf = (s.upd b fun q => {q with data := data}).buf := rfl

theorem flush_buf (s : Sys P) (b : Ptr) :
    (s.flush b).buf = (s.upd b fun q => {q with dirty := false, valid := true}).buf := rfl

theorem store_buf (s : Sys P) (b : Ptr) : (s.store b).buf = s.buf := rfl

variable [DecidableEq P]

def goto (s : Sys P) (p : P) (c : Pc) : Sys P := {s with pc := update s.pc p c}

/-! ### `bread` -/

/-- The first loop of `bget`: the buffer of the block, if it is cached. -/
def lookup (s : Sys P) (dev blockno : Nat) : Option Ptr :=
  (s.links.forward NBUF none).find? fun b => (s.buf b).dev = dev ∧ (s.buf b).blockno = blockno

/-- The second loop of `bget`: the least recently used buffer that may be recycled. -/
def victim (s : Sys P) : Option Ptr :=
  (s.links.backward NBUF none).find? fun b => (s.buf b).refcnt = 0 ∧ (s.buf b).dirty = false

/-- `bget` takes a reference to the buffer of the block. -/
def share (s : Sys P) (p : P) (blockno : Nat) (b : Ptr) : Sys P :=
  (s.upd b fun q => {q with refcnt := q.refcnt + 1}).goto p (.wants blockno b)

/-- `bget` makes the buffer one of the block. -/
def recycle (s : Sys P) (p : P) (dev blockno : Nat) (b : Ptr) : Sys P :=
  (s.upd b fun q => {q with dev := dev, blockno := blockno, valid := false, dirty := false, refcnt := 1}).goto p
    (.wants blockno b)

/-- The section of `bget` under `bcache.lock`; no answer is `panic("bget: no buffers")`. -/
def bget (s : Sys P) (p : P) (dev blockno : Nat) : Option (Sys P) :=
  match s.lookup dev blockno with
  | some b => some (s.share p blockno b)
  | none => s.victim.map fun b => s.recycle p dev blockno b

/-- `acquiresleep` returns. -/
def acquire (s : Sys P) (p : P) (n : Nat) (b : Ptr) : Sys P :=
  (s.upd b fun q => {q with lock := some p}).goto p (.locked n b)

/-- `bread` returns the buffer. -/
def give (s : Sys P) (p : P) (b : Ptr) : Sys P :=
  {s.goto p .out with hand := update s.hand p (b :: s.hand p)}

/-! ### `iderw`, `bwrite` and `brelse` -/

/-- `iderw`, called by `p`, on a disk of `disksize` blocks. -/
def iderw (disksize : Nat) (s : Sys P) (p : P) (b : Ptr) : Option (Sys P) :=
  if (s.buf b).lock ≠ some p then none
  else if (s.buf b).valid = true ∧ (s.buf b).dirty = false then none
  else if (s.buf b).dev ≠ 1 then none
  else if disksize ≤ (s.buf b).blockno then none
  else if (s.buf b).dirty then some (s.flush b)
  else some (s.load b)

def bwrite (disksize : Nat) (s : Sys P) (p : P) (b : Ptr) : Option (Sys P) :=
  (iderw disksize (s.mark b) p b).map fun t => t.store b

/-- `brelse` up to `releasesleep`. -/
def brelse (s : Sys P) (p : P) (b : Ptr) : Sys P :=
  {(s.upd b fun q => {q with lock := none}).goto p (.putting b) with
    hand := update s.hand p ((s.hand p).erase b)}

/-- The section of `brelse` under `bcache.lock`. -/
def put (s : Sys P) (p : P) (b : Ptr) : Sys P :=
  let t := (s.upd b fun q => {q with refcnt := q.refcnt - 1}).goto p .out
  if (t.buf b).refcnt = 0 then {t with links := (t.links.unlink b).insert b} else t

theorem share_buf (s : Sys P) (p : P) (n : Nat) (b : Ptr) :
    (s.share p n b).buf = (s.upd b fun q => {q with refcnt := q.refcnt + 1}).buf := rfl

theorem recycle_buf (s : Sys P) (p : P) (dev n : Nat) (b : Ptr) : (s.recycle p dev n b).buf =
    (s.upd b fun q => {q with dev := dev, blockno := n, valid := false, dirty := false, refcnt := 1}).buf := rfl

theorem acquire_buf (s : Sys P) (p : P) (n : Nat) (b : Ptr) :
    (s.acquire p n b).buf = (s.upd b fun q => {q with lock := some p}).buf := rfl

theorem brelse_buf (s : Sys P) (p : P) (b : Ptr) :
    (s.brelse p b).buf = (s.upd b fun q => {q with lock := none}).buf := rfl

theorem put_buf (s : Sys P) (p : P) (b : Ptr) :
    (s.put p b).buf = (s.upd b fun q => {q with refcnt := q.refcnt - 1}).buf := by
  rw [put]
  split <;> rfl

end Sys

variable [DecidableEq P]

inductive Action (P : Type) where
  | bread (p : P) (n : Nat)
  /-- `acquiresleep` at the end of `bget` returns. -/
  | acquire (p : P)
  /-- The rest of `bread`. -/
  | fetch (p : P)
  | modify (p : P) (b : Ptr) (data : Block)
  | bwrite (p : P) (b : Ptr)
  | log_write (p : P) (b : Ptr)
  | brelse (p : P) (b : Ptr)
  /-- The rest of `brelse`. -/
  | put (p : P)

/-- The process has the buffer, and is not in the code of the cache. -/
def Sys.Has (s : Sys P) (p : P) (b : Ptr) : Prop := s.pc p = .out ∧ b ∈ s.hand p

instance (s : Sys P) (p : P) (b : Ptr) : Decidable (s.Has p b) := inferInstanceAs (Decidable (_ ∧ _))

def step (disksize : Nat) (s : Sys P) : Action P → Option (Sys P)
  | .bread p n => if s.pc p = .out then s.bget p ROOTDEV n else none
  | .acquire p =>
    match s.pc p with
    | .wants n b => if (s.buf b).lock = none then some (s.acquire p n b) else none
    | _ => none
  | .fetch p =>
    match s.pc p with
    | .locked _ b => (if (s.buf b).valid then some s else s.iderw disksize p b).map fun t => t.give p b
    | _ => none
  | .modify p b data => if s.Has p b then some (s.modify b data) else none
  | .bwrite p b => if s.Has p b then s.bwrite disksize p b else none
  | .log_write p b => if s.Has p b then some (s.log_write b) else none
  | .brelse p b => if s.Has p b ∧ s.changed b = false then some (s.brelse p b) else none
  | .put p =>
    match s.pc p with
    | .putting b => some (s.put p b)
    | _ => none

/-- `binit`: the links of an empty list, and each buffer put in at the front. -/
def binit : Links Ptr := (List.finRange NBUF).foldl Links.insert ⟨fun _ => none, fun _ => none⟩

/-- The cache after `binit`, before the first call. -/
def Sys.boot (disk : Disk) : Sys P where
  buf _ := ⟨false, false, 0, 0, none, 0, Bytes.zero⟩
  links := binit
  disk := disk
  pc _ := .out
  hand _ := []
  changed _ := false
  latest := disk

/-! ### What a step is -/

variable {disksize : Nat} {s s' : Sys P} {p : P} {b : Ptr} {n : Nat}

theorem of_bread (h : step disksize s (.bread p n) = some s') : s.pc p = .out ∧
    ((∃ b, s.lookup ROOTDEV n = some b ∧ s' = s.share p n b) ∨
      ∃ b, s.lookup ROOTDEV n = none ∧ s.victim = some b ∧ s' = s.recycle p ROOTDEV n b) := by
  simp only [step] at h
  split at h
  case isFalse => cases h
  case isTrue hp =>
    refine ⟨hp, ?_⟩
    rw [Sys.bget] at h
    split at h
    case h_1 b hb => exact .inl ⟨b, hb, (Option.some.inj h).symm⟩
    case h_2 hb =>
      obtain ⟨b, hv, hs⟩ := Option.map_eq_some_iff.mp h
      exact .inr ⟨b, hb, hv, hs.symm⟩

theorem of_acquire (h : step disksize s (.acquire p) = some s') :
    ∃ n b, s.pc p = .wants n b ∧ (s.buf b).lock = none ∧ s' = s.acquire p n b := by
  simp only [step] at h
  split at h
  case h_1 n b hp =>
    split at h
    case isTrue hl => exact ⟨n, b, hp, hl, (Option.some.inj h).symm⟩
    case isFalse => cases h
  case h_2 => cases h

theorem of_iderw (h : s.iderw disksize p b = some s') : (s.buf b).dev = ROOTDEV ∧
    (((s.buf b).dirty = true ∧ s' = s.flush b) ∨
      ((s.buf b).dirty = false ∧ (s.buf b).valid = false ∧ s' = s.load b)) := by
  rw [Sys.iderw] at h
  split at h
  case isTrue => cases h
  split at h
  case isTrue => cases h
  case isFalse hbusy =>
    split at h
    case isTrue => cases h
    case isFalse hdev =>
      split at h
      case isTrue => cases h
      split at h
      case isTrue hd => exact ⟨not_not.mp hdev, .inl ⟨hd, (Option.some.inj h).symm⟩⟩
      case isFalse hd =>
        have hd : (s.buf b).dirty = false := Bool.eq_false_iff.mpr hd
        exact ⟨not_not.mp hdev, .inr ⟨hd, Bool.eq_false_iff.mpr fun hv => hbusy ⟨hv, hd⟩,
          (Option.some.inj h).symm⟩⟩

theorem of_fetch (h : step disksize s (.fetch p) = some s') : ∃ n b, s.pc p = .locked n b ∧
    (((s.buf b).valid = true ∧ s' = s.give p b) ∨
      ((s.buf b).valid = false ∧ ∃ t, s.iderw disksize p b = some t ∧ s' = t.give p b)) := by
  simp only [step] at h
  split at h
  case h_1 n b hp =>
    refine ⟨n, b, hp, ?_⟩
    obtain ⟨t, ht, hs⟩ := Option.map_eq_some_iff.mp h
    split at ht
    case isTrue hv => exact .inl ⟨hv, by rw [← hs, Option.some.inj ht]⟩
    case isFalse hv => exact .inr ⟨Bool.eq_false_iff.mpr hv, t, ht, hs.symm⟩
  case h_2 => cases h

theorem of_modify (h : step disksize s (.modify p b data) = some s') :
    s.Has p b ∧ s' = s.modify b data := by
  simp only [step] at h
  split at h
  case isTrue hh => exact ⟨hh, (Option.some.inj h).symm⟩
  case isFalse => cases h

theorem of_bwrite (h : step disksize s (.bwrite p b) = some s') :
    s.Has p b ∧ s' = ((s.mark b).flush b).store b := by
  simp only [step] at h
  split at h
  case isTrue hh =>
    obtain ⟨t, ht, hs⟩ := Option.map_eq_some_iff.mp h
    obtain ⟨_, ⟨_, rfl⟩ | ⟨hd, _⟩⟩ := of_iderw ht
    · exact ⟨hh, hs.symm⟩
    · rw [Sys.mark, Sys.upd_self] at hd
      cases hd
  case isFalse => cases h

theorem of_log_write (h : step disksize s (.log_write p b) = some s') :
    s.Has p b ∧ s' = s.log_write b := by
  simp only [step] at h
  split at h
  case isTrue hh => exact ⟨hh, (Option.some.inj h).symm⟩
  case isFalse => cases h

theorem of_brelse (h : step disksize s (.brelse p b) = some s') :
    s.Has p b ∧ s.changed b = false ∧ s' = s.brelse p b := by
  simp only [step] at h
  split at h
  case isTrue hh => exact ⟨hh.1, hh.2, (Option.some.inj h).symm⟩
  case isFalse => cases h

theorem of_put (h : step disksize s (.put p) = some s') : ∃ b, s.pc p = .putting b ∧ s' = s.put p b := by
  simp only [step] at h
  split at h
  case h_1 b hp => exact ⟨b, hp, (Option.some.inj h).symm⟩
  case h_2 => cases h

end Xv6.Bio
