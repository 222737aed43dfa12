import Xv6.Param
import Xv6.Lib.Ring
import Xv6.Lib.Machine

/-! The console: `consoleintr` and `consoleread` of `console.c`, with any number of readers.

Each section under `cons.lock` is one step, and each character that `getc` returns is one: an interrupt that brings
several is several steps. The echo and `procdump` are not modelled.

The code keeps one array and three counters that wrap around. What it implements is a `Terminal`: a queue of what has
been entered and not read, from which all readers take, and the line that is being edited. -/
namespace Xv6.Console
open Lib Function List

abbrev INPUT_BUF : Nat := 128

/-- `C(x)`. -/
def C (x : Char) : Byte := BitVec.ofNat 8 (x.toNat - 64)

/-! ### The readers -/

/-- What `consoleintr` and `consoleread` do with `input`. -/
structure Buffer (β : Type) where
  /-- One character, and whether the readers are woken up. -/
  intr : β → Byte → β × Bool
  /-- `input.r == input.w`. -/
  waits : β → Bool
  /-- The character at `input.r`. -/
  head : β → Byte
  /-- `input.r++`. -/
  pop : β → β

variable {β γ κ : Type}

/-- The loop of `consoleread` with `n` bytes to go, until it ends or has to wait: the buffer, the bytes stored, and
whether it has ended. -/
def Buffer.read (B : Buffer β) (target : Nat) : β → Nat → List Byte → β × List Byte × Bool
  | b, 0, dst => (b, dst, true)
  | b, n + 1, dst =>
    if B.waits b then (b, dst, false)
    -- `input.r--` saves the end of file for the next call.
    else if B.head b = C 'D' then (if n + 1 < target then b else B.pop b, dst, true)
    else if B.head b = 10 then (B.pop b, dst ++ [B.head b], true)
    else B.read target (B.pop b) n (dst ++ [B.head b])

/-- Where a process is. -/
inductive Call where
  /-- In `consoleread`, with `dst` stored. -/
  | reading (target : Nat) (dst : List Byte)
  /-- `consoleread` has returned -1, or the bytes stored. -/
  | back (r : Option (List Byte))

structure Sys (β κ : Type) where
  input : β
  call : κ → Call
  asleep : κ → Bool
  killed : κ → Bool

def Sys.start (b : β) : Sys β κ := ⟨b, fun _ => .back none, fun _ => false, fun _ => false⟩

def consoleintr (B : Buffer β) (s : Sys β κ) (c : Byte) : Sys β κ :=
  let r := B.intr s.input c
  {s with input := r.1, asleep := fun p => s.asleep p && !r.2}

variable [DecidableEq κ]

/-- `consoleread`, from `acquire` or from its `sleep` to the next `sleep` or to `release`. -/
def consoleread (B : Buffer β) (s : Sys β κ) (p : κ) (target : Nat) (dst : List Byte) : Sys β κ :=
  let r := B.read target s.input (target - dst.length) dst
  let call := if r.2.2 then .back (some r.2.1) else if s.killed p then .back none else .reading target r.2.1
  {s with input := r.1, call := update s.call p call, asleep := update s.asleep p (!r.2.2 && !s.killed p)}

inductive Action (κ : Type) where
  | consoleintr (c : Byte)
  | consoleread (p : κ) (n : Nat)
  /-- A reader that is not asleep gets the lock, and runs until it gives it up. -/
  | run (p : κ)
  /-- `kill` wakes a process that is asleep; one that is about to sleep it only marks. -/
  | kill (p : κ) (wakes : Bool)

def step (B : Buffer β) (s : Sys β κ) : Action κ → Option (Sys β κ)
  | .consoleintr c => some (consoleintr B s c)
  | .consoleread p n =>
    match s.call p with
    | .reading .. => none
    | .back _ => some {s with call := update s.call p (.reading n [])}
  | .run p =>
    match s.call p, s.asleep p with
    | .reading target dst, false => some (consoleread B s p target dst)
    | _, _ => none
  | .kill p wakes =>
    some {s with killed := update s.killed p true, asleep := update s.asleep p (s.asleep p && !wakes)}

/-! ### The code, and the terminal -/

/-- `input`: the ring from `input.r` to `input.e`, and `input.w`. -/
structure Input extends Ring Byte INPUT_BUF 32 where
  w : BitVec 32

namespace Input

def backspace (i : Input) : Input := {i with toRing := i.erase}

/-- The loop of `C('U')`. -/
def kill (i : Input) : Input :=
  if i.nwrite ≠ i.w ∧ i.last ≠ 10 then i.backspace.kill else i
termination_by (i.nwrite - i.w).toNat
decreasing_by
  show (i.nwrite - 1#32 - i.w).toNat < _
  bv_omega

def intr (i : Input) (c : Byte) : Input × Bool :=
  if c = C 'P' then (i, false)
  else if c = C 'U' then (i.kill, false)
  else if c = C 'H' ∨ c = 0x7f then (if i.nwrite ≠ i.w then i.backspace else i, false)
  else if c ≠ 0 ∧ i.size < INPUT_BUF then
    let c := if c = 13 then 10 else c
    let i := {i with toRing := i.push c}
    if c = 10 ∨ c = C 'D' ∨ i.nwrite = i.nread + BitVec.ofNat 32 INPUT_BUF then ({i with w := i.nwrite}, true)
    else (i, false)
  else (i, false)

end Input

def code : Buffer Input :=
  ⟨Input.intr, fun i => i.nread = i.w, fun i => i.head, fun i => {i with toRing := i.pop}⟩

structure Terminal where
  unread : List Byte
  line : List Byte

namespace Terminal

def length (t : Terminal) : Nat := t.unread.length + t.line.length

def intr (t : Terminal) (c : Byte) : Terminal × Bool :=
  if c = C 'P' then (t, false)
  else if c = C 'U' then ({t with line := []}, false)
  else if c = C 'H' ∨ c = 0x7f then ({t with line := t.line.dropLast}, false)
  else if c ≠ 0 ∧ t.length < INPUT_BUF then
    let c := if c = 13 then 10 else c
    let line := t.line ++ [c]
    if c = 10 ∨ c = C 'D' ∨ t.length + 1 = INPUT_BUF then (⟨t.unread ++ line, []⟩, true)
    else ({t with line}, false)
  else (t, false)

end Terminal

def terminal : Buffer Terminal :=
  ⟨Terminal.intr, fun t => t.unread.isEmpty, fun t => t.unread.headD 0, fun t => {t with unread := t.unread.tail}⟩

/-- The ring holds what has not been read and the line, and is full only without a line. -/
structure Shows (i : Input) (t : Terminal) : Prop where
  contents : i.contents = t.unread ++ t.line
  unread : (i.w - i.nread).toNat = t.unread.length
  fits : t.length ≤ INPUT_BUF
  full : t.length = INPUT_BUF → t.line = []
  open_line : 10 ∉ t.line

namespace Shows
variable {i : Input} {t : Terminal} {c : Byte}

theorem size (h : Shows i t) : i.size = t.unread.length + t.line.length := by
  rw [← Ring.length_contents, h.contents, length_append]

theorem at_end (h : Shows i t) : i.nwrite = i.w ↔ t.line = [] := by
  have hs : (i.nwrite - i.nread).toNat = t.unread.length + t.line.length := h.size
  have hu := h.unread
  rw [← length_eq_zero_iff]
  constructor
  · intro he
    rw [he] at hs
    omega
  · intro he
    have heq : i.nwrite - i.nread = i.w - i.nread := BitVec.eq_of_toNat_eq (by omega)
    bv_omega

theorem backspace (h : Shows i t) (hne : i.nwrite ≠ i.w) :
    Shows i.backspace {t with line := t.line.dropLast} ∧ i.last ∈ t.line := by
  have hl : t.line ≠ [] := fun he => hne (h.at_end.mpr he)
  have hpos := length_pos_iff.mpr hl
  have hsize := h.size
  have hfits : t.unread.length + t.line.length ≤ INPUT_BUF := h.fits
  have hc := h.contents
  rw [Ring.contents_erase (by decide) (by decide) (by omega) (by omega), ← dropLast_concat_getLast hl,
    ← append_assoc] at hc
  obtain ⟨hc, hb⟩ := append_inj' hc rfl
  refine ⟨⟨hc, h.unread, ?_, ?_, fun hm => h.open_line ((dropLast_sublist _).subset hm)⟩, ?_⟩
  · simp only [Terminal.length, length_dropLast]
    omega
  · simp only [Terminal.length, length_dropLast]
    omega
  · rw [singleton_inj.mp hb]
    exact getLast_mem hl

/-- A line holds no newline, so it is erased to its start. -/
theorem kill (h : Shows i t) : Shows i.kill {t with line := []} := by
  fun_induction Input.kill i generalizing t with
  | case1 i hi ih => exact ih (t := {t with line := t.line.dropLast}) (h.backspace hi.1).1
  | case2 i hi =>
    by_cases he : i.nwrite = i.w
    · rw [← h.at_end.mp he]
      exact h
    · have hlast : i.last = 10 := by_contra fun hl => hi ⟨he, hl⟩
      exact absurd (hlast ▸ (h.backspace he).2) h.open_line

theorem push (h : Shows i t) (hlt : t.length < INPUT_BUF) :
    (i.push c).contents = t.unread ++ (t.line ++ [c]) ∧ (i.push c).size = t.length + 1 := by
  have hc : (i.push c).contents = t.unread ++ (t.line ++ [c]) := by
    rw [Ring.contents_push (by decide) (by decide) (h.size ▸ hlt), h.contents, append_assoc]
  rw [← Ring.length_contents, hc]
  exact ⟨rfl, by simp [Terminal.length, Nat.add_assoc]⟩

theorem enter (h : Shows i t) (hlt : t.length < INPUT_BUF) :
    Shows ⟨i.push c, (i.push c).nwrite⟩ ⟨t.unread ++ (t.line ++ [c]), []⟩ := by
  obtain ⟨hc, hs⟩ := h.push (c := c) hlt
  have hall : (t.unread ++ (t.line ++ [c])).length = t.length + 1 := by rw [← hc, Ring.length_contents, hs]
  refine ⟨by rwa [append_nil], hs.trans hall.symm, ?_, fun _ => rfl, not_mem_nil⟩
  rw [Terminal.length, hall]
  exact hlt

theorem edit (h : Shows i t) (hlt : t.length + 1 < INPUT_BUF) (hc : c ≠ 10) :
    Shows ⟨i.push c, i.w⟩ ⟨t.unread, t.line ++ [c]⟩ := by
  have hmore : Terminal.length ⟨t.unread, t.line ++ [c]⟩ = t.length + 1 := by simp [Terminal.length, Nat.add_assoc]
  refine ⟨(h.push (by omega)).1, h.unread, by omega, fun hf => by omega, ?_⟩
  rw [mem_append, mem_singleton]
  exact fun hm => hm.elim h.open_line fun he => hc he.symm

theorem intr (h : Shows i t) (c : Byte) :
    Shows (i.intr c).1 (t.intr c).1 ∧ (i.intr c).2 = (t.intr c).2 := by
  have hsize : i.size = t.length := h.size
  unfold Input.intr Terminal.intr
  by_cases hP : c = C 'P'
  · simp only [if_pos hP, and_true]
    exact h
  by_cases hU : c = C 'U'
  · simp only [if_neg hP, if_pos hU, and_true]
    exact h.kill
  by_cases hH : c = C 'H' ∨ c = 0x7f
  · simp only [if_neg hP, if_neg hU, if_pos hH, and_true]
    by_cases he : i.nwrite = i.w
    · rw [if_neg (not_not.mpr he), h.at_end.mp he, dropLast_nil, ← h.at_end.mp he]
      exact h
    · rw [if_pos he]
      exact (h.backspace he).1
  simp only [if_neg hP, if_neg hU, if_neg hH, hsize]
  by_cases hlt : c ≠ 0 ∧ t.length < INPUT_BUF
  · rw [if_pos hlt, if_pos hlt]
    generalize (if c = 13 then 10 else c) = c
    simp only [← Ring.size_eq_cap (show INPUT_BUF < 2 ^ 32 by decide), (h.push hlt.2).2]
    by_cases hw : c = 10 ∨ c = C 'D' ∨ t.length + 1 = INPUT_BUF
    · rw [if_pos hw, if_pos hw]
      exact ⟨h.enter hlt.2, rfl⟩
    · rw [if_neg hw, if_neg hw]
      rw [not_or, not_or] at hw
      exact ⟨h.edit (by omega) hw.1, rfl⟩
  · rw [if_neg hlt, if_neg hlt]
    exact ⟨h, rfl⟩

theorem waits (h : Shows i t) : code.waits i = terminal.waits t := by
  have hu := h.unread
  rw [Bool.eq_iff_iff, show terminal.waits t = t.unread.isEmpty from rfl, List.isEmpty_iff, ← length_eq_zero_iff,
    ← hu]
  refine decide_eq_true_iff.trans ⟨fun he => ?_, fun he => ?_⟩
  · rw [he, BitVec.sub_self]
    rfl
  · bv_omega

theorem pop (h : Shows i t) (hw : code.waits i = false) :
    Shows (code.pop i) (terminal.pop t) ∧ code.head i = terminal.head t := by
  obtain ⟨unread, line⟩ := t
  cases unread with
  | nil => simp [h.waits, terminal] at hw
  | cons b rest =>
    have hsize := h.size
    have hfits := h.fits
    have hu := h.unread
    have hc := h.contents
    simp only [Terminal.length, length_cons] at hsize hfits hu
    rw [Ring.contents_pop (by decide) (by omega), cons_append] at hc
    obtain ⟨hb, hc⟩ := cons.inj hc
    refine ⟨⟨hc, ?_, ?_, ?_, h.open_line⟩, hb⟩
    · show (i.w - (i.nread + 1#32)).toNat = rest.length
      bv_omega
    · show rest.length + line.length ≤ _
      omega
    · intro hf
      have : rest.length + line.length = _ := hf
      omega

end Shows

/-! ### Readers -/

variable {i : Input} {t : Terminal}

theorem read_shows (h : Shows i t) (target n : Nat) (dst : List Byte) :
    Shows (code.read target i n dst).1 (terminal.read target t n dst).1 ∧
      (code.read target i n dst).2 = (terminal.read target t n dst).2 := by
  induction n generalizing i t dst with
  | zero => exact ⟨h, rfl⟩
  | succ n ih =>
    unfold Buffer.read
    rw [← h.waits]
    cases hw : code.waits i with
    | true => exact ⟨h, rfl⟩
    | false =>
      obtain ⟨hpop, hhead⟩ := h.pop hw
      simp only [← hhead, Bool.false_eq_true, if_false]
      by_cases hD : code.head i = C 'D'
      · simp only [if_pos hD, and_true]
        by_cases hn : n + 1 < target
        · rwa [if_pos hn, if_pos hn]
        · rwa [if_neg hn, if_neg hn]
      by_cases hN : code.head i = 10
      · simp only [if_neg hD, if_pos hN, and_true]
        exact hpop
      · simp only [if_neg hD, if_neg hN]
        exact ih hpop _

theorem read_of_waits {B : Buffer β} {b : β} (h : B.waits b = true) (target n : Nat) (dst : List Byte) :
    (B.read target b n dst).1 = b := by
  cases n with
  | zero => rfl
  | succ n => rw [Buffer.read, if_pos h]

theorem waits_read {B : Buffer β} {b : β} {target n : Nat} {dst : List Byte}
    (h : (B.read target b n dst).2.2 = false) : B.waits (B.read target b n dst).1 = true := by
  induction n generalizing b dst with
  | zero => cases h
  | succ n ih =>
    unfold Buffer.read at h ⊢
    split_ifs at h ⊢ with hw
    · exact hw
    · exact ih h

theorem unread_intr {c : Byte} (h : (t.intr c).2 = false) : (t.intr c).1.unread = t.unread := by
  unfold Terminal.intr at h ⊢
  dsimp only at h ⊢
  split_ifs at h ⊢ <;> rfl

/-- The same readers, on another buffer. -/
def Sys.on (s : Sys β κ) (b : γ) : Sys γ κ := ⟨b, s.call, s.asleep, s.killed⟩

/-- The readers are the same, the code shows the terminal, and nobody sleeps while there is something to read. -/
def Agrees (s : Sys Input κ) (u : Sys Terminal κ) : Prop :=
  ∃ t, u = s.on t ∧ Shows s.input t ∧ ∀ p, s.asleep p = true → t.unread = []

theorem step_agrees {s : Sys Input κ} {u : Sys Terminal κ} (a : Action κ) (h : Agrees s u) :
    Option.Rel Agrees (step code s a) (step terminal u a) := by
  obtain ⟨t, rfl, hshows, hawake⟩ := h
  cases a with
  | consoleintr c =>
    obtain ⟨hshows, hw⟩ := hshows.intr c
    refine .some ⟨_, ?_, hshows, fun p hp => ?_⟩
    · simp only [consoleintr, Sys.on, code, terminal, hw]
    · simp only [consoleintr, code, hw, Bool.and_eq_true, Bool.not_eq_true'] at hp
      rw [unread_intr hp.2, hawake p hp.1]
  | consoleread p n =>
    cases hc : s.call p with
    | reading target dst =>
      simp only [step, Sys.on, hc]
      exact .none
    | back r =>
      simp only [step, Sys.on, hc]
      exact .some ⟨t, rfl, hshows, hawake⟩
  | run p =>
    simp only [step, Sys.on]
    split
    · rename_i target dst hc ha
      obtain ⟨hshows, he⟩ := read_shows hshows target (target - dst.length) dst
      refine .some ⟨_, by simp only [Sys.on, consoleread, ← he], hshows, fun q hq => ?_⟩
      by_cases hqp : q = p
      · rw [hqp] at hq
        simp only [consoleread, update_self, he, Bool.and_eq_true, Bool.not_eq_true'] at hq
        exact List.isEmpty_iff.mp (waits_read hq.1)
      · have hold := hawake q (by simpa [consoleread, hqp] using hq)
        rw [read_of_waits (List.isEmpty_iff.mpr hold), hold]
    · exact .none
  | kill p wakes =>
    refine .some ⟨t, rfl, hshows, fun q hq => hawake q ?_⟩
    by_cases he : q = p
    · simp only [he, update_self, Bool.and_eq_true] at hq ⊢
      exact hq.1
    · simpa [he] using hq

/-- **Whatever is typed and whoever reads, in any order: the code does what the terminal does, its array never
overflows, and nobody sleeps while something entered is unread.** The counters may start, and wrap, anywhere. -/
theorem console_refines {κ : Type} [DecidableEq κ] (buf : Nat → Byte) (r : BitVec 32) (as : List (Action κ)) :
    Option.Rel Agrees (run (step code) (Sys.start ⟨⟨buf, r, r⟩, r⟩) as)
      (run (step terminal) (Sys.start ⟨[], []⟩) as) := by
  have hstart : Shows ⟨⟨buf, r, r⟩, r⟩ ⟨[], []⟩ := by
    refine ⟨(Ring.contents_eq_nil _).mpr rfl, ?_, by decide, by decide, not_mem_nil⟩
    rw [BitVec.sub_self]
    rfl
  exact run_rel (fun _ _ a h => step_agrees a h) ⟨_, rfl, hstart, fun _ hp => absurd hp Bool.false_ne_true⟩ as

end Xv6.Console
