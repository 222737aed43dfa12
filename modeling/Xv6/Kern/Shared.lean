import Xv6.Kern.State
import Xv6.Fs.Ownership

/-! Writers that share one `struct file`: `filewrite` on an inode.

The processes of `P` have the file `f` open and write to it. A call of `filewrite` cuts what
it writes into chunks, and for each chunk it takes three steps: `begin_op`, the section
between `ilock` and `iunlock`, and `end_op`. Between two steps the others take theirs, and
so does the rest of the kernel (`other`). What a call would sleep for it waits for, and a
step at which the kernel panics is none. -/
namespace Xv6.Kern.Shared
open Lib Fs Function List

/-! ### Steps -/

/-- The most that one transaction writes: `((MAXOPBLOCKS-1-1-2) / 2) * 512`. -/
def maxBytes : Nat := (MAXOPBLOCKS - 1 - 1 - 2) / 2 * 512

theorem maxBytes_pos : 0 < maxBytes := by decide

/-- The arguments of `filewrite`: the bytes at `addr`, and `n`. -/
structure Args where
  addr : Nat → Byte
  n : Int

namespace Args
variable (a : Args)

/-- What the call is to write. -/
def bytes : List Byte := (List.range a.n.toNat).map a.addr

/-- `n1`, with `i` bytes written. -/
def n1 (i : Nat) : Nat := min (a.n - i).toNat maxBytes

/-- The `n1` bytes at `addr + i`. -/
def chunk (i : Nat) : List Byte := (List.range (a.n1 i)).map fun k => a.addr (i + k)

end Args

/-- Where a process is in `filewrite`, with the `i` bytes that it has written. -/
inductive Pc where
  | out
  /-- Before `begin_op`. -/
  | loop (a : Args) (i : Nat)
  /-- After `begin_op`. -/
  | begun (a : Args) (i : Nat)
  /-- After `iunlock`, with the answer of `writei`. -/
  | wrote (a : Args) (i : Nat) (r : Option Nat)

variable {P : Type}

structure Sys (P : Type) where
  fs : State
  f : File
  pc : P → Pc
  /-- The chunks written, in the order of their sections. -/
  chunks : List (P × List Byte)
  /-- The calls that have returned, and their answers. -/
  returned : List (P × Args × Int)

/-- The section of `filewrite` between `ilock` and `iunlock`, but for `f->off`. -/
def writeLocked (sb : Superblock) (ip : Ptr) (src : List Byte) (off : Nat) : M (Option Nat) := do
  ilock sb ip
  let r ← writei sb ip src off
  iunlock ip
  pure r

inductive Action (P : Type) where
  | filewrite (p : P) (a : Args)
  | begin_op (p : P)
  | locked (p : P)
  | end_op (p : P)
  /-- The rest of the kernel. -/
  | other (t : State)

section Steps
variable [DecidableEq P]

namespace Sys
variable (s : Sys P) (p : P)

def goto (c : Pc) : Sys P := {s with pc := update s.pc p c}

/-- The call returns `r`. -/
def ret (a : Args) (r : Int) : Sys P := {s.goto p .out with returned := s.returned ++ [(p, a, r)]}

/-- The test of the loop, and what follows the loop. -/
def test (a : Args) (i : Nat) : Sys P :=
  if (i : Int) < a.n then s.goto p (.loop a i) else s.ret p a (if (i : Int) = a.n then a.n else -1)

/-- `f->off` after the section, and the chunk that was written. -/
def advance (src : List Byte) : Option Nat → Sys P
  | none => s
  | some r => {s with
      f := {s.f with off := if 0 < r then (s.f.off + r) % 2 ^ 32 else s.f.off}
      chunks := s.chunks ++ [(p, src)]}

end Sys

def step (sb : Superblock) (s : Sys P) : Action P → Option (Sys P)
  | .filewrite p a =>
    match s.pc p with
    | .out => some (if s.f.writable = false then s.ret p a (-1) else s.test p a 0)
    | _ => none
  | .begin_op p =>
    match s.pc p, Fs.begin_op s.fs with
    | .loop a i, .ok (_, t) => some ({s with fs := t}.goto p (.begun a i))
    | _, _ => none
  | .locked p =>
    match s.pc p with
    | .begun a i =>
      match writeLocked sb s.f.ip (a.chunk i) s.f.off s.fs with
      | .ok (r, t) => some (({s with fs := t}.advance p (a.chunk i) r).goto p (.wrote a i r))
      | .error _ => none
    | _ => none
  | .end_op p =>
    match s.pc p, Fs.end_op s.fs with
    | .wrote a i none, .ok (_, t) => some ({s with fs := t}.ret p a (if (i : Int) = a.n then a.n else -1))
    | .wrote a i (some r), .ok (_, t) =>
      -- otherwise "short filewrite"
      if r = a.n1 i then some ({s with fs := t}.test p a (i + r)) else none
    | _, _ => none
  | .other t => some {s with fs := t}

section Inversion
variable {sb : Superblock} {s s' : Sys P} {p : P} {a : Args}

theorem of_filewrite (h : step sb s (.filewrite p a) = some s') :
    s.pc p = .out ∧ (if s.f.writable = false then s.ret p a (-1) else s.test p a 0) = s' := by
  rw [step] at h
  split at h
  · exact ⟨‹_›, Option.some.inj h⟩
  · cases h

theorem of_begin_op (h : step sb s (.begin_op p) = some s') : ∃ a i t, s.pc p = .loop a i ∧
    Fs.begin_op s.fs = .ok ((), t) ∧ {s with fs := t}.goto p (.begun a i) = s' := by
  rw [step] at h
  split at h
  · exact ⟨_, _, _, ‹_›, ‹_›, Option.some.inj h⟩
  · cases h

theorem of_locked (h : step sb s (.locked p) = some s') : ∃ a i r t, s.pc p = .begun a i ∧
    writeLocked sb s.f.ip (a.chunk i) s.f.off s.fs = .ok (r, t) ∧
    ({s with fs := t}.advance p (a.chunk i) r).goto p (.wrote a i r) = s' := by
  rw [step] at h
  split at h
  · split at h
    · exact ⟨_, _, _, _, ‹_›, ‹_›, Option.some.inj h⟩
    · cases h
  · cases h

theorem of_end_op (h : step sb s (.end_op p) = some s') : ∃ a i r t, s.pc p = .wrote a i r ∧
    Fs.end_op s.fs = .ok ((), t) ∧
    ((r = none ∧ {s with fs := t}.ret p a (if (i : Int) = a.n then a.n else -1) = s') ∨
      (r = some (a.n1 i) ∧ {s with fs := t}.test p a (i + a.n1 i) = s')) := by
  rw [step] at h
  split at h
  · exact ⟨_, _, _, _, ‹_›, ‹_›, .inl ⟨rfl, Option.some.inj h⟩⟩
  · split at h
    · rename_i hr
      exact ⟨_, _, _, _, ‹_›, ‹_›, .inr ⟨congrArg some hr, hr ▸ Option.some.inj h⟩⟩
    · cases h
  · cases h

end Inversion

end Steps

/-! ### The section -/

section Section
variable {sb : Superblock} {s : State} {ip : Ptr} {i off : Nat} {src : List Byte}

/-- The section writes all of `src` at `off`, or refuses and changes no file. -/
theorem writeLocked_runs (L : Layout sb) (hg : Good sb s) (hp : Points s ip i)
    (ht : (nodes sb s i).type = T_FILE) (hoff : off < 2 ^ 32) (hn : src.length < 2 ^ 32) :
    Runs (writeLocked sb ip src off) s
      (fun r t => Good sb t ∧ Points t ip i ∧
        ((r = none ∧ nodes sb t = nodes sb s) ∨
          (r = some src.length ∧ WriteRange (nodes sb s i).data.length off src.length ∧
            nodes sb t = update (nodes sb s) i ((nodes sb s i).write off src))))
      fun _ => True := by
  refine Runs.bind ((ilock_runs L hg hp).stops fun _ _ => trivial)
    fun _ s₁ ⟨hg₁, hq₁, hk₁, _, _, hr₁⟩ => ?_
  have hp₁ := hk₁ ip i hp
  have hri : refs s₁ i = (refs s i).hold := by rw [hr₁, update_self]
  have hv : (s₁.icache ip).valid = true := by rw [hg₁.valid_eq hp₁, hri]; rfl
  have hdev : (nodes sb s₁ i).type ≠ T_DEV := by
    rw [hq₁.nodes, ht]
    decide
  refine Runs.bind ((writei_runs L hg₁ hp₁ hv hdev hoff hn).stops fun _ _ => trivial)
    fun r s₂ ⟨hin, hbad⟩ => ?_
  -- what is known before `iunlock`, whether the range was good or not
  have hmid : Good sb s₂ ∧ Points s₂ ip i ∧ (refs s₂ i).locked = true ∧
      ((r = none ∧ nodes sb s₂ = nodes sb s) ∨
        (r = some src.length ∧ WriteRange (nodes sb s i).data.length off src.length ∧
          nodes sb s₂ = update (nodes sb s) i ((nodes sb s i).write off src))) := by
    rw [hq₁.nodes] at hin hbad
    by_cases hw : WriteRange (nodes sb s i).data.length off src.length
    · obtain ⟨hr, hg₂, hsame, hn₂, _⟩ := hin hw
      refine ⟨hg₂, hsame.points.mpr hp₁, ?_, .inr ⟨hr, hw, hn₂⟩⟩
      rw [hsame.refs_eq, hri]
      rfl
    · obtain ⟨hr, rfl⟩ := hbad hw
      refine ⟨hg₁, hp₁, ?_, .inl ⟨hr, hq₁.nodes⟩⟩
      rw [hri]
      rfl
  obtain ⟨hg₂, hp₂, hl, hres⟩ := hmid
  refine Runs.bind (iunlock_runs hg₂ hp₂ hl) fun _ t ⟨hgt, hqt, hkt, _⟩ => Runs.pure ?_
  refine ⟨hgt, hkt ip i hp₂, ?_⟩
  rw [hqt.nodes]
  exact hres

end Section

/-! ### Chunks -/

/-- Bytes cut into chunks. -/
def pieces (l : List Byte) : List (List Byte) :=
  if l = [] then [] else l.take maxBytes :: pieces (l.drop maxBytes)
termination_by l.length
decreasing_by
  have := List.length_pos_iff.mpr ‹_›
  have := maxBytes_pos
  rw [List.length_drop]
  omega

theorem pieces_nil : pieces [] = [] := by
  rw [pieces, if_pos rfl]

namespace Args
variable (a : Args) (i : Nat)

theorem length_bytes : a.bytes.length = a.n.toNat := by
  rw [bytes, length_map, length_range]

theorem length_chunk : (a.chunk i).length = a.n1 i := by
  rw [chunk, length_map, length_range]

theorem chunk_lt : (a.chunk i).length < 2 ^ 32 := by
  rw [length_chunk, n1]
  exact lt_of_le_of_lt (Nat.min_le_right ..) (by decide)

theorem chunk_eq : a.chunk i = (a.bytes.drop i).take maxBytes := by
  refine ext_getElem ?_ fun k _ _ => ?_
  · rw [length_chunk, length_take, length_drop, length_bytes, n1]
    omega
  · simp only [chunk, bytes, getElem_map, getElem_range, getElem_take, getElem_drop]

variable {i}

theorem pieces_drop (hi : (i : Int) < a.n) :
    pieces (a.bytes.drop i) = a.chunk i :: pieces (a.bytes.drop (i + a.n1 i)) := by
  have hne : a.bytes.drop i ≠ [] := fun h => by
    rw [drop_eq_nil_iff, length_bytes] at h
    omega
  rw [pieces, if_neg hne, ← chunk_eq, drop_drop]
  refine congrArg (a.chunk i :: pieces ·) ?_
  -- a short chunk is the last
  by_cases hm : maxBytes ≤ (a.n - i).toNat
  · rw [n1, Nat.min_eq_right hm]
  · rw [drop_eq_nil_of_le, drop_eq_nil_of_le] <;> rw [length_bytes]
    · rw [n1]
      omega
    · omega

end Args

/-! ### The calls -/

/-- The chunks of the call. -/
def Pc.all : Pc → List (List Byte)
  | .out => []
  | .loop a _ | .begun a _ | .wrote a _ _ => pieces a.bytes

/-- The chunks that the call has not written yet. -/
def Pc.todo : Pc → List (List Byte)
  | .out => []
  | .loop a i | .begun a i => pieces (a.bytes.drop i)
  | .wrote a i r => pieces (a.bytes.drop (i + r.getD 0))

/-- A call in the loop has bytes left to write. -/
def Pc.Inside : Pc → Prop
  | .out => True
  | .loop a i | .begun a i | .wrote a i _ => (i : Int) < a.n

section Calls
variable [DecidableEq P]

namespace Sys
variable (s : Sys P) (p : P)

/-- The chunks of one process. -/
def chunksOf : List (List Byte) := (s.chunks.filter fun c => c.1 = p).map (·.2)

/-- What the calls of one process that have returned were to write. -/
def callsOf : List (List Byte) := (s.returned.filter fun c => c.1 = p).map (·.2.1.bytes)

end Sys

theorem own_append {β γ : Type} (l : List (P × β)) (x : P × β) (g : P × β → γ) (q : P) :
    ((l ++ [x]).filter fun c => c.1 = q).map g =
      (l.filter fun c => c.1 = q).map g ++ if q = x.1 then [g x] else [] := by
  rw [filter_append, map_append]
  by_cases hx : q = x.1
  · simp [hx]
  · simp [hx, Ne.symm hx]

/-- Every call that has returned has answered its `n`. -/
def Sys.Succeeded (s : Sys P) : Prop := ∀ c ∈ s.returned, c.2.2 = c.2.1.n

/-- The chunks of each process are those of its calls, in order, up to where it is. -/
structure Calls (s : Sys P) : Prop where
  inside : ∀ p, (s.pc p).Inside
  own : s.Succeeded → ∀ p, s.chunksOf p ++ (s.pc p).todo = (s.callsOf p).flatMap pieces ++ (s.pc p).all

namespace Calls
variable {s t : Sys P} {p : P} {a : Args} (h : Calls s)
include h

theorem goto (hpc : t.pc = update s.pc p c) (hchunks : t.chunks = s.chunks)
    (hreturned : t.returned = s.returned) (hin : c.Inside)
    (hc : ∀ l m, l ++ (s.pc p).todo = m ++ (s.pc p).all → l ++ c.todo = m ++ c.all) : Calls t := by
  refine ⟨fun q => ?_, fun hs q => ?_⟩
  · rw [hpc, update_apply]
    split
    · exact hin
    · exact h.inside q
  · rw [Sys.Succeeded, hreturned] at hs
    rw [Sys.chunksOf, Sys.callsOf, hchunks, hreturned, hpc, update_apply]
    split
    · rename_i hq
      rw [hq]
      exact hc _ _ (h.own hs p)
    · exact h.own hs q

theorem ret (hpc : t.pc = s.pc) (hchunks : t.chunks = s.chunks)
    (hreturned : t.returned = s.returned)
    (hr : r = a.n → ∀ l m, l ++ (s.pc p).todo = m ++ (s.pc p).all → l = m ++ pieces a.bytes) :
    Calls (t.ret p a r) := by
  have hpc' : (t.ret p a r).pc = update s.pc p .out := by
    show update t.pc p Pc.out = _
    rw [hpc]
  have hret : (t.ret p a r).returned = s.returned ++ [(p, a, r)] := congrArg (· ++ [(p, a, r)]) hreturned
  refine ⟨fun q => ?_, fun hs q => ?_⟩
  · rw [hpc', update_apply]
    split
    · trivial
    · exact h.inside q
  · rw [Sys.Succeeded, hret] at hs
    have hs' : s.Succeeded := fun c hc => hs c (mem_append_left _ hc)
    have hra : r = a.n := hs (p, a, r) (mem_append_right _ (mem_singleton_self _))
    have hold := h.own hs' q
    have hch : (t.ret p a r).chunksOf q = s.chunksOf q := by
      show (t.chunks.filter _).map _ = _
      rw [hchunks]
      rfl
    rw [Sys.callsOf, hret, hch, hpc', update_apply, own_append, flatMap_append]
    by_cases hq : q = p
    · subst hq
      rw [if_pos rfl, if_pos rfl, flatMap_singleton]
      show s.chunksOf q ++ [] = (s.callsOf q).flatMap pieces ++ pieces a.bytes ++ []
      rw [append_nil, append_nil]
      exact hr hra _ _ hold
    · rw [if_neg hq, if_neg hq, flatMap_nil, append_nil]
      exact hold

theorem test (hpc : t.pc = s.pc) (hchunks : t.chunks = s.chunks)
    (hreturned : t.returned = s.returned)
    (hj : ∀ l m, l ++ (s.pc p).todo = m ++ (s.pc p).all →
      l ++ pieces (a.bytes.drop j) = m ++ pieces a.bytes) : Calls (t.test p a j) := by
  rw [Sys.test]
  split
  · rename_i hlt
    refine h.goto (c := .loop a j) ?_ hchunks hreturned hlt hj
    rw [Sys.goto, hpc]
  · rename_i hle
    refine h.ret hpc hchunks hreturned fun _ l m hlm => ?_
    have := hj l m hlm
    rw [drop_eq_nil_of_le (by rw [a.length_bytes]; omega), pieces_nil, append_nil] at this
    exact this

theorem wrote (hp : s.pc p = .begun a i) (hpc : t.pc = update s.pc p (.wrote a i (some (a.n1 i))))
    (hchunks : t.chunks = s.chunks ++ [(p, a.chunk i)]) (hreturned : t.returned = s.returned) :
    Calls t := by
  have hi : (i : Int) < a.n := by
    have := h.inside p
    rwa [hp] at this
  refine ⟨fun q => ?_, fun hs q => ?_⟩
  · rw [hpc, update_apply]
    split
    · exact hi
    · exact h.inside q
  · rw [Sys.Succeeded, hreturned] at hs
    have hold := h.own hs q
    rw [Sys.chunksOf, Sys.callsOf, hchunks, hreturned, hpc, update_apply, own_append]
    by_cases hq : q = p
    · subst hq
      rw [if_pos rfl, if_pos rfl]
      rw [hp] at hold
      show s.chunksOf q ++ [a.chunk i] ++ pieces (a.bytes.drop (i + a.n1 i)) = _
      rw [append_assoc, singleton_append, ← a.pieces_drop hi]
      exact hold
    · rw [if_neg hq, if_neg hq, append_nil]
      exact hold

theorem step (hn : ∀ src r t, src.length < 2 ^ 32 →
      writeLocked sb s.f.ip src s.f.off s.fs = .ok (some r, t) → r = src.length)
    (hs : step sb s x = some s') : Calls s' := by
  cases x with
  | filewrite p a =>
    obtain ⟨hp, rfl⟩ := of_filewrite hs
    split
    · refine h.ret rfl rfl rfl fun hr l m hlm => ?_
      rw [hp] at hlm
      have hb : a.bytes = [] := by rw [Args.bytes, ← hr]; rfl
      rw [hb, pieces_nil]
      simpa [Pc.todo, Pc.all] using hlm
    · refine h.test rfl rfl rfl fun l m hlm => ?_
      rw [hp] at hlm
      rw [drop_zero, show l = m by simpa [Pc.todo, Pc.all] using hlm]
  | begin_op p =>
    obtain ⟨a, i, t, hp, _, rfl⟩ := of_begin_op hs
    have hi := h.inside p
    rw [hp] at hi
    exact h.goto (c := .begun a i) rfl rfl rfl hi fun l m hlm => by rwa [hp] at hlm
  | locked p =>
    obtain ⟨a, i, r, t, hp, hw, rfl⟩ := of_locked hs
    cases r with
    | none =>
      have hi := h.inside p
      rw [hp] at hi
      exact h.goto (c := .wrote a i none) rfl rfl rfl hi fun l m hlm => by rwa [hp] at hlm
    | some r =>
      rw [hn _ r t (a.chunk_lt i) hw, a.length_chunk]
      exact h.wrote hp rfl rfl rfl
  | end_op p =>
    obtain ⟨a, i, r, t, hp, _, ⟨rfl, rfl⟩ | ⟨rfl, rfl⟩⟩ := of_end_op hs
    · have hi : (i : Int) < a.n := by
        have := h.inside p
        rwa [hp] at this
      refine h.ret rfl rfl rfl fun hr => ?_
      rw [if_neg hi.ne] at hr
      omega
    · refine h.test rfl rfl rfl fun l m hlm => ?_
      rw [hp] at hlm
      exact hlm
  | other t =>
    cases hs
    exact ⟨h.inside, h.own⟩

end Calls

end Calls

/-! ### The file -/

theorem splice_nil (d : List Byte) (o : Nat) : splice d o [] = d := by
  rw [splice, append_nil]
  exact take_append_drop o d

theorem splice_append (h : o ≤ d.length) :
    splice (splice d o a) (o + a.length) b = splice d o (a ++ b) := by
  have hlen : (d.take o ++ a).length = o + a.length := by
    rw [length_append, length_take, Nat.min_eq_left h]
  rw [splice, splice, splice, take_left' hlen, ← drop_drop, drop_left' hlen, drop_drop,
    length_append, Nat.add_assoc, append_assoc (d.take o)]

/-- All that has been written, in the order of the sections. -/
def Sys.written (s : Sys P) : List Byte := s.chunks.flatMap (·.2)

/-- The file is as at the start, with what has been written over it from the offset at the start. -/
structure Holds (sb : Superblock) (i : Nat) (s₀ s : Sys P) : Prop where
  good : Good sb s.fs
  points : Points s.fs s.f.ip i
  type : (nodes sb s.fs i).type = T_FILE
  off : s.f.off = s₀.f.off + s.written.length
  bound : s.f.off < 2 ^ 32
  data : (nodes sb s.fs i).data = splice (nodes sb s₀.fs i).data s₀.f.off s.written
  size : ∀ c ∈ s.chunks, 0 < c.2.length ∧ c.2.length ≤ maxBytes
  /-- Nothing is written past the end of the file. -/
  start : s.written ≠ [] → s₀.f.off ≤ (nodes sb s₀.fs i).data.length

/-- What the rest of the kernel may do: anything that keeps the file system in order, keeps the
inode of the file, and does not write to it. -/
def Others (sb : Superblock) (i : Nat) (s : Sys P) : Action P → Sys P → Prop
  | .other t, _ => Good sb t ∧ Points t s.f.ip i ∧ (nodes sb t i).type = (nodes sb s.fs i).type ∧
    (nodes sb t i).data = (nodes sb s.fs i).data
  | _, _ => True

namespace Holds
variable {sb : Superblock} {i : Nat} {s₀ s t : Sys P} (h : Holds sb i s₀ s)
include h

theorem of_same (hg : Good sb t.fs) (hp : Points t.fs s.f.ip i)
    (ht : (nodes sb t.fs i).type = (nodes sb s.fs i).type)
    (hd : (nodes sb t.fs i).data = (nodes sb s.fs i).data) (hf : t.f = s.f)
    (hc : t.chunks = s.chunks) : Holds sb i s₀ t := by
  have hw : t.written = s.written := by rw [Sys.written, Sys.written, hc]
  exact ⟨hg, hf ▸ hp, ht.trans h.type, by rw [hf, hw]; exact h.off, hf ▸ h.bound,
    by rw [hd, hw]; exact h.data, by rw [hc]; exact h.size, by rw [hw]; exact h.start⟩

theorem of_log (hg : Good sb u) (hd : u.disk = s.fs.disk) (hi : u.icache = s.fs.icache)
    (hfs : t.fs = u) (hf : t.f = s.f) (hc : t.chunks = s.chunks) : Holds sb i s₀ t := by
  have hn : nodes sb t.fs = nodes sb s.fs := by rw [nodes, nodes, hfs, hd]
  refine h.of_same (hfs ▸ hg) ?_ (by rw [hn]) (by rw [hn]) hf hc
  rw [Points, hfs, hi]
  exact h.points

theorem wrote (hg : Good sb t.fs) (hp : Points t.fs s.f.ip i)
    (hsrc : 0 < src.length ∧ src.length ≤ maxBytes)
    (hw : WriteRange (nodes sb s.fs i).data.length s.f.off src.length)
    (hn : nodes sb t.fs = update (nodes sb s.fs) i ((nodes sb s.fs i).write s.f.off src))
    (hf : t.f = {s.f with off := if 0 < src.length then (s.f.off + src.length) % 2 ^ 32 else s.f.off})
    (hc : t.chunks = s.chunks ++ [(p, src)]) : Holds sb i s₀ t := by
  have hwr : t.written = s.written ++ src := by
    rw [Sys.written, hc, flatMap_append, flatMap_singleton]
    rfl
  have hoff : t.f.off = s.f.off + src.length := by
    rw [hf, if_pos hsrc.1]
    exact Nat.mod_eq_of_lt hw.2.1
  have hi : nodes sb t.fs i = (nodes sb s.fs i).write s.f.off src := by rw [hn, update_self]
  -- The first write finds the file as at the start.
  have hstart : s₀.f.off ≤ (nodes sb s₀.fs i).data.length := by
    by_cases hne : s.written = []
    · have hle := hw.1
      rw [h.data, h.off, hne, splice_nil] at hle
      exact hle
    · exact h.start hne
  refine ⟨hg, ?_, ?_, ?_, hoff ▸ hw.2.1, ?_, ?_, fun _ => hstart⟩
  · rw [hf]
    exact hp
  · rw [hi]
    exact h.type
  · rw [hoff, hwr, length_append, h.off, Nat.add_assoc]
  · rw [hi, hwr, ← splice_append hstart, ← h.data, ← h.off]
    rfl
  · rw [hc]
    intro c hmem
    rcases mem_append.mp hmem with hmem | hmem
    · exact h.size c hmem
    · rw [mem_singleton.mp hmem]
      exact hsrc

theorem answers (L : Layout sb) (hsrc : src.length < 2 ^ 32)
    (hx : writeLocked sb s.f.ip src s.f.off s.fs = .ok (some r, u)) : r = src.length := by
  obtain ⟨_, _, ⟨hr, _⟩ | ⟨hr, _⟩⟩ :=
    (writeLocked_runs L h.good h.points h.type h.bound hsrc).of_ok hx
  · cases hr
  · exact Option.some.inj hr

theorem step [DecidableEq P] (L : Layout sb) (hcalls : Calls s) (ho : Others sb i s x t)
    (hs : step sb s x = some t) : Holds sb i s₀ t := by
  cases x with
  | filewrite p a =>
    obtain ⟨_, rfl⟩ := of_filewrite hs
    split
    · exact h.of_same h.good h.points rfl rfl rfl rfl
    · rw [Sys.test]
      split <;> exact h.of_same h.good h.points rfl rfl rfl rfl
  | begin_op p =>
    obtain ⟨a, j, u, _, hu, rfl⟩ := of_begin_op hs
    have hlog : u.disk = s.fs.disk ∧ u.icache = s.fs.icache := by
      refine Runs.of_ok (E := fun _ => True) (x := Fs.begin_op) (Q := fun _ u => u.disk = s.fs.disk ∧
        u.icache = s.fs.icache) ?_ hu
      exact Runs.bind_get (Runs.ite (fun _ => Runs.throw trivial) fun _ => Runs.modify ⟨rfl, rfl⟩)
    exact h.of_log (h.good.begin_op.of_ok hu) hlog.1 hlog.2 rfl rfl rfl
  | locked p =>
    obtain ⟨a, j, r, u, hp, hu, rfl⟩ := of_locked hs
    have hj : (j : Int) < a.n := by
      have := hcalls.inside p
      rwa [hp] at this
    have hsize : 0 < (a.chunk j).length ∧ (a.chunk j).length ≤ maxBytes := by
      have := maxBytes_pos
      rw [a.length_chunk, Args.n1]
      omega
    obtain ⟨hg, hpt, hres⟩ :=
      (writeLocked_runs L h.good h.points h.type h.bound (a.chunk_lt j)).of_ok hu
    rcases hres with ⟨rfl, hn⟩ | ⟨rfl, hw, hn⟩
    · exact h.of_same hg hpt (congrArg (fun n => (n i).type) hn) (congrArg (fun n => (n i).data) hn) rfl rfl
    · exact h.wrote hg hpt hsize hw hn rfl rfl
  | end_op p =>
    obtain ⟨a, j, r, u, _, hu, hret⟩ := of_end_op hs
    have hlog : u.disk = s.fs.disk ∧ u.icache = s.fs.icache := by
      cases hu
      exact ⟨rfl, rfl⟩
    have hgood := h.good.end_op.of_ok hu
    rcases hret with ⟨_, rfl⟩ | ⟨_, rfl⟩
    · exact h.of_log hgood hlog.1 hlog.2 rfl rfl rfl
    · rw [Sys.test]
      split <;> exact h.of_log hgood hlog.1 hlog.2 rfl rfl rfl
  | other u =>
    cases hs
    obtain ⟨hg, hp, ht, hd⟩ := ho
    exact h.of_same hg hp ht hd rfl rfl

end Holds

/-! ### Whole runs -/

section Whole
variable [DecidableEq P] {sb : Superblock} {i : Nat} {s₀ t : Sys P} {xs : List (Action P)}

/-- The file is open on the regular inode `i`, and nobody is writing. -/
structure Start (sb : Superblock) (i : Nat) (s : Sys P) : Prop where
  good : Good sb s.fs
  points : Points s.fs s.f.ip i
  type : (nodes sb s.fs i).type = T_FILE
  off : s.f.off < 2 ^ 32
  pc : ∀ p, s.pc p = .out
  chunks : s.chunks = []
  returned : s.returned = []

omit [DecidableEq P] in
theorem Start.holds (h : Start sb i s₀) : Holds sb i s₀ s₀ := by
  have hw : s₀.written = [] := by rw [Sys.written, h.chunks, flatMap_nil]
  refine ⟨h.good, h.points, h.type, by rw [hw]; rfl, h.off, by rw [hw, splice_nil], ?_, fun hne => absurd hw hne⟩
  rw [h.chunks]
  exact fun c hc => absurd hc not_mem_nil

theorem Start.calls (h : Start sb i s₀) : Calls s₀ := by
  refine ⟨fun p => ?_, fun _ p => ?_⟩
  · rw [h.pc]
    trivial
  · rw [Sys.chunksOf, Sys.callsOf, h.chunks, h.returned, h.pc]
    rfl

/-- **A shared descriptor loses no writes.** Whatever the interleaving, the offset has moved by
the bytes written, and the file holds them from the offset at the start on, chunk after chunk in
the order of the sections; and when every call has answered its `n`, the chunks of each process
are all the chunks of its calls, in order. -/
theorem shared_writes (L : Layout sb) (h : Start sb i s₀) (hr : run (step sb) s₀ xs = some t)
    (ho : Along (step sb) (Others sb i) s₀ xs) :
    t.f.off = s₀.f.off + t.written.length ∧
    ((nodes sb t.fs i).data.drop s₀.f.off).take t.written.length = t.written ∧
    (nodes sb t.fs i).data = splice (nodes sb s₀.fs i).data s₀.f.off t.written ∧
    (∀ c ∈ t.chunks, 0 < c.2.length ∧ c.2.length ≤ maxBytes) ∧
    ((∀ p, t.pc p = .out) → t.Succeeded → ∀ p, t.chunksOf p = (t.callsOf p).flatMap pieces) := by
  have hstep : ∀ s x s', (Holds sb i s₀ s ∧ Calls s) → step sb s x = some s' → Others sb i s x s' →
      Holds sb i s₀ s' ∧ Calls s' := fun s x s' hI hs hx =>
    ⟨hI.1.step L hI.2 hx hs, hI.2.step (fun _ _ _ hsrc hu => hI.1.answers L hsrc hu) hs⟩
  obtain ⟨hh, hc⟩ := Along.keeps hstep ⟨h.holds, h.calls⟩ ho hr
  refine ⟨hh.off, ?_, hh.data, hh.size, fun hout hs p => ?_⟩
  · by_cases hne : t.written = []
    · rw [hne]
      exact take_zero
    · have hlen : ((nodes sb s₀.fs i).data.take s₀.f.off).length = s₀.f.off := by
        rw [length_take, Nat.min_eq_left (hh.start hne)]
      rw [hh.data, splice, append_assoc, drop_left' hlen, take_left' rfl]
  · have := hc.own hs p
    rw [hout p] at this
    simpa [Pc.todo, Pc.all] using this

end Whole

/-- A file open on an empty inode, shared by two processes. -/
def desk : Sys Bool where
  fs := {lone.upd 0 fun ip => {ip with locked := false} with outstanding := 0}
  f := ⟨.FD_INODE, 2, true, true, 0, 0, 0⟩
  pc _ := .out
  chunks := []
  returned := []

theorem start_desk : Start Mkfs.sb 2 desk where
  good := ⟨good_lone.owned, good_lone.solid, fun ip hr hv => by
    have hip : ∀ ip, 0 < (desk.fs.icache ip).ref → ip = 0 := by decide
    rw [hip ip hr]
    exact good_lone.sync 0 (by decide) rfl, by decide, by decide +kernel, by decide⟩
  points := ⟨by decide, rfl⟩
  type := by
    show (node (view Mkfs.sb lone.disk) 2).type = T_FILE
    rw [laid_lone.node, update_self]
  off := by decide
  pc _ := rfl
  chunks := rfl
  returned := rfl

/-- The two write two bytes each; the second section comes before the first call's end. -/
def exchange : List (Action Bool) :=
  [.filewrite false ⟨fun _ => 97, 2⟩, .filewrite true ⟨fun _ => 98, 2⟩, .begin_op false, .begin_op true,
    .locked true, .locked false, .end_op false, .end_op true]

/-- No call is under way. -/
def Pc.isOut : Pc → Bool
  | .out => true
  | _ => false

set_option maxRecDepth 100000 in
theorem exchange_runs : (run (step Mkfs.sb) desk exchange).any (fun t =>
    t.chunks = [(true, [98, 98]), (false, [97, 97])] ∧ (∀ p, (t.pc p).isOut) ∧
      ∀ c ∈ t.returned, c.2.2 = c.2.1.n) = true := by
  decide +kernel

theorem shared_writes_exchange : ∃ t, run (step Mkfs.sb) desk exchange = some t ∧
    t.f.off = 4 ∧ (nodes Mkfs.sb t.fs 2).data.take 4 = [98, 98, 97, 97] ∧
    ∀ p, t.chunksOf p = (t.callsOf p).flatMap pieces := by
  obtain ⟨t, ht, hq⟩ := run_any exchange_runs
  obtain ⟨hchunks, hout, hret⟩ := of_decide_eq_true hq
  have hw : t.written = [98, 98, 97, 97] := by
    rw [Sys.written, hchunks]
    rfl
  have hours : Along (step Mkfs.sb) (Others Mkfs.sb 2) desk exchange := by
    iterate 8 refine fun _ _ => ⟨trivial, ?_⟩
    trivial
  obtain ⟨hoff, hdata, _, _, hown⟩ := shared_writes layout_mkfs start_desk ht hours
  rw [hw] at hoff hdata
  refine ⟨t, ht, hoff, hdata, hown (fun p => ?_) hret⟩
  have := hout p
  cases hp : t.pc p with
  | out => rfl
  | loop | begun | wrote =>
    rw [hp] at this
    cases this

end Xv6.Kern.Shared
