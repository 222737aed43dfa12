import Xv6.Param
import Xv6.Lib.Ring
import Xv6.Lib.Machine

/-! Pipes: `pipewrite`, `piperead` and `pipeclose` of `pipe.c`, by any number of processes.

Each section under `p->lock` is one step. `sleep` gives the lock up and falls asleep in one
step, as `proc.c` does under `ptable.lock`. `kill` takes `ptable.lock` only, so it may come at
any time: also between a process's look at `killed` and its `sleep`, and then nobody wakes the
process it marks.

`P` are the calls of `pipewrite` and `piperead`. A process makes its calls one after the other,
and nothing of a call is left for the next one but the mark of `kill`. -/
namespace Xv6.Pipes
open Lib Function

abbrev PIPESIZE : Nat := 512

/-- `struct pipe`. -/
structure Pipe extends Ring Byte PIPESIZE 32 where
  readopen : Bool
  writeopen : Bool

namespace Pipe

/-- The pipe that `pipealloc` makes, in a page that holds `data`. -/
def alloc (data : Nat → Byte) : Pipe := ⟨⟨data, 0, 0⟩, true, true⟩

def Empty (p : Pipe) : Prop := p.nread = p.nwrite

def Full (p : Pipe) : Prop := p.nwrite = p.nread + BitVec.ofNat 32 PIPESIZE

instance (p : Pipe) : Decidable p.Empty := inferInstanceAs (Decidable (_ = _))
instance (p : Pipe) : Decidable p.Full := inferInstanceAs (Decidable (_ = _))

/-- Is the end open that `pipeclose` would close? -/
def isOpen (p : Pipe) (writable : Bool) : Bool := if writable then p.writeopen else p.readopen

/-- Both ends have been closed: the page is no longer the pipe's. -/
def Freed (p : Pipe) : Prop := p.readopen = false ∧ p.writeopen = false

instance (p : Pipe) : Decidable p.Freed := inferInstanceAs (Decidable (_ ∧ _))

/-- The loop of `pipewrite`, over the bytes that are left, until the ring is full: the pipe, and
how many bytes have been stored. -/
def fill : Pipe → List Byte → Pipe × Nat
  | p, [] => (p, 0)
  | p, b :: rest =>
    if p.Full then (p, 0)
    else
      let r := fill {p with toRing := p.push b} rest
      (r.1, r.2 + 1)

/-- The second loop of `piperead`: the pipe, and the bytes copied out. -/
def drain : Pipe → Nat → Pipe × List Byte
  | p, 0 => (p, [])
  | p, n + 1 =>
    if p.Empty then (p, [])
    else
      let r := drain {p with toRing := p.pop} n
      (r.1, p.head :: r.2)

end Pipe

/-- What a process sleeps on: `&p->nread` or `&p->nwrite`. -/
inductive Chan where
  | nread
  | nwrite
deriving DecidableEq

/-- Where a call is. -/
inductive Call where
  | idle
  /-- In `piperead` of `n` bytes. -/
  | reading (n : Nat)
  /-- In `pipewrite`, with `i` bytes of `addr` stored. -/
  | writing (addr : List Byte) (i : Nat)
  /-- `piperead` has returned -1, or the bytes copied. -/
  | read (n : Nat) (r : Option (List Byte))
  /-- `pipewrite` has returned `r`. -/
  | wrote (addr : List Byte) (i : Nat) (r : Int)
deriving DecidableEq

variable {P : Type} [DecidableEq P]

structure Sys (P : Type) where
  pipe : Pipe
  call : P → Call
  /-- What a process that is SLEEPING sleeps on. -/
  chan : P → Option Chan
  killed : P → Bool
  /-- The bytes stored so far, each with the call that stored it. -/
  stored : List (P × Byte)
  /-- What the calls of `piperead` that did not fail have returned so far. -/
  returned : List (P × List Byte)

namespace Sys

def goto (s : Sys P) (p : P) (c : Call) : Sys P := {s with call := update s.call p c}

@[simp] theorem goto_self (s : Sys P) (p : P) (c : Call) : (s.goto p c).call p = c := update_self ..

def sleep (s : Sys P) (p : P) (chan : Chan) : Sys P :=
  {s with chan := update s.chan p (some chan)}

def wakeup (s : Sys P) (chan : Chan) : Sys P :=
  {s with chan := fun p => if s.chan p = some chan then none else s.chan p}

/-- `pipewrite`, from `acquire` or from its `sleep` to the next `sleep` or to `release`. -/
def pipewrite (s : Sys P) (p : P) (addr : List Byte) (i : Nat) : Sys P :=
  let rest := addr.drop i
  let r := s.pipe.fill rest
  let t := {s with pipe := r.1, stored := s.stored ++ (rest.take r.2).map fun b => (p, b)}
  if i + r.2 < addr.length then
    if s.pipe.readopen = false ∨ s.killed p then t.goto p (.wrote addr (i + r.2) (-1))
    else ((t.wakeup .nread).sleep p .nwrite).goto p (.writing addr (i + r.2))
  else (t.wakeup .nread).goto p (.wrote addr (i + r.2) addr.length)

/-- `piperead`, likewise. -/
def piperead (s : Sys P) (p : P) (n : Nat) : Sys P :=
  if s.pipe.Empty ∧ s.pipe.writeopen then
    if s.killed p then s.goto p (.read n none)
    else s.sleep p .nread
  else
    let r := s.pipe.drain n
    let t := {s with pipe := r.1, returned := s.returned ++ [(p, r.2)]}
    (t.wakeup .nwrite).goto p (.read n (some r.2))

def pipeclose (s : Sys P) (writable : Bool) : Sys P :=
  if writable then {s with pipe := {s.pipe with writeopen := false}}.wakeup .nread
  else {s with pipe := {s.pipe with readopen := false}}.wakeup .nwrite

end Sys

inductive Action (P : Type) where
  | pipewrite (p : P) (addr : List Byte)
  | piperead (p : P) (n : Nat)
  /-- A call that is not asleep gets the lock, and runs until it gives it up. -/
  | run (p : P)
  | pipeclose (writable : Bool)
  | kill (p : P)
  /-- `kill` marks a process that has looked at `killed` and is about to sleep. -/
  | mark (p : P)

def step (s : Sys P) : Action P → Option (Sys P)
  | .pipewrite p addr => if s.call p = .idle then some (s.goto p (.writing addr 0)) else none
  | .piperead p n => if s.call p = .idle then some (s.goto p (.reading n)) else none
  | .run p =>
    if s.chan p = none ∧ ¬ s.pipe.Freed then
      match s.call p with
      | .reading n => some (s.piperead p n)
      | .writing addr i => some (s.pipewrite p addr i)
      | _ => none
    else none
  | .pipeclose writable =>
    if s.pipe.isOpen writable then some (s.pipeclose writable) else none
  | .kill p =>
    some {s with killed := update s.killed p true, chan := update s.chan p none}
  | .mark p => some {s with killed := update s.killed p true}

/-- A new pipe, before the first call. -/
def Sys.start (data : Nat → Byte) : Sys P where
  pipe := .alloc data
  call _ := .idle
  chan _ := none
  killed _ := false
  stored := []
  returned := []

variable {s s' : Sys P} {p : P}

/-! ### What a step is -/

theorem of_pipewrite (h : step s (.pipewrite p addr) = some s') :
    s.call p = .idle ∧ s' = s.goto p (.writing addr 0) := by
  simp only [step] at h
  split at h
  case isTrue hc => exact ⟨hc, (Option.some.inj h).symm⟩
  case isFalse => cases h

theorem of_piperead (h : step s (.piperead p n) = some s') :
    s.call p = .idle ∧ s' = s.goto p (.reading n) := by
  simp only [step] at h
  split at h
  case isTrue hc => exact ⟨hc, (Option.some.inj h).symm⟩
  case isFalse => cases h

theorem of_run (h : step s (.run p) = some s') : s.chan p = none ∧
    ((∃ n, s.call p = .reading n ∧ s' = s.piperead p n) ∨
      ∃ addr i, s.call p = .writing addr i ∧ s' = s.pipewrite p addr i) := by
  simp only [step] at h
  split at h
  case isFalse => cases h
  case isTrue hc =>
    refine ⟨hc.1, ?_⟩
    split at h
    case h_1 n hn => exact .inl ⟨n, hn, (Option.some.inj h).symm⟩
    case h_2 addr i hi => exact .inr ⟨addr, i, hi, (Option.some.inj h).symm⟩
    case h_3 => cases h

theorem of_pipeclose (h : step s (.pipeclose writable) = some s') :
    s' = s.pipeclose writable := by
  simp only [step] at h
  split at h
  case isTrue => exact (Option.some.inj h).symm
  case isFalse => cases h

/-! ### The two loops -/

namespace Pipe

theorem full_iff (p : Pipe) : p.Full ↔ p.size = PIPESIZE := (Ring.size_eq_cap (by decide) p.toRing).symm

theorem empty_iff (p : Pipe) : p.Empty ↔ p.size = 0 := (Ring.size_eq_zero p.toRing).symm

theorem not_full_of_empty {p : Pipe} (h : p.Empty) : ¬ p.Full := by
  rw [empty_iff] at h
  rw [full_iff, h]
  decide

/-- The same ends are open. -/
structure SameEnds (p q : Pipe) : Prop where
  readopen : q.readopen = p.readopen
  writeopen : q.writeopen = p.writeopen

/-- The loop of `pipewrite` appends a beginning of the bytes, all of them unless the ring is
full at the end. -/
structure Filled (p : Pipe) (bytes : List Byte) (q : Pipe) (k : Nat) : Prop where
  size : q.size ≤ PIPESIZE
  contents : q.contents = p.contents ++ bytes.take k
  le : k ≤ bytes.length
  full : k < bytes.length → q.Full
  ends : SameEnds p q

theorem fill_spec {p : Pipe} (hp : p.size ≤ PIPESIZE) (bytes : List Byte) :
    Filled p bytes (p.fill bytes).1 (p.fill bytes).2 := by
  induction bytes generalizing p with
  | nil => exact ⟨hp, (List.append_nil _).symm, Nat.le_refl 0, fun h => absurd h (Nat.lt_irrefl 0), rfl, rfl⟩
  | cons b rest ih =>
    rw [fill]
    split
    case isTrue hf => exact ⟨hp, (List.append_nil _).symm, Nat.zero_le _, fun _ => hf, rfl, rfl⟩
    case isFalse hf =>
      have hlt : p.size < PIPESIZE := by
        rw [full_iff] at hf
        exact lt_of_le_of_ne hp hf
      have hsize : (p.push b).size = p.size + 1 := Ring.size_push (by simp only [PIPESIZE] at hlt; omega)
      have h := ih (p := {p with toRing := p.push b}) (by show (p.push b).size ≤ _; omega)
      refine ⟨h.size, ?_, Nat.succ_le_succ h.le, fun hk => h.full (Nat.lt_of_succ_lt_succ hk), h.ends.readopen,
        h.ends.writeopen⟩
      have hpush : (p.push b).contents = p.contents ++ [b] := Ring.contents_push (by decide) (by decide) hlt
      rw [h.contents, List.take_succ_cons, hpush, List.append_assoc, List.singleton_append]

/-- The second loop of `piperead` takes bytes off the front, as many as asked for or all. -/
structure Drained (p : Pipe) (n : Nat) (q : Pipe) (bytes : List Byte) : Prop where
  size : q.size ≤ p.size
  contents : p.contents = bytes ++ q.contents
  none : bytes = [] → 0 < n → p.Empty
  ends : SameEnds p q

theorem drain_spec (p : Pipe) (n : Nat) : Drained p n (p.drain n).1 (p.drain n).2 := by
  induction n generalizing p with
  | zero => exact ⟨Nat.le_refl _, rfl, fun _ h => absurd h (Nat.lt_irrefl 0), rfl, rfl⟩
  | succ n ih =>
    rw [drain]
    split
    case isTrue he => exact ⟨Nat.le_refl _, rfl, fun _ _ => he, rfl, rfl⟩
    case isFalse he =>
      have hpos : 0 < p.size := by
        rw [empty_iff] at he
        exact Nat.pos_of_ne_zero he
      have hsize : p.pop.size + 1 = p.size := Ring.size_pop hpos
      have h := ih {p with toRing := p.pop}
      refine ⟨h.size.trans (by show p.pop.size ≤ _; omega), ?_, fun h => (by cases h), h.ends.readopen,
        h.ends.writeopen⟩
      have hpop : p.contents = p.head :: p.pop.contents := Ring.contents_pop (by decide) hpos
      rw [hpop, List.cons_append]
      exact congrArg _ h.contents

end Pipe

end Xv6.Pipes
