import Xv6.Param
import Xv6.Lib.Machine
import Xv6.Lib.Count

/-! The log as processes share it: `begin_op`, `log_write`, `end_op`.

Each section under `log.lock` is one step, and so is each piece of code between
two of them: the unlocked capacity test of `log_write`, and the stages of
`commit`, which runs without the lock. `sleep` gives the lock up and falls asleep
in one step, as `proc.c` does under `ptable.lock`; `kill` may wake a sleeper at
any time. -/
namespace Xv6.Log
open Lib

/-- Where a process is in the log's code. -/
inductive Pc where
  /-- Not in a file system call. -/
  | out
  /-- In `begin_op`, runnable, about to test the loop's condition again. -/
  | woken
  /-- In `begin_op`, asleep on `&log`. -/
  | sleeping
  /-- Between `begin_op` and `end_op`. -/
  | op
  /-- In `log_write` of a block, past its capacity test. -/
  | writing (b : Nat)
  /-- In `end_op`, about to commit. -/
  | committing
  /-- In `commit`, after the blocks of `log.lh` have been written and installed. -/
  | written
  /-- In `end_op`, after `commit` has emptied `log.lh`. -/
  | cleared
deriving DecidableEq

/-- The process is between `begin_op` and `end_op`. -/
def Pc.inOp : Pc → Bool
  | .op => true
  | .writing _ => true
  | _ => false

/-- The process runs `commit`, from setting `log.committing` to clearing it. -/
def Pc.inCommit : Pc → Bool
  | .committing => true
  | .written => true
  | .cleared => true
  | _ => false

/-- The ways the log's code stops: its three panics, and a store past the end of
`log.lh.block`. -/
inductive Stop where
  /-- `panic("too big a transaction")` -/
  | tooBig
  /-- `panic("log_write outside of trans")` -/
  | outsideTrans
  /-- `panic("log.committing")` -/
  | committing
  | overrun
deriving DecidableEq

structure State (P : Type) where
  outstanding : Nat
  committing : Bool
  /-- `log.lh.block[0..n)`. -/
  lh : List Nat
  pc : P → Pc
  stop : Option Stop

inductive Action (P : Type) where
  /-- A pass of `begin_op`'s loop. -/
  | begin_op (p : P)
  /-- `log_write` called on a block: the capacity test. -/
  | log_write (p : P) (b : Nat)
  /-- The section of `log_write` under the lock. -/
  | absorb (p : P) (b : Nat)
  /-- The first section of `end_op`. -/
  | end_op (p : P)
  /-- `commit` writes the blocks of `log.lh` to the log and to their homes. -/
  | commit (p : P)
  /-- `commit` sets `log.lh.n` to zero and writes the header. -/
  | clear (p : P)
  /-- The second section of `end_op`. -/
  | done (p : P)
  /-- `kill` makes a sleeper runnable. -/
  | kill (p : P)
deriving DecidableEq

variable {P : Type} [DecidableEq P]

namespace State

/-- The process `p` moves to `c`. -/
def goto (s : State P) (p : P) (c : Pc) : State P := {s with pc := Function.update s.pc p c}

/-- `wakeup(&log)`. -/
def wakeup (s : State P) : State P :=
  {s with pc := fun q => if s.pc q = .sleeping then .woken else s.pc q}

/-- Does `begin_op` have to wait? -/
def Full (s : State P) : Prop :=
  LOGSIZE < s.lh.length + (s.outstanding + 1) * MAXOPBLOCKS

instance (s : State P) : Decidable s.Full := inferInstanceAs (Decidable (_ < _))

end State

/-- `log.lh.block` with a block recorded: in the slot it already has, or in a new one. -/
def record (lh : List Nat) (b : Nat) : List Nat :=
  if lh.idxOf b = lh.length then lh ++ [b] else lh.set (lh.idxOf b) b

/-- One step of the log's code, for a log of `size` blocks, header included. -/
def step (size : Nat) (s : State P) (a : Action P) : Option (State P) :=
  if s.stop.isSome then none else
  match a with
  | .begin_op p =>
    if s.pc p = .out ∨ s.pc p = .woken then
      if s.committing then some (s.goto p .sleeping)
      else if s.Full then some (s.goto p .sleeping)
      else some ({s with outstanding := s.outstanding + 1}.goto p .op)
    else none
  | .log_write p b =>
    if s.pc p = .op then
      if LOGSIZE ≤ s.lh.length ∨ size - 1 ≤ s.lh.length then some {s with stop := some .tooBig}
      else if s.outstanding < 1 then some {s with stop := some .outsideTrans}
      else some (s.goto p (.writing b))
    else none
  | .absorb p b =>
    if s.pc p = .writing b then
      if s.lh.idxOf b = LOGSIZE then some {s with stop := some .overrun}
      else some ({s with lh := record s.lh b}.goto p .op)
    else none
  | .end_op p =>
    if s.pc p = .op then
      if s.committing then some {s with stop := some .committing}
      else if s.outstanding - 1 = 0 then
        some ({s with outstanding := s.outstanding - 1, committing := true}.goto p .committing)
      else some (({s with outstanding := s.outstanding - 1} : State P).wakeup.goto p .out)
    else none
  | .commit p => if s.pc p = .committing then some (s.goto p .written) else none
  | .clear p => if s.pc p = .written then some ({s with lh := []}.goto p .cleared) else none
  | .done p =>
    if s.pc p = .cleared then some (({s with committing := false} : State P).wakeup.goto p .out)
    else none
  | .kill p => if s.pc p = .sleeping then some (s.goto p .woken) else none

/-- The log after `initlog`, before any process calls it. -/
def init : State P := ⟨0, false, [], fun _ => .out, none⟩

/-! ### Recording a block -/

theorem record_eq (lh : List Nat) (b : Nat) : record lh b = if b ∈ lh then lh else lh ++ [b] := by
  unfold record
  by_cases h : b ∈ lh
  · have hlt := List.idxOf_lt_length_of_mem h
    rw [if_neg (by omega), if_pos h]
    have hget : lh[lh.idxOf b] = b := List.getElem_idxOf hlt
    conv => lhs; arg 3; rw [← hget]
    exact List.set_getElem_self hlt
  · rw [if_pos (List.idxOf_eq_length h), if_neg h]

theorem mem_record : x ∈ record lh b ↔ x = b ∨ x ∈ lh := by
  rw [record_eq]
  by_cases h : b ∈ lh
  · rw [if_pos h]
    exact ⟨.inr, fun hx => hx.elim (fun he => by rw [he]; exact h) id⟩
  · rw [if_neg h, List.mem_append, List.mem_singleton, or_comm]

theorem nodup_record (h : lh.Nodup) (b : Nat) : (record lh b).Nodup := by
  rw [record_eq]
  by_cases hb : b ∈ lh
  · rw [if_pos hb]
    exact h
  · rw [if_neg hb, List.nodup_append]
    exact ⟨h, List.nodup_singleton b, fun x hx y hy he =>
      hb (by rw [List.mem_singleton] at hy; rw [← hy, ← he]; exact hx)⟩

theorem le_length_record (lh : List Nat) (b : Nat) : lh.length ≤ (record lh b).length := by
  rw [record_eq]
  by_cases hb : b ∈ lh
  · rw [if_pos hb]
  · rw [if_neg hb, List.length_append]
    omega

/-! ### What a step can do -/

/-- The steps, one case each, with their guards. -/
inductive Stepped (size : Nat) (s : State P) : Action P → State P → Prop where
  | sleep (p : P) : s.pc p = .out ∨ s.pc p = .woken → s.committing = true ∨ s.Full →
      Stepped size s (.begin_op p) (s.goto p .sleeping)
  | enter (p : P) : s.pc p = .out ∨ s.pc p = .woken → s.committing = false → ¬ s.Full →
      Stepped size s (.begin_op p) ({s with outstanding := s.outstanding + 1}.goto p .op)
  | tooBig (p : P) (b : Nat) : s.pc p = .op → LOGSIZE ≤ s.lh.length ∨ size - 1 ≤ s.lh.length →
      Stepped size s (.log_write p b) {s with stop := some .tooBig}
  | outside (p : P) (b : Nat) : s.pc p = .op → s.outstanding < 1 →
      Stepped size s (.log_write p b) {s with stop := some .outsideTrans}
  | accept (p : P) (b : Nat) : s.pc p = .op → s.lh.length < LOGSIZE → s.lh.length < size - 1 →
      Stepped size s (.log_write p b) (s.goto p (.writing b))
  | overrun (p : P) (b : Nat) : s.pc p = .writing b → s.lh.idxOf b = LOGSIZE →
      Stepped size s (.absorb p b) {s with stop := some .overrun}
  | absorb (p : P) (b : Nat) : s.pc p = .writing b →
      Stepped size s (.absorb p b) ({s with lh := record s.lh b}.goto p .op)
  | again (p : P) : s.pc p = .op → s.committing = true →
      Stepped size s (.end_op p) {s with stop := some .committing}
  | last (p : P) : s.pc p = .op → s.committing = false → s.outstanding - 1 = 0 →
      Stepped size s (.end_op p)
        ({s with outstanding := s.outstanding - 1, committing := true}.goto p .committing)
  | leave (p : P) : s.pc p = .op → s.committing = false → s.outstanding - 1 ≠ 0 →
      Stepped size s (.end_op p)
        (({s with outstanding := s.outstanding - 1} : State P).wakeup.goto p .out)
  | commit (p : P) : s.pc p = .committing → Stepped size s (.commit p) (s.goto p .written)
  | clear (p : P) : s.pc p = .written →
      Stepped size s (.clear p) ({s with lh := []}.goto p .cleared)
  | done (p : P) : s.pc p = .cleared →
      Stepped size s (.done p) (({s with committing := false} : State P).wakeup.goto p .out)
  | kill (p : P) : s.pc p = .sleeping → Stepped size s (.kill p) (s.goto p .woken)

theorem step_stepped {size : Nat} {s s' : State P} {a : Action P} (h : step size s a = some s') :
    s.stop = none ∧ Stepped size s a s' := by
  unfold step at h
  split at h
  · cases h
  rename_i hstop
  refine ⟨by simpa using hstop, ?_⟩
  cases a with
  | begin_op p =>
    simp only at h
    split at h
    · rename_i hp
      split at h
      · rename_i hc
        cases h
        exact .sleep p hp (.inl hc)
      · rename_i hc
        split at h
        · rename_i hf
          cases h
          exact .sleep p hp (.inr hf)
        · rename_i hf
          cases h
          exact .enter p hp (by simpa using hc) hf
    · cases h
  | log_write p b =>
    simp only at h
    split at h
    · rename_i hp
      split at h
      · rename_i hb
        cases h
        exact .tooBig p b hp hb
      · rename_i hb
        split at h
        · rename_i ho
          cases h
          exact .outside p b hp ho
        · cases h
          exact .accept p b hp (by omega) (by omega)
    · cases h
  | absorb p b =>
    simp only at h
    split at h
    · rename_i hp
      split at h
      · rename_i ho
        cases h
        exact .overrun p b hp ho
      · cases h
        exact .absorb p b hp
    · cases h
  | end_op p =>
    simp only at h
    split at h
    · rename_i hp
      split at h
      · rename_i hc
        cases h
        exact .again p hp hc
      · rename_i hc
        split at h
        · rename_i ho
          cases h
          exact .last p hp (by simpa using hc) ho
        · rename_i ho
          cases h
          exact .leave p hp (by simpa using hc) ho
    · cases h
  | commit p =>
    obtain ⟨hp, h⟩ := Option.ite_none_right_eq_some.mp h
    cases h
    exact .commit p hp
  | clear p =>
    obtain ⟨hp, h⟩ := Option.ite_none_right_eq_some.mp h
    cases h
    exact .clear p hp
  | done p =>
    obtain ⟨hp, h⟩ := Option.ite_none_right_eq_some.mp h
    cases h
    exact .done p hp
  | kill p =>
    obtain ⟨hp, h⟩ := Option.ite_none_right_eq_some.mp h
    cases h
    exact .kill p hp

/-! ### Moving one process -/

theorem goto_pc (s : State P) (p q : P) (c : Pc) :
    (s.goto p c).pc q = if q = p then c else s.pc q := by
  simp [State.goto, Function.update_apply]

theorem goto_elim {s : State P} {p q : P} {c : Pc} (R : Pc → Prop) (h : R ((s.goto p c).pc q)) :
    (q = p ∧ R c) ∨ (q ≠ p ∧ R (s.pc q)) := by
  rw [goto_pc] at h
  by_cases hqp : q = p
  · rw [if_pos hqp] at h
    exact .inl ⟨hqp, h⟩
  · rw [if_neg hqp] at h
    exact .inr ⟨hqp, h⟩

omit [DecidableEq P] in
theorem wakeup_pc (s : State P) (q : P) :
    s.wakeup.pc q = if s.pc q = .sleeping then .woken else s.pc q := rfl

omit [DecidableEq P] in
theorem wakeup_inOp (s : State P) (q : P) : (s.wakeup.pc q).inOp = (s.pc q).inOp := by
  rw [wakeup_pc]
  by_cases h : s.pc q = .sleeping
  · rw [if_pos h, h]
    rfl
  · rw [if_neg h]

omit [DecidableEq P] in
theorem wakeup_inCommit (s : State P) (q : P) : (s.wakeup.pc q).inCommit = (s.pc q).inCommit := by
  rw [wakeup_pc]
  by_cases h : s.pc q = .sleeping
  · rw [if_pos h, h]
    rfl
  · rw [if_neg h]

omit [DecidableEq P] in
theorem wakeup_awake (s : State P) (q : P) : s.wakeup.pc q ≠ .sleeping := by
  rw [wakeup_pc]
  by_cases h : s.pc q = .sleeping
  · rw [if_pos h]
    decide
  · rw [if_neg h]
    exact h

end Xv6.Log
