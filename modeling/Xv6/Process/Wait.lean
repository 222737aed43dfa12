import Xv6.Process.Table

/-! What a pass of `wait` and of `new_wait` does.

Both take the first zombie child in the table; they sleep when there is none and there
are other children. They make the same transition of the table. What `new_wait` stores
is another matter: `sys_new_wait` hands its arguments on in an order that `new_wait`
does not expect. -/
namespace Xv6.Process
open Lib Function

namespace Sys
variable (s : Sys) (p q : Slot)

/-- `q` is a child of `p` that `wait` can take. -/
def ZombieOf : Prop := (s.proc q).parent = some p ∧ (s.proc q).state = .ZOMBIE

instance : Decidable (s.ZombieOf p q) := inferInstanceAs (Decidable (_ ∧ _))

/-- The child that `wait` takes. -/
def child : Option Slot := (List.finRange NPROC).find? fun q => s.ZombieOf p q

/-- The process has children. -/
def hasKids : Bool := (List.finRange NPROC).any fun q => (s.proc q).parent = some p

variable {s p q}

theorem zombieOf_child (h : s.child p = some q) : s.ZombieOf p q := by
  simpa using List.find?_some h

theorem not_zombieOf (h : s.child p = none) (q : Slot) : ¬ s.ZombieOf p q := by
  have := List.find?_eq_none.mp h q (List.mem_finRange q)
  simpa using this

/-- What a pass does when it has found no zombie child; it sleeps at `c`. -/
def idle (s : Sys) (p : Slot) (c : Pc) (kids : Bool) : Sys × Waited :=
  if kids = false ∨ (s.proc p).killed = true then (s.goto p .out, .failed)
  else ((s.sleep p (.proc p)).goto p c, .asleep)

/-- A pass takes the first zombie child, with `found`. -/
theorem pass_eq (s : Sys) (p : Slot) (c : Pc) (found : Slot → Sys × Waited)
    (scan : List Slot → Bool → Sys × Waited)
    (hnil : ∀ havekids, scan [] havekids = idle s p c havekids)
    (hcons : ∀ q rest havekids, scan (q :: rest) havekids =
      if (s.proc q).parent ≠ some p then scan rest havekids
      else if (s.proc q).state = .ZOMBIE then found q
      else scan rest true) (l : List Slot) (havekids : Bool) :
    scan l havekids =
      match l.find? fun q => s.ZombieOf p q with
      | some q => found q
      | none => idle s p c (havekids || l.any fun q => (s.proc q).parent = some p) := by
  induction l generalizing havekids with
  | nil => rw [hnil, List.find?_nil, List.any_nil, Bool.or_false]
  | cons q rest ih =>
    rw [hcons, List.find?_cons, List.any_cons]
    by_cases hp : (s.proc q).parent = some p
    · rw [if_neg (not_not.mpr hp)]
      by_cases hz : (s.proc q).state = .ZOMBIE
      · have : s.ZombieOf p q := ⟨hp, hz⟩
        simp only [hz, this, decide_true, if_true]
      · have : ¬ s.ZombieOf p q := fun h => hz h.2
        simp only [hz, this, hp, decide_false, decide_true, if_false, ih, Bool.true_or, Bool.or_true]
    · have : ¬ s.ZombieOf p q := fun h => hp h.1
      rw [if_pos hp]
      simp only [this, hp, decide_false, ih, Bool.false_or]

theorem wait_eq : s.wait p =
    match s.child p with
    | some q => ((s.reap q).goto p .out, .reaped (s.proc q).pid)
    | none => idle s p .waiting (s.hasKids p) := by
  have h := pass_eq s p .waiting (fun q => ((s.reap q).goto p .out, .reaped (s.proc q).pid))
    (s.wait_from p) (fun havekids => by rw [wait_from, idle]) (fun q rest havekids => by rw [wait_from])
    (List.finRange NPROC) false
  rwa [Bool.false_or] at h

/-- The state after `new_wait` has taken the child `q`. -/
def report (s : Sys) (p q : Slot) (create_time run_time stop_time : Nat) : Sys :=
  (((s.reap q).store p create_time (s.proc q).ctime).store p run_time (s.proc q).ttime).store p
    stop_time (s.proc q).etime

theorem reap_proc (r : Slot) : (s.reap q).proc r =
    if r = q then {s.proc q with
      kstack := 0, pid := 0, parent := none, name := 0, killed := false, state := .UNUSED}
    else s.proc r := by
  rw [reap]
  simp only [upd_proc]
  by_cases h : r = q
  · simp only [h, if_true]
  · simp only [h, if_false]

theorem new_wait_eq (create_time run_time stop_time : Nat) :
    s.new_wait p create_time run_time stop_time =
    match s.child p with
    | some q => ((s.report p q create_time run_time stop_time).goto p .out, .reaped (s.proc q).pid)
    | none => idle s p (.newWaiting create_time run_time stop_time) (s.hasKids p) := by
  have h := pass_eq s p (.newWaiting create_time run_time stop_time)
    (fun q => ((s.report p q create_time run_time stop_time).goto p .out, .reaped (s.proc q).pid))
    (s.new_wait_from p create_time run_time stop_time)
    (fun havekids => by rw [new_wait_from, idle]) (fun q rest havekids => by
      have hq : ((s.reap q).proc q).ctime = (s.proc q).ctime ∧
          ((s.reap q).proc q).ttime = (s.proc q).ttime ∧
          ((s.reap q).proc q).etime = (s.proc q).etime := by
        rw [reap_proc, if_pos rfl]
        exact ⟨rfl, rfl, rfl⟩
      rw [new_wait_from, report, ← hq.1, ← hq.2.1, ← hq.2.2]
      rfl)
    (List.finRange NPROC) false
  rwa [Bool.false_or] at h

/-! ### `new_wait` against `wait` -/

/-- The two states differ in the memory of processes only, and in which of `wait` and
`new_wait` the process `p` is in. -/
structure SameTable (s s' : Sys) (p : Slot) : Prop where
  proc : s'.proc = s.proc
  initproc : s'.initproc = s.initproc
  nextpid : s'.nextpid = s.nextpid
  ticks : s'.ticks = s.ticks
  cpu : s'.cpu = s.cpu
  freed : s'.freed = s.freed
  pc : ∀ q, q ≠ p → s'.pc q = s.pc q

/-- The variables at the three addresses hold the times of the child `q`. -/
def Reports (s : Sys) (p q : Slot) (t : Sys) (create_time stop_time run_time : Nat) : Prop :=
  t.user p create_time = (s.proc q).ctime ∧ t.user p stop_time = (s.proc q).etime ∧
    t.user p run_time = (s.proc q).ttime

variable {create_time stop_time run_time : Nat}

/-- What the caller's variables hold after `sys_new_wait` has taken a child. -/
theorem report_user (hc : create_time ≠ stop_time) (hr : create_time ≠ run_time)
    (hs : stop_time ≠ run_time) :
    (s.report p q create_time stop_time run_time).user p create_time = (s.proc q).ctime ∧
      (s.report p q create_time stop_time run_time).user p stop_time = (s.proc q).ttime ∧
      (s.report p q create_time stop_time run_time).user p run_time = (s.proc q).etime := by
  simp only [report, store, update_self, update_of_ne hc, update_of_ne hr,
    update_of_ne hs, and_self]

/-- **`new_wait` makes the transition of `wait`**, and the report it gives through
`sys_new_wait` is right just when the child's end time and run time are the same. -/
theorem new_wait_report (s : Sys) (p : Slot) (create_time stop_time run_time : Nat)
    (hc : create_time ≠ stop_time) (hr : create_time ≠ run_time) (hs : stop_time ≠ run_time) :
    SameTable (s.wait p).1 (s.sys_new_wait p create_time stop_time run_time).1 p ∧
    (s.sys_new_wait p create_time stop_time run_time).2 = (s.wait p).2 ∧
    ∀ pid, (s.wait p).2 = .reaped pid → ∃ q, s.child p = some q ∧ (s.proc q).pid = pid ∧
      (Reports s p q (s.sys_new_wait p create_time stop_time run_time).1 create_time stop_time run_time ↔
        (s.proc q).etime = (s.proc q).ttime) := by
  rw [sys_new_wait, wait_eq, new_wait_eq]
  cases hch : s.child p with
  | none =>
    simp only [idle]
    split
    · exact ⟨⟨rfl, rfl, rfl, rfl, rfl, rfl, fun _ _ => rfl⟩, rfl, fun pid h => by cases h⟩
    · refine ⟨⟨rfl, rfl, rfl, rfl, rfl, rfl, fun q hq => ?_⟩, rfl, fun pid h => by cases h⟩
      rw [goto_pc, goto_pc, if_neg hq, if_neg hq]
  | some q =>
    refine ⟨⟨rfl, rfl, rfl, rfl, rfl, rfl, fun _ _ => rfl⟩, rfl, fun pid h => ⟨q, rfl, ?_, ?_⟩⟩
    · exact Waited.reaped.inj h
    · obtain ⟨h1, h2, h3⟩ := report_user (s := s) (p := p) (q := q) hc hr hs
      simp only [Reports, goto_user, h1, h2, h3, true_and]
      exact ⟨fun h => h.1.symm, fun h => ⟨h.symm, h⟩⟩

/-- A slot that has never been used. -/
def unused : Proc := ⟨0, 0, .UNUSED, 0, none, none, false, 0, 0, 0, 0⟩

/-- The first process runs, and its child in slot 1, created at tick 3, has called `exit` at
tick 9. -/
def exited : Sys where
  proc p :=
    if p = 0 then {unused with pgdir := 4096, kstack := 8192, state := .RUNNING, pid := 1}
    else if p = 1 then {unused with
      pgdir := 12288, kstack := 16384, state := .ZOMBIE, pid := 2, parent := some 0, ctime := 3, etime := 9}
    else unused
  initproc := 0
  nextpid := 3
  ticks := 9
  cpu c := if c = 0 then some 0 else none
  pc _ := .out
  user _ _ := 0
  freed := []

theorem new_wait_report_exited :
    SameTable (exited.wait 0).1 (exited.sys_new_wait 0 0 4 8).1 0 ∧
    (exited.sys_new_wait 0 0 4 8).2 = (exited.wait 0).2 ∧
    ∀ pid, (exited.wait 0).2 = .reaped pid → ∃ q, exited.child 0 = some q ∧ (exited.proc q).pid = pid ∧
      (Reports exited 0 q (exited.sys_new_wait 0 0 4 8).1 0 4 8 ↔
        (exited.proc q).etime = (exited.proc q).ttime) :=
  new_wait_report exited 0 0 4 8 (by decide) (by decide) (by decide)

set_option maxRecDepth 4000 in
/-- The stop time the caller sees is the run time 0, and the run time is the stop time 9. -/
theorem new_wait_swaps :
    (exited.sys_new_wait 0 0 4 8).2 = .reaped 2 ∧ exited.child 0 = some 1 ∧
      (exited.sys_new_wait 0 0 4 8).1.user 0 4 = 0 ∧ (exited.sys_new_wait 0 0 4 8).1.user 0 8 = 9 ∧
      ¬ Reports exited 0 1 (exited.sys_new_wait 0 0 4 8).1 0 4 8 := by
  refine ⟨by decide, by decide, by decide, by decide, fun h => ?_⟩
  exact absurd h.2.1 (by decide)

end Sys

end Xv6.Process
