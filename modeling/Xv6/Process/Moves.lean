import Xv6.Process.Machine
import Mathlib.Logic.Relation

/-! What the routine steps do to the record of one process.

Waking, sleeping, scheduling, waiting and the part of `exit` that passes children on do
six things to a record of the table. What none of the six does, no such step does. -/
namespace Xv6.Process
open Lib

/-- What a routine step does to one record. -/
inductive Move : Proc → Proc → Prop where
  | wake (r : Proc) (h : r.state = .SLEEPING) : Move r {r with state := .RUNNABLE}
  | sleep (r : Proc) (c : Chan) (h : r.state = .RUNNING) :
      Move r {r with chan := some c, state := .SLEEPING}
  | yield (r : Proc) (h : r.state = .RUNNING) : Move r {r with state := .RUNNABLE}
  | run (r : Proc) (h : r.state = .RUNNABLE) : Move r {r with state := .RUNNING, chan := none}
  | pass (r : Proc) (i : Slot) : Move r {r with parent := some i}
  | reap (r : Proc) (h : r.state = .ZOMBIE) : Move r {r with
      kstack := 0, pid := 0, parent := none, name := 0, killed := false, state := .UNUSED}

/-- Every record of `s'` comes from that of `s` by moves. -/
def Moves (s s' : Sys) : Prop := ∀ q, Relation.ReflTransGen Move (s.proc q) (s'.proc q)

namespace Moves
variable {s s' : Sys} {p q : Slot}

theorem refl (s : Sys) : Moves s s := fun _ => .refl

theorem trans (h : Moves s t) (h' : Moves t s') : Moves s s' := fun q => (h q).trans (h' q)

theorem of_one (hs : ∀ q, s'.proc q = if q = p then r else s.proc q)
    (hr : Move (s.proc p) r) : Moves s s' := by
  intro q
  rw [hs]
  split
  · rename_i h
    rw [h]
    exact .single hr
  · exact .refl

theorem wakeup1 (s : Sys) (chan : Option Chan) : Moves s (s.wakeup1 chan) := by
  intro q
  rw [Sys.wakeup1_proc]
  split
  · rename_i h
    exact .single (.wake _ h.1)
  · exact .refl

theorem sleep (chan : Chan) (hp : s.Running p) : Moves s (s.sleep p chan) :=
  of_one (Sys.sleep_proc chan) (.sleep _ _ hp)

theorem yield (hp : s.Running p) : Moves s (s.yield p) :=
  of_one Sys.yield_proc (.yield _ hp)

theorem reap (hq : (s.proc q).state = .ZOMBIE) : Moves s (s.reap q) :=
  of_one Sys.reap_proc (.reap _ hq)

theorem idle (c : Pc) (kids : Bool) (hp : s.Running p) : Moves s (s.idle p c kids).1 := by
  rw [Sys.idle]
  split
  · exact refl s
  · exact sleep _ hp

theorem wait (hp : s.Running p) : Moves s (s.wait p).1 := by
  rw [Sys.wait_eq]
  split
  · rename_i q hq
    exact reap (Sys.zombieOf_child hq).2
  · exact idle _ _ hp

theorem new_wait (a b c : Nat) (hp : s.Running p) : Moves s (s.new_wait p a b c).1 := by
  rw [Sys.new_wait_eq]
  split
  · rename_i q hq
    exact reap (Sys.zombieOf_child hq).2
  · exact idle _ _ hp

theorem pick (c : Nat) (hp : (s.proc p).state = .RUNNABLE) : Moves s (s.pick c p) :=
  of_one (Sys.pick_proc c) (.run _ hp)

theorem schedule (c : Nat) (hp : (s.proc p).state = .RUNNABLE) : Moves s (s.schedule c p) := by
  have hrun : (s.pick c p).Running p := by
    rw [Sys.Running, Sys.pick_proc, if_pos rfl]
  rcases Sys.schedule_cases s c p with ⟨_, h⟩ | ⟨a, b, d, _, h⟩ | ⟨_, _, h⟩ <;> rw [h]
  · exact (pick c hp).trans (wait hrun)
  · exact (pick c hp).trans (new_wait a b d hrun)
  · exact pick c hp

theorem reparent (s : Sys) (p : Slot) (l : List Slot) : Moves s (s.reparent p l) := by
  have h := Sys.passed p l s
  intro q
  have hpass : Relation.ReflTransGen Move (s.proc q) {s.proc q with
      parent := if q ∈ l ∧ (s.proc q).parent = some p then some s.initproc
        else (s.proc q).parent} := by
    split
    · exact .single (.pass _ _)
    · exact .refl
  rw [h.proc q]
  rcases h.state q with hs | ⟨hs, _, hs'⟩
  · rw [hs]
    exact hpass
  · rw [hs']
    exact hpass.tail (.wake _ hs)

theorem leave (s : Sys) (p : Slot) : Moves s (s.leave p) :=
  (wakeup1 s _).trans (reparent _ p _)

end Moves

/-- The steps that only move records. -/
def Action.routine : Action → Bool
  | .wait _ | .new_wait _ _ _ _ | .sleep _ _ | .sleepTicks _ | .wakeup _ | .yield _
  | .schedule _ _ => true
  | _ => false

theorem moves_of_step (hs : step s a = some s') (ha : a.routine = true) :
    Moves s s' := by
  cases a with
  | wait p =>
    obtain ⟨hp, rfl⟩ := Sys.of_when hs
    exact .wait hp.1
  | new_wait p a b c =>
    obtain ⟨hp, rfl⟩ := Sys.of_when hs
    exact .new_wait a b c hp.1
  | sleep p a =>
    obtain ⟨hp, rfl⟩ := Sys.of_whenRunning hs
    exact .sleep _ hp
  | sleepTicks p =>
    obtain ⟨hp, rfl⟩ := Sys.of_whenRunning hs
    exact .sleep _ hp
  | wakeup a =>
    cases hs
    exact .wakeup1 s _
  | yield p =>
    obtain ⟨hp, rfl⟩ := Sys.of_whenRunning hs
    exact .yield hp
  | schedule c p =>
    obtain ⟨hp, rfl⟩ := of_schedule hs
    exact .schedule c hp.2
  | fork | stack | copy | forked | exit | zombie | kill | timer => cases ha

end Xv6.Process
