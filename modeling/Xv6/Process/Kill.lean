import Xv6.Process.Moves

/-! Whom `kill` hits.

`kill` compares pids and does not look at the state of a slot. Slots that were never
used have pid 0, and a `fork` that fails leaves its pid behind, so `kill` can mark a
slot that holds no process; and a `fork` that fails after its child was marked leaves
the mark behind. `allocproc` does not clear it: the next process starts out killed.
A run in which neither happens has no marked slot that is free. -/
namespace Xv6.Process
open Lib

variable {s s' : Sys} {a : Action} {p q : Slot}

/-- A free slot is not marked as killed. -/
def Proc.Unmarked (r : Proc) : Prop := r.state = .UNUSED → r.killed = false

def Sys.Unmarked (s : Sys) : Prop := ∀ q, (s.proc q).Unmarked

theorem Move.unmarked (hm : Move r r') (h : r.Unmarked) : r'.Unmarked := by
  cases hm with
  | pass => exact h
  | reap => exact fun _ => rfl
  | wake | sleep | yield | run => exact fun hr => by cases hr

theorem Sys.Unmarked.of_moves (hm : Moves s s') (h : s.Unmarked) : s'.Unmarked := fun q => by
  have hq := hm q
  generalize s'.proc q = r at hq ⊢
  induction hq with
  | refl => exact h q
  | tail _ hm ih => exact hm.unmarked ih

theorem Sys.Unmarked.of_one (hs : ∀ q, s'.proc q = if q = p then r else s.proc q)
    (h : s.Unmarked) : s'.Unmarked ↔ r.Unmarked := by
  constructor
  · intro h'
    have := h' p
    rwa [hs, if_pos rfl] at this
  · intro hr q
    rw [hs]
    split
    · exact hr
    · exact h q

/-- What a step should do: no free slot is marked, `kill` answers 0 for a process that exists,
and the process that `fork` creates is not marked. -/
def Spared (s : Sys) (a : Action) (s' : Sys) : Prop :=
  s'.Unmarked ∧
  match a with
  | .kill _ pid => (s.kill pid).2 = 0 → ∃ q, (s.proc q).state ≠ .UNUSED ∧ (s.proc q).pid = pid
  | .fork p => ∀ n, s'.pc p = .allocated n → (s'.proc n).killed = false
  | _ => True

/-- The slot that `kill` finds is not free, and a `fork` fails only with a child that is not
marked. -/
def Aimed (s : Sys) : Action → Prop
  | .kill _ pid => ∀ q, s.target pid = some q → (s.proc q).state ≠ .UNUSED
  | .stack p a => a = 0 → ∀ n, s.pc p = .allocated n → (s.proc n).killed = false
  | .copy p d => d = 0 → ∀ n, s.pc p = .stacked n → (s.proc n).killed = false
  | _ => True

namespace Sys.Unmarked
variable (h : s.Unmarked)
include h

theorem kill (pid : BitVec 32) : (s.kill pid).1.Unmarked ↔ Aimed s (.kill p pid) := by
  rw [Aimed]
  rcases s.kill_cases pid with ⟨ht, hs⟩ | ⟨q, ht, hs⟩ <;> rw [hs, ht]
  · exact iff_of_true h fun q hq => by cases hq
  · rw [h.of_one (s.upd_proc q · _)]
    constructor
    · rintro hm r hr hu
      cases hr
      have hmark : (Sys.mark (s.proc q)).state = .UNUSED := by
        rw [Sys.mark, if_neg (by rw [hu]; decide)]
        exact hu
      exact absurd (hm hmark) (by simp [Sys.mark])
    · intro hq hu
      simp only [Sys.mark] at hu
      split at hu
      · cases hu
      · exact absurd hu (hq q rfl)

theorem allocstack (hp : s.pc p = .allocated n) (a : Nat) :
    (s.allocstack p n a).Unmarked ↔ Aimed s (.stack p a) := by
  rw [Aimed, hp]
  by_cases ha : a = 0
  · subst ha
    rw [h.of_one Sys.allocstack_zero_proc]
    constructor
    · rintro hm - m hm'
      cases hm'
      exact hm rfl
    · exact fun hn _ => hn rfl n rfl
  · rw [h.of_one (Sys.allocstack_proc ha)]
    exact iff_of_true (h n) fun h0 => absurd h0 ha

theorem forkcopy (hp : s.pc p = .stacked n) (d : Nat) :
    (s.forkcopy p n d).Unmarked ↔ Aimed s (.copy p d) := by
  rw [Aimed, hp]
  by_cases hd : d = 0
  · subst hd
    rw [h.of_one Sys.forkcopy_zero_proc]
    constructor
    · rintro hm - m hm'
      cases hm'
      exact hm rfl
    · exact fun hn _ => hn rfl n rfl
  · refine iff_of_true (fun q => ?_) fun h0 => absurd h0 hd
    rw [Proc.Unmarked, (Sys.forkcopy_fields hd q).2.2.2.1, (Sys.forkcopy_fields hd q).2.2.2.2.1]
    exact h q

theorem timer (c : Nat) : (s.timer c).Unmarked := by
  by_cases hc : c = 0
  · subst hc
    have hw : ({s with ticks := s.ticks + 1}.wakeup1 (some .ticks)).Unmarked :=
      of_moves (.wakeup1 {s with ticks := s.ticks + 1} _) h
    rcases s.timer_cases with ⟨_, hs⟩ | ⟨p, _, hs⟩ <;> rw [hs]
    · exact hw
    · exact (hw.of_one (Sys.upd_proc _ p · _)).mpr (hw p)
  · have hs : s.timer c = s := if_neg hc
    rw [hs]
    exact h

end Sys.Unmarked

/-- From a table without marked free slots, a step does what it should just when it is aimed. -/
theorem spared_iff (h : s.Unmarked) (hs : step s a = some s') : Spared s a s' ↔ Aimed s a := by
  cases a with
  | fork p =>
    obtain ⟨hp, rfl⟩ := Sys.of_when hs
    refine iff_of_true ?_ trivial
    rcases s.allocproc_cases p with ⟨_, hs'⟩ | ⟨n, hn, hs'⟩ <;> rw [hs']
    · exact ⟨h, fun n hn => by rw [hp.2] at hn; cases hn⟩
    · refine ⟨(h.of_one Sys.take_proc).mpr (fun hr => by cases hr), fun m hm => ?_⟩
      rw [Sys.goto_pc, if_pos rfl] at hm
      cases hm
      rw [Sys.goto_proc, Sys.take_proc, if_pos rfl]
      exact h n hn
  | stack p a =>
    obtain ⟨n, hn, _, rfl⟩ := of_stack hs
    exact (and_iff_left trivial).trans (h.allocstack hn a)
  | copy p d =>
    obtain ⟨n, hn, _, rfl⟩ := of_copy hs
    exact (and_iff_left trivial).trans (h.forkcopy hn d)
  | forked p =>
    obtain ⟨n, _, _, rfl⟩ := of_forked hs
    exact iff_of_true ⟨(h.of_one Sys.forkdone_proc).mpr (fun hr => by cases hr), trivial⟩ trivial
  | exit p =>
    obtain ⟨_, _, rfl⟩ := of_exit hs
    exact iff_of_true ⟨h, trivial⟩ trivial
  | zombie p =>
    obtain ⟨_, rfl⟩ := Sys.of_when hs
    have hl : (s.leave p).Unmarked := .of_moves (.leave s p) h
    exact iff_of_true ⟨(hl.of_one (s.exit_proc p)).mpr (fun hr => by cases hr), trivial⟩ trivial
  | kill p pid =>
    obtain ⟨_, rfl⟩ := Sys.of_when hs
    refine ⟨fun hsp => (h.kill pid).mp hsp.1, fun ha => ⟨(h.kill pid).mpr ha, fun h0 => ?_⟩⟩
    rcases s.kill_cases pid with ⟨_, hk⟩ | ⟨q, ht, _⟩
    · rw [hk] at h0
      cases h0
    · exact ⟨q, ha q ht, Sys.pid_of_target ht⟩
  | timer c =>
    cases hs
    exact iff_of_true ⟨h.timer c, trivial⟩ trivial
  | wait | new_wait | sleep | sleepTicks | wakeup | yield | schedule =>
    exact iff_of_true ⟨.of_moves (moves_of_step hs rfl) h, trivial⟩ trivial

/-- **Whom `kill` hits**: along a run from the table after `userinit`, `kill` hits only
processes that exist and no free slot is ever marked, just when every `kill` finds a slot that
is not free and no `fork` fails with its child marked. -/
theorem spares_iff_aimed (hb : Boot s p) (as : List Action) :
    Along step Spared s as ↔ Along step (fun s a _ => Aimed s a) s as := by
  refine along_congr (I := Sys.Unmarked) (fun _ a _ h hs => spared_iff (a := a) h hs)
    (fun _ a _ h hs ha => ((spared_iff (a := a) h hs).mpr ha).1) (fun q hu => ?_) as
  by_cases hq : q = p
  · rw [hq, hb.state] at hu
    cases hu
  · exact (hb.other q hq).2.2.2

theorem spares_iff_aimed_booted :
    Along step Spared booted [.schedule 0 0, .kill 0 1] ↔
      Along step (fun s a _ => Aimed s a) booted [.schedule 0 0, .kill 0 1] :=
  spares_iff_aimed boot_booted _

/-- The first process calls `kill(0)`. The call answers 0, the free slot 1 is marked, and so is
the child that `fork` then puts there. -/
theorem kill_zero : ∃ t t' u,
    step booted (.schedule 0 0) = some t ∧ step t (.kill 0 0) = some t' ∧
      run step t' [.fork 0, .stack 0 12288, .copy 0 16384, .forked 0] = some u ∧
      (t.kill 0).2 = 0 ∧ (∀ q, (t.proc q).pid = 0 → (t.proc q).state = .UNUSED) ∧
      (t'.proc 1).state = .UNUSED ∧ (t'.proc 1).killed = true ∧
      (u.proc 1).state = .RUNNABLE ∧ (u.proc 1).killed = true ∧
      ¬ Along step Spared booted [.schedule 0 0, .kill 0 0] := by
  obtain ⟨t, ht⟩ := Option.isSome_iff_exists.mp
    (by decide +kernel : (step booted (.schedule 0 0)).isSome)
  obtain ⟨t', ht'⟩ := Option.isSome_iff_exists.mp
    (by decide +kernel : (run step booted [.schedule 0 0, .kill 0 0]).isSome)
  obtain ⟨u, hu⟩ := Option.isSome_iff_exists.mp (by decide +kernel :
    (run step booted [.schedule 0 0, .kill 0 0, .fork 0, .stack 0 12288, .copy 0 16384, .forked 0]).isSome)
  have h1 : (step booted (.schedule 0 0)).all (fun t => (t.kill 0).2 = 0 ∧
      ∀ q, (t.proc q).pid = 0 → (t.proc q).state = .UNUSED) = true := by decide +kernel
  have h2 : (run step booted [.schedule 0 0, .kill 0 0]).all (fun t =>
      (t.proc 1).state = .UNUSED ∧ (t.proc 1).killed = true) = true := by decide +kernel
  have h3 : (run step booted [.schedule 0 0, .kill 0 0, .fork 0, .stack 0 12288, .copy 0 16384,
      .forked 0]).all (fun u => (u.proc 1).state = .RUNNABLE ∧ (u.proc 1).killed = true) = true := by
    decide +kernel
  rw [ht, Option.all_some, decide_eq_true_iff] at h1
  rw [ht', Option.all_some, decide_eq_true_iff] at h2
  rw [hu, Option.all_some, decide_eq_true_iff] at h3
  rw [run_cons] at ht'
  obtain ⟨_, h, ht'⟩ := ht'
  cases ht.symm.trans h
  rw [run_singleton] at ht'
  obtain ⟨_, h, hu⟩ := run_cons.mp hu
  cases ht.symm.trans h
  obtain ⟨_, h, hu⟩ := run_cons.mp hu
  cases ht'.symm.trans h
  refine ⟨t, t', u, ht, ht', hu, h1.1, h1.2, h2.1, h2.2, h3.1, h3.2, fun hal => ?_⟩
  have hm := ((hal t ht).2 t' ht').1.1 1 h2.1
  rw [h2.2] at hm
  cases hm

end Xv6.Process
