import Xv6.Process.Moves

/-! Process accounting: what the times that `new_wait` reads off a child are.

`ctime` is moved by every `fork` of the process, and by every timer interrupt that hits
it on processor 0; `ttime` is never written. So the times of a child are what they claim
to be just when nothing of this happened to it, and the clock stood still while it
closed its files in `exit`. -/
namespace Xv6.Process
open Lib Function

variable {s s' : Sys} {p q n : Slot} {h : History}

/-! ### Steps that leave the times alone -/

/-- No times are written, and no process becomes a zombie. -/
def Untimed (s s' : Sys) : Prop := ∀ q, (s'.proc q).ctime = (s.proc q).ctime ∧
  (s'.proc q).ttime = (s.proc q).ttime ∧ (s'.proc q).etime = (s.proc q).etime ∧
  ((s'.proc q).state = .ZOMBIE → (s.proc q).state = .ZOMBIE)

namespace Untimed

theorem refl (s : Sys) : Untimed s s := fun _ => ⟨rfl, rfl, rfl, fun h => h⟩

theorem of_one (hs : ∀ q, s'.proc q = if q = p then r else s.proc q)
    (hr : r.ctime = (s.proc p).ctime ∧ r.ttime = (s.proc p).ttime ∧ r.etime = (s.proc p).etime ∧
      (r.state = .ZOMBIE → (s.proc p).state = .ZOMBIE)) : Untimed s s' := by
  intro q
  rw [hs]
  split
  · rename_i h
    rw [h]
    exact hr
  · exact ⟨rfl, rfl, rfl, fun h => h⟩

theorem forkdone (s : Sys) (p n : Slot) : Untimed s (s.forkdone p n) :=
  of_one Sys.forkdone_proc ⟨rfl, rfl, rfl, fun h => by cases h⟩

theorem kill (s : Sys) (pid : BitVec 32) : Untimed s (s.kill pid).1 := by
  rcases Sys.kill_cases s pid with ⟨_, h⟩ | ⟨q, _, h⟩ <;> rw [h]
  · exact refl s
  · refine of_one (s.upd_proc q · _) ⟨rfl, rfl, rfl, fun h => ?_⟩
    simp only [Sys.mark] at h
    split at h
    · cases h
    · exact h

theorem allocstack (s : Sys) (p n : Slot) (a : Nat) : Untimed s (s.allocstack p n a) := by
  by_cases ha : a = 0
  · subst ha
    exact of_one Sys.allocstack_zero_proc ⟨rfl, rfl, rfl, fun h => by cases h⟩
  · exact of_one (Sys.allocstack_proc ha) ⟨rfl, rfl, rfl, fun h => h⟩

theorem forkcopy_zero (s : Sys) (p n : Slot) : Untimed s (s.forkcopy p n 0) :=
  of_one Sys.forkcopy_zero_proc ⟨rfl, rfl, rfl, fun h => by cases h⟩

theorem of_moves (h : Moves s s') : Untimed s s' := by
  intro q
  have hq := h q
  generalize s'.proc q = r at hq ⊢
  induction hq with
  | refl => exact ⟨rfl, rfl, rfl, fun h => h⟩
  | tail _ hm ih =>
    obtain ⟨h1, h2, h3, h4⟩ := ih
    cases hm with
    | pass => exact ⟨h1, h2, h3, h4⟩
    | wake | sleep | yield | run | reap => exact ⟨h1, h2, h3, fun h => by cases h⟩

end Untimed

/-! ### What the times are -/

/-- What the times of every process are, after the history `h`. -/
structure Timed (s : Sys) (h : History) : Prop where
  ttime : ∀ q, (s.proc q).ttime = 0
  etime : ∀ q, (s.proc q).state = .ZOMBIE → (s.proc q).etime = h.gone q
  moved : ∀ q, h.moved q = false ↔ h.ran q = 0 ∧ ∀ t ∈ h.forks q, t = h.born q
  ctime : ∀ q, h.moved q = false → (s.proc q).ctime = h.born q

theorem Timed.start (hb : Boot s p) : Timed s (.start s) where
  ttime := hb.ttime
  etime q hz := by
    by_cases hq : q = p
    · rw [hq, hb.state] at hz
      cases hz
    · rw [(hb.other q hq).1] at hz
      cases hz
  moved q := ⟨fun _ => ⟨rfl, fun t ht => by cases ht⟩, fun _ => rfl⟩
  ctime q _ := rfl

namespace Timed
variable (ht : Timed s h)
include ht

/-- A step that leaves the times alone, and in which the observer sees no `fork`, no end of a
process and no tick. -/
theorem untimed (hu : Untimed s s') (hgone : h'.gone = h.gone)
    (hmoved : ∀ q, h'.moved q = (h.moved q || (s'.proc q).ctime != (s.proc q).ctime))
    (hran : h'.ran = h.ran) (hforks : h'.forks = h.forks) (hborn : h'.born = h.born) : Timed s' h' := by
  have hm : ∀ q, h'.moved q = h.moved q := fun q => by
    rw [hmoved, (hu q).1, bne_self_eq_false, Bool.or_false]
  refine ⟨fun q => (hu q).2.1.trans (ht.ttime q), fun q hz => ?_, fun q => ?_, fun q hq => ?_⟩
  · rw [(hu q).2.2.1, hgone]
    exact ht.etime q ((hu q).2.2.2 hz)
  · rw [hm, hran, hforks, hborn]
    exact ht.moved q
  · rw [hm] at hq
    rw [(hu q).1, hborn]
    exact ht.ctime q hq

theorem other (hu : Untimed s s') (ho : h.observe s a s' = match s.reaps a with
      | some (_, q) => {h with
          moved := fun q => h.moved q || (s'.proc q).ctime != (s.proc q).ctime
          reaped := (s.proc q).pid :: h.reaped}
      | none => {h with moved := fun q => h.moved q || (s'.proc q).ctime != (s.proc q).ctime}) :
    Timed s' (h.observe s a s') := by
  rw [ho]
  split
  · exact ht.untimed hu rfl (fun _ => rfl) rfl rfl rfl
  · exact ht.untimed hu rfl (fun _ => rfl) rfl rfl rfl

/-- The `ctime` of process `q` is set to `v`, and nothing else happens to the times. -/
theorem moved_to (hc : (s'.proc q).ctime = v)
    (hu : ∀ r, r ≠ q → (s'.proc r).ctime = (s.proc r).ctime)
    (hr : ∀ r, (s'.proc r).ttime = (s.proc r).ttime ∧ (s'.proc r).etime = (s.proc r).etime ∧
      ((s'.proc r).state = .ZOMBIE → (s.proc r).state = .ZOMBIE)) (hgone : h'.gone = h.gone)
    (hmoved : ∀ r, h'.moved r = (h.moved r || (s'.proc r).ctime != (s.proc r).ctime))
    (hother : ∀ r, r ≠ q → h'.ran r = h.ran r ∧ h'.forks r = h.forks r) (hborn : h'.born = h.born)
    (hself : h'.ran q = 0 ∧ (∀ t ∈ h'.forks q, t = h'.born q) ↔
      (h.ran q = 0 ∧ ∀ t ∈ h.forks q, t = h.born q) ∧ v = (s.proc q).ctime) : Timed s' h' := by
  have hm : ∀ r, r ≠ q → h'.moved r = h.moved r := fun r hrq => by
    rw [hmoved, hu r hrq, bne_self_eq_false, Bool.or_false]
  have hq : h'.moved q = false ↔ h.moved q = false ∧ v = (s.proc q).ctime := by
    rw [hmoved, hc, Bool.or_eq_false_iff, bne_eq_false_iff_eq]
  refine ⟨fun r => (hr r).1.trans (ht.ttime r), fun r hz => ?_, fun r => ?_, fun r hf => ?_⟩
  · rw [(hr r).2.1, hgone]
    exact ht.etime r ((hr r).2.2 hz)
  · by_cases he : r = q
    · rw [he, hq, hself, ht.moved]
    · rw [hm r he, (hother r he).1, (hother r he).2, hborn]
      exact ht.moved r
  · by_cases he : r = q
    · rw [he] at hf ⊢
      obtain ⟨h1, h2⟩ := hq.mp hf
      rw [hc, h2, hborn]
      exact ht.ctime q h1
    · rw [hm r he] at hf
      rw [hu r he, hborn]
      exact ht.ctime r hf

theorem fork (hp : s.pc p = .out) :
    Timed (s.allocproc p) (h.observe s (.fork p) (s.allocproc p)) := by
  rcases s.allocproc_cases p with ⟨_, hs⟩ | ⟨n, _, hs⟩ <;> rw [hs]
  · -- the table is full
    have ho : h.observe s (.fork p) s = {h with
        moved := fun q => h.moved q || (s.proc q).ctime != (s.proc q).ctime} := by
      simp only [History.observe, hp]
    rw [ho]
    exact ht.untimed (.refl s) rfl (fun _ => rfl) rfl rfl rfl
  · simp only [History.observe, Sys.goto_pc, if_true]
    refine ⟨fun q => ?_, fun q hz => ?_, fun q => ?_, fun q hq => ?_⟩
    · rw [Sys.goto_proc, Sys.take_proc]
      split <;> exact ht.ttime _
    · rw [Sys.goto_proc, Sys.take_proc] at hz ⊢
      split at hz
      · cases hz
      · rename_i hne
        rw [if_neg hne]
        exact ht.etime q hz
    · simp only [History.create, Sys.goto_proc, Sys.take_proc]
      by_cases hqn : q = n
      · subst hqn
        simp
      · simp only [update_of_ne hqn, if_neg hqn, bne_self_eq_false, Bool.or_false]
        exact ht.moved q
    · simp only [History.create, Sys.goto_proc, Sys.take_proc] at hq ⊢
      by_cases hqn : q = n
      · rw [if_pos hqn, hqn, update_self]
      · simp only [update_of_ne hqn, if_neg hqn, bne_self_eq_false, Bool.or_false] at hq ⊢
        exact ht.ctime q hq

theorem copy (p n : Slot) (hd : d ≠ 0) :
    Timed (s.forkcopy p n d) (h.observe s (.copy p d) (s.forkcopy p n d)) := by
  have hproc := Sys.forkcopy_fields (s := s) (p := p) (n := n) hd
  have ho : h.observe s (.copy p d) (s.forkcopy p n d) = {h with
      moved := fun q => h.moved q || ((s.forkcopy p n d).proc q).ctime != (s.proc q).ctime
      forks := update h.forks p (s.ticks :: h.forks p)} := by
    simp only [History.observe, if_neg hd]
  rw [ho]
  refine ht.moved_to (q := p) (v := s.ticks) (by rw [(hproc p).1, if_pos rfl])
    (fun r hr => by rw [(hproc r).1, if_neg hr])
    (fun r => ⟨(hproc r).2.1, (hproc r).2.2.1, fun hz => (hproc r).2.2.2.1 ▸ hz⟩)
    rfl (fun _ => rfl) (fun r hr => ⟨rfl, update_of_ne hr ..⟩) rfl ?_
  -- the process has kept its `ctime` just when the clock shows it
  simp only [update_self, List.mem_cons, forall_eq_or_imp]
  constructor
  · rintro ⟨h1, h2, h3⟩
    exact ⟨⟨h1, h3⟩, h2.trans (ht.ctime p ((ht.moved p).mpr ⟨h1, h3⟩)).symm⟩
  · rintro ⟨⟨h1, h3⟩, h2⟩
    exact ⟨h1, h2.trans (ht.ctime p ((ht.moved p).mpr ⟨h1, h3⟩)), h3⟩

theorem timer (c : Nat) : Timed (s.timer c) (h.observe s (.timer c) (s.timer c)) := by
  by_cases hc : c = 0
  · subst hc
    let t := {s with ticks := s.ticks + 1}.wakeup1 (some .ticks)
    have hu : Untimed s t := .of_moves (.wakeup1 {s with ticks := s.ticks + 1} _)
    rcases s.timer_cases with ⟨hcur, hs⟩ | ⟨p, hcur, hs⟩ <;> rw [hs]
    · simp only [History.observe, hcur]
      exact ht.untimed hu rfl (fun _ => rfl) rfl rfl rfl
    · simp only [History.observe, hcur, if_true]
      refine ht.moved_to (q := p) (v := (s.proc p).ctime + 1) ?_ (fun r hr => ?_) (fun r => ?_) rfl
        (fun _ => rfl) (fun r hr => ⟨update_of_ne hr .., rfl⟩) rfl ?_
      · rw [Sys.upd_proc, if_pos rfl]
        exact congrArg (· + 1) (hu p).1
      · rw [Sys.upd_proc, if_neg hr]
        exact (hu r).1
      · rw [Sys.upd_proc]
        split
        · rename_i he
          rw [he]
          exact (hu p).2
        · exact (hu r).2
      · simp only [update_self]
        refine iff_of_false (fun hc => Nat.succ_ne_zero _ hc.1) fun hc => ?_
        exact absurd hc.2 (by simp)
  · have hs : s.timer c = s := if_neg hc
    rw [hs]
    refine ht.untimed (.refl s) ?_ (fun q => ?_) ?_ ?_ ?_ <;>
      (simp only [History.observe, if_neg hc]; cases s.current <;> rfl)

theorem zombie (p : Slot) : Timed (s.exit p) (h.observe s (.zombie p) (s.exit p)) := by
  have hu : Untimed s (s.leave p) := .of_moves (.leave s p)
  have hproc := s.exit_proc p
  have hc : ∀ q, ((s.exit p).proc q).ctime = (s.proc q).ctime := fun q => by
    rw [hproc]
    split
    · rename_i he
      rw [he]
      exact (hu p).1
    · exact (hu q).1
  refine ⟨fun q => ?_, fun q hz => ?_, fun q => ?_, fun q hq => ?_⟩
  · rw [hproc]
    split
    · exact (hu p).2.1.trans (ht.ttime p)
    · exact (hu q).2.1.trans (ht.ttime q)
  · show _ = update h.gone p s.ticks q
    rw [hproc] at hz ⊢
    by_cases he : q = p
    · rw [if_pos he, he, update_self]
    · rw [if_neg he] at hz ⊢
      rw [update_of_ne he, (hu q).2.2.1]
      exact ht.etime q ((hu q).2.2.2 hz)
  · simp only [History.observe, hc, bne_self_eq_false, Bool.or_false]
    exact ht.moved q
  · simp only [History.observe, hc, bne_self_eq_false, Bool.or_false] at hq ⊢
    exact ht.ctime q hq

theorem step (hs : step s a = some s') : Timed s' (h.observe s a s') := by
  cases a with
  | fork p =>
    obtain ⟨hp, rfl⟩ := Sys.of_when hs
    exact ht.fork hp.2
  | stack p a =>
    obtain ⟨n, _, _, rfl⟩ := of_stack hs
    exact ht.other (.allocstack s p n a) rfl
  | copy p d =>
    obtain ⟨n, _, _, rfl⟩ := of_copy hs
    by_cases hd : d = 0
    · subst hd
      exact ht.untimed (.forkcopy_zero s p n) rfl (fun _ => rfl) rfl rfl rfl
    · exact ht.copy p n hd
  | forked p =>
    obtain ⟨n, _, _, rfl⟩ := of_forked hs
    exact ht.other (.forkdone s p n) rfl
  | exit p =>
    obtain ⟨_, _, rfl⟩ := of_exit hs
    exact ht.untimed (.refl s) rfl (fun _ => rfl) rfl rfl rfl
  | zombie p =>
    obtain ⟨_, rfl⟩ := Sys.of_when hs
    exact ht.zombie p
  | kill p pid =>
    obtain ⟨_, rfl⟩ := Sys.of_when hs
    exact ht.other (.kill s pid) rfl
  | timer c =>
    cases hs
    exact ht.timer c
  | wait | new_wait | sleep | sleepTicks | wakeup | yield | schedule =>
    exact ht.other (.of_moves (moves_of_step hs rfl)) rfl

end Timed

theorem timed_run (hb : Boot s p) (hr : run trace (s, .start s) as = some x) : Timed x.1 x.2 := by
  refine run_invariant (I := fun _ x => Timed x.1 x.2) (.start hb) (fun _ x a x' hx ha => ?_) hr
  obtain ⟨s', hs, rfl⟩ := Option.map_eq_some_iff.mp ha
  exact hx.step hs

/-! ### The accounts of a child that is waited for -/

/-- The times in the record `r` of the process in slot `q` say what happened to it. -/
def History.Truthful (h : History) (q : Slot) (r : Proc) : Prop :=
  r.ctime = h.born q ∧ h.moved q = false ∧ r.etime = h.called q ∧ r.ttime.toNat = h.ran q

instance (q : Slot) (r : Proc) : Decidable (h.Truthful q r) := inferInstanceAs (Decidable (_ ∧ _))

/-- The process in slot `q` was never hit by the timer of processor 0, it made new processes
only at the tick of its own creation, and the clock stood still during its `exit`. -/
def History.Still (h : History) (q : Slot) : Prop :=
  h.ran q = 0 ∧ (∀ t ∈ h.forks q, t = h.born q) ∧ h.gone q = h.called q

/-- **The accounts of a child** that `wait` or `new_wait` takes, in any run, are truthful just
when the child has seen no tick. -/
theorem accounts_truthful {as : List Action} {a : Action} (hb : Boot s n)
    {t t' : Sys} (hr : run trace (s, .start s) as = some (t, h)) (ht : step t a = some t')
    (ha : t.reaps a = some (p, q)) :
    (t'.proc q).state = .UNUSED ∧ (h.Truthful q (t.proc q) ↔ h.Still q) := by
  have hi : Timed t h := timed_run hb hr
  obtain ⟨⟨_, hz⟩, hfree⟩ := reaps_spec ht ha
  refine ⟨hfree, ?_⟩
  rw [History.Truthful, History.Still, hi.etime q hz, hi.ttime q]
  constructor
  · rintro ⟨_, hm, he, _⟩
    obtain ⟨h1, h2⟩ := (hi.moved q).mp hm
    exact ⟨h1, h2, he⟩
  · rintro ⟨h1, h2, he⟩
    have hm := (hi.moved q).mpr ⟨h1, h2⟩
    exact ⟨hi.ctime q hm, hm, he, h1.symm⟩

theorem accounts_truthful_still : ∃ t h t',
    run trace (booted, .start booted) (childRuns []) = some (t, h) ∧ step t (.schedule 0 0) = some t' ∧
      (t'.proc 1).state = .UNUSED ∧ (h.Truthful 1 (t.proc 1) ↔ h.Still 1) := by
  obtain ⟨⟨t, h⟩, hr⟩ := Option.isSome_iff_exists.mp
    (by decide +kernel : (run trace (booted, .start booted) (childRuns [])).isSome)
  have hstep : (run trace (booted, .start booted) (childRuns [])).bind
      (fun x => (step x.1 (.schedule 0 0)).map fun _ => x.1.reaps (.schedule 0 0)) =
      some (some (0, 1)) := by decide +kernel
  rw [hr] at hstep
  obtain ⟨t', ht, ha⟩ := Option.map_eq_some_iff.mp hstep
  exact ⟨t, h, t', hr, ht, accounts_truthful boot_booted hr ht ha⟩

/-- One timer interrupt while the child runs: its creation time moves, and its run time stays
zero. -/
theorem accounts_ticked : ∃ t h t',
    run trace (booted, .start booted) (childRuns [.timer 0]) = some (t, h) ∧
      step t (.schedule 0 0) = some t' ∧ t.reaps (.schedule 0 0) = some (0, 1) ∧
      (t.proc 1).ctime = 1 ∧ h.born 1 = 0 ∧ (t.proc 1).ttime = 0 ∧ h.ran 1 = 1 ∧
      ¬ h.Truthful 1 (t.proc 1) := by
  obtain ⟨⟨t, h⟩, hr⟩ := Option.isSome_iff_exists.mp
    (by decide +kernel : (run trace (booted, .start booted) (childRuns [.timer 0])).isSome)
  have hall : (run trace (booted, .start booted) (childRuns [.timer 0])).all (fun x =>
      (step x.1 (.schedule 0 0)).isSome ∧ x.1.reaps (.schedule 0 0) = some (0, 1) ∧
        (x.1.proc 1).ctime = 1 ∧ x.2.born 1 = 0 ∧ (x.1.proc 1).ttime = 0 ∧ x.2.ran 1 = 1 ∧
        ¬ x.2.Truthful 1 (x.1.proc 1)) = true := by decide +kernel
  rw [hr, Option.all_some, decide_eq_true_iff] at hall
  obtain ⟨hs, hall⟩ := hall
  obtain ⟨t', ht⟩ := Option.isSome_iff_exists.mp hs
  exact ⟨t, h, t', hr, ht, hall⟩

end Xv6.Process
