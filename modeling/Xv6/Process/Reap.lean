import Xv6.Process.Pids
import Xv6.Process.Waits

/-! Every zombie can be reaped, once.

The family of processes is in order along every run, so a zombie has a parent that can
wait for it, and it stays a zombie until the parent does. -/
namespace Xv6.Process
open Lib

variable {s s' : Sys} {h : History} {p q n : Slot} {a : Action}

/-! ### A zombie stays until its parent takes it -/

theorem stays_of_one (hs : ∀ q, s'.proc q = if q = n then r else s.proc q)
    (hn : (s.proc n).state ≠ .ZOMBIE) (hq : (s.proc q).state = .ZOMBIE) :
    (s'.proc q).state = .ZOMBIE ∧ (s'.proc q).pid = (s.proc q).pid := by
  have hne : q ≠ n := fun h => hn (h ▸ hq)
  rw [hs, if_neg hne]
  exact ⟨hq, rfl⟩

theorem stays_wakeup1 (chan : Option Chan) (hq : (s.proc q).state = .ZOMBIE) :
    ((s.wakeup1 chan).proc q).state = .ZOMBIE ∧ ((s.wakeup1 chan).proc q).pid = (s.proc q).pid := by
  rw [Sys.wakeup1_proc, if_neg fun h => by rw [hq] at h; cases h.1]
  exact ⟨hq, rfl⟩

theorem stays_idle (kids : Bool) (hp : s.Running p) (hq : (s.proc q).state = .ZOMBIE) :
    ((s.idle p c kids).1.proc q).state = .ZOMBIE ∧
      ((s.idle p c kids).1.proc q).pid = (s.proc q).pid := by
  rw [Sys.idle]
  split
  · exact ⟨hq, rfl⟩
  · exact stays_of_one (Sys.sleep_proc (s := s) (p := p) (.proc p)) (by rw [hp]; decide) hq

theorem stays_reap (hq : (s.proc q).state = .ZOMBIE) :
    (((s.reap r).proc q).state = .ZOMBIE ∧ ((s.reap r).proc q).pid = (s.proc q).pid) ∨ q = r := by
  rw [Sys.reap_proc]
  split
  · exact .inr ‹_›
  · exact .inl ⟨hq, rfl⟩

theorem stays_wait (hp : s.Running p) (hq : (s.proc q).state = .ZOMBIE) :
    (((s.wait p).1.proc q).state = .ZOMBIE ∧ ((s.wait p).1.proc q).pid = (s.proc q).pid) ∨
      s.child p = some q := by
  rw [Sys.wait_eq]
  split
  · rename_i r hr
    exact (stays_reap hq).imp_right fun h => by rw [hr, h]
  · exact .inl (stays_idle _ hp hq)

theorem stays_new_wait (a b c : Nat) (hp : s.Running p) (hq : (s.proc q).state = .ZOMBIE) :
    (((s.new_wait p a b c).1.proc q).state = .ZOMBIE ∧
      ((s.new_wait p a b c).1.proc q).pid = (s.proc q).pid) ∨ s.child p = some q := by
  rw [Sys.new_wait_eq]
  split
  · rename_i r hr
    exact (stays_reap hq).imp_right fun h => by rw [hr, h]
  · exact .inl (stays_idle _ hp hq)

theorem stays_schedule (c : Nat) (hp : (s.proc p).state = .RUNNABLE)
    (hq : (s.proc q).state = .ZOMBIE) :
    (((s.schedule c p).proc q).state = .ZOMBIE ∧ ((s.schedule c p).proc q).pid = (s.proc q).pid) ∨
      s.reaps (.schedule c p) = some (p, q) := by
  have hpick := Sys.pick_proc (s := s) (p := p) c
  have hrun : (s.pick c p).Running p := by rw [Sys.Running, hpick, if_pos rfl]
  obtain ⟨hz, hpid⟩ := stays_of_one hpick (by rw [hp]; decide) hq
  rcases s.schedule_cases c p with ⟨hpc, hs⟩ | ⟨a, b, d, hpc, hs⟩ | ⟨_, _, hs⟩ <;> rw [hs, ← hpid]
  · refine (stays_wait hrun hz).imp_right fun h => ?_
    rw [Sys.pick_child hp] at h
    simp only [Sys.reaps, hpc, h, Option.map_some]
  · refine (stays_new_wait a b d hrun hz).imp_right fun h => ?_
    rw [Sys.pick_child hp] at h
    simp only [Sys.reaps, hpc, h, Option.map_some]
  · exact .inl ⟨hz, rfl⟩

theorem stays_exit (hp : s.Running p) (hq : (s.proc q).state = .ZOMBIE) :
    ((s.exit p).proc q).state = .ZOMBIE ∧ ((s.exit p).proc q).pid = (s.proc q).pid := by
  obtain ⟨hz, hpid⟩ := stays_wakeup1 ((s.proc p).parent.map .proc) hq
  have h := Sys.passed p (List.finRange NPROC) (s.wakeup1 ((s.proc p).parent.map .proc))
  have hne : q ≠ p := by
    rintro rfl
    rw [hp] at hq
    cases hq
  rw [Sys.exit_proc, if_neg hne, ← hpid]
  refine ⟨?_, by rw [Sys.leave, h.proc q]⟩
  rcases h.state q with hs | ⟨hs, _⟩
  · exact hs.trans hz
  · rw [hz] at hs
    cases hs

theorem zombie_stays (hk : s.family.Kin) (hs : step s a = some s') (hq : (s.proc q).state = .ZOMBIE) :
    ((s'.proc q).state = .ZOMBIE ∧ (s'.proc q).pid = (s.proc q).pid) ∨
      ∃ p, s.reaps a = some (p, q) := by
  have hnew : ∀ {p n}, (s.pc p).work.new = some n → (s.proc n).state ≠ .ZOMBIE := fun {p n} hp => by
    rw [ProcState.life_embryo.mp (hk.embryo p n hp)]
    decide
  cases a with
  | fork p =>
    obtain ⟨_, rfl⟩ := Sys.of_when hs
    rcases s.allocproc_cases p with ⟨_, hs⟩ | ⟨n, hn, hs⟩ <;> rw [hs]
    · exact .inl ⟨hq, rfl⟩
    · exact .inl (stays_of_one Sys.take_proc (by rw [hn]; decide) hq)
  | stack p a =>
    obtain ⟨n, hn, _, rfl⟩ := of_stack hs
    have hz := hnew (p := p) (n := n) (by rw [hn]; rfl)
    by_cases ha : a = 0
    · subst ha
      exact .inl (stays_of_one Sys.allocstack_zero_proc hz hq)
    · exact .inl (stays_of_one (Sys.allocstack_proc ha) hz hq)
  | copy p d =>
    obtain ⟨n, hn, hp, rfl⟩ := of_copy hs
    have hz := hnew (p := p) (n := n) (by rw [hn]; rfl)
    by_cases hd : d = 0
    · subst hd
      exact .inl (stays_of_one Sys.forkcopy_zero_proc hz hq)
    · have hne : p ≠ n := by
        rintro rfl
        have := ProcState.life_embryo.mp (hk.embryo p p (by
          rw [show s.family.work p = .making p from congrArg Pc.work hn]; rfl))
        rw [hp] at this
        cases this
      have hqp : q ≠ p := by
        rintro rfl
        rw [hp] at hq
        cases hq
      have hqn : q ≠ n := fun h => hz (h ▸ hq)
      rw [Sys.forkcopy_proc hd hne, if_neg hqp, if_neg hqn]
      exact .inl ⟨hq, rfl⟩
  | forked p =>
    obtain ⟨n, hn, _, rfl⟩ := of_forked hs
    exact .inl (stays_of_one Sys.forkdone_proc (hnew (p := p) (by rw [hn]; rfl)) hq)
  | exit p =>
    obtain ⟨_, _, rfl⟩ := of_exit hs
    exact .inl ⟨hq, rfl⟩
  | zombie p =>
    obtain ⟨hp, rfl⟩ := Sys.of_when hs
    exact .inl (stays_exit hp.1 hq)
  | wait p =>
    obtain ⟨hp, rfl⟩ := Sys.of_when hs
    exact (stays_wait hp.1 hq).imp_right fun h => ⟨p, by rw [Sys.reaps, h, Option.map_some]⟩
  | new_wait p a b c =>
    obtain ⟨hp, rfl⟩ := Sys.of_when hs
    exact (stays_new_wait a b c hp.1 hq).imp_right fun h => ⟨p, by rw [Sys.reaps, h, Option.map_some]⟩
  | kill p pid =>
    obtain ⟨_, rfl⟩ := Sys.of_when hs
    rcases s.kill_cases pid with ⟨_, h⟩ | ⟨r, _, h⟩ <;> rw [h]
    · exact .inl ⟨hq, rfl⟩
    · rw [Sys.upd_proc]
      split
      · rename_i he
        rw [← he, Sys.mark, if_neg (by rw [hq]; decide)]
        exact .inl ⟨hq, rfl⟩
      · exact .inl ⟨hq, rfl⟩
  | sleep p a =>
    obtain ⟨hp, rfl⟩ := Sys.of_whenRunning hs
    exact .inl (stays_of_one (Sys.sleep_proc _) (by rw [hp]; decide) hq)
  | sleepTicks p =>
    obtain ⟨hp, rfl⟩ := Sys.of_whenRunning hs
    exact .inl (stays_of_one (Sys.sleep_proc _) (by rw [hp]; decide) hq)
  | wakeup a =>
    cases hs
    exact .inl (stays_wakeup1 _ hq)
  | yield p =>
    obtain ⟨hp, rfl⟩ := Sys.of_whenRunning hs
    exact .inl (stays_of_one Sys.yield_proc (by rw [hp]; decide) hq)
  | schedule c p =>
    obtain ⟨hp, rfl⟩ := of_schedule hs
    exact (stays_schedule c hp.2 hq).imp_right fun h => ⟨p, h⟩
  | timer c =>
    cases hs
    refine .inl ?_
    by_cases hc : c = 0
    · subst hc
      obtain ⟨hz, hpid⟩ := stays_wakeup1 (s := {s with ticks := s.ticks + 1}) (some .ticks) hq
      rcases s.timer_cases with ⟨_, hs⟩ | ⟨p, _, hs⟩ <;> rw [hs]
      · exact ⟨hz, hpid⟩
      · rw [Sys.upd_proc]
        split
        · rename_i he
          rw [← he]
          exact ⟨hz, hpid⟩
        · exact ⟨hz, hpid⟩
    · rw [Sys.timer, if_neg hc]
      exact ⟨hq, rfl⟩

/-! ### Every run -/

/-- The process is asleep inside `wait` or `new_wait`. -/
def Sys.AsleepInWait (s : Sys) (p : Slot) : Prop :=
  (s.proc p).state = .SLEEPING ∧ (s.pc p = .waiting ∨ ∃ a b c, s.pc p = .newWaiting a b c)

/-- What holds of the table whenever `ptable.lock` is free. -/
structure Orderly (s : Sys) (h : History) : Prop where
  positive : ∀ q, (s.proc q).state ≠ .UNUSED → 0 < (s.proc q).pid.toInt
  distinct : ∀ q r, (s.proc q).state ≠ .UNUSED → (s.proc r).state ≠ .UNUSED →
    (s.proc q).pid = (s.proc r).pid → q = r
  parent : ∀ q, q ≠ s.initproc → (s.proc q).state ≠ .UNUSED → (s.proc q).state ≠ .EMBRYO →
    ∃ p, (s.proc q).parent = some p ∧ (s.proc p).state ∈ [.SLEEPING, .RUNNABLE, .RUNNING]
  unused : ∀ q, (s.proc q).state = .UNUSED → (s.proc q).parent = none
  once : h.reaped.Nodup
  awake : ∀ p q, s.AsleepInWait p → ¬ s.ZombieOf p q

/-- What every step keeps; pids are in order as long as there are fewer than 2^31 of them. -/
structure Ordered (s : Sys) (h : History) : Prop where
  kin : s.family.Kin
  waits : s.Waits
  pids : h.allocs + 1 < 2 ^ 31 - 1 → Pids s h

theorem Ordered.start (hb : Boot s p) : Ordered s (.start s) where
  kin := kin_boot hb
  waits q hq := by
    rw [hb.pc] at hq
    cases hq
  pids _ := by
    have hused : ∀ q, (s.proc q).state ≠ .UNUSED → q = p := fun q hq => by
      by_contra hne
      exact hq (hb.other q hne).1
    have hnext : s.nextpid.toNat = 2 := by rw [hb.nextpid]; rfl
    refine ⟨hnext, fun q hq => ?_, fun q r hq hr _ => (hused q hq).trans (hused r hr).symm,
      fun x hx => absurd hx List.not_mem_nil, List.nodup_nil⟩
    rw [hused q hq, hb.pid, hnext]
    decide

theorem allocs_le_observe (h : History) (s : Sys) (a : Action) (s' : Sys) :
    h.allocs ≤ (h.observe s a s').allocs := by
  by_cases hf : ∃ p, a = .fork p
  · obtain ⟨p, rfl⟩ := hf
    rw [History.observe]
    split
    · exact Nat.le_succ _
    · exact le_rfl
  · exact (h.observe_reaped fun p he => hf ⟨p, he⟩).1.ge

theorem Ordered.step (ho : Ordered s h) (hs : step s a = some s') : Ordered s' (h.observe s a s') where
  kin := Kin.step ho.kin hs
  waits := waits_step ho.kin ho.waits hs
  pids hsmall := by
    have hle := allocs_le_observe h s a s'
    exact pids_step ho.kin (ho.pids (by omega)) hs (by omega)

theorem Ordered.orderly (ho : Ordered s h) (hsmall : h.allocs + 1 < 2 ^ 31 - 1) : Orderly s h where
  positive q hq := by
    have hp := ho.pids hsmall
    have := hp.bound q hq
    have hn := hp.next
    rw [BitVec.toInt_eq_toNat_of_lt (by omega)]
    omega
  distinct := (ho.pids hsmall).distinct
  parent q hq hu he := by
    have hlife : (s.proc q).state.life = .alive ∨ (s.proc q).state.life = .zombie := by
      cases hs : (s.proc q).state with
      | UNUSED => exact absurd hs hu
      | EMBRYO => exact absurd hs he
      | ZOMBIE => exact .inr rfl
      | SLEEPING | RUNNABLE | RUNNING => exact .inl rfl
    obtain ⟨p, hp, hl⟩ := ho.kin.parent q hlife hq
    refine ⟨p, hp, ?_⟩
    have hl : (s.proc p).state.life = .alive := hl
    cases hs : (s.proc p).state with
    | SLEEPING | RUNNABLE | RUNNING => decide
    | UNUSED | EMBRYO | ZOMBIE =>
      rw [hs] at hl
      cases hl
  unused q hq := ho.kin.free q (congrArg ProcState.life hq)
  once := (ho.pids hsmall).nodup
  awake p q hp hz := by
    have hwork : (s.pc p).work = .waiting := by
      rcases hp.2 with hpc | ⟨a, b, c, hpc⟩ <;> rw [hpc] <;> rfl
    rcases ho.waits p hwork with hr | ⟨_, _, hn⟩
    · rw [hp.1] at hr
      cases hr
    · exact hn q hz

/-! ### The pids that `wait` and `new_wait` answer -/

def Sys.Waited.pid : Waited → Option (BitVec 32)
  | .reaped pid => some pid
  | .failed => none
  | .asleep => none

/-- The pid that a call of `wait` or `new_wait` answers in a step. -/
def Sys.answers (s : Sys) : Action → Option (BitVec 32)
  | .wait p => (s.wait p).2.pid
  | .new_wait p create_time stop_time run_time => (s.sys_new_wait p create_time stop_time run_time).2.pid
  | .schedule c p =>
    -- a call that slept goes on with another pass
    match s.pc p with
    | .waiting => ((s.pick c p).wait p).2.pid
    | .newWaiting create_time run_time stop_time =>
      ((s.pick c p).new_wait p create_time run_time stop_time).2.pid
    | _ => none
  | _ => none

theorem idle_pid (s : Sys) (p : Slot) (c : Pc) (kids : Bool) : (s.idle p c kids).2.pid = none := by
  rw [Sys.idle]
  split <;> rfl

theorem wait_pid (s : Sys) (p : Slot) :
    (s.wait p).2.pid = (s.child p).map fun q => (s.proc q).pid := by
  rw [Sys.wait_eq]
  cases s.child p with
  | some q => rfl
  | none => exact idle_pid ..

theorem new_wait_pid (s : Sys) (p : Slot) (create_time run_time stop_time : Nat) :
    (s.new_wait p create_time run_time stop_time).2.pid = (s.child p).map fun q => (s.proc q).pid := by
  rw [Sys.new_wait_eq]
  cases s.child p with
  | some q => rfl
  | none => exact idle_pid ..

/-- The pid answered is that of the child the step takes. -/
theorem answers_eq (hs : step s a = some s') :
    s.answers a = (s.reaps a).map fun x => (s.proc x.2).pid := by
  cases a with
  | wait p =>
    rw [Sys.answers, wait_pid, Sys.reaps, Option.map_map]
    rfl
  | new_wait p create_time stop_time run_time =>
    rw [Sys.answers, Sys.sys_new_wait, new_wait_pid, Sys.reaps, Option.map_map]
    rfl
  | schedule c p =>
    obtain ⟨⟨_, hrun⟩, _⟩ := of_schedule hs
    have hpid : (fun q => ((s.pick c p).proc q).pid) = fun q => (s.proc q).pid := by
      funext q
      rw [Sys.pick_proc]
      split
      · rename_i hq
        rw [hq]
      · rfl
    cases hp : s.pc p with
    | waiting =>
      simp only [Sys.answers, Sys.reaps, hp, wait_pid, Sys.pick_child hrun, hpid, Option.map_map]
      rfl
    | newWaiting =>
      simp only [Sys.answers, Sys.reaps, hp, new_wait_pid, Sys.pick_child hrun, hpid, Option.map_map]
      rfl
    | _ => simp only [Sys.answers, Sys.reaps, hp, Option.map_none]
  | _ => rfl

/-- The observer writes down the pids answered. -/
theorem observe_answers (h : History) (hs : step s a = some s') :
    (h.observe s a s').reaped = (s.answers a).toList ++ h.reaped := by
  by_cases hf : ∃ p, a = .fork p
  · obtain ⟨p, rfl⟩ := hf
    rw [History.observe]
    split <;> rfl
  · rw [(h.observe_reaped fun p he => hf ⟨p, he⟩).2, answers_eq hs]
    cases s.reaps a <;> rfl

/-! ### Along every run -/

/-- **Every zombie can be reaped, once.** After every run of fewer than 2^31 - 1 process
allocations the table is in order; a step reaps a process only for the one that is its parent
then, with its pid as the answer of `wait` or `new_wait`, and every other step leaves a zombie as
it is. No pid is answered twice. -/
theorem zombies_reaped {t : Sys} {as : List Action} (hb : Boot s p)
    (hr : run trace (s, .start s) as = some (t, h)) (hsmall : h.allocs + 1 < 2 ^ 31 - 1) :
    Orderly t h ∧ ∀ a t', step t a = some t' →
      t.answers a = (t.reaps a).map (fun x => (t.proc x.2).pid) ∧
      (h.observe t a t').reaped = (t.answers a).toList ++ h.reaped ∧
      (∀ p q, t.reaps a = some (p, q) → t.ZombieOf p q ∧ (t'.proc q).state = .UNUSED) ∧
      ∀ q, (t.proc q).state = .ZOMBIE → (∀ p, t.reaps a ≠ some (p, q)) →
        (t'.proc q).state = .ZOMBIE ∧ (t'.proc q).pid = (t.proc q).pid := by
  have ho : Ordered t h := by
    refine run_invariant (I := fun _ x => Ordered x.1 x.2) (.start hb) (fun _ x a x' hx ha => ?_) hr
    obtain ⟨s', hs, rfl⟩ := Option.map_eq_some_iff.mp ha
    exact hx.step hs
  refine ⟨ho.orderly hsmall, fun a t' ht => ⟨answers_eq ht, observe_answers h ht,
    fun p q hq => reaps_spec ht hq, fun q hq hno => ?_⟩⟩
  exact (zombie_stays ho.kin ht hq).resolve_right fun ⟨p, hp⟩ => hno p hp

theorem zombies_reaped_child : ∃ t h,
    run trace (booted, .start booted) (childRuns []) = some (t, h) ∧ (t.proc 1).state = .ZOMBIE ∧
      Orderly t h ∧ ∀ a t', step t a = some t' →
      t.answers a = (t.reaps a).map (fun x => (t.proc x.2).pid) ∧
      (h.observe t a t').reaped = (t.answers a).toList ++ h.reaped ∧
      (∀ p q, t.reaps a = some (p, q) → t.ZombieOf p q ∧ (t'.proc q).state = .UNUSED) ∧
      ∀ q, (t.proc q).state = .ZOMBIE → (∀ p, t.reaps a ≠ some (p, q)) →
        (t'.proc q).state = .ZOMBIE ∧ (t'.proc q).pid = (t.proc q).pid := by
  obtain ⟨⟨t, h⟩, hr⟩ := Option.isSome_iff_exists.mp
    (by decide +kernel : (run trace (booted, .start booted) (childRuns [])).isSome)
  have hall : (run trace (booted, .start booted) (childRuns [])).all (fun x =>
      (x.1.proc 1).state = .ZOMBIE ∧ x.2.allocs = 1) = true := by decide +kernel
  rw [hr, Option.all_some, decide_eq_true_iff] at hall
  exact ⟨t, h, hr, hall.1, zombies_reaped boot_booted hr (by rw [hall.2]; decide)⟩

end Xv6.Process
