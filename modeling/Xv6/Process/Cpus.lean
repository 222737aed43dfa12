import Xv6.Process.Waits

/-! Which processor runs which process.

The machine of `Machine.lean` says which process takes a step. Here a step is also taken on
a processor: the code of a process runs where `c->proc` is that process, whatever its state,
and a processor writes its own `c->proc` only. A processor whose `c->proc` is null is in its
scheduler. -/
namespace Xv6.Process
open Lib Function

/-! ### Steps on a processor -/

/-- The process whose code an action is. The other actions are the scheduler's, or those
of an interrupt. -/
def Action.actor : Action → Option Slot
  | .fork p | .stack p _ | .copy p _ | .forked p | .exit p | .zombie p | .wait p
  | .new_wait p _ _ _ | .kill p _ | .sleep p _ | .sleepTicks p | .yield p => some p
  | .wakeup _ | .schedule _ _ | .timer _ => none

/-- The processor that an action names. -/
def Action.processor : Action → Option Nat
  | .schedule c _ | .timer c => some c
  | _ => none

/-- Processor `c` can come to the code of the action. -/
def Action.on (a : Action) (s : Sys) (c : Nat) : Bool :=
  a.actor.all (fun p => s.cpu c = some p) && a.processor.all (· = c)

/-- A process is at `c` in its code, and goes on to `t`. -/
def Sys.from (s : Sys) (p : Slot) (c : Pc) (t : Sys) : Option Sys :=
  if s.pc p = c then some t else none

/-- The code of an action: a process goes on from where it is. -/
def Sys.code (s : Sys) : Action → Option Sys
  | .fork p => s.from p .out (s.allocproc p)
  | .stack p a =>
    match s.pc p with
    | .allocated n => some (s.allocstack p n a)
    | _ => none
  | .copy p d =>
    match s.pc p with
    | .stacked n => some (s.forkcopy p n d)
    | _ => none
  | .forked p =>
    match s.pc p with
    | .copied n => some (s.forkdone p n)
    | _ => none
  | .exit p => if p = s.initproc then none else s.from p .out (s.goto p .exiting)
  | .zombie p => s.from p .exiting (s.exit p)
  | .wait p => s.from p .out (s.wait p).1
  | .new_wait p create_time stop_time run_time =>
    s.from p .out (s.sys_new_wait p create_time stop_time run_time).1
  | .kill p pid => s.from p .out (s.kill pid).1
  | .sleep p a => some (s.sleep p (.other a))
  | .sleepTicks p => some (s.sleep p .ticks)
  | .wakeup a => some (s.wakeup1 (some (.other a)))
  | .yield p => some (s.yield p)
  | .schedule c p =>
    if s.cpu c = none ∧ (s.proc p).state = .RUNNABLE then some (s.schedule c p) else none
  | .timer c => some (s.timer c)

/-- A processor executes the code of an action. It leaves the `c->proc` of the others alone. -/
def execute (s : Sys) (e : Nat × Action) : Option Sys :=
  if e.2.on s e.1 then
    (s.code e.2).map fun t => {t with cpu := update s.cpu e.1 (t.cpu e.1)}
  else none

/-- A process that runs is where its code is executed. -/
theorem step_of_code (hrun : ∀ p, a.actor = some p → s.Running p)
    (h : s.code a = some t) : step s a = some t := by
  have hwhen : ∀ {p c t'}, s.Running p → s.from p c t' = some t → s.when p c t' = some t := by
    intro p c t' hp ht
    rw [Sys.from] at ht
    split at ht
    · rename_i hc
      rw [Sys.when, if_pos ⟨hp, hc⟩, ht]
    · cases ht
  have hgo : ∀ {p t'}, s.Running p → some t' = some t → s.whenRunning p t' = some t := by
    intro p t' hp ht
    rw [Sys.whenRunning, if_pos hp, ht]
  cases a with
  | fork p | zombie p | wait p => exact hwhen (hrun p rfl) h
  | new_wait p | kill p => exact hwhen (hrun p rfl) h
  | sleep p | sleepTicks p | yield p => exact hgo (hrun p rfl) h
  | stack p a =>
    rw [Sys.code] at h
    rw [step]
    cases hn : s.pc p with
    | allocated n =>
      rw [hn] at h
      exact hgo (hrun p rfl) h
    | _ =>
      rw [hn] at h
      cases h
  | copy p d =>
    rw [Sys.code] at h
    rw [step]
    cases hn : s.pc p with
    | stacked n =>
      rw [hn] at h
      exact hgo (hrun p rfl) h
    | _ =>
      rw [hn] at h
      cases h
  | forked p =>
    rw [Sys.code] at h
    rw [step]
    cases hn : s.pc p with
    | copied n =>
      rw [hn] at h
      exact hgo (hrun p rfl) h
    | _ =>
      rw [hn] at h
      cases h
  | exit p =>
    rw [Sys.code] at h
    rw [step]
    split at h
    · cases h
    · rename_i hp
      rw [if_neg hp]
      exact hwhen (hrun p rfl) h
  | wakeup | schedule | timer => exact h

/-! ### What a step does to the states -/

/-- The transitions of a process. -/
def Allowed : ProcState → ProcState → Bool
  | .UNUSED, .EMBRYO => true
  | .EMBRYO, .RUNNABLE | .EMBRYO, .UNUSED => true
  | .RUNNABLE, .RUNNING => true
  | .RUNNING, .RUNNABLE | .RUNNING, .SLEEPING | .RUNNING, .ZOMBIE => true
  | .SLEEPING, .RUNNABLE => true
  | .ZOMBIE, .UNUSED => true
  | _, _ => false

/-- Each process keeps its state or makes one transition. -/
def Sys.Changes (s s' : Sys) : Prop :=
  ∀ q, (s'.proc q).state = (s.proc q).state ∨ Allowed (s.proc q).state (s'.proc q).state

/-- Each process makes at most one transition in a step, except that a process the scheduler
picks may make its next one before the lock is free: it looks for children again in `wait`. -/
def Transits (s : Sys) (e : Nat × Action) (s' : Sys) : Prop :=
  s.Changes s' ∨ ∃ p, e.2 = .schedule e.1 p ∧ s.Changes (s.pick e.1 p) ∧ (s.pick e.1 p).Changes s'

/-- A process keeps its state or changes it without being run. -/
def Aside (x y : ProcState) : Prop := y = x ∨ (Allowed x y ∧ x ≠ .RUNNING ∧ y ≠ .RUNNING)

/-- The processors go on with what they run. -/
structure Quiet (s t : Sys) : Prop where
  cpu : t.cpu = s.cpu
  state : ∀ q, Aside (s.proc q).state (t.proc q).state

/-- A process has given up its processor. -/
structure Leaves (s : Sys) (p : Slot) (t : Sys) : Prop where
  cpu : t.cpu = (s.sched p).cpu
  self : Allowed .RUNNING (t.proc p).state
  state : ∀ q, q ≠ p → Aside (s.proc q).state (t.proc q).state

section Sections
variable {s t : Sys} {p q n : Slot}

theorem Aside.changes (h : Aside x y) : y = x ∨ Allowed x y :=
  h.imp_right And.left

theorem Aside.running (h : Aside x y) : y = .RUNNING ↔ x = .RUNNING := by
  rcases h with rfl | ⟨_, hx, hy⟩
  · exact Iff.rfl
  · exact iff_of_false hy hx

theorem Leaves.stopped (h : Leaves s p t) : ¬ t.Running p := fun hp => by
  have hself := h.self
  rw [hp] at hself
  cases hself

theorem Quiet.refl (s : Sys) : Quiet s s := ⟨rfl, fun _ => .inl rfl⟩

theorem Quiet.of_one (hs : ∀ q, t.proc q = if q = n then r else s.proc q)
    (hcpu : t.cpu = s.cpu) (hr : Aside (s.proc n).state r.state) : Quiet s t := by
  refine ⟨hcpu, fun q => ?_⟩
  rw [hs]
  split
  · rename_i hq
    rw [hq]
    exact hr
  · exact .inl rfl

theorem Leaves.of_one (hs : ∀ q, t.proc q = if q = p then r else s.proc q)
    (hcpu : t.cpu = (s.sched p).cpu) (hr : Allowed .RUNNING r.state) : Leaves s p t := by
  refine ⟨hcpu, ?_, fun q hq => .inl ?_⟩
  · rw [hs, if_pos rfl]
    exact hr
  · rw [hs, if_neg hq]

theorem quiet_wakeup1 (s : Sys) (chan : Option Chan) : Quiet s (s.wakeup1 chan) := by
  refine ⟨rfl, fun q => ?_⟩
  rw [Sys.wakeup1_proc]
  split
  · rename_i h
    rw [h.1]
    exact .inr ⟨rfl, nofun, nofun⟩
  · exact .inl rfl

theorem quiet_allocproc (s : Sys) (p : Slot) : Quiet s (s.allocproc p) := by
  rcases s.allocproc_cases p with ⟨_, h⟩ | ⟨n, hn, h⟩ <;> rw [h]
  · exact .refl s
  · refine Quiet.of_one Sys.take_proc rfl ?_
    rw [hn]
    exact .inr ⟨rfl, nofun, nofun⟩

theorem quiet_allocstack (a : Nat) (hn : (s.proc n).state = .EMBRYO) : Quiet s (s.allocstack p n a) := by
  by_cases ha : a = 0
  · subst ha
    refine Quiet.of_one Sys.allocstack_zero_proc rfl ?_
    rw [hn]
    exact .inr ⟨rfl, nofun, nofun⟩
  · refine Quiet.of_one (Sys.allocstack_proc ha) ?_ (.inl rfl)
    rw [Sys.allocstack, if_neg ha]
    rfl

theorem quiet_forkcopy (d : Nat) (hn : (s.proc n).state = .EMBRYO) : Quiet s (s.forkcopy p n d) := by
  by_cases hd : d = 0
  · subst hd
    refine Quiet.of_one Sys.forkcopy_zero_proc rfl ?_
    rw [hn]
    exact .inr ⟨rfl, nofun, nofun⟩
  · refine ⟨?_, fun q => .inl (Sys.forkcopy_fields hd q).2.2.2.1⟩
    rw [Sys.forkcopy, if_neg hd]
    rfl

theorem quiet_forkdone (hn : (s.proc n).state = .EMBRYO) : Quiet s (s.forkdone p n) := by
  refine Quiet.of_one Sys.forkdone_proc rfl ?_
  rw [hn]
  exact .inr ⟨rfl, nofun, nofun⟩

theorem quiet_kill (s : Sys) (pid : BitVec 32) : Quiet s (s.kill pid).1 := by
  rcases s.kill_cases pid with ⟨_, h⟩ | ⟨q, _, h⟩ <;> rw [h]
  · exact .refl s
  · refine Quiet.of_one (fun r => s.upd_proc q r Sys.mark) rfl ?_
    show Aside (s.proc q).state (if (s.proc q).state = .SLEEPING then .RUNNABLE else (s.proc q).state)
    split
    · rename_i h
      rw [h]
      exact .inr ⟨rfl, nofun, nofun⟩
    · exact .inl rfl

theorem quiet_timer (s : Sys) (c : Nat) : Quiet s (s.timer c) := by
  by_cases hc : c = 0
  · subst hc
    have hwake := quiet_wakeup1 {s with ticks := s.ticks + 1} (some .ticks)
    rcases s.timer_cases with ⟨_, h⟩ | ⟨p, _, h⟩ <;> rw [h]
    · exact ⟨hwake.cpu, hwake.state⟩
    · refine ⟨hwake.cpu, fun q => ?_⟩
      rw [Sys.upd_proc]
      split
      · rename_i hq
        rw [hq]
        exact hwake.state p
      · exact hwake.state q
  · rw [Sys.timer, if_neg hc]
    exact .refl s

theorem leaves_sleep (chan : Chan) : Leaves s p (s.sleep p chan) :=
  .of_one (Sys.sleep_proc chan) rfl rfl

theorem leaves_yield : Leaves s p (s.yield p) := .of_one Sys.yield_proc rfl rfl

/-- The children of a process that exits are passed on, and its parent is told. -/
theorem aside_leave (s : Sys) (p q : Slot) : Aside (s.proc q).state ((s.leave p).proc q).state := by
  have hwake := (quiet_wakeup1 s ((s.proc p).parent.map .proc)).state q
  rcases (Sys.passed p (List.finRange NPROC) (s.wakeup1 ((s.proc p).parent.map .proc))).state q
    with h | ⟨h1, _, h⟩
  · rw [Sys.leave, h]
    exact hwake
  · -- A sleeper of the woken table slept before.
    have hs : (s.proc q).state = .SLEEPING := by
      rw [Sys.wakeup1_proc] at h1
      split at h1
      · cases h1
      · exact h1
    rw [Sys.leave, h, hs]
    exact .inr ⟨rfl, nofun, nofun⟩

theorem leaves_exit (s : Sys) (p : Slot) : Leaves s p (s.exit p) := by
  refine ⟨?_, ?_, fun q hq => ?_⟩
  · show ((s.leave p).sched p).cpu = _
    rw [Sys.sched, Sys.sched, (s.leave_rest p).cpu]
  · rw [Sys.exit_proc, if_pos rfl]
    rfl
  · rw [Sys.exit_proc, if_neg hq]
    exact aside_leave s p q

theorem idle_quiet_or_leaves (c : Pc) (kids : Bool) :
    Quiet s (s.idle p c kids).1 ∨ Leaves s p (s.idle p c kids).1 := by
  rw [Sys.idle]
  split
  · exact .inl ⟨rfl, fun _ => .inl rfl⟩
  · exact .inr (.of_one (Sys.sleep_proc _) rfl rfl)

theorem quiet_reap (hq : (s.proc q).state = .ZOMBIE) : Quiet s (s.reap q) := by
  refine Quiet.of_one Sys.reap_proc rfl ?_
  rw [hq]
  exact .inr ⟨rfl, nofun, nofun⟩

theorem wait_quiet_or_leaves : Quiet s (s.wait p).1 ∨ Leaves s p (s.wait p).1 := by
  rw [Sys.wait_eq]
  split
  · rename_i q hq
    have h := quiet_reap (Sys.zombieOf_child hq).2
    exact .inl ⟨h.cpu, h.state⟩
  · exact idle_quiet_or_leaves _ _

theorem new_wait_quiet_or_leaves (a b c : Nat) :
    Quiet s (s.new_wait p a b c).1 ∨ Leaves s p (s.new_wait p a b c).1 := by
  rw [Sys.new_wait_eq]
  split
  · rename_i q hq
    have h := quiet_reap (Sys.zombieOf_child hq).2
    exact .inl ⟨h.cpu, h.state⟩
  · exact idle_quiet_or_leaves _ _

theorem schedule_quiet_or_leaves (c : Nat) :
    Quiet (s.pick c p) (s.schedule c p) ∨ Leaves (s.pick c p) p (s.schedule c p) := by
  rcases Sys.schedule_cases s c p with ⟨_, h⟩ | ⟨a, b, d, _, h⟩ | ⟨_, _, h⟩ <;> rw [h]
  · exact wait_quiet_or_leaves
  · exact new_wait_quiet_or_leaves a b d
  · exact .inl (.refl _)

/-- What a step does to the processors and to the states. -/
theorem step_moves (hk : s.family.Kin) (hs : step s a = some t) :
    Quiet s t ∨ (∃ p, a.actor = some p ∧ s.Running p ∧ Leaves s p t) ∨
      ∃ c p, a = .schedule c p ∧ s.cpu c = none ∧ (s.proc p).state = .RUNNABLE ∧
        (Quiet (s.pick c p) t ∨ Leaves (s.pick c p) p t) := by
  have hnew : ∀ {p n c}, s.pc p = c → c.work.new = some n → (s.proc n).state = .EMBRYO :=
    fun hc hn => (embryo_of_new hk (by rw [hc]; exact hn)).1
  cases a with
  | fork p =>
    obtain ⟨_, rfl⟩ := Sys.of_when hs
    exact .inl (quiet_allocproc s p)
  | stack p a =>
    obtain ⟨n, hn, _, rfl⟩ := of_stack hs
    exact .inl (quiet_allocstack a (hnew hn rfl))
  | copy p d =>
    obtain ⟨n, hn, _, rfl⟩ := of_copy hs
    exact .inl (quiet_forkcopy d (hnew hn rfl))
  | forked p =>
    obtain ⟨n, hn, _, rfl⟩ := of_forked hs
    exact .inl (quiet_forkdone (hnew hn rfl))
  | exit p =>
    obtain ⟨_, _, rfl⟩ := of_exit hs
    exact .inl ⟨rfl, fun _ => .inl rfl⟩
  | zombie p =>
    obtain ⟨hp, rfl⟩ := Sys.of_when hs
    exact .inr (.inl ⟨p, rfl, hp.1, leaves_exit s p⟩)
  | wait p =>
    obtain ⟨hp, rfl⟩ := Sys.of_when hs
    exact wait_quiet_or_leaves.imp_right fun h => .inl ⟨p, rfl, hp.1, h⟩
  | new_wait p a b c =>
    obtain ⟨hp, rfl⟩ := Sys.of_when hs
    exact (new_wait_quiet_or_leaves a b c).imp_right fun h => .inl ⟨p, rfl, hp.1, h⟩
  | kill p pid =>
    obtain ⟨_, rfl⟩ := Sys.of_when hs
    exact .inl (quiet_kill s pid)
  | sleep p a =>
    obtain ⟨hp, rfl⟩ := Sys.of_whenRunning hs
    exact .inr (.inl ⟨p, rfl, hp, leaves_sleep _⟩)
  | sleepTicks p =>
    obtain ⟨hp, rfl⟩ := Sys.of_whenRunning hs
    exact .inr (.inl ⟨p, rfl, hp, leaves_sleep _⟩)
  | wakeup a =>
    cases hs
    exact .inl (quiet_wakeup1 s _)
  | yield p =>
    obtain ⟨hp, rfl⟩ := Sys.of_whenRunning hs
    exact .inr (.inl ⟨p, rfl, hp, leaves_yield⟩)
  | schedule c p =>
    obtain ⟨⟨hc, hp⟩, rfl⟩ := of_schedule hs
    exact .inr (.inr ⟨c, p, rfl, hc, hp, schedule_quiet_or_leaves c⟩)
  | timer c =>
    cases hs
    exact .inl (quiet_timer s c)

end Sections

/-! ### Every process that runs has one processor -/

/-- The processors run different processes, and those are the ones that are `RUNNING`. -/
structure Placed (s : Sys) : Prop where
  running : ∀ c p, s.cpu c = some p → s.Running p
  somewhere : ∀ p, s.Running p → ∃ c, s.cpu c = some p
  once : ∀ c d p, s.cpu c = some p → s.cpu d = some p → c = d

namespace Placed
variable {s t : Sys} {p : Slot} (h : Placed s)
include h

theorem quiet (ht : Quiet s t) : Placed t where
  running c q hc := by
    rw [ht.cpu] at hc
    exact (ht.state q).running.mpr (h.running c q hc)
  somewhere q hq := by
    rw [ht.cpu]
    exact h.somewhere q ((ht.state q).running.mp hq)
  once c d q hc hd := by
    rw [ht.cpu] at hc hd
    exact h.once c d q hc hd

theorem leaves (ht : Leaves s p t) : Placed t := by
  have hcpu : ∀ c q, t.cpu c = some q ↔ s.cpu c = some q ∧ q ≠ p := by
    intro c q
    rw [ht.cpu]
    show (if s.cpu c = some p then none else s.cpu c) = some q ↔ _
    split
    · rename_i hc
      rw [hc]
      exact iff_of_false nofun fun hq => hq.2 (Option.some.inj hq.1).symm
    · rename_i hc
      exact (and_iff_left_of_imp fun hq (he : q = p) => hc (he ▸ hq)).symm
  refine ⟨fun c q hc => ?_, fun q hq => ?_, fun c d q hc hd => ?_⟩
  · obtain ⟨hc, hne⟩ := (hcpu c q).mp hc
    exact (ht.state q hne).running.mpr (h.running c q hc)
  · have hne : q ≠ p := fun he => ht.stopped (he ▸ hq)
    obtain ⟨c, hc⟩ := h.somewhere q ((ht.state q hne).running.mp hq)
    exact ⟨c, (hcpu c q).mpr ⟨hc, hne⟩⟩
  · exact h.once c d q ((hcpu c q).mp hc).1 ((hcpu d q).mp hd).1

theorem pick (hc : s.cpu c = none) (hp : (s.proc p).state = .RUNNABLE) :
    Placed (s.pick c p) := by
  have hcpu : ∀ d q, (s.pick c p).cpu d = some q ↔ (d = c ∧ q = p) ∨ s.cpu d = some q := by
    intro d q
    show update s.cpu c (some p) d = some q ↔ _
    rw [update_apply]
    split
    · rename_i hd
      rw [hd, hc]
      exact ⟨fun hq => .inl ⟨rfl, (Option.some.inj hq).symm⟩, fun hq => by
        obtain ⟨_, rfl⟩ | hq := hq
        · rfl
        · cases hq⟩
    · rename_i hd
      exact (or_iff_right fun hq => hd hq.1).symm
  have hrun : ∀ q, (s.pick c p).Running q ↔ q = p ∨ s.Running q := by
    intro q
    rw [Sys.Running, Sys.pick_proc]
    split
    · exact iff_of_true rfl (.inl ‹_›)
    · exact (or_iff_right ‹_›).symm
  -- No processor has `p` yet: it does not run.
  have hno : ∀ d, s.cpu d ≠ some p := fun d hd => by
    have := h.running d p hd
    rw [Sys.Running, hp] at this
    cases this
  refine ⟨fun d q hd => (hrun q).mpr ?_, fun q hq => ?_, fun d e q hd he => ?_⟩
  · exact ((hcpu d q).mp hd).imp And.right (h.running d q)
  · rcases (hrun q).mp hq with rfl | hq
    · exact ⟨c, (hcpu c q).mpr (.inl ⟨rfl, rfl⟩)⟩
    · obtain ⟨d, hd⟩ := h.somewhere q hq
      exact ⟨d, (hcpu d q).mpr (.inr hd)⟩
  · rcases (hcpu d q).mp hd with ⟨rfl, rfl⟩ | hd'
    · exact (((hcpu e q).mp he).resolve_right (hno e)).1.symm
    · rcases (hcpu e q).mp he with ⟨rfl, rfl⟩ | he'
      · exact absurd hd' (hno d)
      · exact h.once d e q hd' he'

theorem step (hk : s.family.Kin) (hs : step s a = some t) : Placed t := by
  rcases step_moves hk hs with ht | ⟨p, _, _, ht⟩ | ⟨c, p, _, hc, hp, ht | ht⟩
  · exact h.quiet ht
  · exact h.leaves ht
  · exact (h.pick hc hp).quiet ht
  · exact (h.pick hc hp).leaves ht

/-- A step leaves the other processors alone, since the process that takes it is on one only. -/
theorem elsewhere (hk : s.family.Kin) (hs : Process.step s a = some t)
    (ha : a.on s c = true) : t.cpu = update s.cpu c (t.cpu c) := by
  rw [Action.on, Bool.and_eq_true] at ha
  refine (update_eq_iff.mpr ⟨rfl, fun d hd => ?_⟩).symm
  have hleave : ∀ {u : Sys} {p : Slot}, Leaves u p t → u.cpu d ≠ some p → t.cpu d = u.cpu d := by
    intro u p ht hp
    rw [ht.cpu]
    exact if_neg hp
  rcases step_moves hk hs with ht | ⟨p, hp, _, ht⟩ | ⟨e, p, rfl, hc, hp, ht⟩
  · rw [ht.cpu]
  · rw [hp, Option.all_some, decide_eq_true_eq] at ha
    exact (hleave ht fun hdp => hd (h.once d c p hdp ha.1)).symm
  · have he : e = c := of_decide_eq_true ha.2
    subst he
    have hpick : (s.pick e p).cpu d = s.cpu d := update_of_ne hd ..
    rcases ht with ht | ht
    · rw [ht.cpu, hpick]
    · rw [hleave ht, hpick]
      rw [hpick]
      intro hdp
      have := h.running d p hdp
      rw [Sys.Running, hp] at this
      cases this

/-- What a processor executes is a step of the process that it runs. -/
theorem step_of_execute (hk : s.family.Kin) (hs : execute s e = some t) :
    Process.step s e.2 = some t := by
  rw [execute] at hs
  split at hs
  · rename_i ha
    obtain ⟨u, hu, rfl⟩ := Option.map_eq_some_iff.mp hs
    have hstep := step_of_code (fun p hp => ?_) hu
    · rw [← h.elsewhere hk hstep ha]
      exact hstep
    · rw [Action.on, hp, Option.all_some, Bool.and_eq_true, decide_eq_true_eq] at ha
      exact h.running e.1 p ha.1
  · cases hs

end Placed

theorem placed_boot (hb : Boot s p) : Placed s := by
  have hcpu : ∀ c q, s.cpu c ≠ some q := fun c q hc => by
    rw [hb.cpu] at hc
    cases hc
  refine ⟨fun c q hc => absurd hc (hcpu c q), fun q hq => ?_, fun c _ q hc => absurd hc (hcpu c q)⟩
  by_cases hqp : q = p
  · rw [Sys.Running, hqp, hb.state] at hq
    cases hq
  · rw [Sys.Running, (hb.other q hqp).1] at hq
    cases hq

/-- The transitions of one step. -/
theorem transits_of_execute (hk : s.family.Kin) (h : Placed s)
    (hs : execute s e = some t) : Transits s e t := by
  have hquiet : ∀ {u : Sys}, Quiet u t → u.Changes t := fun ht q => (ht.state q).changes
  have hleaves : ∀ {u : Sys} {p : Slot}, u.Running p → Leaves u p t → u.Changes t := by
    intro u p hp ht q
    by_cases hq : q = p
    · rw [hq, hp]
      exact .inr ht.self
    · exact (ht.state q hq).changes
  rcases step_moves hk (h.step_of_execute hk hs) with ht | ⟨p, _, hp, ht⟩ | ⟨c, p, ha, hc, hp, ht⟩
  · exact .inl (hquiet ht)
  · exact .inl (hleaves hp ht)
  · have he : c = e.1 := by
      rw [execute, ha] at hs
      split at hs
      · rename_i hon
        rw [Action.on, Bool.and_eq_true] at hon
        exact of_decide_eq_true hon.2
      · cases hs
    subst he
    have hrun : (s.pick e.1 p).Running p := by
      rw [Sys.Running, Sys.pick_proc, if_pos rfl]
    refine .inr ⟨p, ha, fun q => ?_, ht.elim hquiet (hleaves hrun)⟩
    rw [Sys.pick_proc]
    split
    · rename_i hq
      rw [hq, hp]
      exact .inr rfl
    · exact .inl rfl

/-- **A process runs on at most one processor.** After every run of any number of processors
a process is `RUNNING` exactly when one processor, and no other, has it; a processor has no
process or one that is `RUNNING`; and the processes make the allowed transitions only. -/
theorem runs_on_one_cpu {s t : Sys} {p : Slot} {es : List (Nat × Action)} (hb : Boot s p)
    (hr : run execute s es = some t) :
    (∀ q, t.Running q ↔ ∃! c, t.cpu c = some q) ∧
    (∀ c, t.cpu c = none ∨ ∃ q, t.cpu c = some q ∧ t.Running q) ∧
    Along execute Transits s es := by
  have hstep : ∀ s e s', (s.family.Kin ∧ Placed s) → execute s e = some s' →
      s'.family.Kin ∧ Placed s' := fun s e s' h hs =>
    have hs := h.2.step_of_execute h.1 hs
    ⟨Kin.step h.1 hs, h.2.step h.1 hs⟩
  have hinit : s.family.Kin ∧ Placed s := ⟨kin_boot hb, placed_boot hb⟩
  obtain ⟨_, h⟩ := run_invariant (I := fun _ s => s.family.Kin ∧ Placed s) hinit
    (fun _ s e s' => hstep s e s') hr
  refine ⟨fun q => ⟨fun hq => ?_, fun hq => ?_⟩, fun c => ?_, ?_⟩
  · obtain ⟨c, hc⟩ := h.somewhere q hq
    exact ⟨c, hc, fun d hd => h.once d c q hd hc⟩
  · obtain ⟨c, hc, _⟩ := hq
    exact h.running c q hc
  · cases hc : t.cpu c with
    | none => exact .inl rfl
    | some q => exact .inr ⟨q, rfl, h.running c q hc⟩
  · refine (along_congr (P := Transits) (Q := fun _ _ _ => True) (fun s e s' h hs => ?_)
      (fun s e s' h hs _ => hstep s e s' h hs) hinit es).mpr (along_of_forall (fun _ _ => trivial) s)
    exact iff_of_true (transits_of_execute h.1 h.2 hs) trivial

/-- Processor 1 runs the child of the first process, and then the first process. -/
def handover : List (Nat × Action) :=
  [(0, .schedule 0 0), (0, .fork 0), (0, .stack 0 12288), (0, .copy 0 16384), (0, .forked 0),
    (1, .schedule 1 1), (0, .wait 0), (1, .exit 1), (1, .zombie 1), (1, .schedule 1 0)]

theorem runs_on_one_cpu_handover : ∃ t, run execute booted handover = some t ∧
    (t.cpu 0 = none ∧ t.cpu 1 = some 0 ∧ (t.proc 1).state = .UNUSED) ∧
    (∀ q, t.Running q ↔ ∃! c, t.cpu c = some q) ∧
    (∀ c, t.cpu c = none ∨ ∃ q, t.cpu c = some q ∧ t.Running q) ∧
    Along execute Transits booted handover := by
  have hany : (run execute booted handover).any (fun t =>
      t.cpu 0 = none ∧ t.cpu 1 = some 0 ∧ (t.proc 1).state = .UNUSED) = true := by decide +kernel
  obtain ⟨t, ht, hq⟩ := run_any hany
  exact ⟨t, ht, of_decide_eq_true hq, runs_on_one_cpu boot_booted ht⟩

end Xv6.Process
