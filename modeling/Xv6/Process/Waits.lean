import Xv6.Process.Family

/-! No wakeup is lost.

A process that sleeps in `wait` has no zombie child: whoever becomes a zombie, or passes
zombies on, wakes the parent in the same section. -/
namespace Xv6.Process
open Lib

variable {s s' : Sys} {p q n : Slot} {a : Action}

/-- A process inside `wait` is about to look at its children, or it has no zombie child. -/
def Sys.Waiting (s : Sys) (p : Slot) : Prop :=
  (s.proc p).state = .RUNNABLE ∨
    ((s.proc p).state = .SLEEPING ∧ (s.proc p).chan = some (.proc p) ∧ ∀ q, ¬ s.ZombieOf p q)

def Sys.Waits (s : Sys) : Prop := ∀ p, (s.pc p).work = .waiting → s.Waiting p

theorem Sys.Waiting.not_running (h : s.Waiting p) : ¬ s.Running p := by
  intro hp
  rcases h with h | ⟨h, _⟩ <;> rw [hp] at h <;> cases h

/-- The process is woken or left alone, and gets no zombie child. -/
theorem Sys.Waiting.keep (h : s.Waiting p)
    (hp : (s'.proc p).state = .RUNNABLE ∨
      ((s'.proc p).state = (s.proc p).state ∧ (s'.proc p).chan = (s.proc p).chan))
    (hz : ∀ q, s'.ZombieOf p q → s.ZombieOf p q) : s'.Waiting p := by
  rcases hp with hp | ⟨hp, hc⟩
  · exact .inl hp
  · rw [Sys.Waiting, hp, hc]
    exact h.imp_right fun ⟨h1, h2, h3⟩ => ⟨h1, h2, fun q hq => h3 q (hz q hq)⟩

theorem Sys.Waiting.of_one (h : s.Waiting p)
    (hs : ∀ q, s'.proc q = if q = n then r else s.proc q) (hn : p ≠ n)
    (hr : r.state = .ZOMBIE → (s.proc n).state = .ZOMBIE ∧ r.parent = (s.proc n).parent) :
    s'.Waiting p := by
  refine h.keep (.inr ?_) fun q hq => ?_
  · rw [hs, if_neg hn]
    exact ⟨rfl, rfl⟩
  · rw [Sys.ZombieOf, hs] at hq
    split at hq
    · rename_i he
      obtain ⟨h1, h2⟩ := hr hq.2
      rw [Sys.ZombieOf, he, ← h2]
      exact ⟨hq.1, h1⟩
    · exact hq

theorem Sys.Waiting.wakeup1 (h : s.Waiting p) (chan : Option Chan) :
    (s.wakeup1 chan).Waiting p := by
  refine h.keep ?_ fun q hq => ?_
  · rw [Sys.wakeup1_proc]
    split
    · exact .inl rfl
    · exact .inr ⟨rfl, rfl⟩
  · rw [Sys.ZombieOf, Sys.wakeup1_proc] at hq
    split at hq
    · cases hq.2
    · exact hq

namespace Sys.Waits
variable (hk : s.family.Kin) (hw : s.Waits)

include hk in
theorem not_waiting (hl : (s.proc n).state.life ≠ .alive) : (s.pc n).work ≠ .waiting := fun h =>
  hl (hk.alive n (by rw [show s.family.work n = .waiting from h]; exact nofun))

include hw

theorem not_waiting_running (hp : s.Running p) : (s.pc p).work ≠ .waiting := fun h =>
  (hw p h).not_running hp

theorem of_goto (hpc : s'.pc = (s.goto p c).pc) (hc : c.work ≠ .waiting)
    (hkeep : ∀ r, (s.pc r).work = .waiting → s.Waiting r → s'.Waiting r) : s'.Waits := by
  intro r hr
  have hwork : (s.pc r).work = .waiting := by
    rw [hpc, Sys.goto_pc] at hr
    split at hr
    · exact absurd hr hc
    · exact hr
  exact hkeep r hwork (hw r hwork)

theorem of_same (hpc : s'.pc = s.pc)
    (hkeep : ∀ r, (s.pc r).work = .waiting → s.Waiting r → s'.Waiting r) : s'.Waits := by
  intro r hr
  rw [hpc] at hr
  exact hkeep r hr (hw r hr)

theorem kill (pid : BitVec 32) : (s.kill pid).1.Waits := by
  rcases s.kill_cases pid with ⟨_, h⟩ | ⟨q, _, h⟩ <;> rw [h]
  · exact hw
  refine hw.of_same rfl fun r _ hr => hr.keep ?_ fun z hz => ?_
  · rw [Sys.upd_proc]
    split
    · rename_i he
      rw [he, Sys.mark]
      by_cases hq : (s.proc q).state = .SLEEPING
      · exact .inl (if_pos hq)
      · exact .inr ⟨if_neg hq, rfl⟩
    · exact .inr ⟨rfl, rfl⟩
  · rw [Sys.ZombieOf, Sys.upd_proc] at hz
    split at hz
    · rename_i he
      rw [he]
      simp only [Sys.mark] at hz
      split at hz
      · cases hz.2
      · exact hz
    · exact hz

theorem timer (c : Nat) : (s.timer c).Waits := by
  by_cases hc : c = 0
  · subst hc
    let t := {s with ticks := s.ticks + 1}.wakeup1 (some .ticks)
    have ht : t.Waits := hw.of_same rfl fun r _ hr =>
      Sys.Waiting.wakeup1 (s := {s with ticks := s.ticks + 1}) hr _
    rcases s.timer_cases with ⟨_, hs⟩ | ⟨p, _, hs⟩ <;> rw [hs]
    · exact ht
    refine ht.of_same rfl fun r _ hr => hr.keep (.inr ?_) fun z hz => ?_
    · rw [Sys.upd_proc]
      split
      · rename_i he
        rw [he]
        exact ⟨rfl, rfl⟩
      · exact ⟨rfl, rfl⟩
    · rw [Sys.ZombieOf, Sys.upd_proc] at hz
      split at hz
      · rename_i he
        rw [he]
        exact hz
      · exact hz
  · rw [Sys.timer, if_neg hc]
    exact hw

end Sys.Waits

/-- What a pass of `wait` that runs leaves behind, when all others wait as they should. -/
theorem waits_idle (kids : Bool) (hw : ∀ r, r ≠ p → (s.pc r).work = .waiting → s.Waiting r)
    (hp : s.Running p) (hz : ∀ q, ¬ s.ZombieOf p q) : (s.idle p c kids).1.Waits := by
  rw [Sys.idle]
  split
  · intro r hr
    rw [Sys.goto_pc] at hr
    split at hr
    · cases hr
    · exact hw r ‹_› hr
  · have hs := Sys.sleep_proc (s := s) (p := p) (.proc p)
    intro r hr
    by_cases he : r = p
    · subst he
      refine .inr ⟨?_, ?_, fun q hq => hz q ?_⟩
      · rw [Sys.goto_proc, hs, if_pos rfl]
      · rw [Sys.goto_proc, hs, if_pos rfl]
      · rw [Sys.ZombieOf, Sys.goto_proc, hs] at hq
        split at hq
        · cases hq.2
        · exact hq
    · rw [Sys.goto_pc, if_neg he] at hr
      exact (hw r he hr).of_one hs he fun h => by cases h

theorem waits_reap (hw : ∀ r, r ≠ p → (s.pc r).work = .waiting → s.Waiting r)
    (hq : (s.pc q).work ≠ .waiting) : ((s.reap q).goto p .out).Waits := by
  intro r hr
  rw [Sys.goto_pc] at hr
  split at hr
  · cases hr
  · rename_i he
    exact (hw r he hr).of_one Sys.reap_proc (fun h => hq (h ▸ hr)) fun h => by cases h

theorem waits_wait (hk : s.family.Kin)
    (hw : ∀ r, r ≠ p → (s.pc r).work = .waiting → s.Waiting r) (hp : s.Running p) :
    (s.wait p).1.Waits := by
  rw [Sys.wait_eq]
  split
  · rename_i q hq
    exact waits_reap hw (Sys.Waits.not_waiting hk (by rw [(Sys.zombieOf_child hq).2]; exact nofun))
  · exact waits_idle _ hw hp (Sys.not_zombieOf ‹_›)

theorem waits_new_wait (a b c : Nat) (hk : s.family.Kin)
    (hw : ∀ r, r ≠ p → (s.pc r).work = .waiting → s.Waiting r) (hp : s.Running p) :
    (s.new_wait p a b c).1.Waits := by
  rw [Sys.new_wait_eq]
  split
  · rename_i q hq
    exact waits_reap hw (Sys.Waits.not_waiting hk (by rw [(Sys.zombieOf_child hq).2]; exact nofun))
  · exact waits_idle _ hw hp (Sys.not_zombieOf ‹_›)

theorem waits_schedule (c : Nat) (hk : s.family.Kin) (hw : s.Waits)
    (hp : (s.proc p).state = .RUNNABLE) : (s.schedule c p).Waits := by
  have hpick := Sys.pick_proc (s := s) (p := p) c
  have hothers : ∀ r, r ≠ p → ((s.pick c p).pc r).work = .waiting → (s.pick c p).Waiting r :=
    fun r hr hwork => (hw r hwork).of_one hpick hr fun h => by cases h
  have hkin : (s.pick c p).family.Kin := by
    rw [Sys.family_pick c hp]
    exact hk
  have hrun : (s.pick c p).Running p := by rw [Sys.Running, hpick, if_pos rfl]
  rcases s.schedule_cases c p with ⟨_, hs⟩ | ⟨a, b, d, _, hs⟩ | ⟨h1, h2, hs⟩ <;> rw [hs]
  · exact waits_wait hkin hothers hrun
  · exact waits_new_wait a b d hkin hothers hrun
  · intro r hr
    refine hothers r (fun he => ?_) hr
    -- `p` itself was not inside `wait`
    rw [he, show (s.pick c p).pc p = s.pc p from rfl] at hr
    cases hpc : s.pc p with
    | waiting => exact h1 hpc
    | newWaiting a b d => exact h2 a b d hpc
    | out | allocated n | stacked n | copied n | exiting =>
      rw [hpc] at hr
      cases hr

/-- The parent of a process that leaves does not sleep on. -/
theorem not_parent_of_asleep
    (hs : ((s.wakeup1 ((s.proc p).parent.map .proc)).proc w).state = .SLEEPING)
    (hc : ((s.wakeup1 ((s.proc p).parent.map .proc)).proc w).chan = some (.proc w)) :
    (s.proc p).parent ≠ some w := by
  intro he
  rw [Sys.wakeup1_proc] at hs hc
  split at hs
  · cases hs
  · rename_i hnot
    rw [if_neg hnot] at hc
    refine hnot ⟨hs, ?_⟩
    rw [he, hc]
    rfl

/-- Whoever waits for a process that becomes a zombie, or gets its zombies, is woken. -/
theorem waits_exit (hk : s.family.Kin) (hw : s.Waits) : (s.exit p).Waits := by
  let t := s.wakeup1 ((s.proc p).parent.map .proc)
  have hpass : Sys.Passed t p (List.finRange NPROC) (s.leave p) := Sys.passed p _ t
  have hparent : ∀ q, ((s.leave p).proc q).parent =
      if (s.proc q).parent = some p then some s.initproc else (s.proc q).parent :=
    congrFun (congrArg Family.parent (s.family_leave p))
  have hzombie : ∀ q, ((s.leave p).proc q).state = .ZOMBIE → (s.proc q).state = .ZOMBIE := by
    intro q hq
    have := congrFun (congrArg Family.life (s.family_leave p)) q
    rw [← ProcState.life_zombie] at hq ⊢
    exact this.symm.trans hq
  intro w hwork
  have hne : w ≠ p := by
    rintro rfl
    rw [Sys.exit_pc, if_pos rfl] at hwork
    cases hwork
  rw [Sys.exit_pc, if_neg hne] at hwork
  have ht : t.Waiting w := (hw w hwork).wakeup1 _
  have hexit : (s.exit p).proc w = (s.leave p).proc w := by rw [Sys.exit_proc, if_neg hne]
  rw [Sys.Waiting, hexit]
  rcases hpass.state w with hs | ⟨_, _, hs⟩
  · -- `exit` does not wake `w`
    rw [hs]
    refine ht.imp_right fun ⟨h1, h2, h3⟩ => ⟨h1, ?_, fun q hq => ?_⟩
    · rw [hpass.proc w]
      exact h2
    · have hnot : (s.proc p).parent ≠ some w := not_parent_of_asleep h1 h2
      rw [Sys.ZombieOf, Sys.exit_proc] at hq
      by_cases hqp : q = p
      · rw [if_pos hqp] at hq
        have := hq.1
        rw [hparent, if_neg (show (s.proc p).parent ≠ some p from hk.self p)] at this
        exact hnot this
      · rw [if_neg hqp] at hq
        have hz := hzombie q hq.2
        have hqw := hq.1
        have htz : (t.proc q).state = .ZOMBIE ∧ (t.proc q).parent = (s.proc q).parent := by
          rw [Sys.wakeup1_proc, if_neg (by rw [hz]; exact fun h => by cases h.1)]
          exact ⟨hz, rfl⟩
        rw [hparent] at hqw
        split at hqw
        · rename_i hqp'
          -- a zombie child of `p` goes to the first process, which is told
          refine hpass.told q w (List.mem_finRange q) (htz.2.trans hqp') htz.1 (hs.trans h1) ?_
          rw [h2]
          exact congrArg (some ∘ Chan.proc) (Option.some.inj hqw).symm
        · exact h3 q ⟨htz.2.trans hqw, htz.1⟩
  · exact .inl hs

theorem waits_new (hw : s.Waits) (hn : (s.pc n).work ≠ .waiting)
    (hs : ∀ q, s'.proc q = if q = n then r else s.proc q) (hr : r.state ≠ .ZOMBIE)
    (hpc : s'.pc = (s.goto p c).pc) (hc : c.work ≠ .waiting) : s'.Waits :=
  hw.of_goto hpc hc fun _ hwork h => h.of_one hs (fun he => hn (he ▸ hwork)) fun hz => absurd hz hr

/-- The process that a fork is making is an embryo, and does not wait. -/
theorem embryo_of_new (hk : s.family.Kin) (hp : (s.pc p).work.new = some n) :
    (s.proc n).state = .EMBRYO ∧ (s.pc n).work ≠ .waiting := by
  have hn : (s.proc n).state.life = .embryo := hk.embryo p n hp
  exact ⟨ProcState.life_embryo.mp hn, Sys.Waits.not_waiting hk (by rw [hn]; exact nofun)⟩

theorem waits_allocstack {a : Nat} (hk : s.family.Kin) (hw : s.Waits) (hn : s.pc p = .allocated n) :
    (s.allocstack p n a).Waits := by
  obtain ⟨he, hn'⟩ := embryo_of_new hk (p := p) (n := n) (by rw [hn]; rfl)
  by_cases ha : a = 0
  · subst ha
    exact waits_new (c := .out) hw hn' Sys.allocstack_zero_proc nofun rfl nofun
  · refine waits_new (p := p) (c := .stacked n) hw hn' (Sys.allocstack_proc ha)
      (by rw [he]; exact nofun) ?_ nofun
    rw [Sys.allocstack, if_neg ha]
    rfl

theorem waits_forkcopy (hk : s.family.Kin) (hw : s.Waits) (hn : s.pc p = .stacked n)
    (hp : s.Running p) : (s.forkcopy p n d).Waits := by
  obtain ⟨he, hn'⟩ := embryo_of_new hk (p := p) (n := n) (by rw [hn]; rfl)
  by_cases hd : d = 0
  · subst hd
    exact waits_new (c := .out) hw hn' Sys.forkcopy_zero_proc nofun rfl nofun
  · have hne : p ≠ n := by
      rintro rfl
      rw [hp] at he
      cases he
    have hproc := Sys.forkcopy_proc (s := s) hd hne
    refine hw.of_goto (c := .copied n) (p := p) ?_ nofun fun r hwork hr => hr.keep (.inr ?_) fun q hq => ?_
    · rw [Sys.forkcopy, if_neg hd]
      rfl
    · have hrp : r ≠ p := fun h => hw.not_waiting_running hp (h ▸ hwork)
      have hrn : r ≠ n := fun h => hn' (h ▸ hwork)
      rw [hproc, if_neg hrp, if_neg hrn]
      exact ⟨rfl, rfl⟩
    · rw [Sys.ZombieOf, hproc] at hq
      split at hq
      · rw [hp] at hq
        cases hq.2
      split at hq
      · rw [he] at hq
        cases hq.2
      · exact hq

theorem waits_step (hk : s.family.Kin) (hw : s.Waits) (hs : step s a = some s') : s'.Waits := by
  cases a with
  | fork p =>
    obtain ⟨hp, rfl⟩ := Sys.of_when hs
    rcases s.allocproc_cases p with ⟨_, hs⟩ | ⟨n, hn, hs⟩ <;> rw [hs]
    · exact hw
    · exact waits_new hw (Sys.Waits.not_waiting hk (by rw [hn]; exact nofun)) Sys.take_proc nofun
        rfl nofun
  | stack p a =>
    obtain ⟨n, hn, _, rfl⟩ := of_stack hs
    exact waits_allocstack hk hw hn
  | copy p d =>
    obtain ⟨n, hn, hp, rfl⟩ := of_copy hs
    exact waits_forkcopy hk hw hn hp
  | forked p =>
    obtain ⟨n, hn, _, rfl⟩ := of_forked hs
    obtain ⟨_, hn'⟩ := embryo_of_new hk (p := p) (n := n) (by rw [hn]; rfl)
    exact waits_new (c := .out) hw hn' Sys.forkdone_proc nofun rfl nofun
  | exit p =>
    obtain ⟨_, _, rfl⟩ := of_exit hs
    exact hw.of_goto rfl nofun fun _ _ h => h
  | zombie p =>
    obtain ⟨_, rfl⟩ := Sys.of_when hs
    exact waits_exit hk hw
  | wait p =>
    obtain ⟨hp, rfl⟩ := Sys.of_when hs
    exact waits_wait hk (fun r _ => hw r) hp.1
  | new_wait p a b c =>
    obtain ⟨hp, rfl⟩ := Sys.of_when hs
    exact waits_new_wait a b c hk (fun r _ => hw r) hp.1
  | kill p pid =>
    obtain ⟨_, rfl⟩ := Sys.of_when hs
    exact hw.kill pid
  | sleep p a =>
    obtain ⟨hp, rfl⟩ := Sys.of_whenRunning hs
    exact hw.of_same rfl fun r hwork h => h.of_one (Sys.sleep_proc _)
      (fun he => hw.not_waiting_running hp (he ▸ hwork)) fun h => by cases h
  | sleepTicks p =>
    obtain ⟨hp, rfl⟩ := Sys.of_whenRunning hs
    exact hw.of_same rfl fun r hwork h => h.of_one (Sys.sleep_proc _)
      (fun he => hw.not_waiting_running hp (he ▸ hwork)) fun h => by cases h
  | wakeup a =>
    cases hs
    exact hw.of_same rfl fun r _ h => h.wakeup1 _
  | yield p =>
    obtain ⟨hp, rfl⟩ := Sys.of_whenRunning hs
    exact hw.of_same rfl fun r hwork h => h.of_one Sys.yield_proc
      (fun he => hw.not_waiting_running hp (he ▸ hwork)) fun h => by cases h
  | schedule c p =>
    obtain ⟨hp, rfl⟩ := of_schedule hs
    exact waits_schedule c hk hw hp.2
  | timer c =>
    cases hs
    exact hw.timer c

end Xv6.Process
