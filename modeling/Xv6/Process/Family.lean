import Xv6.Process.Moves
import Xv6.Lib.Family

/-! The processes of the table as a family.

Of a process the family sees whether it is alive, who its parent is, and what it is doing
in `fork`, `exit` and `wait`. Each section of `proc.c` is then one operation on the
family, or none at all. -/
namespace Xv6.Process
open Lib Function

def ProcState.life : ProcState → Life
  | .UNUSED => .free
  | .EMBRYO => .embryo
  | .SLEEPING | .RUNNABLE | .RUNNING => .alive
  | .ZOMBIE => .zombie

def Pc.work : Pc → Work Slot
  | .out => .none
  | .allocated n | .stacked n => .making n
  | .copied n => .raising n
  | .exiting => .leaving
  | .waiting | .newWaiting _ _ _ => .waiting

theorem ProcState.life_embryo {x : ProcState} : x.life = .embryo ↔ x = .EMBRYO := by
  cases x <;> decide

theorem ProcState.life_zombie {x : ProcState} : x.life = .zombie ↔ x = .ZOMBIE := by
  cases x <;> decide

namespace Sys
variable {s s' : Sys} {p q n : Slot}

def family (s : Sys) : Family Slot where
  life q := (s.proc q).state.life
  parent q := (s.proc q).parent
  work q := (s.pc q).work
  root := s.initproc

/-! ### Sections as operations on the family -/

theorem family_goto (s : Sys) (p : Slot) (c : Pc) : (s.goto p c).family = s.family.goto p c.work := by
  refine Family.ext rfl rfl (funext fun q => ?_) rfl
  show ((s.goto p c).pc q).work = update s.family.work p c.work q
  rw [goto_pc, update_apply]
  split <;> rfl

theorem family_of_one (hs : ∀ q, s'.proc q = if q = n then r else s.proc q)
    (hr : r.parent = (s.proc n).parent) (hpc : s'.pc = s.pc) (hi : s'.initproc = s.initproc) :
    s'.family = s.family.live n r.state.life := by
  refine Family.ext (funext fun q => ?_) (funext fun q => ?_) (funext fun q => ?_) hi
  · show (s'.proc q).state.life = update s.family.life n r.state.life q
    rw [hs, update_apply]
    split <;> rfl
  · show (s'.proc q).parent = (s.proc q).parent
    rw [hs]
    split
    · rename_i h
      rw [h, hr]
    · rfl
  · show (s'.pc q).work = (s.pc q).work
    rw [hpc]

theorem family_of_one_goto (hs : ∀ q, s'.proc q = if q = n then r else s.proc q)
    (hr : r.parent = (s.proc n).parent) (hpc : s'.pc = (s.goto p c).pc)
    (hi : s'.initproc = s.initproc) : s'.family = (s.family.live n r.state.life).goto p c.work := by
  rw [family_of_one (s := s.goto p c) (n := n) (r := r) hs hr hpc hi, family_goto]
  rfl

theorem family_same_one (hs : ∀ q, s'.proc q = if q = n then r else s.proc q)
    (hr : r.parent = (s.proc n).parent) (hl : r.state.life = (s.proc n).state.life)
    (hpc : s'.pc = s.pc) (hi : s'.initproc = s.initproc) : s'.family = s.family := by
  rw [family_of_one hs hr hpc hi, hl]
  exact Family.live_self rfl

theorem family_wakeup1 (s : Sys) (chan : Option Chan) : (s.wakeup1 chan).family = s.family := by
  refine Family.ext (funext fun q => ?_) (funext fun q => ?_) rfl rfl
  · show ((s.wakeup1 chan).proc q).state.life = (s.proc q).state.life
    rw [wakeup1_proc]
    split
    · rename_i h
      rw [h.1]
      rfl
    · rfl
  · show ((s.wakeup1 chan).proc q).parent = (s.proc q).parent
    rw [wakeup1_proc]
    split <;> rfl

theorem life_of_running (hp : s.Running p) : s.family.life p = .alive := by
  show (s.proc p).state.life = .alive
  rw [hp]
  rfl

theorem family_sleep (chan : Chan) (hp : s.Running p) : (s.sleep p chan).family = s.family :=
  family_same_one (sleep_proc chan) rfl (life_of_running hp).symm rfl rfl

theorem family_yield (hp : s.Running p) : (s.yield p).family = s.family :=
  family_same_one yield_proc rfl (life_of_running hp).symm rfl rfl

theorem family_pick (c : Nat) (hp : (s.proc p).state = .RUNNABLE) :
    (s.pick c p).family = s.family :=
  family_same_one (pick_proc c) rfl (by rw [hp]; rfl) rfl rfl

theorem family_kill (s : Sys) (pid : BitVec 32) : (s.kill pid).1.family = s.family := by
  rcases s.kill_cases pid with ⟨_, h⟩ | ⟨q, _, h⟩ <;> rw [h]
  refine family_same_one (s.upd_proc q · _) rfl ?_ rfl rfl
  simp only [mark]
  split
  · rename_i hs
    rw [hs]
    rfl
  · rfl

theorem family_timer (s : Sys) (c : Nat) : (s.timer c).family = s.family := by
  by_cases hc : c = 0
  · subst hc
    let t := {s with ticks := s.ticks + 1}.wakeup1 (some .ticks)
    have ht : t.family = s.family := family_wakeup1 {s with ticks := s.ticks + 1} _
    rcases s.timer_cases with ⟨_, hs⟩ | ⟨p, _, hs⟩ <;> rw [hs]
    · exact ht
    · exact (family_same_one (t.upd_proc p · _) rfl rfl rfl rfl).trans ht
  · rw [timer, if_neg hc]

theorem family_forkcopy (hd : d ≠ 0) (hne : p ≠ n) :
    (s.forkcopy p n d).family = (s.family.adopt p n).goto p (.raising n) := by
  refine Family.ext (funext fun q => ?_) (funext fun q => ?_) (funext fun q => ?_) ?_
  · show ((s.forkcopy p n d).proc q).state.life = (s.proc q).state.life
    rw [(forkcopy_fields hd q).2.2.2.1]
  · show ((s.forkcopy p n d).proc q).parent = update s.family.parent n (some p) q
    rw [forkcopy_proc hd hne, update_apply]
    by_cases hp : q = p
    · rw [if_pos hp, if_neg (hp ▸ hne), hp]
      rfl
    · rw [if_neg hp]
      split <;> rfl
  · show ((s.forkcopy p n d).pc q).work = update s.family.work p (.raising n) q
    rw [forkcopy, if_neg hd, goto_pc, update_apply]
    split <;> rfl
  · rw [forkcopy, if_neg hd]
    rfl

theorem family_reap (s : Sys) (q : Slot) : (s.reap q).family = s.family.remove q := by
  refine Family.ext (funext fun r => ?_) (funext fun r => ?_) rfl rfl
  · show ((s.reap q).proc r).state.life = update s.family.life q .free r
    rw [reap_proc, update_apply]
    split <;> rfl
  · show ((s.reap q).proc r).parent = update s.family.parent q none r
    rw [reap_proc, update_apply]
    split <;> rfl

theorem family_leave (s : Sys) (p : Slot) : (s.leave p).family = s.family.passOn p := by
  let t := s.wakeup1 ((s.proc p).parent.map .proc)
  have hfam : t.family = s.family := family_wakeup1 s _
  have h : Passed t p (List.finRange NPROC) (s.leave p) := passed p _ t
  have hparent : ∀ q, (t.proc q).parent = (s.proc q).parent := congrFun (congrArg Family.parent hfam)
  refine Family.ext (funext fun q => ?_) (funext fun q => ?_) ?_ ?_
  · refine Eq.trans ?_ (congrFun (congrArg Family.life hfam) q)
    show ((s.leave p).proc q).state.life = (t.proc q).state.life
    rcases h.state q with hq | ⟨hq, _, hq'⟩
    · rw [hq]
    · rw [hq, hq']
      rfl
  · show ((s.leave p).proc q).parent =
      if (s.proc q).parent = some p then some s.initproc else (s.proc q).parent
    rw [h.proc q, ← hparent q]
    simp only [List.mem_finRange, true_and]
    rfl
  · exact congrArg (fun f q => Pc.work (f q)) (s.leave_rest p).pc
  · exact (s.leave_rest p).initproc

theorem family_exit (s : Sys) (p : Slot) :
    (s.exit p).family = ((s.family.passOn p).live p .zombie).goto p .none := by
  let t := (s.leave p).upd p fun q => {q with etime := (s.leave p).ticks, state := .ZOMBIE}
  have ht : t.family = (s.family.passOn p).live p .zombie := by
    rw [← family_leave]
    exact family_of_one ((s.leave p).upd_proc p · _) rfl rfl rfl
  rw [← ht]
  exact family_goto (t.sched p) p .out

end Sys

/-! ### Every step keeps the family in order -/

open Sys Family

namespace Kin
variable {s s' : Sys} {p q n : Slot} (h : s.family.Kin)
include h

theorem idle (kids : Bool) (hp : s.Running p) (hc : c.work = .waiting) :
    (s.idle p c kids).1.family.Kin := by
  rw [Sys.idle]
  split
  · rw [family_goto]
    exact h.goto (life_of_running hp) rfl fun h => by cases h
  · rw [family_goto, family_sleep _ hp, hc]
    exact h.goto (life_of_running hp) rfl fun h => by cases h

theorem reap (hq : s.ZombieOf p q) (hp : s.Running p) : ((s.reap q).goto p .out).family.Kin := by
  rw [family_goto, family_reap]
  have hne : p ≠ q := fun he => by
    have := hq.2
    rw [← he, hp] at this
    cases this
  have hlife : (s.family.remove q).life p = .alive := by
    exact (update_of_ne hne ..).trans (life_of_running hp)
  refine (h.remove ?_).goto hlife rfl nofun
  show (s.proc q).state.life = .zombie
  rw [hq.2]
  rfl

theorem wait (hp : s.Running p) : (s.wait p).1.family.Kin := by
  rw [wait_eq]
  split
  · exact reap h (zombieOf_child ‹_›) hp
  · exact idle h _ hp rfl

theorem new_wait (a b c : Nat) (hp : s.Running p) : (s.new_wait p a b c).1.family.Kin := by
  rw [new_wait_eq]
  split
  · exact reap h (zombieOf_child ‹_›) hp
  · exact idle h _ hp rfl

theorem schedule (c : Nat) (hp : (s.proc p).state = .RUNNABLE) : (s.schedule c p).family.Kin := by
  have hpick : (s.pick c p).family.Kin := by
    rw [family_pick c hp]
    exact h
  have hrun : (s.pick c p).Running p := by
    rw [Sys.Running, pick_proc, if_pos rfl]
  rcases s.schedule_cases c p with ⟨_, hs⟩ | ⟨a, b, d, _, hs⟩ | ⟨_, _, hs⟩ <;> rw [hs]
  · exact wait hpick hrun
  · exact new_wait hpick a b d hrun
  · exact hpick

theorem fork (hp : s.Running p) : (s.allocproc p).family.Kin := by
  rcases s.allocproc_cases p with ⟨_, hs⟩ | ⟨n, hn, hs⟩ <;> rw [hs]
  · exact h
  · have hlive : (s.take n).family = _ := family_of_one take_proc rfl rfl rfl
    rw [family_goto, hlive]
    refine h.make (life_of_running hp) ?_
    show (s.proc n).state.life = .free
    rw [hn]
    rfl

theorem stack (a : Nat) (hn : s.pc p = .allocated n) : (s.allocstack p n a).family.Kin := by
  have hwork : s.family.work p = .making n := congrArg Pc.work hn
  by_cases ha : a = 0
  · subst ha
    rw [family_of_one_goto (c := .out) allocstack_zero_proc rfl rfl rfl]
    exact h.abandon hwork
  · rw [allocstack, if_neg ha, family_goto, family_same_one (s.upd_proc n · _) rfl rfl rfl rfl]
    exact (goto_self (F := s.family) hwork).symm ▸ h

theorem copy (d : Nat) (hn : s.pc p = .stacked n) : (s.forkcopy p n d).family.Kin := by
  have hwork : s.family.work p = .making n := congrArg Pc.work hn
  by_cases hd : d = 0
  · subst hd
    rw [family_of_one_goto (c := .out) forkcopy_zero_proc rfl rfl rfl]
    exact h.abandon hwork
  · have halive : s.family.life p = .alive := h.alive p (by rw [hwork]; exact nofun)
    have hne : n ≠ p := h.new_ne (by rw [hwork]; rfl) halive
    rw [family_forkcopy hd hne.symm]
    exact h.raise hwork

theorem forked (hn : s.pc p = .copied n) : (s.forkdone p n).family.Kin := by
  rw [family_of_one_goto (c := .out) forkdone_proc rfl rfl rfl]
  exact h.start (congrArg Pc.work hn)

theorem step (hs : step s a = some s') : s'.family.Kin := by
  cases a with
  | fork p =>
    obtain ⟨hp, rfl⟩ := Sys.of_when hs
    exact fork h hp.1
  | stack p a =>
    obtain ⟨n, hn, _, rfl⟩ := of_stack hs
    exact stack h a hn
  | copy p d =>
    obtain ⟨n, hn, _, rfl⟩ := of_copy hs
    exact copy h d hn
  | forked p =>
    obtain ⟨n, hn, _, rfl⟩ := of_forked hs
    exact forked h hn
  | exit p =>
    obtain ⟨hne, hp, rfl⟩ := of_exit hs
    rw [family_goto]
    exact h.goto (life_of_running hp.1) rfl fun _ => hne
  | zombie p =>
    obtain ⟨hp, rfl⟩ := Sys.of_when hs
    rw [family_exit]
    exact h.leave (congrArg Pc.work hp.2)
  | wait p =>
    obtain ⟨hp, rfl⟩ := Sys.of_when hs
    exact wait h hp.1
  | new_wait p a b c =>
    obtain ⟨hp, rfl⟩ := Sys.of_when hs
    exact new_wait h a b c hp.1
  | kill p pid =>
    obtain ⟨_, rfl⟩ := Sys.of_when hs
    rwa [family_kill]
  | sleep p a =>
    obtain ⟨hp, rfl⟩ := Sys.of_whenRunning hs
    rwa [family_sleep _ hp]
  | sleepTicks p =>
    obtain ⟨hp, rfl⟩ := Sys.of_whenRunning hs
    rwa [family_sleep _ hp]
  | wakeup a =>
    cases hs
    rwa [family_wakeup1]
  | yield p =>
    obtain ⟨hp, rfl⟩ := Sys.of_whenRunning hs
    rwa [family_yield hp]
  | schedule c p =>
    obtain ⟨hp, rfl⟩ := of_schedule hs
    exact schedule h c hp.2
  | timer c =>
    cases hs
    rwa [family_timer]

end Kin

theorem kin_boot (hb : Boot s p) : s.family.Kin := by
  have hlife : ∀ q, s.family.life q = if q = p then .alive else .free := by
    intro q
    show (s.proc q).state.life = _
    split
    · rename_i h
      rw [h, hb.state]
      rfl
    · rename_i h
      rw [(hb.other q h).1]
      rfl
  have hparent : ∀ q, s.family.parent q = none := by
    intro q
    by_cases h : q = p
    · rw [h]
      exact hb.parent
    · exact (hb.other q h).2.2.1
  have hwork : ∀ q, s.family.work q = .none := fun q => congrArg Pc.work (hb.pc q)
  have hroot : s.family.root = p := hb.initproc
  refine ⟨?_, hparent _, ?_, fun q hq hne => ?_, fun q _ => hparent q, fun q => ?_, fun q hq => ?_,
    fun q n hn => ?_, fun q n hn => ?_, fun q n hn => ?_, fun q q' n hn => ?_⟩
  · rw [hlife, if_pos hroot]
  · rw [hwork]
    exact nofun
  · rw [hlife, if_neg (hroot ▸ hne)] at hq
    rcases hq with hq | hq <;> cases hq
  · rw [hparent]
    exact nofun
  · exact absurd (hwork q) hq
  · rw [hwork] at hn
    cases hn
  · rw [hwork] at hn
    cases hn
  · rw [hwork] at hn
    cases hn
  · rw [hwork] at hn
    cases hn

end Xv6.Process
