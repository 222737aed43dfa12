import Xv6.Process.Family

/-! Pids are handed out in order.

Only `fork` brings a new process, and it takes the next pid. So as long as the counter
does not wrap, processes have different pids, and the pid of a process that was reaped
is not used again. -/
namespace Xv6.Process
open Lib

variable {s s' : Sys} {h h' : History} {p q n : Slot} {a : Action}

/-- Pids are handed out in order, and those that were reaped are not in use. -/
structure Pids (s : Sys) (h : History) : Prop where
  next : s.nextpid.toNat = h.allocs + 2
  bound : ∀ q, (s.proc q).state ≠ .UNUSED →
    0 < (s.proc q).pid.toNat ∧ (s.proc q).pid.toNat < s.nextpid.toNat
  distinct : ∀ q r, (s.proc q).state ≠ .UNUSED → (s.proc r).state ≠ .UNUSED →
    (s.proc q).pid = (s.proc r).pid → q = r
  reaped : ∀ x ∈ h.reaped, x.toNat < s.nextpid.toNat ∧
    ∀ q, (s.proc q).state ≠ .UNUSED → (s.proc q).pid ≠ x
  nodup : h.reaped.Nodup

/-- Every process of `s'` is one of `s`. -/
def Remains (s s' : Sys) : Prop := ∀ q, (s'.proc q).state ≠ .UNUSED →
  (s.proc q).state ≠ .UNUSED ∧ (s'.proc q).pid = (s.proc q).pid

theorem Remains.of_one (hs : ∀ q, s'.proc q = if q = n then r else s.proc q)
    (hr : r.state ≠ .UNUSED → (s.proc n).state ≠ .UNUSED ∧ r.pid = (s.proc n).pid) :
    Remains s s' := by
  intro q hq
  rw [hs] at hq ⊢
  split at hq
  · rename_i he
    rw [if_pos he, he]
    exact hr hq
  · rename_i he
    rw [if_neg he]
    exact ⟨hq, rfl⟩

theorem Remains.of_moves (hm : Moves s s') : Remains s s' := by
  intro q
  have hq := hm q
  generalize s'.proc q = r at hq ⊢
  induction hq with
  | refl => exact fun h => ⟨h, rfl⟩
  | tail _ hm ih =>
    cases hm with
    | pass => exact ih
    | reap => exact fun h => absurd rfl h
    | wake hr => exact fun _ => ih (by rw [hr]; decide)
    | sleep _ hr => exact fun _ => ih (by rw [hr]; decide)
    | yield hr => exact fun _ => ih (by rw [hr]; decide)
    | run hr => exact fun _ => ih (by rw [hr]; decide)

namespace Pids
variable (hp : Pids s h)
include hp

theorem remains (hr : Remains s s') (hn : s'.nextpid = s.nextpid) (ha : h'.allocs = h.allocs)
    (hd : h'.reaped = h.reaped) : Pids s' h' := by
  refine ⟨?_, fun q hq => ?_, fun q r hq hr' he => ?_, fun x hx => ?_, ?_⟩
  · rw [hn, ha]
    exact hp.next
  · rw [(hr q hq).2, hn]
    exact hp.bound q (hr q hq).1
  · rw [(hr q hq).2, (hr r hr').2] at he
    exact hp.distinct q r (hr q hq).1 (hr r hr').1 he
  · rw [hd] at hx
    refine ⟨hn ▸ (hp.reaped x hx).1, fun q hq => ?_⟩
    rw [(hr q hq).2]
    exact (hp.reaped x hx).2 q (hr q hq).1
  · rw [hd]
    exact hp.nodup

theorem reap (hr : Remains s s') (hn : s'.nextpid = s.nextpid) (ha : h'.allocs = h.allocs)
    (hq : (s.proc q).state ≠ .UNUSED) (hq' : (s'.proc q).state = .UNUSED)
    (hd : h'.reaped = (s.proc q).pid :: h.reaped) : Pids s' h' := by
  have hk : Pids s' {h' with reaped := h.reaped} := hp.remains hr hn ha rfl
  refine ⟨hk.next, hk.bound, hk.distinct, fun x hx => ?_, ?_⟩
  · rw [hd] at hx
    rcases List.mem_cons.mp hx with rfl | hx
    · refine ⟨hn ▸ (hp.bound q hq).2, fun r hr' he => ?_⟩
      rw [(hr r hr').2] at he
      have := hp.distinct r q (hr r hr').1 hq he
      exact hr' (this ▸ hq')
    · exact hk.reaped x hx
  · rw [hd, List.nodup_cons]
    exact ⟨fun hx => (hp.reaped _ hx).2 q hq rfl, hp.nodup⟩

theorem take (hsmall : h'.allocs + 2 < 2 ^ 32) (ha : h'.allocs = h.allocs + 1)
    (hd : h'.reaped = h.reaped) : Pids (s.take n) h' := by
  have hnext : (s.take n).nextpid.toNat = s.nextpid.toNat + 1 := by
    show (s.nextpid + 1).toNat = _
    rw [BitVec.toNat_add, hp.next, show (1 : BitVec 32).toNat = 1 from rfl]
    exact Nat.mod_eq_of_lt (by omega)
  have hold : ∀ q, q ≠ n → ((s.take n).proc q).state ≠ .UNUSED →
      (s.proc q).state ≠ .UNUSED ∧ ((s.take n).proc q).pid = (s.proc q).pid := fun q hq hu => by
    rw [Sys.take_proc, if_neg hq] at hu ⊢
    exact ⟨hu, rfl⟩
  have hnew : ((s.take n).proc n).pid = s.nextpid := by rw [Sys.take_proc, if_pos rfl]
  have hne : ∀ q, q ≠ n → ((s.take n).proc q).state ≠ .UNUSED →
      ((s.take n).proc q).pid ≠ s.nextpid := fun q hq hu he => by
    have := (hp.bound q (hold q hq hu).1).2
    rw [← (hold q hq hu).2, he] at this
    exact absurd this (lt_irrefl _)
  refine ⟨?_, fun q hq => ?_, fun q r hq hr he => ?_, fun x hx => ?_, ?_⟩
  · rw [hnext, hp.next, ha]
  · by_cases hqn : q = n
    · rw [hqn, hnew, hnext, hp.next]
      omega
    · rw [(hold q hqn hq).2, hnext]
      have := hp.bound q (hold q hqn hq).1
      omega
  · by_cases hqn : q = n <;> by_cases hrn : r = n
    · rw [hqn, hrn]
    · rw [hqn, hnew] at he
      exact absurd he.symm (hne r hrn hr)
    · rw [hrn, hnew] at he
      exact absurd he (hne q hqn hq)
    · rw [(hold q hqn hq).2, (hold r hrn hr).2] at he
      exact hp.distinct q r (hold q hqn hq).1 (hold r hrn hr).1 he
  · rw [hd] at hx
    obtain ⟨hlt, hx⟩ := hp.reaped x hx
    refine ⟨by rw [hnext]; omega, fun q hq => ?_⟩
    by_cases hqn : q = n
    · rw [hqn, hnew]
      rintro rfl
      exact lt_irrefl _ hlt
    · rw [(hold q hqn hq).2]
      exact hx q (hold q hqn hq).1
  · rw [hd]
    exact hp.nodup

end Pids

/-! ### Steps -/

theorem nextpid_of_step (hs : step s a = some s') (ha : ∀ p, a ≠ .fork p) :
    s'.nextpid = s.nextpid := by
  have hwait : ∀ (t : Sys) p, (t.wait p).1.nextpid = t.nextpid := fun t p => by
    rw [Sys.wait_eq]
    split
    · rfl
    · rw [Sys.idle]
      split <;> rfl
  have hnew : ∀ (t : Sys) p a b c, (t.new_wait p a b c).1.nextpid = t.nextpid := fun t p a b c => by
    rw [Sys.new_wait_eq]
    split
    · rfl
    · rw [Sys.idle]
      split <;> rfl
  cases a with
  | fork p => exact absurd rfl (ha p)
  | stack p a =>
    obtain ⟨n, _, _, rfl⟩ := of_stack hs
    rw [Sys.allocstack]
    split <;> rfl
  | copy p d =>
    obtain ⟨n, _, _, rfl⟩ := of_copy hs
    rw [Sys.forkcopy]
    split <;> rfl
  | forked p =>
    obtain ⟨n, _, _, rfl⟩ := of_forked hs
    rfl
  | exit p =>
    obtain ⟨_, _, rfl⟩ := of_exit hs
    rfl
  | zombie p =>
    obtain ⟨_, rfl⟩ := Sys.of_when hs
    exact (s.leave_rest p).nextpid
  | wait p =>
    obtain ⟨_, rfl⟩ := Sys.of_when hs
    exact hwait s p
  | new_wait p a b c =>
    obtain ⟨_, rfl⟩ := Sys.of_when hs
    exact hnew s p a b c
  | kill p pid =>
    obtain ⟨_, rfl⟩ := Sys.of_when hs
    rcases s.kill_cases pid with ⟨_, h⟩ | ⟨q, _, h⟩ <;> rw [h]
    rfl
  | sleep p a =>
    obtain ⟨_, rfl⟩ := Sys.of_whenRunning hs
    rfl
  | sleepTicks p =>
    obtain ⟨_, rfl⟩ := Sys.of_whenRunning hs
    rfl
  | wakeup a =>
    cases hs
    rfl
  | yield p =>
    obtain ⟨_, rfl⟩ := Sys.of_whenRunning hs
    rfl
  | schedule c p =>
    obtain ⟨_, rfl⟩ := of_schedule hs
    rcases s.schedule_cases c p with ⟨_, h⟩ | ⟨a, b, d, _, h⟩ | ⟨_, _, h⟩ <;> rw [h]
    · exact hwait _ p
    · exact hnew _ p a b d
    · rfl
  | timer c =>
    cases hs
    by_cases hc : c = 0
    · subst hc
      rcases s.timer_cases with ⟨_, h⟩ | ⟨p, _, h⟩ <;> rw [h] <;> rfl
    · rw [Sys.timer, if_neg hc]

/-- No step but `fork` brings a new process. -/
theorem remains_of_step (hk : s.family.Kin) (hs : step s a = some s') (ha : ∀ p, a ≠ .fork p) :
    Remains s s' := by
  cases a with
  | fork p => exact absurd rfl (ha p)
  | stack p a =>
    obtain ⟨n, hn, _, rfl⟩ := of_stack hs
    by_cases ha : a = 0
    · subst ha
      exact .of_one Sys.allocstack_zero_proc fun h => absurd rfl h
    · exact .of_one (Sys.allocstack_proc ha) fun h => ⟨h, rfl⟩
  | copy p d =>
    obtain ⟨n, hn, _, rfl⟩ := of_copy hs
    by_cases hd : d = 0
    · subst hd
      exact .of_one Sys.forkcopy_zero_proc fun h => absurd rfl h
    · intro q hq
      obtain ⟨_, _, _, h1, _, h2⟩ := Sys.forkcopy_fields (s := s) (p := p) (n := n) hd q
      rw [h1] at hq
      exact ⟨hq, h2⟩
  | forked p =>
    obtain ⟨n, hn, _, rfl⟩ := of_forked hs
    refine .of_one Sys.forkdone_proc fun _ => ⟨?_, rfl⟩
    rw [ProcState.life_embryo.mp (hk.embryo p n (by
      rw [show s.family.work p = .raising n from congrArg Pc.work hn]; rfl))]
    decide
  | exit p =>
    obtain ⟨_, _, rfl⟩ := of_exit hs
    exact fun q hq => ⟨hq, rfl⟩
  | zombie p =>
    obtain ⟨hp, rfl⟩ := Sys.of_when hs
    have hl := Remains.of_moves (.leave s p)
    have hlife : ((s.leave p).proc p).state ≠ .UNUSED := fun h => by
      have := congrFun (congrArg Family.life (s.family_leave p)) p
      rw [show (s.leave p).family.life p = .free from congrArg ProcState.life h] at this
      exact absurd (this.trans (Sys.life_of_running hp.1)) nofun
    intro q hq
    rw [Sys.exit_proc] at hq ⊢
    split at hq
    · rename_i he
      rw [if_pos he, he]
      exact hl p hlife
    · rename_i he
      rw [if_neg he]
      exact hl q hq
  | kill p pid =>
    obtain ⟨_, rfl⟩ := Sys.of_when hs
    rcases s.kill_cases pid with ⟨_, h⟩ | ⟨q, _, h⟩ <;> rw [h]
    · exact fun q hq => ⟨hq, rfl⟩
    · refine .of_one (s.upd_proc q · _) fun hq => ⟨fun hu => hq ?_, rfl⟩
      rw [Sys.mark, if_neg (by rw [hu]; decide)]
      exact hu
  | timer c =>
    cases hs
    by_cases hc : c = 0
    · subst hc
      have hw : Remains s ({s with ticks := s.ticks + 1}.wakeup1 (some .ticks)) :=
        .of_moves (.wakeup1 {s with ticks := s.ticks + 1} _)
      rcases s.timer_cases with ⟨_, h⟩ | ⟨p, _, h⟩ <;> rw [h]
      · exact hw
      · intro q hq
        rw [Sys.upd_proc] at hq ⊢
        split at hq
        · rename_i he
          rw [if_pos he, he]
          exact hw p hq
        · rename_i he
          rw [if_neg he]
          exact hw q hq
    · rw [Sys.timer, if_neg hc]
      exact fun q hq => ⟨hq, rfl⟩
  | wait | new_wait | sleep | sleepTicks | wakeup | yield | schedule =>
    exact .of_moves (moves_of_step hs rfl)

theorem pids_step (hk : s.family.Kin) (hp : Pids s h) (hs : step s a = some s')
    (hsmall : (h.observe s a s').allocs + 2 < 2 ^ 32) : Pids s' (h.observe s a s') := by
  by_cases hf : ∃ p, a = .fork p
  · obtain ⟨p, rfl⟩ := hf
    obtain ⟨hp', rfl⟩ := Sys.of_when hs
    rcases s.allocproc_cases p with ⟨_, he⟩ | ⟨n, _, he⟩ <;> rw [he] at hsmall ⊢
    · refine hp.remains (fun q hq => ⟨hq, rfl⟩) rfl ?_ ?_ <;> simp only [History.observe, hp'.2]
    · have hobs : (h.observe s (.fork p) ((s.take n).goto p (.allocated n))).allocs = h.allocs + 1 ∧
          (h.observe s (.fork p) ((s.take n).goto p (.allocated n))).reaped = h.reaped := by
        simp only [History.observe, Sys.goto_pc, if_true, History.create, and_self]
      have := hp.take (n := n) hsmall hobs.1 hobs.2
      exact ⟨this.next, this.bound, this.distinct, this.reaped, this.nodup⟩
  · have hf : ∀ p, a ≠ .fork p := fun p he => hf ⟨p, he⟩
    have hr := remains_of_step hk hs hf
    have hn := nextpid_of_step hs hf
    obtain ⟨hallocs, hreaped⟩ : (h.observe s a s').allocs = _ ∧ (h.observe s a s').reaped = _ :=
      h.observe_reaped hf
    cases hreap : s.reaps a with
    | none =>
      rw [hreap] at hreaped
      exact hp.remains hr hn hallocs hreaped
    | some x =>
      obtain ⟨p, q⟩ := x
      obtain ⟨hz, hq⟩ := reaps_spec hs hreap
      rw [hreap] at hreaped
      exact hp.reap hr hn hallocs (by rw [hz.2]; decide) hq hreaped

end Xv6.Process
