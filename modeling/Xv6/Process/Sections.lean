import Xv6.Process.Wait

/-! What each section of `proc.c` does to the table, field by field. -/
namespace Xv6.Process
open Lib

namespace Sys
variable {s : Sys} {p q n : Slot}

/-! ### `fork` -/

/-- Slot `n` is taken for a new process. -/
def take (s : Sys) (n : Slot) : Sys :=
  {s.upd n fun q => {q with state := .EMBRYO, pid := s.nextpid, ctime := s.ticks} with
    nextpid := s.nextpid + 1}

theorem take_proc (q : Slot) : (s.take n).proc q =
    if q = n then {s.proc n with state := .EMBRYO, pid := s.nextpid, ctime := s.ticks}
    else s.proc q := by
  simp only [take, upd_proc]

theorem allocproc_cases (s : Sys) (p : Slot) :
    ((∀ n, (s.proc n).state ≠ .UNUSED) ∧ s.allocproc p = s) ∨
      ∃ n, (s.proc n).state = .UNUSED ∧ s.allocproc p = (s.take n).goto p (.allocated n) := by
  rw [allocproc]
  split
  · rename_i h
    refine .inl ⟨fun n hn => ?_, rfl⟩
    have := List.find?_eq_none.mp h n (List.mem_finRange n)
    simp [hn] at this
  · rename_i n h
    exact .inr ⟨n, by simpa using List.find?_some h, rfl⟩

/-- A `fork` that has failed gives the slot back. -/
theorem allocstack_zero_proc (q : Slot) : (s.allocstack p n 0).proc q =
    if q = n then {s.proc n with kstack := 0, state := .UNUSED} else s.proc q := by
  rw [allocstack, if_pos rfl]
  simp only [goto_proc, upd_proc]

theorem allocstack_proc (ha : a ≠ 0) (q : Slot) : (s.allocstack p n a).proc q =
    if q = n then {s.proc n with kstack := a} else s.proc q := by
  rw [allocstack, if_neg ha]
  simp only [goto_proc, upd_proc]

theorem forkcopy_zero_proc (q : Slot) : (s.forkcopy p n 0).proc q =
    if q = n then {s.proc n with pgdir := 0, kstack := 0, state := .UNUSED} else s.proc q := by
  rw [forkcopy, if_pos rfl]
  simp only [goto_proc, upd_proc]
  by_cases h : q = n
  · simp only [h, if_true]
  · simp only [h, if_false]

theorem forkcopy_proc (hd : d ≠ 0) (hne : p ≠ n) (q : Slot) : (s.forkcopy p n d).proc q =
    if q = p then {s.proc p with ctime := s.ticks}
    else if q = n then {s.proc n with pgdir := d, parent := some p, name := (s.proc p).name}
    else s.proc q := by
  rw [forkcopy, if_neg hd]
  simp only [goto_proc, upd_proc, upd_ticks, if_neg hne]

theorem forkcopy_fields (hd : d ≠ 0) (q : Slot) :
    ((s.forkcopy p n d).proc q).ctime = (if q = p then s.ticks else (s.proc q).ctime) ∧
    ((s.forkcopy p n d).proc q).ttime = (s.proc q).ttime ∧
    ((s.forkcopy p n d).proc q).etime = (s.proc q).etime ∧
    ((s.forkcopy p n d).proc q).state = (s.proc q).state ∧
    ((s.forkcopy p n d).proc q).killed = (s.proc q).killed ∧
    ((s.forkcopy p n d).proc q).pid = (s.proc q).pid := by
  rw [forkcopy, if_neg hd]
  simp only [goto_proc, upd_proc, upd_ticks]
  by_cases hp : q = p <;> by_cases hn : q = n <;> by_cases hpn : p = n <;> simp_all

theorem forkdone_proc (q : Slot) : (s.forkdone p n).proc q =
    if q = n then {s.proc n with state := .RUNNABLE} else s.proc q := by
  simp only [forkdone, goto_proc, upd_proc]

/-! ### Sleeping and waking -/

/-- Nothing but the processes' records has changed. -/
structure OnlyProc (s s' : Sys) : Prop where
  initproc : s'.initproc = s.initproc
  nextpid : s'.nextpid = s.nextpid
  ticks : s'.ticks = s.ticks
  cpu : s'.cpu = s.cpu
  pc : s'.pc = s.pc
  user : s'.user = s.user
  freed : s'.freed = s.freed

theorem OnlyProc.refl (s : Sys) : OnlyProc s s := ⟨rfl, rfl, rfl, rfl, rfl, rfl, rfl⟩

theorem OnlyProc.trans (h : OnlyProc s t) (h' : OnlyProc t s') : OnlyProc s s' :=
  ⟨h'.initproc.trans h.initproc, h'.nextpid.trans h.nextpid, h'.ticks.trans h.ticks, h'.cpu.trans h.cpu,
    h'.pc.trans h.pc, h'.user.trans h.user, h'.freed.trans h.freed⟩

theorem onlyProc_wakeup1 (s : Sys) (chan : Option Chan) : OnlyProc s (s.wakeup1 chan) :=
  ⟨rfl, rfl, rfl, rfl, rfl, rfl, rfl⟩

theorem wakeup1_proc (chan : Option Chan) (q : Slot) : (s.wakeup1 chan).proc q =
    if (s.proc q).state = .SLEEPING ∧ (s.proc q).chan = chan then {s.proc q with state := .RUNNABLE}
    else s.proc q := rfl

theorem sleep_proc (chan : Chan) (q : Slot) : (s.sleep p chan).proc q =
    if q = p then {s.proc p with chan := some chan, state := .SLEEPING} else s.proc q := by
  simp only [sleep, sched_proc, upd_proc]

theorem yield_proc (q : Slot) : (s.yield p).proc q =
    if q = p then {s.proc p with state := .RUNNABLE} else s.proc q := by
  simp only [yield, sched_proc, upd_proc]

/-! ### `kill`, the scheduler and the timer -/

/-- The process is told to die. -/
def mark (q : Proc) : Proc :=
  {q with killed := true, state := if q.state = .SLEEPING then .RUNNABLE else q.state}

/-- The slot that `kill` takes. -/
def target (s : Sys) (pid : BitVec 32) : Option Slot :=
  (List.finRange NPROC).find? fun q => (s.proc q).pid = pid

theorem kill_cases (s : Sys) (pid : BitVec 32) :
    (s.target pid = none ∧ s.kill pid = (s, -1)) ∨
      ∃ q, s.target pid = some q ∧ s.kill pid = (s.upd q mark, 0) := by
  rw [kill, target]
  split
  · rename_i h
    exact .inl ⟨h, rfl⟩
  · rename_i q h
    exact .inr ⟨q, h, rfl⟩

theorem pid_of_target (h : s.target pid = some q) : (s.proc q).pid = pid := by
  simpa using List.find?_some h

/-- The scheduler of processor `c` has switched to `p`. -/
def pick (s : Sys) (c : Nat) (p : Slot) : Sys :=
  {s.upd p fun q => {q with state := .RUNNING} with cpu := Function.update s.cpu c (some p)}.upd p
    fun q => {q with chan := none}

theorem pick_proc (c : Nat) (q : Slot) : (s.pick c p).proc q =
    if q = p then {s.proc p with state := .RUNNING, chan := none} else s.proc q := by
  simp only [pick, upd_proc]
  by_cases h : q = p
  · simp only [h, if_true]
  · simp only [h, if_false]

theorem pick_child (hp : (s.proc p).state = .RUNNABLE) (r : Slot) :
    (s.pick c p).child r = s.child r := by
  have h : ∀ q, (s.pick c p).ZombieOf r q ↔ s.ZombieOf r q := fun q => by
    rw [ZombieOf, ZombieOf, pick_proc]
    split
    · rename_i hq
      rw [hq, hp]
      exact iff_of_false (fun h => by cases h.2) fun h => by cases h.2
    · exact Iff.rfl
  simp only [child, h]

theorem schedule_cases (s : Sys) (c : Nat) (p : Slot) :
    (s.pc p = .waiting ∧ s.schedule c p = ((s.pick c p).wait p).1) ∨
    (∃ a b d, s.pc p = .newWaiting a b d ∧ s.schedule c p = ((s.pick c p).new_wait p a b d).1) ∨
    (s.pc p ≠ .waiting ∧ (∀ a b d, s.pc p ≠ .newWaiting a b d) ∧ s.schedule c p = s.pick c p) := by
  rw [schedule]
  split
  case h_1 hp => exact .inl ⟨hp, rfl⟩
  case h_2 a b d hp => exact .inr (.inl ⟨a, b, d, hp, rfl⟩)
  case h_3 hw hn => exact .inr (.inr ⟨hw, hn, rfl⟩)

/-- The process that runs on processor 0. -/
def current (s : Sys) : Option Slot := (s.cpu 0).filter fun p => s.Running p

theorem wakeup1_running (s : Sys) (chan : Option Chan) (p : Slot) :
    (s.wakeup1 chan).Running p ↔ s.Running p := by
  rw [Running, Running, wakeup1_proc]
  split
  · rename_i hs
    rw [hs.1]
    exact iff_of_false (fun h => by cases h) fun h => by cases h
  · exact Iff.rfl

theorem timer_cases (s : Sys) :
    (s.current = none ∧ s.timer 0 = {s with ticks := s.ticks + 1}.wakeup1 (some .ticks)) ∨
    ∃ p, s.current = some p ∧ s.timer 0 =
      ({s with ticks := s.ticks + 1}.wakeup1 (some .ticks)).upd p fun q =>
        {q with ctime := q.ctime + 1} := by
  have hrun := wakeup1_running {s with ticks := s.ticks + 1} (some .ticks)
  have hcpu : ({s with ticks := s.ticks + 1}.wakeup1 (some .ticks)).cpu 0 = s.cpu 0 := rfl
  simp only [timer, if_true, current, hcpu]
  cases s.cpu 0 with
  | none => exact .inl ⟨rfl, rfl⟩
  | some p =>
    by_cases hp : s.Running p
    · exact .inr ⟨p, by simp [hp], if_pos ((hrun p).mpr hp)⟩
    · exact .inl ⟨by simp [hp], if_neg fun h => hp ((hrun p).mp h)⟩

/-! ### `exit` -/

/-- `s'` is `s` with the children of `p` among the slots `l` passed to `initproc`, and
`initproc` told of the zombies. -/
structure Passed (s : Sys) (p : Slot) (l : List Slot) (s' : Sys) : Prop where
  proc : ∀ q, s'.proc q = {s.proc q with
    parent := if q ∈ l ∧ (s.proc q).parent = some p then some s.initproc else (s.proc q).parent
    state := (s'.proc q).state}
  state : ∀ q, (s'.proc q).state = (s.proc q).state ∨
    ((s.proc q).state = .SLEEPING ∧ (s.proc q).chan = some (.proc s.initproc) ∧
      (s'.proc q).state = .RUNNABLE)
  told : ∀ q r, q ∈ l → (s.proc q).parent = some p → (s.proc q).state = .ZOMBIE →
    (s'.proc r).state = .SLEEPING → (s.proc r).chan ≠ some (.proc s.initproc)
  rest : OnlyProc s s'

/-- One child is passed on. -/
def passOne (s : Sys) (x : Slot) : Sys :=
  let t := s.upd x fun q => {q with parent := some s.initproc}
  if (t.proc x).state = .ZOMBIE then t.wakeup1 (some (.proc t.initproc)) else t

theorem passOne_spec (s : Sys) (x : Slot) :
    (∀ q, (s.passOne x).proc q = {s.proc q with
      parent := if q = x then some s.initproc else (s.proc q).parent
      state := ((s.passOne x).proc q).state}) ∧
    (∀ q, ((s.passOne x).proc q).state = (s.proc q).state ∨ ((s.proc q).state = .SLEEPING ∧
      (s.proc q).chan = some (.proc s.initproc) ∧ ((s.passOne x).proc q).state = .RUNNABLE)) ∧
    ((s.proc x).state = .ZOMBIE → ∀ r, ((s.passOne x).proc r).state = .SLEEPING →
      (s.proc r).chan ≠ some (.proc s.initproc)) ∧
    OnlyProc s (s.passOne x) := by
  let t := s.upd x fun q => {q with parent := some s.initproc}
  have ht : ∀ q, t.proc q = {s.proc q with
      parent := if q = x then some s.initproc else (s.proc q).parent} := fun q => by
    rw [s.upd_proc]
    split
    · rename_i h
      rw [h]
    · rfl
  have hstate : ∀ q, (t.proc q).state = (s.proc q).state := fun q => by rw [ht]
  have hchan : ∀ q, (t.proc q).chan = (s.proc q).chan := fun q => by rw [ht]
  by_cases hx : (t.proc x).state = .ZOMBIE
  · have hs' : s.passOne x = t.wakeup1 (some (.proc s.initproc)) := if_pos hx
    have hp : ∀ q, (s.passOne x).proc q = if (s.proc q).state = .SLEEPING ∧
        (s.proc q).chan = some (.proc s.initproc) then {t.proc q with state := .RUNNABLE}
        else t.proc q := fun q => by
      rw [hs', wakeup1_proc, hstate, hchan]
    refine ⟨fun q => ?_, fun q => ?_, fun _ r hr hc => ?_, ?_⟩
    · rw [hp]
      split <;> rw [ht]
    · by_cases hq : (s.proc q).state = .SLEEPING ∧ (s.proc q).chan = some (.proc s.initproc)
      · rw [hp, if_pos hq]
        exact .inr ⟨hq.1, hq.2, rfl⟩
      · rw [hp, if_neg hq]
        exact .inl (hstate q)
    · by_cases hq : (s.proc r).state = .SLEEPING ∧ (s.proc r).chan = some (.proc s.initproc)
      · rw [hp, if_pos hq] at hr
        cases hr
      · rw [hp, if_neg hq, hstate] at hr
        exact hq ⟨hr, hc⟩
    · rw [hs']
      exact ⟨rfl, rfl, rfl, rfl, rfl, rfl, rfl⟩
  · have hs' : s.passOne x = t := if_neg hx
    rw [hs']
    refine ⟨fun q => ?_, fun q => .inl (hstate q), fun h => absurd ((hstate x).trans h) hx,
      ⟨rfl, rfl, rfl, rfl, rfl, rfl, rfl⟩⟩
    rw [ht]

theorem passed (p : Slot) (l : List Slot) (s : Sys) : Passed s p l (s.reparent p l) := by
  induction l generalizing s with
  | nil =>
    refine ⟨fun q => ?_, fun q => .inl rfl, fun q r hq => absurd hq List.not_mem_nil,
      .refl s⟩
    rw [if_neg fun h => absurd h.1 List.not_mem_nil]
    rfl
  | cons x rest ih =>
    rw [reparent]
    by_cases hx : (s.proc x).parent = some p
    · rw [if_pos hx]
      show Passed s p (x :: rest) ((s.passOne x).reparent p rest)
      obtain ⟨h1, h2, h3, h4⟩ := passOne_spec s x
      generalize s.passOne x = t at h1 h2 h3 h4 ⊢
      have hinit := h4.initproc
      have hi := ih t
      have hchan : ∀ q, (t.proc q).chan = (s.proc q).chan := fun q => by rw [h1]
      have hpar : ∀ q, (t.proc q).parent = if q = x then some s.initproc else (s.proc q).parent :=
        fun q => by rw [h1]
      refine ⟨fun q => ?_, fun q => ?_, fun q r hq hp hz hr => ?_, ?_⟩
      · have hq := hi.proc q
        rw [hinit, hpar] at hq
        rw [hq, h1 q]
        simp only [List.mem_cons]
        by_cases hqx : q = x
        · subst hqx
          simp [hx]
        · simp only [hqx, if_false, false_or]
      · have hq := hi.state q
        rw [hinit, hchan] at hq
        rcases hq with hq | ⟨hq1, hq2, hq3⟩
        · rw [hq]
          exact h2 q
        · rcases h2 q with hs | ⟨_, _, hs⟩
          · exact .inr ⟨hs ▸ hq1, hq2, hq3⟩
          · rw [hs] at hq1
            cases hq1
      · by_cases hqx : q = x
        · subst hqx
          refine h3 hz r ?_
          rcases hi.state r with hs | ⟨_, _, hs⟩
          · rw [← hs]
            exact hr
          · rw [hs] at hr
            cases hr
        · have hqt : (t.proc q).state = .ZOMBIE := by
            rcases h2 q with hs | ⟨hs, _⟩
            · rw [hs, hz]
            · rw [hz] at hs
              cases hs
          have := hi.told q r ((List.mem_cons.mp hq).resolve_left hqx)
            (by rw [hpar, if_neg hqx]; exact hp) hqt hr
          rwa [hinit, hchan] at this
      · exact h4.trans hi.rest
    · rw [if_neg hx]
      have hi := ih s
      refine ⟨fun q => ?_, hi.state, fun q r hq hp => ?_, hi.rest⟩
      · have hiff : (q ∈ x :: rest ∧ (s.proc q).parent = some p) ↔
            (q ∈ rest ∧ (s.proc q).parent = some p) := by
          rw [List.mem_cons]
          exact and_congr_left fun hp => or_iff_right fun he => hx (he ▸ hp)
        simp only [hiff]
        exact hi.proc q
      · exact hi.told q r ((List.mem_cons.mp hq).resolve_left fun he => hx (he ▸ hp)) hp

/-- The part of `exit` before `p` is marked as gone. -/
def leave (s : Sys) (p : Slot) : Sys :=
  (s.wakeup1 ((s.proc p).parent.map .proc)).reparent p (List.finRange NPROC)

theorem leave_rest (s : Sys) (p : Slot) : OnlyProc s (s.leave p) :=
  (s.onlyProc_wakeup1 _).trans (passed p _ _).rest

theorem exit_proc (s : Sys) (p q : Slot) : (s.exit p).proc q =
    if q = p then {(s.leave p).proc p with etime := s.ticks, state := .ZOMBIE}
    else (s.leave p).proc q := by
  rw [← (s.leave_rest p).ticks]
  exact (s.leave p).upd_proc p q fun r => {r with etime := (s.leave p).ticks, state := .ZOMBIE}

theorem exit_pc (s : Sys) (p q : Slot) : (s.exit p).pc q = if q = p then .out else s.pc q := by
  rw [← (s.leave_rest p).pc]
  exact goto_pc (s.leave p) p q .out

end Sys

end Xv6.Process
