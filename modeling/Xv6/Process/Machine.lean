import Xv6.Process.Sections
import Xv6.Lib.Machine

/-! Processes as they run: the machine whose steps are the sections of `proc.c`.

A process takes steps of its own only while it runs. `History` is what an observer
writes down along a run: which slots were allocated, when, which pids were answered
by `wait` and `new_wait`, and how often the timer of processor 0 hit each process. -/
namespace Xv6.Process
open Lib Function

/-! ### Steps -/

inductive Action where
  /-- `fork` is called: the first section of `allocproc`. -/
  | fork (p : Slot)
  /-- The rest of `allocproc`, where `kalloc` answers `a`. -/
  | stack (p : Slot) (a : Nat)
  /-- The copying part of `fork`, where `copyuvm` answers `d`. -/
  | copy (p : Slot) (d : Nat)
  /-- The last section of `fork`. -/
  | forked (p : Slot)
  /-- `exit` is called. -/
  | exit (p : Slot)
  /-- The section of `exit` under the lock. -/
  | zombie (p : Slot)
  | wait (p : Slot)
  /-- `sys_new_wait`, with three addresses. -/
  | new_wait (p : Slot) (create_time stop_time run_time : Nat)
  | kill (p : Slot) (pid : BitVec 32)
  | sleep (p : Slot) (a : Nat)
  /-- `sleep` on `&ticks`, as in `sys_sleep`. -/
  | sleepTicks (p : Slot)
  /-- `wakeup` by a process or by an interrupt. -/
  | wakeup (a : Nat)
  | yield (p : Slot)
  | schedule (c : Nat) (p : Slot)
  | timer (c : Nat)

/-- A process that runs takes a step from where it is. -/
def Sys.when (s : Sys) (p : Slot) (c : Pc) (t : Sys) : Option Sys :=
  if s.Running p ∧ s.pc p = c then some t else none

/-- A process that runs takes a step from wherever it is, but not from inside `wait`. -/
def Sys.whenRunning (s : Sys) (p : Slot) (t : Sys) : Option Sys :=
  if s.Running p then some t else none

def step (s : Sys) : Action → Option Sys
  | .fork p => s.when p .out (s.allocproc p)
  | .stack p a =>
    match s.pc p with
    | .allocated n => s.whenRunning p (s.allocstack p n a)
    | _ => none
  | .copy p d =>
    match s.pc p with
    | .stacked n => s.whenRunning p (s.forkcopy p n d)
    | _ => none
  | .forked p =>
    match s.pc p with
    | .copied n => s.whenRunning p (s.forkdone p n)
    | _ => none
  | .exit p => if p = s.initproc then none else s.when p .out (s.goto p .exiting)
  | .zombie p => s.when p .exiting (s.exit p)
  | .wait p => s.when p .out (s.wait p).1
  | .new_wait p create_time stop_time run_time =>
    s.when p .out (s.sys_new_wait p create_time stop_time run_time).1
  | .kill p pid => s.when p .out (s.kill pid).1
  | .sleep p a => s.whenRunning p (s.sleep p (.other a))
  | .sleepTicks p => s.whenRunning p (s.sleep p .ticks)
  | .wakeup a => some (s.wakeup1 (some (.other a)))
  | .yield p => s.whenRunning p (s.yield p)
  | .schedule c p =>
    if s.cpu c = none ∧ (s.proc p).state = .RUNNABLE then some (s.schedule c p) else none
  | .timer c => some (s.timer c)

section Inversion
variable {s s' t : Sys} {p : Slot} {c : Pc}

theorem Sys.of_when (h : s.when p c t = some s') : (s.Running p ∧ s.pc p = c) ∧ t = s' := by
  rw [Sys.when] at h
  split at h
  · exact ⟨‹_›, Option.some.inj h⟩
  · cases h

theorem Sys.of_whenRunning (h : s.whenRunning p t = some s') : s.Running p ∧ t = s' := by
  rw [Sys.whenRunning] at h
  split at h
  · exact ⟨‹_›, Option.some.inj h⟩
  · cases h

theorem of_stack (h : step s (.stack p a) = some s') :
    ∃ n, s.pc p = .allocated n ∧ s.Running p ∧ s.allocstack p n a = s' := by
  rw [step] at h
  split at h
  · rename_i n hn
    exact ⟨n, hn, Sys.of_whenRunning h⟩
  · cases h

theorem of_copy (h : step s (.copy p d) = some s') :
    ∃ n, s.pc p = .stacked n ∧ s.Running p ∧ s.forkcopy p n d = s' := by
  rw [step] at h
  split at h
  · rename_i n hn
    exact ⟨n, hn, Sys.of_whenRunning h⟩
  · cases h

theorem of_forked (h : step s (.forked p) = some s') :
    ∃ n, s.pc p = .copied n ∧ s.Running p ∧ s.forkdone p n = s' := by
  rw [step] at h
  split at h
  · rename_i n hn
    exact ⟨n, hn, Sys.of_whenRunning h⟩
  · cases h

theorem of_exit (h : step s (.exit p) = some s') :
    p ≠ s.initproc ∧ (s.Running p ∧ s.pc p = .out) ∧ s.goto p .exiting = s' := by
  rw [step] at h
  split at h
  · cases h
  · exact ⟨‹_›, Sys.of_when h⟩

theorem of_schedule {c : Nat} (h : step s (.schedule c p) = some s') :
    (s.cpu c = none ∧ (s.proc p).state = .RUNNABLE) ∧ s.schedule c p = s' := by
  rw [step] at h
  split at h
  · exact ⟨‹_›, Option.some.inj h⟩
  · cases h

end Inversion

/-- The table after `userinit`: one process, in slot `p`. -/
structure Boot (s : Sys) (p : Slot) : Prop where
  initproc : s.initproc = p
  state : (s.proc p).state = .RUNNABLE
  pid : (s.proc p).pid = 1
  parent : (s.proc p).parent = none
  killed : (s.proc p).killed = false
  ttime : ∀ q, (s.proc q).ttime = 0
  other : ∀ q, q ≠ p → (s.proc q).state = .UNUSED ∧ (s.proc q).pid = 0 ∧ (s.proc q).parent = none ∧
    (s.proc q).killed = false
  nextpid : s.nextpid = 2
  cpu : ∀ c, s.cpu c = none
  pc : ∀ q, s.pc q = .out

/-- The table after `userinit`. -/
def booted : Sys where
  proc p :=
    if p = 0 then {Sys.unused with pgdir := 4096, kstack := 8192, state := .RUNNABLE, pid := 1}
    else Sys.unused
  initproc := 0
  nextpid := 2
  ticks := 0
  cpu _ := none
  pc _ := .out
  user _ _ := 0
  freed := []

theorem boot_booted : Boot booted 0 where
  initproc := rfl
  state := rfl
  pid := rfl
  parent := rfl
  killed := rfl
  ttime q := by
    by_cases h : q = 0 <;> simp [booted, h, Sys.unused]
  other q h := by simp [booted, h, Sys.unused]
  nextpid := rfl
  cpu _ := rfl
  pc _ := rfl

/-- The first process makes a child and waits for it; the child does `does` and exits. -/
def childRuns (does : List Action) : List Action :=
  [.schedule 0 0, .fork 0, .stack 0 12288, .copy 0 16384, .forked 0, .new_wait 0 0 4 8,
    .schedule 0 1] ++ does ++ [.exit 1, .zombie 1]

/-! ### What an observer writes down -/

/-- The child that `wait` or `new_wait` takes in a step, and its parent. -/
def Sys.reaps (s : Sys) : Action → Option (Slot × Slot)
  | .wait p => (s.child p).map fun q => (p, q)
  | .new_wait p _ _ _ => (s.child p).map fun q => (p, q)
  | .schedule _ p =>
    match s.pc p with
    | .waiting => (s.child p).map fun q => (p, q)
    | .newWaiting _ _ _ => (s.child p).map fun q => (p, q)
    | _ => none
  | _ => none

/-- The child taken is a zombie of the process that waits, and its slot is free afterwards. -/
theorem reaps_spec (hs : step s a = some s')
    (ha : s.reaps a = some (p, q)) : s.ZombieOf p q ∧ (s'.proc q).state = .UNUSED := by
  have hwait : ∀ t : Sys, t.child p = some q → ((t.wait p).1.proc q).state = .UNUSED := by
    intro t ht
    rw [Sys.wait_eq, ht]
    simp only [Sys.goto_proc, Sys.reap_proc, if_true]
  have hnew : ∀ (t : Sys) (b c d : Nat), t.child p = some q →
      ((t.new_wait p b c d).1.proc q).state = .UNUSED := by
    intro t b c d ht
    rw [Sys.new_wait_eq, ht]
    show ((t.reap q).proc q).state = .UNUSED
    rw [Sys.reap_proc, if_pos rfl]
  have hmap : ∀ {r : Slot}, ((s.child r).map fun q => (r, q)) = some (p, q) →
      r = p ∧ s.child r = some q := by
    intro r h
    obtain ⟨x, hx, he⟩ := Option.map_eq_some_iff.mp h
    cases he
    exact ⟨rfl, hx⟩
  cases a with
  | wait r =>
    obtain ⟨rfl, hc⟩ := hmap ha
    obtain ⟨_, rfl⟩ := Sys.of_when hs
    exact ⟨Sys.zombieOf_child hc, hwait s hc⟩
  | new_wait r b c d =>
    obtain ⟨rfl, hc⟩ := hmap ha
    obtain ⟨_, rfl⟩ := Sys.of_when hs
    exact ⟨Sys.zombieOf_child hc, hnew s b c d hc⟩
  | schedule c r =>
    obtain ⟨⟨_, hrun⟩, rfl⟩ := of_schedule hs
    rcases s.schedule_cases c r with ⟨hp, h⟩ | ⟨b, d, e, hp, h⟩ | ⟨h1, h2, h⟩ <;>
      simp only [Sys.reaps] at ha
    · rw [hp] at ha
      obtain ⟨rfl, hc⟩ := hmap ha
      rw [h]
      exact ⟨Sys.zombieOf_child hc, hwait _ (by rw [Sys.pick_child hrun, hc])⟩
    · rw [hp] at ha
      obtain ⟨rfl, hc⟩ := hmap ha
      rw [h]
      exact ⟨Sys.zombieOf_child hc, hnew _ b d e (by rw [Sys.pick_child hrun, hc])⟩
    · cases ha
  | fork | stack | copy | forked | exit | zombie | kill | sleep | sleepTicks | wakeup | yield | timer =>
    cases ha

structure History where
  /-- How often a slot was allocated. -/
  allocs : Nat
  /-- The pids answered by `wait` and `new_wait`, last first. -/
  reaped : List (BitVec 32)
  /-- `ticks` when the process in the slot was created. -/
  born : Slot → BitVec 32
  /-- `ticks` at each `fork` of the process that got as far as a new address space. -/
  forks : Slot → List (BitVec 32)
  /-- Has `ctime` of the process changed since it was created? -/
  moved : Slot → Bool
  /-- How many timer interrupts of processor 0 came while the process was running. -/
  ran : Slot → Nat
  /-- `ticks` when the process called `exit`. -/
  called : Slot → BitVec 32
  /-- `ticks` when the process became a zombie. -/
  gone : Slot → BitVec 32

namespace History

/-- Nothing has happened since `s`. -/
def start (s : Sys) : History where
  allocs := 0
  reaped := []
  born q := (s.proc q).ctime
  forks _ := []
  moved _ := false
  ran _ := 0
  called _ := 0
  gone _ := 0

/-- A new process in slot `n`. -/
def create (h : History) (n : Slot) (ticks : BitVec 32) : History :=
  {h with
    allocs := h.allocs + 1
    born := update h.born n ticks
    forks := update h.forks n []
    moved := update h.moved n false
    ran := update h.ran n 0}

/-- The step `a` from `s` to `s'` is written down. -/
def observe (h : History) (s : Sys) (a : Action) (s' : Sys) : History :=
  let h := {h with moved := fun q => h.moved q || (s'.proc q).ctime != (s.proc q).ctime}
  match a with
  | .fork p =>
    match s'.pc p with
    | .allocated n => h.create n s.ticks
    | _ => h
  | .copy p d => if d = 0 then h else {h with forks := update h.forks p (s.ticks :: h.forks p)}
  | .exit p => {h with called := update h.called p s.ticks}
  | .zombie p => {h with gone := update h.gone p s.ticks}
  | .timer c =>
    match s.current with
    | some p => if c = 0 then {h with ran := update h.ran p (h.ran p + 1)} else h
    | none => h
  | a =>
    match s.reaps a with
    | some (_, q) => {h with reaped := (s.proc q).pid :: h.reaped}
    | none => h

/-- What is written down about allocations and pids in a step that is not `fork`. -/
theorem observe_reaped (h : History) (ha : ∀ p, a ≠ .fork p) :
    (h.observe s a s').allocs = h.allocs ∧
    (h.observe s a s').reaped = match s.reaps a with
      | some (_, q) => (s.proc q).pid :: h.reaped
      | none => h.reaped := by
  cases a with
  | fork p => exact absurd rfl (ha p)
  | copy p d =>
    rw [observe]
    split <;> exact ⟨rfl, rfl⟩
  | timer c =>
    rw [observe]
    split
    · split <;> exact ⟨rfl, rfl⟩
    · exact ⟨rfl, rfl⟩
  | exit | zombie => exact ⟨rfl, rfl⟩
  | stack | forked | wait | new_wait | kill | sleep | sleepTicks | wakeup | yield | schedule =>
    simp only [observe]
    split <;> exact ⟨rfl, rfl⟩

end History

/-- The machine together with its observer. -/
def trace (x : Sys × History) (a : Action) : Option (Sys × History) :=
  (step x.1 a).map fun s' => (s', x.2.observe x.1 a s')

end Xv6.Process
