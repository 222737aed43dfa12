import Xv6.Param

/-! The process table: `proc.c`, and the timer interrupt of `trap.c`.

Each section under `ptable.lock` is one function here, and so is each piece of `fork`
between two of them. A pointer to a `struct proc` is a slot of the table, and a null
pointer is `none`. -/
namespace Xv6.Process
open Lib Function

/-- `enum procstate`. -/
inductive ProcState where
  | UNUSED
  | EMBRYO
  | SLEEPING
  | RUNNABLE
  | RUNNING
  | ZOMBIE
deriving DecidableEq

/-- A `struct proc *`. -/
abbrev Slot := Fin NPROC

instance : LawfulBEq Slot := inferInstance

/-- What a process sleeps on: an address. -/
inductive Chan where
  /-- A `struct proc`, as in `wait`. -/
  | proc (p : Slot)
  /-- `&ticks`. -/
  | ticks
  | other (a : Nat)
deriving DecidableEq

/-- `struct proc`. `name` is `name[0]`; a `kstack` or `pgdir` of zero is a null pointer. -/
structure Proc where
  pgdir : Nat
  kstack : Nat
  state : ProcState
  pid : BitVec 32
  parent : Option Slot
  chan : Option Chan
  killed : Bool
  name : Byte
  ctime : BitVec 32
  etime : BitVec 32
  ttime : BitVec 32

/-- Where a process is in the code of `proc.c`. -/
inductive Pc where
  /-- Elsewhere: in user space, or in another part of the kernel. -/
  | out
  /-- In `fork`, with a slot from the first section of `allocproc`. -/
  | allocated (np : Slot)
  /-- In `fork`, after `allocproc`. -/
  | stacked (np : Slot)
  /-- In `fork`, with all but the state of the new process set. -/
  | copied (np : Slot)
  /-- In `exit`, before its section under the lock. -/
  | exiting
  /-- Asleep in `wait`. -/
  | waiting
  /-- Asleep in `new_wait`, with its three arguments. -/
  | newWaiting (create_time run_time stop_time : Nat)
deriving DecidableEq

/-- A call of the memory allocator. -/
inductive Freed where
  | kfree (a : Nat)
  | freevm (pgdir : Nat)
deriving DecidableEq

structure Sys where
  proc : Slot → Proc
  initproc : Slot
  nextpid : BitVec 32
  ticks : BitVec 32
  /-- `c->proc` of each processor. -/
  cpu : Nat → Option Slot
  pc : Slot → Pc
  /-- The `int` variables of each process's memory, by address. -/
  user : Slot → Nat → BitVec 32
  /-- What has been given back to the allocator, last first. -/
  freed : List Freed

namespace Sys
variable (s : Sys)

/-- Stores into fields of `*p`. -/
def upd (p : Slot) (f : Proc → Proc) : Sys :=
  {s with proc := update s.proc p (f (s.proc p))}

def goto (p : Slot) (c : Pc) : Sys := {s with pc := update s.pc p c}

/-- `sched`, for a process whose state is set: its processor is free again. -/
def sched (p : Slot) : Sys :=
  {s with cpu := fun c => if s.cpu c = some p then none else s.cpu c}

/-- A store into the memory of process `p`. -/
def store (p : Slot) (a : Nat) (v : BitVec 32) : Sys :=
  {s with user := update s.user p (update (s.user p) a v)}

/-- The process runs on some processor. -/
def Running (p : Slot) : Prop := (s.proc p).state = .RUNNING

instance (p : Slot) : Decidable (s.Running p) := inferInstanceAs (Decidable (_ = _))

/-! ### Sleeping and waking -/

def wakeup1 (chan : Option Chan) : Sys :=
  {s with proc := fun p =>
    if (s.proc p).state = .SLEEPING ∧ (s.proc p).chan = chan then {s.proc p with state := .RUNNABLE}
    else s.proc p}

/-- `sleep`, up to the return of `sched`. -/
def sleep (p : Slot) (chan : Chan) : Sys :=
  (s.upd p fun q => {q with chan := some chan, state := .SLEEPING}).sched p

def yield (p : Slot) : Sys := (s.upd p fun q => {q with state := .RUNNABLE}).sched p

/-! ### `fork` -/

/-- The first section of `allocproc`: a slot that is free, for the caller `p`. -/
def allocproc (p : Slot) : Sys :=
  match (List.finRange NPROC).find? fun n => (s.proc n).state = .UNUSED with
  | none => s
  | some n =>
    ({s.upd n fun q => {q with state := .EMBRYO, pid := s.nextpid, ctime := s.ticks} with
      nextpid := s.nextpid + 1}).goto p (.allocated n)

/-- The rest of `allocproc`; `a` is what `kalloc` answers. -/
def allocstack (p n : Slot) (a : Nat) : Sys :=
  if a = 0 then (s.upd n fun q => {q with kstack := 0, state := .UNUSED}).goto p .out
  else (s.upd n fun q => {q with kstack := a}).goto p (.stacked n)

/-- `fork` after `allocproc`; `d` is what `copyuvm` answers. -/
def forkcopy (p n : Slot) (d : Nat) : Sys :=
  if d = 0 then
    let s := s.upd n fun q => {q with pgdir := 0}
    let s := {s with freed := .kfree (s.proc n).kstack :: s.freed}
    (s.upd n fun q => {q with kstack := 0, state := .UNUSED}).goto p .out
  else
    let s := s.upd n fun q => {q with pgdir := d, parent := some p, name := (s.proc p).name}
    (s.upd p fun q => {q with ctime := s.ticks}).goto p (.copied n)

/-- The last section of `fork`. -/
def forkdone (p n : Slot) : Sys := (s.upd n fun q => {q with state := .RUNNABLE}).goto p .out

/-! ### `exit` -/

/-- The loop of `exit` that passes the children of `p` to `initproc`. -/
def reparent (s : Sys) (p : Slot) : List Slot → Sys
  | [] => s
  | q :: rest =>
    if (s.proc q).parent = some p then
      let s := s.upd q fun q => {q with parent := some s.initproc}
      reparent (if (s.proc q).state = .ZOMBIE then s.wakeup1 (some (.proc s.initproc)) else s) p rest
    else reparent s p rest

/-- The section of `exit` under the lock. -/
def exit (p : Slot) : Sys :=
  let s := s.wakeup1 ((s.proc p).parent.map .proc)
  let s := s.reparent p (List.finRange NPROC)
  ((s.upd p fun q => {q with etime := s.ticks, state := .ZOMBIE}).sched p).goto p .out

/-! ### `wait` and `new_wait` -/

/-- How a pass of `wait` ends. -/
inductive Waited where
  /-- It answers the pid of a child. -/
  | reaped (pid : BitVec 32)
  /-- It answers -1. -/
  | failed
  | asleep
deriving DecidableEq

/-- What `wait` does to the child it has found. -/
def reap (q : Slot) : Sys :=
  let s := {s with freed := .kfree (s.proc q).kstack :: s.freed}
  let s := s.upd q fun q => {q with kstack := 0}
  let s := {s with freed := .freevm (s.proc q).pgdir :: s.freed}
  s.upd q fun q => {q with pid := 0, parent := none, name := 0, killed := false, state := .UNUSED}

/-- A pass of `wait` over the rest of the table. -/
def wait_from (s : Sys) (p : Slot) : List Slot → Bool → Sys × Waited
  | [], havekids =>
    if havekids = false ∨ (s.proc p).killed = true then (s.goto p .out, .failed)
    else ((s.sleep p (.proc p)).goto p .waiting, .asleep)
  | q :: rest, havekids =>
    if (s.proc q).parent ≠ some p then wait_from s p rest havekids
    else if (s.proc q).state = .ZOMBIE then ((s.reap q).goto p .out, .reaped (s.proc q).pid)
    else wait_from s p rest true

/-- A pass of `wait`, called by `p`. -/
def wait (p : Slot) : Sys × Waited := s.wait_from p (List.finRange NPROC) false

/-- A pass of `new_wait` over the rest of the table. -/
def new_wait_from (s : Sys) (p : Slot) (create_time run_time stop_time : Nat) :
    List Slot → Bool → Sys × Waited
  | [], havekids =>
    if havekids = false ∨ (s.proc p).killed = true then (s.goto p .out, .failed)
    else ((s.sleep p (.proc p)).goto p (.newWaiting create_time run_time stop_time), .asleep)
  | q :: rest, havekids =>
    if (s.proc q).parent ≠ some p then new_wait_from s p create_time run_time stop_time rest havekids
    else if (s.proc q).state = .ZOMBIE then
      let t := s.reap q
      let t := t.store p create_time (t.proc q).ctime
      let t := t.store p run_time (t.proc q).ttime
      let t := t.store p stop_time (t.proc q).etime
      (t.goto p .out, .reaped (s.proc q).pid)
    else new_wait_from s p create_time run_time stop_time rest true

/-- A pass of `new_wait`, called by `p`. -/
def new_wait (p : Slot) (create_time run_time stop_time : Nat) : Sys × Waited :=
  s.new_wait_from p create_time run_time stop_time (List.finRange NPROC) false

/-- `sys_new_wait`, when its three arguments are addresses of the process. -/
def sys_new_wait (p : Slot) (create_time stop_time run_time : Nat) : Sys × Waited :=
  s.new_wait p create_time stop_time run_time

/-! ### `kill` -/

/-- `kill`: the table after it, and its answer. -/
def kill (pid : BitVec 32) : Sys × Int :=
  match (List.finRange NPROC).find? fun q => (s.proc q).pid = pid with
  | none => (s, -1)
  | some q =>
    (s.upd q fun q => {q with
      killed := true
      state := if q.state = .SLEEPING then .RUNNABLE else q.state}, 0)

/-! ### The scheduler and the timer -/

/-- The scheduler of processor `c` picks `p`, which goes on from where it was: a process in
`wait` looks at the table again before the lock is released. -/
def schedule (c : Nat) (p : Slot) : Sys :=
  let s := {s.upd p fun q => {q with state := .RUNNING} with cpu := update s.cpu c (some p)}
  let s := s.upd p fun q => {q with chan := none}
  match s.pc p with
  | .waiting => (s.wait p).1
  | .newWaiting create_time run_time stop_time => (s.new_wait p create_time run_time stop_time).1
  | _ => s

/-- A timer interrupt on processor `c`, without the `yield` that ends it. -/
def timer (c : Nat) : Sys :=
  if c = 0 then
    let s := {s with ticks := s.ticks + 1}.wakeup1 (some .ticks)
    match s.cpu 0 with
    | none => s
    | some p => if s.Running p then s.upd p fun q => {q with ctime := q.ctime + 1} else s
  else s

end Sys

/-! ### What one update does to a field -/

namespace Sys
variable (s : Sys) (p q : Slot) (f : Proc → Proc) (c : Pc)

theorem upd_proc : (s.upd p f).proc q = if q = p then f (s.proc p) else s.proc q := by
  by_cases h : q = p
  · subst h
    rw [if_pos rfl]
    exact update_self ..
  · rw [if_neg h]
    exact update_of_ne h ..

theorem goto_pc : (s.goto p c).pc q = if q = p then c else s.pc q := by
  by_cases h : q = p
  · subst h
    rw [if_pos rfl]
    exact update_self ..
  · rw [if_neg h]
    exact update_of_ne h ..

@[simp] theorem upd_pc : (s.upd p f).pc = s.pc := rfl
@[simp] theorem upd_ticks : (s.upd p f).ticks = s.ticks := rfl
@[simp] theorem upd_nextpid : (s.upd p f).nextpid = s.nextpid := rfl
@[simp] theorem upd_initproc : (s.upd p f).initproc = s.initproc := rfl
@[simp] theorem upd_cpu : (s.upd p f).cpu = s.cpu := rfl
@[simp] theorem upd_user : (s.upd p f).user = s.user := rfl
@[simp] theorem upd_freed : (s.upd p f).freed = s.freed := rfl
@[simp] theorem goto_proc : (s.goto p c).proc = s.proc := rfl
@[simp] theorem goto_ticks : (s.goto p c).ticks = s.ticks := rfl
@[simp] theorem goto_nextpid : (s.goto p c).nextpid = s.nextpid := rfl
@[simp] theorem goto_initproc : (s.goto p c).initproc = s.initproc := rfl
@[simp] theorem goto_cpu : (s.goto p c).cpu = s.cpu := rfl
@[simp] theorem goto_user : (s.goto p c).user = s.user := rfl
@[simp] theorem goto_freed : (s.goto p c).freed = s.freed := rfl
@[simp] theorem sched_proc : (s.sched p).proc = s.proc := rfl
@[simp] theorem sched_pc : (s.sched p).pc = s.pc := rfl
@[simp] theorem sched_ticks : (s.sched p).ticks = s.ticks := rfl
@[simp] theorem sched_nextpid : (s.sched p).nextpid = s.nextpid := rfl
@[simp] theorem sched_initproc : (s.sched p).initproc = s.initproc := rfl
@[simp] theorem sched_user : (s.sched p).user = s.user := rfl
@[simp] theorem sched_freed : (s.sched p).freed = s.freed := rfl

end Sys

end Xv6.Process
