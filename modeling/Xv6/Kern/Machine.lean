import Xv6.Lib.Machine
import Xv6.Kern.Calls

/-! Processes making system calls, one at a time. -/
namespace Xv6.Kern
open Lib

/-- A system call with its arguments, and with what the memory allocator does in it. -/
inductive Action where
  | fork (memory : Bool)
  | exit
  | wait
  | open (args : Option (List Byte × BitVec 32))
  | dup (fd : Option (BitVec 32))
  | close (fd : Option (BitVec 32))
  | pipe (fds : Bool) (page : Nat)
  | chdir (path : Option (List Byte))
  | link (args : Option (List Byte × List Byte))
  | unlink (path : Option (List Byte))
  | mkdir (path : Option (List Byte))
  | mknod (args : Option (List Byte × BitVec 32 × BitVec 32))
  | exec (m : Fs.Memory) (path : Option (List Byte))

variable (sb : Superblock)

/-- What the call does, for the process `p` with current directory `cwd`. -/
def perform (p : Slot) (cwd : Fs.Ptr) : Action → K Unit
  | .fork memory => do let _ ← fork p cwd memory
  | .exit => exit sb p cwd
  | .wait => do let _ ← wait p
  | .open args => do let _ ← sys_open sb p cwd args
  | .dup fd => do let _ ← sys_dup p fd
  | .close fd => do let _ ← sys_close sb p fd
  | .pipe fds page => do let _ ← sys_pipe sb p fds page
  | .chdir path => do let _ ← sys_chdir sb p cwd path
  | .link args => do let _ ← fs (Fs.sys_link sb cwd args)
  | .unlink path => do let _ ← fs (Fs.sys_unlink sb cwd path)
  | .mkdir path => do let _ ← fs (Fs.sys_mkdir sb cwd path)
  | .mknod args => do let _ ← fs (Fs.sys_mknod sb cwd args)
  | .exec m path => do let _ ← fs (Fs.sys_exec sb cwd m path)

/-- The process is there to make calls. -/
def Proc.Alive (r : Proc) : Prop := r.state = .SLEEPING ∨ r.state = .RUNNABLE ∨ r.state = .RUNNING

instance (r : Proc) : Decidable r.Alive := by
  unfold Proc.Alive
  infer_instance

/-- `initproc` does not exit, and the allocator does not answer a page that is in use. -/
def Allowed (k : Kernel) (p : Slot) : Action → Prop
  | .exit => p ≠ k.initproc
  | .pipe _ page => k.pages.count (.kalloc page) = k.pages.count (.kfree page)
  | _ => True

instance (k : Kernel) (p : Slot) (a : Action) : Decidable (Allowed k p a) := by
  cases a <;> (unfold Allowed; infer_instance)

/-- One call of a process, if it returns. -/
def step (k : Kernel) (a : Slot × Action) : Option Kernel :=
  match (k.proc a.1).cwd with
  | none => none
  | some cwd =>
    if (k.proc a.1).Alive ∧ Allowed k a.1 a.2 then
      match perform sb a.1 cwd a.2 k with
      | .ok (_, k') => some k'
      | .error _ => none
    else none

theorem of_step (h : step sb k (p, a) = some k') :
    ∃ cwd, (k.proc p).cwd = some cwd ∧ (k.proc p).Alive ∧ Allowed k p a ∧
      perform sb p cwd a k = .ok ((), k') := by
  rw [step] at h
  match hc : (k.proc p).cwd with
  | none =>
    rw [hc] at h
    cases h
  | some cwd =>
    simp only [hc] at h
    split at h
    case isFalse => cases h
    case isTrue ha =>
      match hp : perform sb p cwd a k with
      | .error e =>
        rw [hp] at h
        cases h
      | .ok ((), k₁) =>
        rw [hp, Option.some.injEq] at h
        exact ⟨cwd, rfl, ha.1, ha.2, by rw [hp, h]⟩

end Xv6.Kern
