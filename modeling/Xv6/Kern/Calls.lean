import Xv6.Kern.State
import Xv6.Fs.Exec

/-! The system calls on open files and processes: the rest of `sysfile.c`, and what `fork`,
`exit` and `wait` of `proc.c` do with files.

`p` is the calling process and `cwd` its current directory. An argument that could not be
fetched from user space is `none`, and `-1` is what a failed call returns. -/
namespace Xv6.Kern
open Lib

/-! ### `fcntl.h` -/

abbrev O_RDONLY : BitVec 32 := 0
abbrev O_WRONLY : BitVec 32 := 1
abbrev O_RDWR : BitVec 32 := 2
abbrev O_CREATE : BitVec 32 := 0x200

/-! ### Descriptors -/

/-- Fetch a descriptor argument: the descriptor and the open file it stands for. -/
def argfd (p : Slot) (fd : Option (BitVec 32)) : K (Option (Fd × FilePtr)) := do
  let k ← get
  match fd with
  | none => pure none
  | some fd =>
    if h : fd.toInt < 0 ∨ NOFILE ≤ fd.toInt then pure none
    else
      let fd : Fd := ⟨fd.toInt.toNat, by omega⟩
      pure (((k.proc p).ofile fd).map fun f => (fd, f))

/-- Allocate a file descriptor for the given file. -/
def fdalloc (p : Slot) (f : FilePtr) : K (Option Fd) := do
  let k ← get
  match (List.finRange NOFILE).find? fun fd => ((k.proc p).ofile fd).isNone with
  | some fd =>
    modify fun k => k.setFd p fd (some f)
    pure (some fd)
  | none => pure none

def sys_dup (p : Slot) (fd : Option (BitVec 32)) : K Int := do
  let r ← argfd p fd
  match r with
  | none => pure (-1)
  | some (_, f) => do
    let fd ← fdalloc p f
    match fd with
    | none => pure (-1)
    | some fd => do
      filedup f
      pure fd

variable (sb : Superblock)

def sys_close (p : Slot) (fd : Option (BitVec 32)) : K Int := do
  let r ← argfd p fd
  match r with
  | none => pure (-1)
  | some (fd, f) => do
    modify fun k => k.setFd p fd none
    fileclose sb f
    pure 0

/-- `sys_pipe`: the two descriptors it stores, or `none` for `-1`. -/
def sys_pipe (p : Slot) (fds : Bool) (page : Nat) : K (Option (Fd × Fd)) :=
  if fds = false then pure none
  else do
    let r ← pipealloc sb page
    match r with
    | none => pure none
    | some (rf, wf) => do
      let fd0 ← fdalloc p rf
      match fd0 with
      | none => do
        fileclose sb rf
        fileclose sb wf
        pure none
      | some fd0 => do
        let fd1 ← fdalloc p wf
        match fd1 with
        | none => do
          modify fun k => k.setFd p fd0 none
          fileclose sb rf
          fileclose sb wf
          pure none
        | some fd1 => pure (some (fd0, fd1))

/-! ### Files and directories -/

/-- The first half of `sys_open`: the inode to open, locked. -/
def open_inode (cwd : Fs.Ptr) (path : List Byte) (omode : BitVec 32) : Fs.M (Option Fs.Ptr) :=
  if omode &&& O_CREATE ≠ 0 then Fs.create sb cwd path Fs.T_FILE 0 0
  else do
    let r ← Fs.namei sb cwd path
    match r with
    | none => pure none
    | some ip => do
      Fs.ilock sb ip
      let i ← Fs.inode ip
      if i.d.type = Fs.T_DIR ∧ omode ≠ O_RDONLY then do
        Fs.iunlockput sb ip
        pure none
      else pure (some ip)

/-- The end of `sys_open` when there is no file or no descriptor. -/
def open_bad (ip : Fs.Ptr) : K Int := do
  fs do
    Fs.iunlockput sb ip
    Fs.end_op
  pure (-1)

/-- The fields `sys_open` sets in the file. -/
def File.opened (ip : Fs.Ptr) (omode : BitVec 32) (r : File) : File :=
  {r with
    type := .FD_INODE
    ip := ip
    off := 0
    readable := omode &&& O_WRONLY = 0
    writable := omode &&& O_WRONLY ≠ 0 ∨ omode &&& O_RDWR ≠ 0}

def sys_open (p : Slot) (cwd : Fs.Ptr) (args : Option (List Byte × BitVec 32)) : K Int :=
  match args with
  | none => pure (-1)
  | some (path, omode) => do
    fs Fs.begin_op
    let r ← fs (open_inode sb cwd path omode)
    match r with
    | none => do
      fs Fs.end_op
      pure (-1)
    | some ip => do
      let f ← filealloc
      match f with
      | none => open_bad sb ip
      | some f => do
        let fd ← fdalloc p f
        match fd with
        | none => do
          fileclose sb f
          open_bad sb ip
        | some fd => do
          fs do
            Fs.iunlock ip
            Fs.end_op
          modify fun k => k.setFile f (File.opened ip omode)
          pure fd

def sys_chdir (p : Slot) (cwd : Fs.Ptr) (path : Option (List Byte)) : K Int := do
  fs Fs.begin_op
  match path with
  | none => do
    fs Fs.end_op
    pure (-1)
  | some path => do
    let r ← fs (Fs.namei sb cwd path)
    match r with
    | none => do
      fs Fs.end_op
      pure (-1)
    | some ip => do
      fs (Fs.ilock sb ip)
      let i ← fs (Fs.inode ip)
      if i.d.type ≠ Fs.T_DIR then do
        fs (Fs.iunlockput sb ip)
        fs Fs.end_op
        pure (-1)
      else do
        fs (Fs.iunlock ip)
        fs (Fs.iput sb cwd)
        fs Fs.end_op
        modify fun k => k.setProc p fun r => {r with cwd := some ip}
        pure 0

/-! ### `proc.c` -/

/-- The loop of `fork` over the open files. -/
def fork_files (p np : Slot) : K Unit :=
  (List.finRange NOFILE).forM fun fd => do
    let k ← get
    match (k.proc p).ofile fd with
    | none => pure ()
    | some f => do
      filedup f
      modify fun k => k.setFd np fd (some f)

/-- `fork`: the new process, or `none` for `-1`. `memory` says whether there is memory for
its kernel stack and its address space. -/
def fork (p : Slot) (cwd : Fs.Ptr) (memory : Bool) : K (Option Slot) := do
  let k ← get
  match (List.finRange NPROC).find? fun q => (k.proc q).state = .UNUSED with
  | none => pure none
  | some np =>
    if memory = false then pure none
    else do
      modify fun k => k.setProc np fun r => {r with parent := some p}
      fork_files p np
      let cwd ← fs (Fs.idup cwd)
      modify fun k => k.setProc np fun r => {r with cwd := some cwd, state := .RUNNABLE}
      pure (some np)

/-- The loop of `exit` over the open files. -/
def exit_files (p : Slot) : K Unit :=
  (List.finRange NOFILE).forM fun fd => do
    let k ← get
    match (k.proc p).ofile fd with
    | none => pure ()
    | some f => do
      fileclose sb f
      modify fun k => k.setFd p fd none

/-- The last section of `exit`. -/
def Kernel.leave (k : Kernel) (p : Slot) : Kernel :=
  {k with proc := fun q =>
    {k.proc q with
      parent := if (k.proc q).parent = some p then some k.initproc else (k.proc q).parent
      state := if q = p then .ZOMBIE else (k.proc q).state}}

/-- `exit`, of a process other than `initproc`. -/
def exit (p : Slot) (cwd : Fs.Ptr) : K Unit := do
  exit_files sb p
  fs do
    Fs.begin_op
    Fs.iput sb cwd
    Fs.end_op
  modify fun k => k.setProc p fun r => {r with cwd := none}
  modify fun k => k.leave p

/-- `wait`, and `new_wait`: the child it reaps, or `none` when there is none to reap. -/
def wait (p : Slot) : K (Option Slot) := do
  let k ← get
  match (List.finRange NPROC).find? fun q =>
      (k.proc q).parent = some p ∧ (k.proc q).state = .ZOMBIE with
  | none => pure none
  | some q => do
    modify fun k => k.setProc q fun r => {r with parent := none, state := .UNUSED}
    pure (some q)

end Xv6.Kern
