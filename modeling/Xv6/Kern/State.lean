import Xv6.Process.Table
import Xv6.Fs.Sysfile

/-! Open files, pipes and processes: `file.c` and `pipe.c`.

System calls run one at a time, as in the file system below. Of a process there is what
its calls use of other processes' work: its state, its parent, its open files and its
current directory. The page of a pipe is what `kalloc` answered for it. -/
namespace Xv6.Kern
open Lib Function

/-- What a `struct file` is open on. -/
inductive FileType where
  | FD_NONE
  | FD_PIPE
  | FD_INODE
deriving DecidableEq

/-- A `struct file *`: an entry of the file table. -/
abbrev FilePtr := Fin NFILE

/-- A file descriptor. -/
abbrev Fd := Fin NOFILE

abbrev Slot := Process.Slot

structure File where
  type : FileType
  ref : Nat
  readable : Bool
  writable : Bool
  pipe : Nat
  ip : Fs.Ptr
  off : Nat

structure Pipe where
  readopen : Bool
  writeopen : Bool

/-- The pipe with one of its ends closed. -/
def Pipe.close (p : Pipe) (writable : Bool) : Pipe :=
  if writable then {p with writeopen := false} else {p with readopen := false}

structure Proc where
  state : Process.ProcState
  parent : Option Slot
  ofile : Fd → Option FilePtr
  cwd : Option Fs.Ptr

/-- A call of the memory allocator by `pipe.c`. -/
inductive Page where
  | kalloc (a : Nat)
  | kfree (a : Nat)
deriving DecidableEq

structure Kernel where
  fs : Fs.State
  ftable : FilePtr → File
  /-- The `struct pipe` in each page. -/
  pipe : Nat → Pipe
  /-- The pages pipes got and gave back, last first. -/
  pages : List Page
  proc : Slot → Proc
  initproc : Slot

namespace Kernel

/-- The kernel with the file `f` changed. -/
def setFile (k : Kernel) (f : FilePtr) (g : File → File) : Kernel :=
  {k with ftable := update k.ftable f (g (k.ftable f))}

/-- The kernel with the process `p` changed. -/
def setProc (k : Kernel) (p : Slot) (g : Proc → Proc) : Kernel :=
  {k with proc := update k.proc p (g (k.proc p))}

/-- The kernel with the descriptor `fd` of `p` changed. -/
def setFd (k : Kernel) (p : Slot) (fd : Fd) (f : Option FilePtr) : Kernel :=
  k.setProc p fun r => {r with ofile := update r.ofile fd f}

theorem setProc_proc (k : Kernel) (p : Slot) (g : Proc → Proc) (q : Slot) :
    (k.setProc p g).proc q = if q = p then g (k.proc p) else k.proc q :=
  update_apply ..

end Kernel

abbrev K := Exec Fs.Halt Kernel

/-- A program of the file system. -/
def fs {α : Type} (x : Fs.M α) : K α := fun k =>
  match x k.fs with
  | .ok (a, s) => .ok (a, {k with fs := s})
  | .error e => .error e

/-! ### `file.c` -/

/-- Allocate a file structure. -/
def filealloc : K (Option FilePtr) := do
  let k ← get
  match (List.finRange NFILE).find? fun f => (k.ftable f).ref == 0 with
  | some f =>
    modify fun k => k.setFile f fun r => {r with ref := 1}
    pure (some f)
  | none => pure none

/-- Increment ref count for file `f`. -/
def filedup (f : FilePtr) : K Unit := do
  let k ← get
  if (k.ftable f).ref < 1 then throw (.panic .filedup)
  else modify fun k => k.setFile f fun r => {r with ref := r.ref + 1}

/-- Close one end of the pipe in page `a`; the second close gives the page back. -/
def pipeclose (a : Nat) (writable : Bool) : K Unit := do
  let k ← get
  let p := (k.pipe a).close writable
  modify fun k => {k with pipe := update k.pipe a p}
  if p.readopen = false ∧ p.writeopen = false then
    modify fun k => {k with pages := .kfree a :: k.pages}
  else pure ()

variable (sb : Superblock)

/-- What `fileclose` does with the last reference to a file. -/
def release (ff : File) : K Unit :=
  match ff.type with
  | .FD_NONE => pure ()
  | .FD_PIPE => pipeclose ff.pipe ff.writable
  | .FD_INODE => fs do
    Fs.begin_op
    Fs.iput sb ff.ip
    Fs.end_op

/-- Close file `f`: decrement ref count, close when it reaches 0. -/
def fileclose (f : FilePtr) : K Unit := do
  let k ← get
  let ff := k.ftable f
  if ff.ref < 1 then throw (.panic .fileclose)
  else if 0 < ff.ref - 1 then modify fun k => k.setFile f fun r => {r with ref := r.ref - 1}
  else do
    modify fun k => k.setFile f fun r => {r with ref := 0, type := .FD_NONE}
    release sb ff

/-! ### `pipe.c` -/

/-- The fields `pipealloc` sets in the file of one end. -/
def File.piped (a : Nat) (writable : Bool) (r : File) : File :=
  {r with type := .FD_PIPE, readable := !writable, writable := writable, pipe := a}

/-- A new pipe in page `a`, with the files of its two ends. -/
def pipeEnds (f0 f1 : FilePtr) (a : Nat) (k : Kernel) : Kernel :=
  {(k.setFile f0 (File.piped a false)).setFile f1 (File.piped a true) with
    pipe := update k.pipe a ⟨true, true⟩
    pages := .kalloc a :: k.pages}

/-- Allocate a pipe and its two files; `page` is what `kalloc` answers, zero when it fails. -/
def pipealloc (page : Nat) : K (Option (FilePtr × FilePtr)) := do
  let f0 ← filealloc
  match f0 with
  | none => pure none
  | some f0 => do
    let f1 ← filealloc
    match f1 with
    | none => do
      fileclose sb f0
      pure none
    | some f1 =>
      if page = 0 then do
        fileclose sb f0
        fileclose sb f1
        pure none
      else do
        modify (pipeEnds f0 f1 page)
        pure (some (f0, f1))

end Xv6.Kern
