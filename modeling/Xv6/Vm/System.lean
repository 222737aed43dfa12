import Xv6.Lib.Machine
import Xv6.Vm.Args

/-! Processes and pipes as owners of physical pages: `proc.c`, `pipe.c` and `main.c`.

Of an entry of the process table only what concerns memory is kept. A process that is asleep, ready or
running is `live`; `EMBRYO` is a state within `fork` only. The kernel's page directory and the stacks
of the other processors are allocated when the kernel starts. -/
namespace Xv6.Vm
open Lib Function

/-! ### State -/

inductive Life where
  | unused
  | live
  | zombie
deriving DecidableEq

/-- An entry of `ptable.proc`. -/
structure Task where
  life : Life
  kstack : Nat
  proc : Proc
  parent : Option Nat

structure Pipe where
  page : Nat
  readopen : Bool
  writeopen : Bool

abbrev Table := Nat → Task

structure System where
  mem : State
  procs : Table
  initproc : Nat
  pipes : Nat → Option Pipe
  kpgdir : Nat
  /-- The stacks that `startothers` allocates. -/
  cpus : List Nat

/-! ### Processes -/

/-- An unused entry of the process table and a kernel stack for it. -/
def allocproc (procs : Table) : M (Option (Nat × Nat)) :=
  match (List.range NPROC).find? fun i => (procs i).life = .unused with
  | none => pure none
  | some i => do
    let r ← kalloc
    pure (r.map fun kstack => (i, kstack))

/-- `fork` by the process `cur`: the new process, or `none` for -1. -/
def fork (K : Kernel) (procs : Table) (cur : Nat) : M (Option Nat × Table) := do
  let curproc := (procs cur).proc
  let r ← allocproc procs
  match r with
  | none => pure (none, procs)
  | some (np, kstack) => do
    let r ← copyuvm K curproc.pgdir curproc.sz
    match r with
    | none => do
      kfree K kstack
      pure (none, procs)
    | some pgdir => pure (some np, update procs np ⟨.live, kstack, {curproc with pgdir := pgdir}, some cur⟩)

/-- `exit` by the process `cur`: its children are passed to `initproc`. -/
def exit (procs : Table) (initproc cur : Nat) : M Table :=
  if cur = initproc then throw .initExiting
  else
    let abandoned : Table := fun i =>
      if (procs i).parent = some cur then {procs i with parent := some initproc} else procs i
    pure (update abandoned cur {abandoned cur with life := .zombie})

/-- The first child of `cur` that has exited. -/
def zombie (procs : Table) (cur : Nat) : Option Nat :=
  (List.range NPROC).find? fun i => (procs i).parent = some cur ∧ (procs i).life = .zombie

/-- `wait` and `new_wait` by the process `cur`, when they look at the table: the child that was found. -/
def wait (K : Kernel) (procs : Table) (cur : Nat) : M (Option Nat × Table) :=
  match zombie procs cur with
  | none => pure (none, procs)
  | some i => do
    kfree K (procs i).kstack
    freevm K (procs i).proc.pgdir
    pure (some i, update procs i {procs i with life := .unused, parent := none})

/-! ### Pipes -/

/-- `pipealloc`: `files` says whether `filealloc` finds two files. -/
def pipealloc (files : Bool) : M (Option Pipe) :=
  if files then do
    let r ← kalloc
    pure (r.map fun page => ⟨page, true, true⟩)
  else pure none

/-- `pipeclose`: what is left of the pipe. -/
def pipeclose (K : Kernel) (p : Pipe) (writable : Bool) : M (Option Pipe) :=
  let p := if writable then {p with writeopen := false} else {p with readopen := false}
  if p.readopen = false ∧ p.writeopen = false then do
    kfree K p.page
    pure none
  else pure (some p)

/-! ### Boot -/

/-- The loop of `freerange` from the kernel address `p` on. -/
def freerange_from (K : Kernel) (vend : Nat) : Nat → Nat → M Unit
  | 0, _ => pure ()
  | fuel + 1, p =>
    if p + PGSIZE ≤ vend then do
      kfree K ((p - KERNBASE) / PGSIZE)
      freerange_from K vend fuel (p + PGSIZE)
    else pure ()

@[irreducible] def freerange (K : Kernel) (vstart vend : Nat) : M Unit :=
  freerange_from K vend (2 ^ 20) (PGROUNDUP vstart)

/-- `startothers` for `n` processors. One that has no stack does not come up. -/
def startothers : Nat → M (List Nat)
  | 0 => pure []
  | n + 1 => do
    let r ← kalloc
    match r with
    | none => throw .fault
    | some stack => do
      let rest ← startothers n
      pure (stack :: rest)

/-- Load the first program at address 0. Whether it could be mapped is not looked at. -/
def inituvm (pgdir : Nat) (init : List Byte) : M Unit :=
  if PGSIZE ≤ init.length then throw .inituvm
  else do
    let r ← kalloc
    match r with
    | none => throw .fault
    | some mem => do
      setPage mem Bytes.zero
      let _ ← mappages pgdir 0 PGSIZE (mem * PGSIZE) (PTE_W ||| PTE_U)
      let b ← getPage mem
      setPage mem (b.blit 0 init)

/-- The name of the first process. -/
def initcode : List Byte := "initcode".toList.map fun c => BitVec.ofNat 8 c.toNat

/-- The first process. -/
def userinit (K : Kernel) (procs : Table) (init : List Byte) : M (Nat × Table) := do
  let r ← allocproc procs
  match r with
  | none => throw .fault
  | some (p, kstack) => do
    let r ← setupkvm K
    match r with
    | none => throw .userinit
    | some pgdir => do
      inituvm pgdir init
      pure (p, update procs p ⟨.live, kstack, ⟨pgdir, PGSIZE, initcode, 0, PGSIZE⟩, none⟩)

/-- `main` on a machine with `ncpu` other processors. -/
def main (K : Kernel) (ncpu : Nat) (init : List Byte) : M System := do
  freerange K K.ends (KERNBASE + 4 * 1024 * 1024)
  let r ← setupkvm K
  match r with
  | none => throw .fault
  | some kpgdir => do
    let cpus ← startothers ncpu
    freerange K (KERNBASE + 4 * 1024 * 1024) (KERNBASE + PHYSTOP)
    let (initproc, procs) ← userinit K (fun _ => ⟨.unused, 0, ⟨0, 0, [], 0, 0⟩, none⟩) init
    let mem ← get
    pure ⟨mem, procs, initproc, fun _ => none, kpgdir, cpus⟩

/-! ### Steps -/

/-- What a process hands to `exec`: a file of at most the largest size, and as many strings as `sys_exec`
takes. -/
structure Program where
  path : List Byte
  file : List Byte
  argv : List (List Byte)
  size : file.length ≤ MAXFILE * BSIZE
  count : argv.length < MAXARG

/-- What a process does; `write` is a page of its memory being changed, by itself or by the kernel for
it. -/
inductive Call where
  | fork
  | exec (P : Program)
  | sbrk (n : BitVec 32)
  | exit
  | wait
  | pipe (files : Bool) (j : Nat)
  | pipeclose (j : Nat) (writable : Bool)
  | write (v : Nat) (b : Bytes PGSIZE)

/-- The state after a program that changes memory, unless the kernel stops. -/
def System.after (x : System) {α : Type} (m : M α) (k : α → System → System) : Option System :=
  match m x.mem with
  | .ok (a, t) => some (k a {x with mem := t})
  | .error _ => none

/-- The process `i` is now `p`. -/
def System.setProc (i : Nat) (p : Proc) (x : System) : System :=
  {x with procs := update x.procs i {x.procs i with proc := p}}

def System.setPipe (j : Nat) (p : Option Pipe) (x : System) : System :=
  {x with pipes := update x.pipes j p}

/-- The page at virtual page `v` of the process is written. -/
def writeUser (pgdir v : Nat) (b : Bytes PGSIZE) : M Unit := do
  let s ← get
  if v < KERNBASE / PGSIZE ∧ has (pteOf s pgdir v) PTE_P then setPage (PTE_ADDR (pteOf s pgdir v)) b else throw .fault

/-- A step of the process `i`. The strings for `exec` are in its memory, and a pipe is made under a number that is
not in use. -/
def step (K : Kernel) (x : System) (a : Nat × Call) : Option System :=
  let i := a.1
  let p := (x.procs i).proc
  if (x.procs i).life = .live then
    match a.2 with
    | .fork => x.after (fork K x.procs i) fun r y => {y with procs := r.2}
    | .exec P =>
      if ∀ arg ∈ P.argv, arg.length < p.sz then x.after (exec K p P.path P.file P.argv) fun r => System.setProc i r.2
      else none
    | .sbrk n => x.after (growproc K p n) fun r => System.setProc i r.2
    | .exit => x.after (exit x.procs x.initproc i) fun r y => {y with procs := r}
    | .wait => x.after (wait K x.procs i) fun r y => {y with procs := r.2}
    | .pipe files j => if (x.pipes j).isNone then x.after (pipealloc files) (System.setPipe j) else none
    | .pipeclose j writable =>
      match x.pipes j with
      | none => none
      | some q => x.after (pipeclose K q writable) (System.setPipe j)
    | .write v b => x.after (writeUser p.pgdir v b) fun _ y => y
  else none

end Xv6.Vm
