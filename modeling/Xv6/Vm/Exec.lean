import Xv6.Fs.Exec
import Xv6.Vm.Grow

/-! The memory side of `exec`: `exec.c`, and `loaduvm`.

The file is given by its contents. The argument strings are values; the kernel reads them at the
addresses of the process that calls `exec`, whose page directory `cr3` holds until the new one is
committed. -/
namespace Xv6.Vm
open Lib
open Fs (ELF_MAGIC ELF_PROG_LOAD ELFHDR PROGHDR uintAt ushortAt)

/-! ### The file -/

/-- `readi` of `n` bytes at `off` of a regular file. -/
def readi (file : List Byte) (off n : Nat) : Option (List Byte) :=
  if file.length < off ∨ 2 ^ 32 ≤ off + n then none else some ((file.drop off).take n)

structure Proghdr where
  type : BitVec 32
  off : Nat
  vaddr : Nat
  filesz : Nat
  memsz : Nat

def Proghdr.ofBytes (bytes : List Byte) : Proghdr where
  type := uintAt bytes 0
  off := (uintAt bytes 4).toNat
  vaddr := (uintAt bytes 8).toNat
  filesz := (uintAt bytes 16).toNat
  memsz := (uintAt bytes 20).toNat

/-! ### Loading -/

/-- The loop of `loaduvm` from `i` on: is all loaded? -/
def loaduvm_from (pgdir addr : Nat) (file : List Byte) (offset sz : Nat) : Nat → Nat → M Bool
  | 0, _ => pure true
  | fuel + 1, i =>
    if i < sz then do
      let r ← walkpgdir pgdir ((addr + i) % 2 ^ 32) false
      match r with
      | none => throw .loaduvmExists
      | some (pgtab, j) => do
        let pte ← getWord pgtab j
        let n := if sz - i < PGSIZE then sz - i else PGSIZE
        match readi file ((offset + i) % 2 ^ 32) n with
        | none => pure false
        | some bytes => do
          let b ← getPage (PTE_ADDR pte)
          setPage (PTE_ADDR pte) (b.blit 0 bytes)
          if bytes.length ≠ n then pure false
          else loaduvm_from pgdir addr file offset sz fuel ((i + PGSIZE) % 2 ^ 32)
    else pure true

/-- Load a program segment into pages that are mapped. -/
def loaduvm (pgdir addr : Nat) (file : List Byte) (offset sz : Nat) : M Bool :=
  if addr % PGSIZE ≠ 0 then throw .loaduvmAligned
  else loaduvm_from pgdir addr file offset sz (2 ^ 20) 0

/-- The loop of `exec` over the program headers from `off` on, `n` of them left: the size of the
program, or `none` for `goto bad`. -/
def exec_from (K : Kernel) (pgdir : Nat) (file : List Byte) : Nat → Nat → Nat → M (Option Nat)
  | 0, _, sz => pure (some sz)
  | n + 1, off, sz =>
    match readi file off PROGHDR with
    | none => pure none
    | some bytes =>
      let ph := Proghdr.ofBytes bytes
      if bytes.length ≠ PROGHDR then pure none
      else if ph.type ≠ ELF_PROG_LOAD then exec_from K pgdir file n ((off + PROGHDR) % 2 ^ 32) sz
      else if ph.memsz < ph.filesz then pure none
      else if (ph.vaddr + ph.memsz) % 2 ^ 32 < ph.vaddr then pure none
      else do
        let sz ← allocuvm K pgdir sz ((ph.vaddr + ph.memsz) % 2 ^ 32)
        if sz = 0 then pure none
        else if ph.vaddr % PGSIZE ≠ 0 then pure none
        else do
          let loaded ← loaduvm pgdir ph.vaddr file ph.off ph.filesz
          if loaded then exec_from K pgdir file n ((off + PROGHDR) % 2 ^ 32) sz
          else pure none

/-- What `exec` has made when it comes to the arguments. -/
structure Image where
  pgdir : Nat
  entry : BitVec 32
  sz : Nat

/-- `goto bad` with a page directory. -/
def exec_bad (K : Kernel) (pgdir : Nat) : M (Option Image) := do
  freevm K pgdir
  pure none

/-- Two pages for the stack: the first is not accessible. -/
def exec_stack (K : Kernel) (pgdir : Nat) (entry : BitVec 32) (sz : Nat) : M (Option Image) := do
  let sz ← allocuvm K pgdir (PGROUNDUP sz) ((PGROUNDUP sz + 2 * PGSIZE) % 2 ^ 32)
  if sz = 0 then exec_bad K pgdir
  else do
    clearpteu pgdir (sz - 2 * PGSIZE)
    pure (some ⟨pgdir, entry, sz⟩)

/-- `exec` up to the arguments. -/
@[irreducible] def exec_load (K : Kernel) (file : List Byte) : M (Option Image) :=
  match readi file 0 ELFHDR with
  | none => pure none
  | some elf =>
    if elf.length ≠ ELFHDR then pure none
    else if uintAt elf 0 ≠ ELF_MAGIC then pure none
    else do
      let r ← setupkvm K
      match r with
      | none => pure none
      | some pgdir => do
        let r ← exec_from K pgdir file (ushortAt elf 44).toNat (uintAt elf 28).toNat 0
        match r with
        | none => exec_bad K pgdir
        | some sz => exec_stack K pgdir (uintAt elf 24) sz

/-! ### Arguments -/

abbrev MAXARG : Nat := 32

/-- Where a string is pushed. -/
def pushed (sp : Nat) (arg : List Byte) : Nat := (sp + (2 ^ 32 - (arg.length + 1) % 2 ^ 32)) % 2 ^ 32 / 4 * 4

/-- The loop of `exec` over the arguments: the stack pointer and the words of `ustack` from the third
on, or `none` for `goto bad`. -/
def exec_push (K : Kernel) (cr3 pgdir : Nat) : List (List Byte) → Nat → List Nat → M (Option (Nat × List Nat))
  | [], sp, ustack => pure (some (sp, ustack))
  | arg :: argv, sp, ustack =>
    if MAXARG ≤ ustack.length then pure none
    else do
      let sp := pushed sp arg
      let r ← copyout K cr3 pgdir sp (arg ++ [0])
      if r < 0 then pure none
      else exec_push K cr3 pgdir argv sp (ustack ++ [sp])

/-- The bytes of words. -/
def wordBytes (ws : List Nat) : List Byte :=
  ws.flatMap fun w => (List.range 4).map fun k => (BitVec.ofNat 32 w).extractLsb' (8 * k) 8

/-- Push the arguments: the stack pointer, or `none` for `goto bad`. -/
@[irreducible] def exec_args (K : Kernel) (cr3 pgdir sz : Nat) (argv : List (List Byte)) : M (Option Nat) := do
  let r ← exec_push K cr3 pgdir argv sz []
  match r with
  | none => pure none
  | some (sp, ustack) => do
    let argc := ustack.length
    let ustack := [0xffffffff, argc, (sp + (2 ^ 32 - (argc + 1) * 4)) % 2 ^ 32] ++ ustack ++ [0]
    let sp := (sp + (2 ^ 32 - (3 + argc + 1) * 4)) % 2 ^ 32
    let r ← copyout K cr3 pgdir sp (wordBytes ustack)
    if r < 0 then pure none
    else pure (some sp)

/-! ### `exec` -/

/-- The loop over the path: what follows the last slash. -/
def exec_last : List Byte → List Byte → List Byte
  | last, [] => last
  | last, c :: s => exec_last (if c = 47 then s else last) s

/-- `exec` of a regular file that was found at `path`. -/
@[irreducible] def exec (K : Kernel) (curproc : Proc) (path file : List Byte) (argv : List (List Byte)) : M (Int × Proc) := do
  let r ← exec_load K file
  match r with
  | none => pure (-1, curproc)
  | some im => do
    let r ← exec_args K curproc.pgdir im.pgdir im.sz argv
    match r with
    | none => do
      freevm K im.pgdir
      pure (-1, curproc)
    | some sp => do
      freevm K curproc.pgdir
      pure (0, ⟨im.pgdir, im.sz, (exec_last path path).take 15, im.entry, sp⟩)

end Xv6.Vm
