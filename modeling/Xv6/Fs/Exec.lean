import Xv6.Fs.Sysfile

/-! What `exec` does to the file it loads: `exec.c`, and `loaduvm`.

The memory it builds is not kept here; `Memory` says which of its allocations succeed. -/
namespace Xv6.Fs
open Lib

abbrev ELF_MAGIC : BitVec 32 := 0x464C457F
abbrev ELF_PROG_LOAD : BitVec 32 := 1
/-- `sizeof(struct elfhdr)` and `sizeof(struct proghdr)`. -/
abbrev ELFHDR : Nat := 52
abbrev PROGHDR : Nat := 32

/-- The `uint` at an offset of a structure that was read. -/
def uintAt (bs : List Byte) (off : Nat) : BitVec 32 :=
  bs.getD (off + 3) 0 ++ bs.getD (off + 2) 0 ++ bs.getD (off + 1) 0 ++ bs.getD off 0

/-- The `ushort` at an offset of a structure that was read. -/
def ushortAt (bs : List Byte) (off : Nat) : BitVec 16 := bs.getD (off + 1) 0 ++ bs.getD off 0

/-- How the memory side of an `exec` goes. -/
structure Memory where
  /-- `setupkvm` succeeds. -/
  pgdir : Bool
  /-- `allocuvm` for the `i`th program header finds its pages. -/
  segment : Nat → Bool
  /-- `allocuvm` for the stack finds its pages. -/
  stack : Bool
  /-- The arguments are at most `MAXARG` and are copied out. -/
  args : Bool

/-- The size that `allocuvm` answers; `pages` says whether the pages it asks for are there. -/
@[irreducible] def allocuvm (pages : Bool) (oldsz newsz : Nat) : Nat :=
  if KERNBASE ≤ newsz then 0
  else if newsz < oldsz then oldsz
  else if pages then newsz
  else 0

variable (sb : Superblock)

/-- The loop of `loaduvm` from `i` on: does it succeed? -/
def loaduvm_from (ip : Ptr) (offset sz : Nat) : Nat → Nat → M Bool
  | 0, _ => pure true
  | fuel + 1, i =>
    if i < sz then do
      let n := if sz - i < PGSIZE then sz - i else PGSIZE
      let r ← readi sb ip ((offset + i) % 2 ^ 32) n
      if r.map List.length ≠ some n then pure false
      else loaduvm_from ip offset sz fuel (i + PGSIZE)
    else pure true

/-- Load a program segment into memory whose pages are mapped. -/
def loaduvm (ip : Ptr) (offset sz : Nat) : M Bool :=
  loaduvm_from sb ip offset sz (sz / PGSIZE + 1) 0

/-- The loop of `exec` over the program headers from the `i`th on, `n` of them left: the size
of the program, or `none` for `goto bad`. -/
def exec_from (ip : Ptr) (m : Memory) : Nat → Nat → Nat → Nat → M (Option Nat)
  | 0, _, _, sz => pure (some sz)
  | n + 1, i, off, sz => do
    let r ← readi sb ip off PROGHDR
    match r with
    | none => pure none
    | some ph =>
      if ph.length ≠ PROGHDR then pure none
      else if uintAt ph 0 ≠ ELF_PROG_LOAD then exec_from ip m n (i + 1) ((off + PROGHDR) % 2 ^ 32) sz
      else
        let vaddr := (uintAt ph 8).toNat
        let filesz := (uintAt ph 16).toNat
        let memsz := (uintAt ph 20).toNat
        if memsz < filesz then pure none
        else if (vaddr + memsz) % 2 ^ 32 < vaddr then pure none
        else
          let sz := allocuvm (m.segment i) sz ((vaddr + memsz) % 2 ^ 32)
          if sz = 0 then pure none
          else if vaddr % PGSIZE ≠ 0 then pure none
          else do
            let loaded ← loaduvm sb ip (uintAt ph 4).toNat filesz
            if loaded = false then pure none
            else exec_from ip m n (i + 1) ((off + PROGHDR) % 2 ^ 32) sz

/-- `goto bad` with the file still locked. -/
def exec_bad (ip : Ptr) : M Int := do
  iunlockput sb ip
  end_op
  pure (-1)

/-- `exec` once the program is loaded: two pages for the stack, and the arguments on it. -/
def exec_stack (m : Memory) (sz : Nat) : M Int :=
  if allocuvm m.stack sz (sz + 2 * PGSIZE) = 0 then pure (-1)
  else if m.args = false then pure (-1)
  else pure 0

/-- `exec` with the file found and locked. -/
def exec_load (ip : Ptr) (m : Memory) : M Int := do
  let r ← readi sb ip 0 ELFHDR
  match r with
  | none => exec_bad sb ip
  | some elf =>
    if elf.length ≠ ELFHDR then exec_bad sb ip
    else if uintAt elf 0 ≠ ELF_MAGIC then exec_bad sb ip
    else if m.pgdir = false then exec_bad sb ip
    else do
      let r ← exec_from sb ip m (ushortAt elf 44).toNat 0 (uintAt elf 28).toNat 0
      match r with
      | none => exec_bad sb ip
      | some sz => do
        iunlockput sb ip
        end_op
        exec_stack m (PGROUNDUP sz)

def exec (cwd : Ptr) (m : Memory) (path : List Byte) : M Int := do
  begin_op
  let r ← namei sb cwd path
  match r with
  | none => do
    end_op
    pure (-1)
  | some ip => do
    ilock sb ip
    exec_load sb ip m

/-- `sys_exec`: `none` when its arguments could not be fetched. -/
def sys_exec (cwd : Ptr) (m : Memory) (path : Option (List Byte)) : M Int :=
  match path with
  | none => pure (-1)
  | some path => exec sb cwd m path

end Xv6.Fs
