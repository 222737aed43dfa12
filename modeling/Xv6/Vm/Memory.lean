import Xv6.Param
import Xv6.Lib.Exec

/-! Physical memory and page tables: `kalloc.c` and `vm.c`.

A page of physical memory is known by its number. Addresses are `uint`s, so that sums of them are
taken modulo `2 ^ 32`. Page directories and page tables are words in pages. The free list is a list
of page numbers; `denied` says which of the next calls of `kalloc` find no memory, the last ones
being those that find some. -/
namespace Xv6.Vm
open Lib Function

/-! ### `mmu.h` and `memlayout.h` -/

abbrev EXTMEM : Nat := 0x100000
abbrev PHYSTOP : Nat := 0xE000000
abbrev DEVSPACE : Nat := 0xFE000000
abbrev KERNLINK : Nat := KERNBASE + EXTMEM
abbrev NPDENTRIES : Nat := 1024
abbrev NPTENTRIES : Nat := 1024

abbrev PTE_P : BitVec 32 := 0x001
abbrev PTE_W : BitVec 32 := 0x002
abbrev PTE_U : BitVec 32 := 0x004

/-- The page with a physical address in a page table entry. -/
def PTE_ADDR (pte : BitVec 32) : Nat := pte.toNat / PGSIZE

def PTE_FLAGS (pte : BitVec 32) : BitVec 32 := pte &&& 0xFFF

/-- `pte & flag` -/
def has (pte flag : BitVec 32) : Bool := pte &&& flag ≠ 0

def PDX (va : Nat) : Nat := va / 2 ^ 22 % 1024
def PTX (va : Nat) : Nat := va / 2 ^ 12 % 1024
def PGROUNDDOWN (a : Nat) : Nat := a / PGSIZE * PGSIZE

/-- The kernel address of a physical page. -/
def P2V (pa : Nat) : Nat := (pa * PGSIZE + KERNBASE) % 2 ^ 32

/-- The symbols `data` and `end` of `kernel.ld`: the data segment is at a page boundary after the
text, and the kernel ends below the 4 megabytes that are mapped when it starts. -/
structure Kernel where
  data : Nat
  ends : Nat
  aligned : data % PGSIZE = 0
  text : KERNLINK < data
  order : data ≤ ends
  low : ends ≤ KERNBASE + 4 * 1024 * 1024

/-! ### State -/

structure State where
  page : Nat → Bytes PGSIZE
  freelist : List Nat
  denied : List Bool

/-- Why the kernel stops: a call of `panic`, the null pointer that `uva2ka` follows, or a page fault of
its own. -/
inductive Halt where
  | kfree
  | remap
  | phystop
  | loaduvmAligned
  | loaduvmExists
  | clearpteu
  | copyuvmExists
  | copyuvmPresent
  | inituvm
  | userinit
  | initExiting
  | uva2ka
  | fault
deriving DecidableEq

abbrev M := Exec Halt State

def getPage (pa : Nat) : M (Bytes PGSIZE) := do
  let s ← get
  pure (s.page pa)

/-- The state with the page overwritten. -/
def State.put (s : State) (pa : Nat) (b : Bytes PGSIZE) : State := {s with page := update s.page pa b}

@[simp] theorem State.put_page_self {s : State} {pa : Nat} {b : Bytes PGSIZE} : (s.put pa b).page pa = b :=
  update_self ..

@[simp] theorem State.put_page_of_ne {s : State} {pa x : Nat} {b : Bytes PGSIZE} (h : x ≠ pa) :
    (s.put pa b).page x = s.page x := update_of_ne h ..

def setPage (pa : Nat) (b : Bytes PGSIZE) : M Unit := modify fun s => s.put pa b

/-- A word of a page, by its index. -/
def getWord (pa i : Nat) : M (BitVec 32) := do
  let b ← getPage pa
  pure (b.word32 (4 * i))

def setWord (pa i : Nat) (w : BitVec 32) : M Unit := do
  let b ← getPage pa
  setPage pa (b.putWord32 (4 * i) w)

/-! ### `kalloc.c` -/

/-- Free the page. Its kernel address is `P2V` of its physical address. -/
def kfree (K : Kernel) (pa : Nat) : M Unit :=
  let v := P2V pa
  if v < K.ends ∨ PHYSTOP ≤ (v + (2 ^ 32 - KERNBASE)) % 2 ^ 32 then throw .kfree
  else do
    setPage pa (Bytes.ofFn fun _ => 1)
    modify fun s => {s with freelist := pa :: s.freelist}

/-- Allocate a page, or `none` for 0. -/
def kalloc : M (Option Nat) := do
  let s ← get
  match s.denied, s.freelist with
  | true :: denied, _ => do
    set {s with denied := denied}
    pure none
  | denied, [] => do
    set {s with denied := denied.tail}
    pure none
  | denied, pa :: freelist => do
    set {s with denied := denied.tail, freelist := freelist}
    pure (some pa)

/-! ### Page tables -/

/-- The page table entry for `va`: the page of its page table and its index there, or `none`
for 0. -/
def walkpgdir (pgdir va : Nat) (alloc : Bool) : M (Option (Nat × Nat)) := do
  let pde ← getWord pgdir (PDX va)
  if has pde PTE_P then pure (some (PTE_ADDR pde, PTX va))
  else if alloc = false then pure none
  else do
    let r ← kalloc
    match r with
    | none => pure none
    | some pgtab => do
      setPage pgtab Bytes.zero
      setWord pgdir (PDX va) (BitVec.ofNat 32 (pgtab * PGSIZE) ||| PTE_P ||| PTE_W ||| PTE_U)
      pure (some (pgtab, PTX va))

/-- The loop of `mappages`, from address `a` on. -/
def mappages_from (pgdir last : Nat) (perm : BitVec 32) : Nat → Nat → Nat → M Int
  | 0, _, _ => pure 0
  | fuel + 1, a, pa => do
    let r ← walkpgdir pgdir a true
    match r with
    | none => pure (-1)
    | some (pgtab, i) => do
      let pte ← getWord pgtab i
      if has pte PTE_P then throw .remap
      else do
        setWord pgtab i (BitVec.ofNat 32 pa ||| perm ||| PTE_P)
        if a = last then pure 0
        else mappages_from pgdir last perm fuel ((a + PGSIZE) % 2 ^ 32) ((pa + PGSIZE) % 2 ^ 32)

/-- Map the pages of `size` bytes at `va` to those at the physical address `pa`. There are `2 ^ 20`
pages. -/
def mappages (pgdir va size pa : Nat) (perm : BitVec 32) : M Int :=
  mappages_from pgdir (PGROUNDDOWN ((va + size + (2 ^ 32 - 1)) % 2 ^ 32)) perm (2 ^ 20) (PGROUNDDOWN va) pa

/-! ### User memory -/

/-- The loop of `deallocuvm`, from address `a` on. -/
def deallocuvm_from (K : Kernel) (pgdir oldsz : Nat) : Nat → Nat → M Unit
  | 0, _ => pure ()
  | fuel + 1, a =>
    if a < oldsz then do
      let r ← walkpgdir pgdir a false
      match r with
      | none => deallocuvm_from K pgdir oldsz fuel ((PDX a + 1) * 2 ^ 22 % 2 ^ 32)
      | some (pgtab, i) => do
        let pte ← getWord pgtab i
        if has pte PTE_P then
          if PTE_ADDR pte = 0 then throw .kfree
          else do
            kfree K (PTE_ADDR pte)
            setWord pgtab i 0
            deallocuvm_from K pgdir oldsz fuel ((a + PGSIZE) % 2 ^ 32)
        else deallocuvm_from K pgdir oldsz fuel ((a + PGSIZE) % 2 ^ 32)
    else pure ()

/-- Free the user pages from `newsz` to `oldsz`; the new size. -/
def deallocuvm (K : Kernel) (pgdir oldsz newsz : Nat) : M Nat :=
  if oldsz ≤ newsz then pure oldsz
  else do
    deallocuvm_from K pgdir oldsz (2 ^ 20) (PGROUNDUP newsz)
    pure newsz

/-- The loop of `allocuvm`, from address `a` on. -/
def allocuvm_from (K : Kernel) (pgdir oldsz newsz : Nat) : Nat → Nat → M Nat
  | 0, _ => pure newsz
  | fuel + 1, a =>
    if a < newsz then do
      let r ← kalloc
      match r with
      | none => do
        let _ ← deallocuvm K pgdir newsz oldsz
        pure 0
      | some mem => do
        setPage mem Bytes.zero
        let r ← mappages pgdir a PGSIZE (mem * PGSIZE) (PTE_W ||| PTE_U)
        if r < 0 then do
          let _ ← deallocuvm K pgdir newsz oldsz
          kfree K mem
          pure 0
        else allocuvm_from K pgdir oldsz newsz fuel (a + PGSIZE)
    else pure newsz

/-- Allocate user pages from `oldsz` to `newsz`; the new size, or 0. -/
@[irreducible] def allocuvm (K : Kernel) (pgdir oldsz newsz : Nat) : M Nat :=
  if KERNBASE ≤ newsz then pure 0
  else if newsz < oldsz then pure oldsz
  else allocuvm_from K pgdir oldsz newsz (2 ^ 20) (PGROUNDUP oldsz)

/-- The loop of `freevm` over the page directory, from entry `i` on. -/
def freevm_from (K : Kernel) (pgdir : Nat) : Nat → Nat → M Unit
  | 0, _ => pure ()
  | n + 1, i => do
    let pde ← getWord pgdir i
    (if has pde PTE_P then kfree K (PTE_ADDR pde) else pure ())
    freevm_from K pgdir n (i + 1)

/-- Free a page table and the user pages in it. -/
def freevm (K : Kernel) (pgdir : Nat) : M Unit := do
  let _ ← deallocuvm K pgdir KERNBASE 0
  freevm_from K pgdir NPDENTRIES 0
  kfree K pgdir

/-! ### The kernel part -/

/-- An entry of the table `kmap`. -/
structure Kmap where
  virt : Nat
  phys_start : Nat
  phys_end : Nat
  perm : BitVec 32

def kmap (K : Kernel) : List Kmap :=
  [⟨KERNBASE, 0, EXTMEM, PTE_W⟩,
   ⟨KERNLINK, KERNLINK - KERNBASE, K.data - KERNBASE, 0⟩,
   ⟨K.data, K.data - KERNBASE, PHYSTOP, PTE_W⟩,
   ⟨DEVSPACE, DEVSPACE, 0, PTE_W⟩]

/-- The loop of `setupkvm`. -/
def setupkvm_from (K : Kernel) (pgdir : Nat) : List Kmap → M (Option Nat)
  | [] => pure (some pgdir)
  | k :: rest => do
    let r ← mappages pgdir k.virt ((k.phys_end + (2 ^ 32 - k.phys_start)) % 2 ^ 32) k.phys_start k.perm
    if r < 0 then do
      freevm K pgdir
      pure none
    else setupkvm_from K pgdir rest

/-- Set up the kernel part of a page table. -/
def setupkvm (K : Kernel) : M (Option Nat) := do
  let r ← kalloc
  match r with
  | none => pure none
  | some pgdir => do
    setPage pgdir Bytes.zero
    if DEVSPACE < KERNBASE + PHYSTOP then throw .phystop
    else setupkvm_from K pgdir (kmap K)

/-! ### Whole address spaces -/

/-- The loop of `copyuvm`, from address `i` on: is all copied? -/
def copyuvm_from (K : Kernel) (pgdir d sz : Nat) : Nat → Nat → M Bool
  | 0, _ => pure true
  | fuel + 1, i =>
    if i < sz then do
      let r ← walkpgdir pgdir i false
      match r with
      | none => throw .copyuvmExists
      | some (pgtab, j) => do
        let pte ← getWord pgtab j
        if has pte PTE_P then do
          let r ← kalloc
          match r with
          | none => pure false
          | some mem => do
            let b ← getPage (PTE_ADDR pte)
            setPage mem b
            let r ← mappages d i PGSIZE (mem * PGSIZE) (PTE_FLAGS pte)
            if r < 0 then do
              kfree K mem
              pure false
            else copyuvm_from K pgdir d sz fuel ((i + PGSIZE) % 2 ^ 32)
        else throw .copyuvmPresent
    else pure true

/-- Copy an address space for a child. -/
def copyuvm (K : Kernel) (pgdir sz : Nat) : M (Option Nat) := do
  let r ← setupkvm K
  match r with
  | none => pure none
  | some d => do
    let r ← copyuvm_from K pgdir d sz (2 ^ 20) 0
    if r then pure (some d)
    else do
      freevm K d
      pure none

/-- Make a page inaccessible to the user. -/
def clearpteu (pgdir uva : Nat) : M Unit := do
  let r ← walkpgdir pgdir uva false
  match r with
  | none => throw .clearpteu
  | some (pgtab, i) => do
    let pte ← getWord pgtab i
    setWord pgtab i (pte &&& ~~~PTE_U)

/-- The page for a user address, or `none` for 0. -/
def uva2ka (pgdir uva : Nat) : M (Option Nat) := do
  let r ← walkpgdir pgdir uva false
  match r with
  | none => throw .uva2ka -- `*pte` with a null `pte`: the compiler ends this path with a trap
  | some (pgtab, i) => do
    let pte ← getWord pgtab i
    if has pte PTE_P = false then pure none
    else if has pte PTE_U = false then pure none
    else if P2V (PTE_ADDR pte) = 0 then pure none
    else pure (some (PTE_ADDR pte))

/-- The page that the processor writes at an address: below `KERNBASE` as the page directory says,
above as `kmap` maps it with `PTE_W`. -/
@[irreducible] def writable (K : Kernel) (cr3 va : Nat) : M Nat :=
  if va < KERNBASE then do
    let r ← walkpgdir cr3 va false
    match r with
    | none => throw .fault
    | some (pgtab, i) => do
      let pte ← getWord pgtab i
      if has pte PTE_P ∧ has pte PTE_W then pure (PTE_ADDR pte) else throw .fault
  else if va < KERNLINK ∨ K.data ≤ va ∧ va < KERNBASE + PHYSTOP then pure ((va - KERNBASE) / PGSIZE)
  else if DEVSPACE ≤ va then pure (va / PGSIZE)
  else throw .fault

/-- Write to a page through its kernel address. -/
def store (K : Kernel) (cr3 pa off : Nat) (bytes : List Byte) : M Unit := do
  let q ← writable K cr3 (P2V pa)
  let b ← getPage q
  setPage q (b.blit off bytes)

/-- The loop of `copyout`. -/
def copyout_from (K : Kernel) (cr3 pgdir : Nat) : Nat → Nat → List Byte → M Int
  | 0, _, _ => pure 0
  | fuel + 1, va, buf =>
    if 0 < buf.length then do
      let va0 := PGROUNDDOWN va
      let r ← uva2ka pgdir va0
      match r with
      | none => pure (-1)
      | some pa0 => do
        let n := min (PGSIZE - (va - va0)) buf.length
        store K cr3 pa0 (va - va0) (buf.take n)
        copyout_from K cr3 pgdir fuel ((va0 + PGSIZE) % 2 ^ 32) (buf.drop n)
    else pure 0

/-- Copy bytes to a user address. -/
def copyout (K : Kernel) (cr3 pgdir va : Nat) (p : List Byte) : M Int :=
  copyout_from K cr3 pgdir (p.length + 1) va p

end Xv6.Vm
