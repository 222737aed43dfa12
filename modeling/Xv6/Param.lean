import Xv6.Lib.Bytes

/-! The constants of `param.h`, `fs.h` and `mmu.h`, and the block. -/
namespace Xv6
open Lib

/-! ### `param.h` -/

abbrev NPROC : Nat := 64
abbrev NOFILE : Nat := 16
abbrev NFILE : Nat := 100
abbrev NINODE : Nat := 50
abbrev NDEV : Nat := 10
abbrev ROOTDEV : Nat := 1
abbrev MAXOPBLOCKS : Nat := 10
abbrev LOGSIZE : Nat := MAXOPBLOCKS * 3
abbrev FSSIZE : Nat := 1000

/-! The tables of the kernel have entries, the first being number 0. -/

instance : NeZero NPROC := ⟨by decide⟩
instance : NeZero NOFILE := ⟨by decide⟩
instance : NeZero NFILE := ⟨by decide⟩
instance : NeZero NINODE := ⟨by decide⟩

/-! ### `fs.h` -/

abbrev ROOTINO : Nat := 1
abbrev BSIZE : Nat := 512
abbrev NDIRECT : Nat := 12
abbrev NINDIRECT : Nat := BSIZE / 4
abbrev MAXFILE : Nat := NDIRECT + NINDIRECT
/-- Inodes per block: an on-disk inode is 64 bytes. -/
abbrev IPB : Nat := BSIZE / 64
/-- Bitmap bits per block. -/
abbrev BPB : Nat := BSIZE * 8
abbrev DIRSIZ : Nat := 14

/-! ### `mmu.h` and `memlayout.h` -/

abbrev PGSIZE : Nat := 4096
/-- The first kernel virtual address. -/
abbrev KERNBASE : Nat := 0x80000000

def PGROUNDUP (sz : Nat) : Nat := (sz + PGSIZE - 1) / PGSIZE * PGSIZE

/-- `struct superblock`: the disk layout. -/
structure Superblock where
  size : Nat
  nblocks : Nat
  ninodes : Nat
  nlog : Nat
  logstart : Nat
  inodestart : Nat
  bmapstart : Nat

/-- A disk block, or the data of a buffer. -/
abbrev Block := Bytes BSIZE

/-- The contents of a disk, block by block. -/
abbrev Disk := Nat → Block

end Xv6
