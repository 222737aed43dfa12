import Xv6.Param

/-! The disk layout: where inodes and free bits are, and how an inode is stored.

`Layout` is what the kernel relies on of a super block: the regions follow one
another, and the whole disk is one that the driver accepts. An on-disk inode is
64 bytes; storing one and reading one back are inverse, and inodes of one block
do not disturb each other. -/
namespace Xv6.Fs
open Lib

abbrev T_DIR : BitVec 16 := 1
abbrev T_FILE : BitVec 16 := 2
abbrev T_DEV : BitVec 16 := 3

/-- Block containing inode `i`. -/
def IBLOCK (i : Nat) (sb : Superblock) : Nat := i / IPB + sb.inodestart

/-- Block of the free map containing the bit for block `b`. -/
def BBLOCK (b : Nat) (sb : Superblock) : Nat := b / BPB + sb.bmapstart

/-- The first data block. -/
def nmeta (sb : Superblock) : Nat := sb.size - sb.nblocks

structure Layout (sb : Superblock) : Prop where
  log : 2 ≤ sb.nlog
  logstart : 2 ≤ sb.logstart
  inodestart : sb.logstart + sb.nlog ≤ sb.inodestart
  bmapstart : sb.inodestart + sb.ninodes / IPB < sb.bmapstart
  data : sb.bmapstart < nmeta sb
  nblocks : sb.nblocks ≤ sb.size
  -- `idestart` panics on a block number from `FSSIZE` on
  size : sb.size ≤ FSSIZE
  root : ROOTINO < sb.ninodes
  -- a directory entry holds an inode number in 16 bits
  ninodes : sb.ninodes ≤ 65536

/-! ### On-disk inodes -/

/-- `struct dinode`. -/
@[ext] structure Dinode where
  type : BitVec 16
  major : BitVec 16
  minor : BitVec 16
  nlink : BitVec 16
  size : BitVec 32
  addrs : Fin (NDIRECT + 1) → BitVec 32

namespace Dinode

/-- A free inode, all zero. -/
def zero : Dinode := ⟨0, 0, 0, 0, 0, fun _ => 0⟩

/-- The inode with one address set. -/
def setAddr (d : Dinode) (k : Fin (NDIRECT + 1)) (b : BitVec 32) : Dinode :=
  {d with addrs := Function.update d.addrs k b}

@[simp] theorem setAddr_self (d : Dinode) (k : Fin (NDIRECT + 1)) (b : BitVec 32) :
    (d.setAddr k b).addrs k = b := Function.update_self ..

theorem setAddr_other (d : Dinode) (b : BitVec 32) (h : l ≠ k) :
    (d.setAddr k b).addrs l = d.addrs l := Function.update_of_ne h ..

/-- The inode in slot `k` of an inode block. -/
def read (b : Block) (k : Nat) : Dinode where
  type := b.word16 (64 * k)
  major := b.word16 (64 * k + 2)
  minor := b.word16 (64 * k + 4)
  nlink := b.word16 (64 * k + 6)
  size := b.word32 (64 * k + 8)
  addrs := fun j => b.word32 (64 * k + 12 + 4 * j)

/-- The first `n` addresses stored from offset `off` on. -/
def storeAddrs (b : Block) (off : Nat) (a : Nat → BitVec 32) : Nat → Block
  | 0 => b
  | n + 1 => (storeAddrs b off a n).putWord32 (off + 4 * n) (a n)

/-- The inode block with slot `k` overwritten. -/
def write (d : Dinode) (b : Block) (k : Nat) : Block :=
  let b := b.putWord16 (64 * k) d.type
  let b := b.putWord16 (64 * k + 2) d.major
  let b := b.putWord16 (64 * k + 4) d.minor
  let b := b.putWord16 (64 * k + 6) d.nlink
  let b := b.putWord32 (64 * k + 8) d.size
  storeAddrs b (64 * k + 12) (fun j => if h : j < NDIRECT + 1 then d.addrs ⟨j, h⟩ else 0) (NDIRECT + 1)

theorem word16_storeAddrs (b : Block) (off i : Nat) (a : Nat → BitVec 32) (n : Nat)
    (h : i + 2 ≤ off ∨ off + 4 * n ≤ i) : (storeAddrs b off a n).word16 i = b.word16 i := by
  induction n with
  | zero => rfl
  | succ n ih =>
    rw [storeAddrs, Bytes.putWord32, Bytes.word16_put_other _ _ _ _ _ (by omega)]
    exact ih (by omega)

theorem word32_storeAddrs (b : Block) (off i : Nat) (a : Nat → BitVec 32) (n : Nat)
    (h : i + 4 ≤ off ∨ off + 4 * n ≤ i) : (storeAddrs b off a n).word32 i = b.word32 i := by
  induction n with
  | zero => rfl
  | succ n ih =>
    rw [storeAddrs, Bytes.putWord32, Bytes.word32_put_other _ _ _ _ _ (by omega)]
    exact ih (by omega)

theorem addr_storeAddrs (b : Block) (off : Nat) (a : Nat → BitVec 32) (n j : Nat) (hj : j < n)
    (h : off + 4 * n ≤ BSIZE) : (storeAddrs b off a n).word32 (off + 4 * j) = a j := by
  induction n with
  | zero => omega
  | succ n ih =>
    rw [storeAddrs]
    by_cases he : j = n
    · rw [he]
      exact Bytes.word32_putWord32 _ _ _ (by omega)
    · rw [Bytes.putWord32, Bytes.word32_put_other _ _ _ _ _ (by omega)]
      exact ih (by omega) (by omega)

theorem read_write (d : Dinode) (b : Block) (k : Nat) (hk : k < IPB) :
    read (d.write b k) k = d := by
  have hk8 : k < 8 := hk
  have hn : NDIRECT + 1 = 13 := rfl
  have hs : BSIZE = 512 := rfl
  ext1
  · show (storeAddrs _ _ _ _).word16 _ = _
    rw [word16_storeAddrs _ _ _ _ _ (by omega)]
    simp (disch := omega) only [Bytes.putWord16, Bytes.putWord32, Bytes.word16_put_other]
    exact Bytes.word16_putWord16 _ _ _ (by omega)
  · show (storeAddrs _ _ _ _).word16 _ = _
    rw [word16_storeAddrs _ _ _ _ _ (by omega)]
    simp (disch := omega) only [Bytes.putWord16, Bytes.putWord32, Bytes.word16_put_other]
    exact Bytes.word16_putWord16 _ _ _ (by omega)
  · show (storeAddrs _ _ _ _).word16 _ = _
    rw [word16_storeAddrs _ _ _ _ _ (by omega)]
    simp (disch := omega) only [Bytes.putWord16, Bytes.putWord32, Bytes.word16_put_other]
    exact Bytes.word16_putWord16 _ _ _ (by omega)
  · show (storeAddrs _ _ _ _).word16 _ = _
    rw [word16_storeAddrs _ _ _ _ _ (by omega)]
    simp (disch := omega) only [Bytes.putWord16, Bytes.putWord32, Bytes.word16_put_other]
    exact Bytes.word16_putWord16 _ _ _ (by omega)
  · show (storeAddrs _ _ _ _).word32 _ = _
    rw [word32_storeAddrs _ _ _ _ _ (by omega)]
    exact Bytes.word32_putWord32 _ _ _ (by omega)
  · funext j
    show (storeAddrs _ _ _ _).word32 _ = _
    rw [addr_storeAddrs _ _ _ _ _ j.isLt (by omega), dif_pos j.isLt]

theorem get_storeAddrs (b : Block) (off i : Nat) (a : Nat → BitVec 32) (n : Nat)
    (h : i < off ∨ off + 4 * n ≤ i) : (storeAddrs b off a n).get i = b.get i := by
  induction n with
  | zero => rfl
  | succ n ih =>
    rw [storeAddrs, Bytes.putWord32, Bytes.get_put_other _ _ _ _ _ (by omega)]
    exact ih (by omega)

theorem get_write_other (d : Dinode) (b : Block) (k i : Nat) (h : i < 64 * k ∨ 64 * k + 64 ≤ i) :
    (d.write b k).get i = b.get i := by
  have hn : NDIRECT + 1 = 13 := rfl
  rw [write, get_storeAddrs _ _ _ _ _ (by omega)]
  simp (disch := omega) only [Bytes.putWord16, Bytes.putWord32, Bytes.get_put_other]

theorem read_write_other (d : Dinode) (b : Block) (k j : Nat) (h : j ≠ k) :
    read (d.write b k) j = read b j := by
  have hget : ∀ i, 64 * j ≤ i → i < 64 * j + 64 → (d.write b k).get i = b.get i :=
    fun i h1 h2 => get_write_other d b k i (by omega)
  ext1
  case addrs =>
    funext a
    have ha : (a : Nat) < 13 := a.isLt
    exact Bytes.word32_congr fun i hi => hget _ (by omega) (by omega)
  case size => exact Bytes.word32_congr fun i hi => hget _ (by omega) (by omega)
  all_goals exact Bytes.word16_congr fun i hi => hget _ (by omega) (by omega)

end Dinode

end Xv6.Fs
