import Xv6.Fs.State

/-! Blocks, inodes and their contents: `fs.c` up to `writei`. -/
namespace Xv6.Fs
open Lib

variable (sb : Superblock)

/-! ### Blocks -/

/-- Zero a block. -/
def bzero (dev b : Nat) : M Unit := do
  let _ ← bread dev b
  store b fun _ => Bytes.zero
  log_write sb b

/-- The inner loop of `balloc`: the first free bit from `bi` on, of `n` bits left in the
bitmap block that starts at block `b`. -/
def freeBit (bp : Block) (b : Nat) : Nat → Nat → Option Nat
  | 0, _ => none
  | n + 1, bi =>
    if b + bi < sb.size then
      if bp.bit bi = false then some bi else freeBit bp b n (bi + 1)
    else none

/-- The loop of `balloc` over the first blocks of the bitmap blocks. -/
def balloc_from (dev : Nat) : List Nat → M Nat
  | [] => panic .balloc
  | b :: rest =>
    if b < sb.size then do
      let bp ← bread dev (BBLOCK b sb)
      match freeBit sb bp b BPB 0 with
      | some bi =>
        store (BBLOCK b sb) fun bp => bp.setBit bi
        log_write sb (BBLOCK b sb)
        bzero sb dev (b + bi)
        pure (b + bi)
      | none => balloc_from dev rest
    else panic .balloc

/-- Allocate a zeroed disk block. -/
def balloc (dev : Nat) : M Nat :=
  balloc_from sb dev ((List.range (sb.size / BPB + 1)).map (· * BPB))

/-- Free a disk block. -/
def bfree (dev b : Nat) : M Unit := do
  let bp ← bread dev (BBLOCK b sb)
  if bp.bit (b % BPB) = false then panic .freeingFree
  else do
    store (BBLOCK b sb) fun bp => bp.clearBit (b % BPB)
    log_write sb (BBLOCK b sb)

/-! ### Inode cache -/

/-- Find the inode with number `inum` in the cache, or recycle an entry for it. -/
def iget (dev inum : Nat) : M Ptr := do
  let s ← get
  match (List.finRange NINODE).find? fun ip =>
      0 < (s.icache ip).ref && (s.icache ip).dev == dev && (s.icache ip).inum == inum with
  | some ip =>
    setInode ip fun i => {i with ref := i.ref + 1}
    pure ip
  | none =>
    match (List.finRange NINODE).find? fun ip => (s.icache ip).ref == 0 with
    | some ip =>
      setInode ip fun i => {i with dev := dev, inum := inum, ref := 1, valid := false}
      pure ip
    | none => panic .iget

/-- The loop of `ialloc` over inode numbers. -/
def ialloc_from (dev : Nat) (type : BitVec 16) : List Nat → M Ptr
  | [] => panic .ialloc
  | inum :: rest => do
    let bp ← bread dev (IBLOCK inum sb)
    if (Dinode.read bp (inum % IPB)).type = 0 then do
      store (IBLOCK inum sb) fun bp => {Dinode.zero with type := type}.write bp (inum % IPB)
      log_write sb (IBLOCK inum sb)
      iget dev inum
    else ialloc_from dev type rest

/-- Allocate an inode on device `dev`. -/
def ialloc (dev : Nat) (type : BitVec 16) : M Ptr :=
  ialloc_from sb dev type (List.range' 1 (sb.ninodes - 1))

/-- Copy a modified in-memory inode to disk. -/
def iupdate (ip : Ptr) : M Unit := do
  let i ← inode ip
  let _ ← bread i.dev (IBLOCK i.inum sb)
  store (IBLOCK i.inum sb) fun bp => i.d.write bp (i.inum % IPB)
  log_write sb (IBLOCK i.inum sb)

def idup (ip : Ptr) : M Ptr := do
  setInode ip fun i => {i with ref := i.ref + 1}
  pure ip

/-- Lock the given inode, reading it from disk if necessary. -/
def ilock (ip : Ptr) : M Unit := do
  let i ← inode ip
  if i.ref < 1 then panic .ilock
  else do
    acquiresleep ip
    if i.valid = false then do
      let bp ← bread i.dev (IBLOCK i.inum sb)
      setInode ip fun i => {i with d := Dinode.read bp (i.inum % IPB), valid := true}
      if (Dinode.read bp (i.inum % IPB)).type = 0 then panic .noType
      else pure ()
    else pure ()

def iunlock (ip : Ptr) : M Unit := do
  let i ← inode ip
  if i.locked = false ∨ i.ref < 1 then panic .iunlock
  else releasesleep ip

/-! ### Inode content -/

/-- The disk block address of the `bn`th block in inode `ip`, allocated if there is none. -/
def bmap (ip : Ptr) (bn : Nat) : M Nat := do
  let i ← inode ip
  if h : bn < NDIRECT then
    let at' : Fin (NDIRECT + 1) := ⟨bn, Nat.lt_succ_of_lt h⟩
    let addr := i.d.addrs at'
    if addr = 0 then do
      let b ← balloc sb i.dev
      setDinode ip fun d => d.setAddr at' (BitVec.ofNat 32 b)
      pure b
    else pure addr.toNat
  else if bn - NDIRECT < NINDIRECT then do
    -- Load indirect block, allocating if necessary.
    let addr ← (if i.d.addrs (Fin.last NDIRECT) = 0 then do
        let b ← balloc sb i.dev
        setDinode ip fun d => d.setAddr (Fin.last NDIRECT) (BitVec.ofNat 32 b)
        pure b
      else pure (i.d.addrs (Fin.last NDIRECT)).toNat)
    let bp ← bread i.dev addr
    let a := bp.word32 (4 * (bn - NDIRECT))
    if a = 0 then do
      let b ← balloc sb i.dev
      store addr fun bp => bp.putWord32 (4 * (bn - NDIRECT)) (BitVec.ofNat 32 b)
      log_write sb addr
      pure b
    else pure a.toNat
  else panic .bmap

/-- The loop of `itrunc` over the direct addresses. -/
def itrunc_direct (ip : Ptr) : M Unit :=
  (List.finRange NDIRECT).forM fun k => do
    let i ← inode ip
    if i.d.addrs k.castSucc ≠ 0 then do
      bfree sb i.dev (i.d.addrs k.castSucc).toNat
      setDinode ip fun d => d.setAddr k.castSucc 0
    else pure ()

/-- The loop of `itrunc` over the entries of the indirect block, which is read live. -/
def itrunc_entries (dev addr : Nat) : M Unit :=
  (List.range NINDIRECT).forM fun j => do
    let s ← get
    if (s.disk addr).word32 (4 * j) ≠ 0 then bfree sb dev ((s.disk addr).word32 (4 * j)).toNat
    else pure ()

/-- Truncate inode (discard contents). -/
def itrunc (ip : Ptr) : M Unit := do
  itrunc_direct sb ip
  let i ← inode ip
  (if i.d.addrs (Fin.last NDIRECT) ≠ 0 then do
    let addr := (i.d.addrs (Fin.last NDIRECT)).toNat
    let _ ← bread i.dev addr
    itrunc_entries sb i.dev addr
    bfree sb i.dev addr
    setDinode ip fun d => d.setAddr (Fin.last NDIRECT) 0
  else pure ())
  setDinode ip fun d => {d with size := 0}
  iupdate sb ip

/-- Drop a reference to an in-memory inode; free it on disk when that was the last
reference and it has no links. -/
def iput (ip : Ptr) : M Unit := do
  acquiresleep ip
  let i ← inode ip
  (if i.valid = true ∧ i.d.nlink = 0 ∧ i.ref = 1 then do
    -- inode has no links and no other references: truncate and free.
    itrunc sb ip
    setDinode ip fun d => {d with type := 0}
    iupdate sb ip
    setInode ip fun i => {i with valid := false}
  else pure ())
  releasesleep ip
  setInode ip fun i => {i with ref := i.ref - 1}

/-- Common idiom: unlock, then put. -/
def iunlockput (ip : Ptr) : M Unit := do
  iunlock ip
  iput sb ip

/-! ### The console device -/

/-- The loop of `consoleread`, which began with `target` bytes to read. -/
def conswait (target : Nat) : Nat → M (Option (List Byte))
  | 0 => pure (some [])
  | n + 1 => do
    let s ← get
    match s.console with
    | [] => throw .asleep
    | none :: rest =>
      set {s with console := rest}
      pure none
    | some c :: rest =>
      if c = 4 then do
        -- save `^D` for next time
        set (if n + 1 < target then s else {s with console := rest})
        pure (some [])
      else do
        set {s with console := rest}
        if c = 10 then pure (some [c])
        else do
          let r ← conswait target n
          pure (r.map (c :: ·))

def consoleread (ip : Ptr) (n : Nat) : M (Option (List Byte)) := do
  iunlock ip
  let r ← conswait n n
  ilock sb ip
  pure r

def consolewrite (ip : Ptr) (src : List Byte) : M (Option Nat) := do
  iunlock ip
  ilock sb ip
  pure (some src.length)

/-- `devsw[major]` has a driver: only the console does. -/
def hasDriver (major : BitVec 16) : Bool := major == 1

/-! ### Reading and writing -/

/-- The loop of `readi`. -/
def readi_from (ip : Ptr) : Nat → Nat → Nat → M (List Byte)
  | 0, _, _ => pure []
  | fuel + 1, off, n =>
    if n = 0 then pure []
    else do
      let i ← inode ip
      let b ← bmap sb ip (off / BSIZE)
      let bp ← bread i.dev b
      let m := min n (BSIZE - off % BSIZE)
      let rest ← readi_from ip fuel (off + m) (n - m)
      pure (bp.slice (off % BSIZE) m ++ rest)

/-- Read data from inode: the bytes read, or `none` for `-1`. `off` and `n` are 32 bits wide. -/
def readi (ip : Ptr) (off n : Nat) : M (Option (List Byte)) := do
  let i ← inode ip
  if i.d.type = T_DEV then
    if hasDriver i.d.major then consoleread sb ip n else pure none
  else if i.d.size.toNat < off ∨ (off + n) % 2 ^ 32 < off then pure none
  else do
    let n := if i.d.size.toNat < off + n then i.d.size.toNat - off else n
    let r ← readi_from sb ip n off n
    pure (some r)

/-- The loop of `writei`; it answers the offset reached. -/
def writei_from (ip : Ptr) : Nat → Nat → List Byte → M Nat
  | 0, off, _ => pure off
  | fuel + 1, off, src =>
    if src = [] then pure off
    else do
      let i ← inode ip
      let b ← bmap sb ip (off / BSIZE)
      let _ ← bread i.dev b
      let m := min src.length (BSIZE - off % BSIZE)
      store b fun bp => bp.blit (off % BSIZE) (src.take m)
      log_write sb b
      writei_from ip fuel (off + m) (src.drop m)

/-- Write data to inode: the number of bytes written, or `none` for `-1`. -/
def writei (ip : Ptr) (src : List Byte) (off : Nat) : M (Option Nat) := do
  let i ← inode ip
  if i.d.type = T_DEV then
    if hasDriver i.d.major then consolewrite sb ip src else pure none
  else if i.d.size.toNat < off ∨ (off + src.length) % 2 ^ 32 < off then pure none
  else if MAXFILE * BSIZE < off + src.length then pure none
  else do
    let off ← writei_from sb ip src.length off src
    let i ← inode ip
    (if 0 < src.length ∧ i.d.size.toNat < off then do
      setDinode ip fun d => {d with size := BitVec.ofNat 32 off}
      iupdate sb ip
    else pure ())
    pure (some src.length)

end Xv6.Fs
