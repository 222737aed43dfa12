import Xv6.Mkfs.Layout
import Xv6.Fs.Dir

/-! `mkfs.c`: the program that builds a file system image.

The image is a file that is written sector by sector. A read past its end ends the program with
an exit status, as a failed `assert` does. The byte order of the host does not show: numbers are
stored with `xshort` and `xint`, least significant byte first. -/
namespace Xv6.Mkfs
open Lib Fs

/-- Why the program ends with a status other than zero. -/
inductive Exit where
  | assertion
  | perror
deriving DecidableEq

/-- The image file, and the counters of the program. -/
structure Image where
  sectors : Disk
  /-- The length of the file, in sectors. -/
  length : Nat
  freeinode : Nat
  freeblock : Nat

abbrev M := Exec Exit Image

def assert (p : Prop) [Decidable p] : M Unit := if p then pure () else throw .assertion

/-! ### Sectors and inodes -/

/-- The sector at the offset `sec * BSIZE`, an unsigned 32-bit number. -/
def seek (sec : Nat) : Nat := sec * BSIZE % 2 ^ 32 / BSIZE

def rsect (sec : Nat) : M Block := do
  let s ← get
  if seek sec < s.length then pure (s.sectors (seek sec)) else throw .perror

def wsect (sec : Nat) (buf : Block) : M Unit :=
  modify fun s => {s with
    sectors := Function.update s.sectors (seek sec) buf
    length := max s.length (seek sec + 1)}

def winode (inum : Nat) (ip : Dinode) : M Unit := do
  let buf ← rsect (IBLOCK inum sb)
  wsect (IBLOCK inum sb) (ip.write buf (inum % IPB))

def rinode (inum : Nat) : M Dinode := do
  let buf ← rsect (IBLOCK inum sb)
  pure (Dinode.read buf (inum % IPB))

def ialloc (type : BitVec 16) : M Nat := do
  let s ← get
  set {s with freeinode := s.freeinode + 1}
  winode s.freeinode {Dinode.zero with type := type, nlink := 1}
  pure s.freeinode

/-- Write the free map: the first `used` blocks are in use. -/
def balloc (used : Nat) : M Unit := do
  assert (used < BSIZE * 8)
  wsect sb.bmapstart ((List.range used).foldl Bytes.setBit Bytes.zero)

/-! ### Appending to a file -/

/-- `freeblock++`. -/
def nextblock : M (BitVec 32) := do
  let s ← get
  set {s with freeblock := s.freeblock + 1}
  pure (BitVec.ofNat 32 s.freeblock)

/-- The block `fbn` of the file, allocated if there is none: the inode, and the block. -/
def iappend_block (din : Dinode) (fbn : Nat) : M (Dinode × Nat) :=
  if h : fbn < NDIRECT then
    let at' : Fin (NDIRECT + 1) := ⟨fbn, Nat.lt_succ_of_lt h⟩
    if din.addrs at' = 0 then do
      let b ← nextblock
      pure (din.setAddr at' b, b.toNat)
    else pure (din, (din.addrs at').toNat)
  else do
    let din ← (if din.addrs (Fin.last NDIRECT) = 0 then do
        let b ← nextblock
        pure (din.setAddr (Fin.last NDIRECT) b)
      else pure din)
    let addr := (din.addrs (Fin.last NDIRECT)).toNat
    let indirect ← rsect addr
    if indirect.word32 (4 * (fbn - NDIRECT)) = 0 then do
      let b ← nextblock
      wsect addr (indirect.putWord32 (4 * (fbn - NDIRECT)) b)
      pure (din, b.toNat)
    else pure (din, (indirect.word32 (4 * (fbn - NDIRECT))).toNat)

/-- The loop of `iappend`: the inode and the offset it ends with. Each round appends a byte at
least. -/
def iappend_from : Nat → Dinode → Nat → List Byte → M (Dinode × Nat)
  | 0, din, off, _ => pure (din, off)
  | fuel + 1, din, off, p =>
    if p = [] then pure (din, off)
    else do
      let fbn := off / BSIZE
      assert (fbn < MAXFILE)
      let (din, x) ← iappend_block din fbn
      let n1 := min p.length ((fbn + 1) * BSIZE - off)
      let buf ← rsect x
      wsect x (buf.blit (off - fbn * BSIZE) (p.take n1))
      iappend_from fuel din (off + n1) (p.drop n1)

/-- Append the bytes `p` to the file `inum`. -/
def iappend (inum : Nat) (p : List Byte) : M Unit := do
  let din ← rinode inum
  let (din, off) ← iappend_from p.length din din.size.toNat p
  winode inum {din with size := BitVec.ofNat 32 off}

/-! ### `main` -/

/-- What the calls of `read` deliver of a file: pieces that fit the buffer. -/
structure Reads where
  pieces : List (List Byte)
  fit : ∀ p ∈ pieces, 0 < p.length ∧ p.length ≤ BSIZE

/-- The bytes of the file. -/
def Reads.bytes (r : Reads) : List Byte := r.pieces.flatten

/-- A file to be put into the image: its name on the command line, and what is read from it, if it
can be opened. -/
structure Arg where
  name : List Byte
  file : Option Reads

/-- The name in the image: a leading underscore is skipped. -/
def Arg.stored (a : Arg) : List Byte := if char a.name = 95 then a.name.tail else a.name

/-- The super block, as it is stored. -/
def superblock : Block :=
  let buf : Block := Bytes.zero
  let buf := buf.putWord32 0 (BitVec.ofNat 32 sb.size)
  let buf := buf.putWord32 4 (BitVec.ofNat 32 sb.nblocks)
  let buf := buf.putWord32 8 (BitVec.ofNat 32 sb.ninodes)
  let buf := buf.putWord32 12 (BitVec.ofNat 32 sb.nlog)
  let buf := buf.putWord32 16 (BitVec.ofNat 32 sb.logstart)
  let buf := buf.putWord32 20 (BitVec.ofNat 32 sb.inodestart)
  buf.putWord32 24 (BitVec.ofNat 32 sb.bmapstart)

/-- A directory entry for inode `inum`. -/
def entry (inum : Nat) (name : List Byte) : List Byte := dirent (BitVec.ofNat 16 inum) (strncpy name DIRSIZ)

/-- One round of the loop over the files. -/
def addFile (rootino : Nat) (a : Arg) : M Unit := do
  assert (slash ∉ a.name)
  match a.file with
  | none => throw .perror
  | some r => do
    let inum ← ialloc T_FILE
    iappend rootino (entry inum a.stored)
    r.pieces.forM (iappend inum)

/-- Fix the size of the root directory. -/
def fixRoot (rootino : Nat) : M Unit := do
  let din ← rinode rootino
  let off := (din.size.toNat / BSIZE + 1) * BSIZE
  winode rootino {din with size := BitVec.ofNat 32 off}

/-- The loop that writes the first `n` sectors, all zero. It is unfolded on demand only. -/
@[irreducible] def wzeroes (n : Nat) : M Unit := (List.range n).forM fun i => wsect i Bytes.zero

def main (args : List Arg) : M Unit := do
  wzeroes FSSIZE
  wsect 1 superblock
  let rootino ← ialloc T_DIR
  assert (rootino = ROOTINO)
  iappend rootino (entry rootino [46])
  iappend rootino (entry rootino [46, 46])
  args.forM (addFile rootino)
  fixRoot rootino
  let s ← get
  balloc s.freeblock

/-- The empty file, before the first sector is written. -/
def start : Image where
  sectors := fun _ => Bytes.zero
  length := 0
  freeinode := 1
  freeblock := nmeta

end Xv6.Mkfs
