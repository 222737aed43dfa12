import Xv6.Param

/-! The disk layout `mkfs` computes.

`[ boot block | super block | log | inode blocks | free bit map | data blocks ]` -/
namespace Xv6.Mkfs

abbrev NINODES : Nat := 200

def nbitmap : Nat := FSSIZE / (BSIZE * 8) + 1
def ninodeblocks : Nat := NINODES / IPB + 1
def nlog : Nat := LOGSIZE

/-- The number of meta blocks: boot, super, log, inode and bitmap blocks. -/
def nmeta : Nat := 2 + nlog + ninodeblocks + nbitmap

/-- The number of data blocks. -/
def nblocks : Nat := FSSIZE - nmeta

def sb : Superblock where
  size := FSSIZE
  nblocks := nblocks
  ninodes := NINODES
  nlog := nlog
  logstart := 2
  inodestart := 2 + nlog
  bmapstart := 2 + nlog + ninodeblocks

end Xv6.Mkfs
