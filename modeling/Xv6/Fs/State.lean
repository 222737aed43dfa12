import Xv6.Lib.Exec
import Xv6.Log.Protocol
import Xv6.Fs.Layout

/-! The state of the file system, and the buffer and log calls it is built on.

File system calls run one at a time here, so that a sleep-lock is held or not by
the one process that runs, and a second `acquiresleep` of a lock never returns.
Blocks are seen through the buffer cache: `bread` gives a block as the last store
into its buffer left it, whether committed or not. -/
namespace Xv6.Fs
open Lib Function

/-- The panics of the code below, by their text. -/
inductive Panic where
  /-- `iderw: request not for disk 1` -/
  | noDisk
  /-- `incorrect blockno` -/
  | blockno
  /-- `too big a transaction` -/
  | tooBig
  /-- `log_write outside of trans` -/
  | outsideTrans
  /-- `balloc: out of blocks` -/
  | balloc
  /-- `freeing free block` -/
  | freeingFree
  /-- `ialloc: no inodes` -/
  | ialloc
  /-- `iget: no inodes` -/
  | iget
  | ilock
  /-- `ilock: no type` -/
  | noType
  | iunlock
  /-- `bmap: out of range` -/
  | bmap
  /-- `dirlookup not DIR` -/
  | dirlookupNotDir
  /-- `dirlookup read` -/
  | dirlookupRead
  /-- `dirlink read` -/
  | dirlinkRead
  | dirlink
  /-- `isdirempty: readi` -/
  | isdirempty
  /-- `unlink: nlink < 1` -/
  | nlink
  /-- `unlink: writei` -/
  | unlinkWritei
  /-- `create dots` -/
  | createDots
  /-- `create: dirlink` -/
  | createDirlink
  | filedup
  | fileclose
deriving DecidableEq

/-- Why a call does not return. -/
inductive Halt where
  | panic (p : Panic)
  /-- `acquiresleep` of a lock the process holds itself. -/
  | deadlock
  /-- Asleep, with nobody to wake it: waiting for log space or for console input. -/
  | asleep
deriving DecidableEq

/-- `struct inode`: `d` is the copy of the on-disk inode. -/
structure Inode where
  dev : Nat
  inum : Nat
  ref : Nat
  locked : Bool
  valid : Bool
  d : Dinode

structure State where
  /-- The blocks, as buffers of the cache show them. -/
  disk : Disk
  /-- `log.lh`: the blocks of the transaction. -/
  lh : List Nat
  /-- `log.outstanding`. -/
  outstanding : Nat
  icache : Fin NINODE → Inode
  /-- What happens at the console: a byte is typed, or (`none`) the process is killed. -/
  console : List (Option Byte)

/-- A `struct inode *`: an entry of the inode cache. -/
abbrev Ptr := Fin NINODE

namespace State

/-- The state with the entry `ip` changed. -/
def upd (s : State) (ip : Ptr) (f : Inode → Inode) : State :=
  {s with icache := update s.icache ip (f (s.icache ip))}

variable (s : State) (ip : Ptr) (f : Inode → Inode)

@[simp] theorem upd_disk : (s.upd ip f).disk = s.disk := rfl

@[simp] theorem upd_lh : (s.upd ip f).lh = s.lh := rfl

@[simp] theorem upd_outstanding : (s.upd ip f).outstanding = s.outstanding := rfl

@[simp] theorem upd_console : (s.upd ip f).console = s.console := rfl

@[simp] theorem upd_self : (s.upd ip f).icache ip = f (s.icache ip) := update_self ..

theorem upd_icache :
    (s.upd ip f).icache = update s.icache ip (f (s.icache ip)) := rfl

theorem upd_other (h : q ≠ ip) : (s.upd ip f).icache q = s.icache q :=
  update_of_ne h ..

end State

abbrev M := Exec Halt State

def panic {α : Type} (p : Panic) : M α := throw (.panic p)

/-! ### Buffers and the log -/

/-- `bread`, with the driver's checks of the request. -/
def bread (dev b : Nat) : M Block := do
  let s ← get
  if dev ≠ ROOTDEV then panic .noDisk
  else if FSSIZE ≤ b then panic .blockno
  else pure (s.disk b)

/-- A store into the data of a buffer. -/
def store (b : Nat) (f : Block → Block) : M Unit :=
  modify fun s => {s with disk := update s.disk b (f (s.disk b))}

variable (sb : Superblock)

def log_write (b : Nat) : M Unit := do
  let s ← get
  if LOGSIZE ≤ s.lh.length ∨ sb.nlog - 1 ≤ s.lh.length then panic .tooBig
  else if s.outstanding < 1 then panic .outsideTrans
  else modify fun s => {s with lh := Log.record s.lh b}

def begin_op : M Unit := do
  let s ← get
  if LOGSIZE < s.lh.length + (s.outstanding + 1) * MAXOPBLOCKS then throw .asleep
  else modify fun s => {s with outstanding := s.outstanding + 1}

/-- `end_op`: the last operation commits, which empties the log. -/
def end_op : M Unit :=
  modify fun s => {s with
    outstanding := s.outstanding - 1
    lh := if s.outstanding - 1 = 0 then [] else s.lh}

/-! ### Entries of the inode cache -/

/-- `*ip`. -/
def inode (ip : Ptr) : M Inode := do
  let s ← get
  pure (s.icache ip)

/-- A store into fields of `*ip`. -/
def setInode (ip : Ptr) (f : Inode → Inode) : M Unit :=
  modify fun s => s.upd ip f

/-- A store into fields of `*ip` that are copies of on-disk ones. -/
def setDinode (ip : Ptr) (f : Dinode → Dinode) : M Unit :=
  setInode ip fun i => {i with d := f i.d}

section Bind
variable {α : Type} {s : State} {ip : Ptr} {Q : α → State → Prop} {E : Halt → Prop}

theorem bind_inode (h : Runs (f (s.icache ip)) s Q E) :
    Runs (inode ip >>= f) s Q E :=
  Runs.bind_ok rfl h

theorem bind_setInode (h : Runs (f ()) (s.upd ip g) Q E) :
    Runs (setInode ip g >>= f) s Q E :=
  Runs.bind_ok rfl h

theorem bind_setDinode
    (h : Runs (f ()) (s.upd ip fun i => {i with d := g i.d}) Q E) : Runs (setDinode ip g >>= f) s Q E :=
  bind_setInode h

end Bind

def acquiresleep (ip : Ptr) : M Unit := do
  let i ← inode ip
  if i.locked then throw .deadlock
  else setInode ip fun i => {i with locked := true}

def releasesleep (ip : Ptr) : M Unit :=
  setInode ip fun i => {i with locked := false}

end Xv6.Fs
