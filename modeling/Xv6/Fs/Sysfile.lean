import Xv6.Fs.Dir

/-! The file system calls that work on inodes only: `sysfile.c`.

`cwd` is the current directory of the process. An argument that could not be fetched
from user space is `none`. -/
namespace Xv6.Fs
open Lib

variable (sb : Superblock)

/-- `"."` and `".."`. -/
abbrev dot : List Byte := [46]
abbrev dotdot : List Byte := [46, 46]

/-- The end of `sys_link` when there is no new name: the link count is taken back. -/
def link_bad (ip : Ptr) : M Int := do
  ilock sb ip
  setDinode ip fun d => {d with nlink := d.nlink - 1}
  iupdate sb ip
  iunlockput sb ip
  end_op
  pure (-1)

/-- Create the path `new` as a link to the same inode as `old`. -/
def sys_link (cwd : Ptr) (args : Option (List Byte × List Byte)) : M Int :=
  match args with
  | none => pure (-1)
  | some (old, new) => do
    begin_op
    let r ← namei sb cwd old
    match r with
    | none => do
      end_op
      pure (-1)
    | some ip => do
      ilock sb ip
      let i ← inode ip
      if i.d.type = T_DIR then do
        iunlockput sb ip
        end_op
        pure (-1)
      else do
        setDinode ip fun d => {d with nlink := d.nlink + 1}
        iupdate sb ip
        iunlock ip
        let r ← nameiparent sb cwd new
        match r with
        | none => link_bad sb ip
        | some (dp, name) => do
          ilock sb dp
          let d ← inode dp
          let i ← inode ip
          let r ← (if d.dev ≠ i.dev then pure (-1) else dirlink sb dp name i.inum)
          if r < 0 then do
            iunlockput sb dp
            link_bad sb ip
          else do
            iunlockput sb dp
            iput sb ip
            end_op
            pure 0

/-- The loop of `isdirempty`. -/
def isdirempty_from (dp : Ptr) : Nat → Nat → M Bool
  | 0, _ => pure true
  | fuel + 1, off => do
    let i ← inode dp
    if i.d.size.toNat ≤ off then pure true
    else do
      let de ← readDirent sb dp off .isdirempty
      if deInum de ≠ 0 then pure false else isdirempty_from dp fuel (off + DIRENT)

/-- Is the directory `dp` empty except for `.` and `..`? -/
def isdirempty (dp : Ptr) : M Bool := do
  let i ← inode dp
  isdirempty_from sb dp (i.d.size.toNat / DIRENT + 1) (2 * DIRENT)

/-- The end of `sys_unlink` when there is nothing to unlink. -/
def unlink_bad (dp : Ptr) : M Int := do
  iunlockput sb dp
  end_op
  pure (-1)

def sys_unlink (cwd : Ptr) (path : Option (List Byte)) : M Int :=
  match path with
  | none => pure (-1)
  | some path => do
    begin_op
    let r ← nameiparent sb cwd path
    match r with
    | none => do
      end_op
      pure (-1)
    | some (dp, name) => do
      ilock sb dp
      -- Cannot unlink "." or "..".
      if namecmp name dot = 0 ∨ namecmp name dotdot = 0 then unlink_bad sb dp
      else do
        let r ← dirlookup sb dp name
        match r with
        | none => unlink_bad sb dp
        | some (ip, off) => do
          ilock sb ip
          let i ← inode ip
          if i.d.nlink.toInt < 1 then panic .nlink
          else do
            let empty ← (if i.d.type = T_DIR then isdirempty sb ip else pure true)
            if empty = false then do
              iunlockput sb ip
              unlink_bad sb dp
            else do
              let r ← writei sb dp (List.replicate DIRENT 0) off
              if r ≠ some DIRENT then panic .unlinkWritei
              else do
                (if i.d.type = T_DIR then do
                  setDinode dp fun d => {d with nlink := d.nlink - 1}
                  iupdate sb dp
                else pure ())
                iunlockput sb dp
                setDinode ip fun d => {d with nlink := d.nlink - 1}
                iupdate sb ip
                iunlockput sb ip
                end_op
                pure 0

/-- The inode at `path`, locked: a file that is there, or a new one of the given type. -/
def create (cwd : Ptr) (path : List Byte) (type major minor : BitVec 16) : M (Option Ptr) := do
  let r ← nameiparent sb cwd path
  match r with
  | none => pure none
  | some (dp, name) => do
    ilock sb dp
    let r ← dirlookup sb dp name
    match r with
    | some (ip, _) => do
      iunlockput sb dp
      ilock sb ip
      let i ← inode ip
      if type = T_FILE ∧ i.d.type = T_FILE then pure (some ip)
      else do
        iunlockput sb ip
        pure none
    | none => do
      let d ← inode dp
      let ip ← ialloc sb d.dev type
      ilock sb ip
      setDinode ip fun d => {d with major := major, minor := minor, nlink := 1}
      iupdate sb ip
      let i ← inode ip
      (if type = T_DIR then do
        -- Create . and .. entries.
        setDinode dp fun d => {d with nlink := d.nlink + 1}
        iupdate sb dp
        -- No ip->nlink++ for ".": avoid cyclic ref count.
        let r ← dirlink sb ip dot i.inum
        if r < 0 then panic .createDots
        else do
          let r ← dirlink sb ip dotdot d.inum
          if r < 0 then panic .createDots else pure ()
      else pure ())
      let r ← dirlink sb dp name i.inum
      if r < 0 then panic .createDirlink
      else do
        iunlockput sb dp
        pure (some ip)

/-- `sys_mkdir` and `sys_mknod` once their arguments are fetched. -/
def mknode (cwd : Ptr) (path : List Byte) (type major minor : BitVec 16) : M Int := do
  let r ← create sb cwd path type major minor
  match r with
  | none => do
    end_op
    pure (-1)
  | some ip => do
    iunlockput sb ip
    end_op
    pure 0

def sys_mkdir (cwd : Ptr) (path : Option (List Byte)) : M Int := do
  begin_op
  match path with
  | none => do
    end_op
    pure (-1)
  | some path => mknode sb cwd path T_DIR 0 0

/-- `major` and `minor` are ints that `create` takes as shorts. -/
def sys_mknod (cwd : Ptr) (args : Option (List Byte × BitVec 32 × BitVec 32)) : M Int := do
  begin_op
  match args with
  | none => do
    end_op
    pure (-1)
  | some (path, major, minor) =>
    mknode sb cwd path T_DEV (major.setWidth 16) (minor.setWidth 16)

end Xv6.Fs
