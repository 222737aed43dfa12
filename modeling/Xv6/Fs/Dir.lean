import Xv6.Fs.Inode

/-! Directories and paths: the rest of `fs.c`.

A C string or a `name[DIRSIZ]` buffer is its list of bytes; a read past the end of the
list reads the terminating zero. -/
namespace Xv6.Fs
open Lib

/-! ### `string.c` -/

/-- The character a string pointer points at. -/
def char (s : List Byte) : Byte := s.headD 0

def strncmp (p q : List Byte) : Nat → Int
  | 0 => 0
  | n + 1 =>
    if char p ≠ 0 ∧ char p = char q then strncmp p.tail q.tail n
    else (char p).toNat - (char q).toNat

/-- The `n` bytes that `strncpy` stores. -/
def strncpy (t : List Byte) : Nat → List Byte
  | 0 => []
  | n + 1 => if char t = 0 then List.replicate (n + 1) 0 else char t :: strncpy t.tail n

/-! ### Directories -/

/-- `sizeof(struct dirent)`. -/
abbrev DIRENT : Nat := 2 + DIRSIZ

/-- The bytes of a `struct dirent`. -/
def dirent (inum : BitVec 16) (name : List Byte) : List Byte :=
  inum.extractLsb' 0 8 :: inum.extractLsb' 8 8 :: name

/-- `de.inum`. -/
def deInum (de : List Byte) : BitVec 16 := de.getD 1 0 ++ de.getD 0 0

/-- `de.name`. -/
def deName (de : List Byte) : List Byte := de.drop 2

def namecmp (s t : List Byte) : Int := strncmp s t DIRSIZ

variable (sb : Superblock)

/-- The `readi` of one entry, with the caller's panic when it is cut short. -/
def readDirent (dp : Ptr) (off : Nat) (p : Panic) : M (List Byte) := do
  let r ← readi sb dp off DIRENT
  match r with
  | some de => if de.length ≠ DIRENT then panic p else pure de
  | none => panic p

/-- The loop of `dirlookup`. -/
def dirlookup_from (dp : Ptr) (name : List Byte) : Nat → Nat → M (Option (Ptr × Nat))
  | 0, _ => pure none
  | fuel + 1, off => do
    let i ← inode dp
    if i.d.size.toNat ≤ off then pure none
    else do
      let de ← readDirent sb dp off .dirlookupRead
      if deInum de = 0 then dirlookup_from dp name fuel (off + DIRENT)
      else if namecmp name (deName de) = 0 then do
        let ip ← iget i.dev (deInum de).toNat
        pure (some (ip, off))
      else dirlookup_from dp name fuel (off + DIRENT)

/-- Look for a directory entry in a directory: the inode it names, and its offset. -/
def dirlookup (dp : Ptr) (name : List Byte) : M (Option (Ptr × Nat)) := do
  let i ← inode dp
  if i.d.type ≠ T_DIR then panic .dirlookupNotDir
  else dirlookup_from sb dp name (i.d.size.toNat / DIRENT + 1) 0

/-- The loop of `dirlink` that looks for an empty entry; it answers the offset reached. -/
def emptyDirent (dp : Ptr) : Nat → Nat → M Nat
  | 0, off => pure off
  | fuel + 1, off => do
    let i ← inode dp
    if i.d.size.toNat ≤ off then pure off
    else do
      let de ← readDirent sb dp off .dirlinkRead
      if deInum de = 0 then pure off else emptyDirent dp fuel (off + DIRENT)

/-- Write a new directory entry (name, inum) into the directory `dp`. -/
def dirlink (dp : Ptr) (name : List Byte) (inum : Nat) : M Int := do
  let found ← dirlookup sb dp name
  match found with
  | some (ip, _) => do
    iput sb ip
    pure (-1)
  | none => do
    let i ← inode dp
    let off ← emptyDirent sb dp (i.d.size.toNat / DIRENT + 1) 0
    let r ← writei sb dp (dirent (BitVec.ofNat 16 inum) (strncpy name DIRSIZ)) off
    if r ≠ some DIRENT then panic .dirlink else pure 0

/-! ### Paths -/

/-- The character `/`. -/
abbrev slash : Byte := 47

/-- Copy the next path element: the name and the path after it. -/
def skipelem (path : List Byte) : Option (List Byte × List Byte) :=
  let s := path.dropWhile (· = slash)
  if char s = 0 then none
  else
    let elem := s.takeWhile fun c => c ≠ slash ∧ c ≠ 0
    some (if DIRSIZ ≤ elem.length then elem.take DIRSIZ else elem,
      (s.drop elem.length).dropWhile (· = slash))

/-- The loop of `namex`; `name` is the buffer for path elements. -/
def namex_from (parent : Bool) : Nat → Ptr → List Byte → List Byte → M (Option (Ptr × List Byte))
  | 0, _, _, _ => pure none
  | fuel + 1, ip, path, name =>
    match skipelem path with
    | none =>
      if parent then do
        iput sb ip
        pure none
      else pure (some (ip, name))
    | some (name, path) => do
      ilock sb ip
      let i ← inode ip
      if i.d.type ≠ T_DIR then do
        iunlockput sb ip
        pure none
      else if parent = true ∧ char path = 0 then do
        -- Stop one level early.
        iunlock ip
        pure (some (ip, name))
      else do
        let next ← dirlookup sb ip name
        match next with
        | none => do
          iunlockput sb ip
          pure none
        | some (next, _) => do
          iunlockput sb ip
          namex_from parent fuel next path name

/-- Look up the inode for a path name, or for its parent along with the last name. -/
def namex (cwd : Ptr) (path : List Byte) (parent : Bool) : M (Option (Ptr × List Byte)) := do
  let ip ← (if char path = slash then iget ROOTDEV ROOTINO else idup cwd)
  namex_from sb parent (path.length + 1) ip path []

def namei (cwd : Ptr) (path : List Byte) : M (Option Ptr) := do
  let r ← namex sb cwd path false
  pure (r.map Prod.fst)

def nameiparent (cwd : Ptr) (path : List Byte) : M (Option (Ptr × List Byte)) :=
  namex sb cwd path true

end Xv6.Fs
