import Xv6.Fs.Dir

/-! `uniq` and `head` in the kernel, on a file: `sysproc.c`.

A buffer on the kernel stack is the list of the bytes from its start on, also those past
its end, up to a zero that is there. What is printed is kept as a list of lines. -/
namespace Xv6.Uniq
open Lib Fs

abbrev BUF_SIZE : Nat := 256

/-- The newline character. -/
abbrev newline : Byte := 10

/-! ### Strings -/

/-- The string in a buffer. -/
def str (buf : List Byte) : List Byte := buf.takeWhile (· ≠ 0)

def strlen (buf : List Byte) : Nat := (str buf).length

def strcmp : List Byte → List Byte → Int
  | [], q => 0 - (char q).toNat
  | c :: p, q => if c ≠ 0 ∧ c = char q then strcmp p q.tail else c.toNat - (char q).toNat

/-- The buffer with the byte at `i` overwritten. -/
def poke (buf : List Byte) (i : Nat) (c : Byte) : List Byte := buf.take i ++ c :: buf.drop (i + 1)

def convertToLowercase (s : List Byte) : List Byte :=
  s.map fun c => if 65 ≤ c ∧ c ≤ 90 then c + 32 else c

/-- The buffer after `strcpy` of the string in `source` to it. -/
def strcpy (source buf : List Byte) : List Byte :=
  str source ++ 0 :: buf.drop (strlen source + 1)

/-! ### Reading lines -/

/-- The loop of `readline`, from index `i` on: the buffer and the index it ends with. -/
def readline_from (bytes_read : Nat) : Nat → List Byte → Nat → List Byte × Nat
  | 0, buf, i => (buf, i)
  | fuel + 1, buf, i =>
    if i < strlen buf then
      if buf.getD i 0 = newline ∨ bytes_read ≤ i then (poke buf i 0, i)
      else readline_from bytes_read fuel buf (i + 1)
    else (buf, i)

variable (sb : Superblock)

/-- Read a line of the file at `start` into the buffer: the buffer, and the length of the
line or `none` for `-1`. `sizeof(buf)` is the size of a pointer. -/
def readline (ip : Ptr) (buf : List Byte) (start : Nat) : M (List Byte × Option Nat) := do
  let r ← readi sb ip (start % 2 ^ 32) BUF_SIZE
  match r with
  | none => pure (buf, none)
  | some bytes =>
    let buf := bytes ++ buf.drop bytes.length
    let buf := if bytes.length < 4 then poke buf bytes.length 0 else buf
    let (buf, n) := readline_from bytes.length (strlen buf) buf 0
    pure (buf, some n)

/-! ### `sys_uniq_kernel` -/

/-- A call of `cprintf`. -/
inductive Printed where
  /-- `"%s\n"`, or `"\n"` for the empty string. -/
  | line (s : List Byte)
  /-- `"%d  %s\n"` -/
  | counted (n : Int) (s : List Byte)
deriving DecidableEq

/-- A text of the program. -/
def text (s : String) : List Byte := s.toList.map fun c => BitVec.ofNat 8 c.toNat

/-- The flags, as `strcmp` tells them. -/
structure Flags where
  isCountFlag : Bool
  isCaseInsensitive : Bool
  isDelete : Bool
  isNoFlag : Bool

def Flags.of (flag : List Byte) : Flags where
  isCountFlag := strcmp flag (text "-c") = 0
  isCaseInsensitive := strcmp flag (text "-i") = 0
  isDelete := strcmp flag (text "-d") = 0
  isNoFlag := strcmp flag (text "-n") = 0

/-- The variables of the loop. -/
structure Vars where
  current_line : List Byte
  previous_line : List Byte
  lineCount : BitVec 32
  isRepeated : Bool

def Vars.isDifferent (v : Vars) (fl : Flags) : Bool :=
  if fl.isCaseInsensitive then
    strcmp (convertToLowercase (str v.current_line)) (convertToLowercase (str v.previous_line)) ≠ 0
  else strcmp v.current_line v.previous_line ≠ 0

/-- The body of the loop of `sys_uniq_kernel`, with a line in `current_line`. -/
def uniq_body (fl : Flags) (v : Vars) : Vars × List Printed :=
  if v.isDifferent fl then
    let next : Vars := {v with previous_line := strcpy v.current_line v.previous_line, lineCount := 1}
    if strcmp v.previous_line [] = 0 then (next, [])
    else if fl.isCountFlag then (next, [.counted v.lineCount.toInt (str v.previous_line)])
    else if fl.isNoFlag ∧ 1 < v.lineCount.toInt then (next, [.line (str v.previous_line)])
    else if fl.isDelete then ({next with isRepeated := false}, [])
    else (next, [.line (str v.previous_line)])
  else if fl.isDelete ∧ v.isRepeated = false then
    ({v with isRepeated := true, lineCount := v.lineCount + 1}, [.line (str v.previous_line)])
  else ({v with lineCount := v.lineCount + 1}, [])

/-- What is printed after the loop. -/
def uniq_last (fl : Flags) (v : Vars) : List Printed :=
  if strcmp v.previous_line [] ≠ 0 then
    if fl.isCountFlag then [.counted v.lineCount.toInt (str v.previous_line)]
    else if fl.isNoFlag ∨ fl.isCaseInsensitive then [.line (str v.previous_line)]
    else []
  else [.line []]

/-- The loop of `sys_uniq_kernel` over the lines of the file, from position `indexCounter` on. -/
def uniq_loop (ip : Ptr) (fl : Flags) : Nat → Nat → Vars → M (Vars × List Printed)
  | 0, _, v => pure (v, [])
  | fuel + 1, indexCounter, v => do
    let (buf, bytesRead) ← readline sb ip v.current_line indexCounter
    let v := {v with current_line := buf}
    match bytesRead with
    | none => pure (v, [])
    | some 0 => pure (v, [])
    | some n =>
      let (v, out) := uniq_body fl v
      let (v, rest) ← uniq_loop ip fl fuel (indexCounter + n + 1) v
      pure (v, out ++ rest)

/-- Lines of a file, and what is typed at the console: no loop over lines is longer. -/
def lineBound (ip : Ptr) : M Nat := do
  let s ← get
  pure ((s.icache ip).d.size.toNat + s.console.length + 1)

/-- `sys_uniq_kernel` with a flag other than `-z`: what it returns and what it prints. `stack`
are the bytes after the buffer of the current line. -/
def sys_uniq_kernel (cwd : Ptr) (stack : List Byte) (args : Option (List Byte × List Byte)) :
    M (Int × List Printed) :=
  match args with
  | none => pure (-1, [])
  | some (filename, flag) => do
    begin_op
    let r ← namei sb cwd filename
    match r with
    | none => do
      end_op
      pure (-1, [.line (text "File Not Found ....")])
    | some ip => do
      ilock sb ip
      let fl := Flags.of flag
      let fuel ← lineBound ip
      let (v, out) ← uniq_loop sb ip fl fuel 0
        ⟨List.replicate BUF_SIZE 0 ++ stack, List.replicate BUF_SIZE 0, 1, false⟩
      iunlock ip
      end_op
      pure (0, out ++ uniq_last fl v)

/-! ### `sys_head_kernel` -/

/-- The loop of `sys_head_kernel` over the lines of the file. -/
def head_loop (ip : Ptr) (numLinesToShow : Int) : Nat → Int → Nat → List Byte → M (List Printed)
  | 0, _, _, _ => pure []
  | fuel + 1, linesRead, fileIndex, buf =>
    if linesRead ≤ numLinesToShow then do
      let (buf, bytesRead) ← readline sb ip buf fileIndex
      match bytesRead with
      | none => pure []
      | some 0 => pure []
      | some n => do
        let rest ← head_loop ip numLinesToShow fuel (linesRead + 1) (fileIndex + n + 1) buf
        pure (.line (str buf) :: rest)
    else pure []

/-- `sys_head_kernel` with an `inputSource` other than zero: what it returns and what it prints. -/
def sys_head_kernel (cwd : Ptr) (stack : List Byte) (args : Option (List Byte × BitVec 32)) :
    M (Int × List Printed) :=
  match args with
  | none => pure (-1, [])
  | some (targetFile, numLinesToShow) => do
    begin_op
    let r ← namei sb cwd targetFile
    match r with
    | none => do
      end_op
      pure (-1, [.line (text "Error: The specified file was not found.")])
    | some ip => do
      ilock sb ip
      let fuel ← lineBound ip
      let out ← head_loop sb ip numLinesToShow.toInt fuel 1 0 (List.replicate 1024 0 ++ stack)
      iunlock ip
      end_op
      pure (numLinesToShow.toInt, out ++ [.line []])

end Xv6.Uniq
