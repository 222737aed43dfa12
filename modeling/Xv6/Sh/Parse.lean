import Xv6.Param
import Xv6.Lib.Exec
import Xv6.Lib.Bytes

/-! The parser of the shell: `sh.c`.

A pointer into the command line is its distance from the start. The parser moves the pointer `*ps`,
which is its state, and stops when it calls `panic`. Recursion and loops take fuel; that they never run
out of it is proved in `Grammar`. Memory for the nodes of the tree is not limited. -/
namespace Xv6.Sh
open Lib

def ascii (c : Char) : Byte := BitVec.ofNat 8 c.toNat

/-- The bytes of a text of the source. -/
def text (s : String) : List Byte := s.toList.map ascii

/-! ### Commands -/

abbrev MAXARGS : Nat := 10

abbrev O_RDONLY : Nat := 0x000
abbrev O_WRONLY : Nat := 0x001
abbrev O_CREATE : Nat := 0x200

/-- A parsed command, over words of type `α`. -/
inductive Cmd (α : Type) where
  | exec (argv : List α)
  | redir (cmd : Cmd α) (file : α) (mode fd : Nat)
  | pipe (left right : Cmd α)
  | list (left right : Cmd α)
  | back (cmd : Cmd α)
deriving DecidableEq

/-- Where a word starts and ends: `argv[i]` and `eargv[i]`, or `file` and `efile`. -/
abbrev Span := Nat × Nat

/-- Add an argument to the `execcmd` within the redirections. -/
def Cmd.addArg {α : Type} (a : α) : Cmd α → Cmd α
  | .exec argv => .exec (argv ++ [a])
  | .redir cmd file mode fd => .redir (cmd.addArg a) file mode fd
  | cmd => cmd

/-! ### Tokens -/

/-- Why the parser stops: what `panic` and its caller print, or the model is out of fuel. -/
inductive Stop where
  | panic (printed : List Byte)
  | fuel
deriving DecidableEq

abbrev M := Exec Stop Nat

def panic {α : Type} (s : String) : M α := throw (.panic (text s ++ text "\n"))

def whitespace : List Byte := [' ', '\t', '\r', '\n', '\x0b'].map ascii
def symbols : List Byte := ['<', '|', '>', '&', ';', '(', ')'].map ascii

/-- Does `c` occur in the string? -/
def strchr (s : List Byte) (c : Byte) : Bool := s.any (· == c)

/-- `while(s < es && p(*s)) s++`, with `fuel` bytes from `s` to `es` -/
def scan (p : Byte → Bool) (str : List Byte) : Nat → Nat → Nat
  | 0, s => s
  | fuel + 1, s => if p (str.getD s 0) then scan p str fuel (s + 1) else s

/-- Skip white space. -/
def skip (str : List Byte) (s : Nat) : Nat := scan (strchr whitespace) str (str.length - s) s

/-- A byte that is neither white space nor a symbol. -/
def wordByte (c : Byte) : Bool := !strchr whitespace c && !strchr symbols c

/-- The `switch` of `gettoken` at `s`: the token and its end. A word is `a`, `>>` is `+`, and the end is 0. -/
def token (str : List Byte) (s : Nat) : Byte × Nat :=
  let c := str.getD s 0
  if c = 0 then (c, s)
  else if strchr (['|', '(', ')', ';', '&', '<'].map ascii) c then (c, s + 1)
  else if c = ascii '>' then
    if str.getD (s + 1) 0 = ascii '>' then (ascii '+', s + 2) else (c, s + 1)
  else (ascii 'a', scan wordByte str (str.length - s) s)

/-- The next token, and where it starts and ends. -/
def gettoken (str : List Byte) : M (Byte × Span) := do
  let s ← get
  let q := skip str s
  let r := token str q
  set (skip str r.2)
  pure (r.1, (q, r.2))

/-- Is the next byte after white space one of `toks`? -/
def peek (str : List Byte) (toks : List Char) : M Bool := do
  let s ← get
  let s := skip str s
  set s
  pure (str.getD s 0 ≠ 0 && strchr (toks.map ascii) (str.getD s 0))

/-! ### The parser -/

def parseredirs (str : List Byte) : Nat → Cmd Span → M (Cmd Span)
  | 0, _ => throw .fuel
  | fuel + 1, cmd => do
    let more ← peek str ['<', '>']
    if more then do
      let (tok, _) ← gettoken str
      let (ret, file) ← gettoken str
      if ret ≠ ascii 'a' then panic "missing file for redirection"
      else if tok = ascii '<' then parseredirs str fuel (.redir cmd file O_RDONLY 0)
      else if tok = ascii '>' then parseredirs str fuel (.redir cmd file (O_WRONLY ||| O_CREATE) 1)
      else if tok = ascii '+' then parseredirs str fuel (.redir cmd file (O_WRONLY ||| O_CREATE) 1)
      else parseredirs str fuel cmd
    else pure cmd

/-- The loop of `parseexec`, with `argc` words read. -/
def parseexec_args (str : List Byte) : Nat → Cmd Span → Nat → M (Cmd Span)
  | 0, _, _ => throw .fuel
  | fuel + 1, ret, argc => do
    let done ← peek str ['|', ')', '&', ';']
    if done then pure ret
    else do
      let (tok, arg) ← gettoken str
      if tok = 0 then pure ret
      else if tok ≠ ascii 'a' then panic "syntax"
      else if MAXARGS ≤ argc + 1 then panic "too many args"
      else do
        let ret ← parseredirs str fuel (ret.addArg arg)
        parseexec_args str fuel ret (argc + 1)

/-- The loop of `parseline` over `&`. -/
def parseline_back (str : List Byte) : Nat → Cmd Span → M (Cmd Span)
  | 0, _ => throw .fuel
  | fuel + 1, cmd => do
    let more ← peek str ['&']
    if more then do
      let _ ← gettoken str
      parseline_back str fuel (.back cmd)
    else pure cmd

mutual

def parseline (str : List Byte) : Nat → M (Cmd Span)
  | 0 => throw .fuel
  | fuel + 1 => do
    let cmd ← parsepipe str fuel
    let cmd ← parseline_back str fuel cmd
    let more ← peek str [';']
    if more then do
      let _ ← gettoken str
      let right ← parseline str fuel
      pure (.list cmd right)
    else pure cmd

def parsepipe (str : List Byte) : Nat → M (Cmd Span)
  | 0 => throw .fuel
  | fuel + 1 => do
    let cmd ← parseexec str fuel
    let more ← peek str ['|']
    if more then do
      let _ ← gettoken str
      let right ← parsepipe str fuel
      pure (.pipe cmd right)
    else pure cmd

def parseexec (str : List Byte) : Nat → M (Cmd Span)
  | 0 => throw .fuel
  | fuel + 1 => do
    let block ← peek str ['(']
    if block then parseblock str fuel
    else do
      let ret ← parseredirs str fuel (.exec [])
      parseexec_args str fuel ret 0

def parseblock (str : List Byte) : Nat → M (Cmd Span)
  | 0 => throw .fuel
  | fuel + 1 => do
    let start ← peek str ['(']
    if start then do
      let _ ← gettoken str
      let cmd ← parseline str fuel
      let close ← peek str [')']
      if close then do
        let _ ← gettoken str
        parseredirs str fuel cmd
      else panic "syntax - missing )"
    else panic "parseblock"

end

/-- The command line with all counted strings terminated. -/
def nulterminate : Cmd Span → List Byte → List Byte
  | .exec argv, buf => argv.foldl (fun buf arg => buf.set arg.2 0) buf
  | .redir cmd file _ _, buf => (nulterminate cmd buf).set file.2 0
  | .pipe left right, buf => nulterminate right (nulterminate left buf)
  | .list left right, buf => nulterminate right (nulterminate left buf)
  | .back cmd, buf => nulterminate cmd buf

/-- Parse the command line `str`, which is followed by a NUL: the command, and the line with its words terminated. -/
def parsecmd (str : List Byte) : M (Cmd Span × List Byte) := do
  let cmd ← parseline str (4 * str.length + 4)
  let _ ← peek str []
  let s ← get
  if s ≠ str.length then throw (.panic (text "leftovers: " ++ str.drop s ++ text "\nsyntax\n"))
  else pure (cmd, nulterminate cmd (str ++ [0]))

end Xv6.Sh
