import Xv6.Lib.Groups
import Xv6.Uniq.User

/-! `uniq` on standard input: the programs `uniq_kernel` and `uniq_user` without arguments.

`sys_uniq_kernel` reads standard input for the flag `-z` only. `uniq_kernel` passes it `z`, so that
it works on a file called `stdin` instead. With `-z` it would take the lines of standard input, but
all except the first without their first byte. -/
namespace Xv6.Uniq
open Lib Fs List

/-! ### The mode for standard input -/

/-- The loop of `extract_line`: the line, and its length. -/
def extract_from : List Byte → List Byte → Nat → List Byte × Nat
  | [], line, lineIndex => (line, lineIndex)
  | c :: data, line, lineIndex =>
    if c ≠ 0 ∧ c ≠ newline then extract_from data (poke line lineIndex c) (lineIndex + 1)
    else (line, lineIndex)

/-- Extract the line of `data` at `startPos`: the line, and the position after it or `none` for
`-1`. -/
def extract_line (startPos : Nat) (data line : List Byte) : List Byte × Option Nat :=
  if strlen data ≤ startPos then (line, none)
  else
    let (line, lineIndex) := extract_from (data.drop startPos) line 0
    let dataIndex := startPos + lineIndex
    (poke line lineIndex 0, some (if data.getD dataIndex 0 = newline then dataIndex + 1 else dataIndex))

/-- The body of the loop over the lines of `buffer`. -/
def stdin_body (v : Vars) : Vars × List Printed :=
  if strcmp v.previous_line [] = 0 then
    ({v with previous_line := strcpy v.current_line v.previous_line, lineCount := 1}, [])
  else if strcmp v.current_line v.previous_line ≠ 0 then
    ({v with previous_line := strcpy v.current_line v.previous_line, lineCount := 1},
      [.line (str v.previous_line)])
  else ({v with lineCount := v.lineCount + 1}, [])

/-- The loop over the lines of `buffer`, from position `offset` on. -/
def stdin_loop (buffer : List Byte) : Nat → Nat → Vars → Vars × List Printed
  | 0, _, v => (v, [])
  | fuel + 1, offset, v =>
    let (line, offset) := extract_line offset buffer v.current_line
    let v := {v with current_line := line}
    match offset with
    | none => (v, [])
    | some offset =>
      if 0 < offset then
        let (v, out) := stdin_body v
        let (v, rest) := stdin_loop buffer fuel (offset + 1) v
        (v, out ++ rest)
      else (v, [])

/-- What `sys_uniq_kernel` prints with the flag `-z`, when `input` is what can be read from
standard input. `junk` are the bytes from the start of the buffer on, before they are written. -/
def uniq_stdin (stack junk input : List Byte) : List Printed :=
  let buffer := input ++ 0 :: junk.drop (input.length + 1)
  let (v, out) := stdin_loop buffer (input.length + 1) 0
    ⟨List.replicate BUF_SIZE 0 ++ stack, List.replicate BUF_SIZE 0, 1, false⟩
  out ++ if strcmp v.previous_line [] ≠ 0 then [.line (str v.previous_line)] else [.line []]

/-! ### The programs -/

section Programs
variable (sb : Superblock) (cwd : Ptr) (stack junk input : List Byte)

/-- The system call, with any flag. -/
def uniq_kernel (filename flag : List Byte) : M (Int × List Printed) :=
  if strcmp flag (text "-z") = 0 then pure (0, uniq_stdin stack junk input)
  else sys_uniq_kernel sb cwd stack (some (filename, flag))

/-- `main` of `uniq_user.c`, after its banner. `openFile` is what can be read from a file that can
be opened. -/
def User.main (openFile : List Byte → Option (List Byte)) (argv : List (List Byte)) : List Printed :=
  match argv with
  | [_] => uniq_user input (text "-n")
  | [_, file] =>
    match openFile file with
    | none => [.line (text "Failed to open the input file: " ++ file)]
    | some fd => uniq_user fd (text "-n")
  | [_, flag, file] =>
    match openFile file with
    | none => [.line (text "Failed to open the input file: " ++ flag)]
    | some fd => uniq_user fd flag
  | _ => []

end Programs

/-! ### The lines that the mode for standard input works on -/

/-- Lines of `l`, with a byte skipped after each newline. -/
def skim : Nat → List Byte → List (List Byte)
  | 0, _ => []
  | fuel + 1, l =>
    if l = [] then [] else firstLine newline l :: skim fuel (l.drop ((firstLine newline l).length + 2))

/-- The loop of `extract_line` copies the first line. -/
theorem extract_from_text (rest : List Byte) (h0 : 0 ∉ data) (hk : k ≤ line.length) :
    (extract_from (data ++ 0 :: rest) line k).2 = k + (firstLine newline data).length ∧
    (extract_from (data ++ 0 :: rest) line k).1.take (extract_from (data ++ 0 :: rest) line k).2 =
      line.take k ++ firstLine newline data := by
  induction data generalizing line k with
  | nil =>
    rw [nil_append, extract_from, if_neg fun h => h.1 rfl, firstLine, takeWhile_nil, append_nil]
    exact ⟨rfl, rfl⟩
  | cons c data ih =>
    obtain ⟨hc0, hd0⟩ := not_or.mp (mt mem_cons.mpr h0)
    rw [cons_append, extract_from]
    by_cases hc : c = newline
    · rw [if_neg fun h => h.2 hc, hc, firstLine_cons_sep, append_nil]
      exact ⟨rfl, rfl⟩
    · rw [if_pos ⟨Ne.symm hc0, hc⟩, firstLine_cons hc]
      obtain ⟨h1, h2⟩ := ih hd0 (lt_length_poke hk c)
      refine ⟨by rw [h1, length_cons]; omega, ?_⟩
      rw [h2, take_poke hk, append_assoc, singleton_append]

/-- `extract_line` finds the line at `offset`, and passes its newline if it has one. -/
theorem extract_line_text (rest line : List Byte) (h0 : 0 ∉ input) (h : offset < input.length) :
    ∃ next, (extract_line offset (input ++ 0 :: rest) line).2 = some next ∧ 0 < next ∧
      str (extract_line offset (input ++ 0 :: rest) line).1 = firstLine newline (input.drop offset) ∧
      input.drop (next + 1) = (input.drop offset).drop ((firstLine newline (input.drop offset)).length + 2) := by
  have hd0 : 0 ∉ input.drop offset := fun h => h0 (mem_of_mem_drop h)
  have hlen : strlen (input ++ 0 :: rest) = input.length := by rw [strlen, str_append_zero h0]
  obtain ⟨h1, h2⟩ := extract_from_text rest hd0 (Nat.zero_le line.length)
  rw [take_zero, nil_append] at h2
  rw [Nat.zero_add] at h1
  generalize hx : extract_from (input.drop offset ++ 0 :: rest) line 0 = x at h1 h2
  obtain ⟨line', n⟩ := x
  simp only at h1 h2
  have hline : extract_line offset (input ++ 0 :: rest) line = (poke line' n 0,
      some (if (input ++ 0 :: rest).getD (offset + n) 0 = newline then offset + n + 1 else offset + n)) := by
    rw [extract_line, if_neg (by omega), drop_append_of_le_length (by omega), hx]
  have htext : str (poke line' n 0) = firstLine newline (input.drop offset) := by
    rw [poke, h2]
    exact str_append_zero (fun h => hd0 (firstLine_isPrefix.subset h)) _
  have hle : n ≤ input.length - offset := by
    rw [← length_drop, h1]
    exact length_firstLine_le
  rw [hline, ← h1, drop_drop]
  rcases drop_firstLine newline (input.drop offset) with hd | hd
  · -- The line has no newline: what follows it is the end of the buffer.
    have hn : offset + n = input.length := by
      have := drop_eq_nil_iff.mp hd
      rw [length_drop, ← h1] at this
      omega
    have hend : (input ++ 0 :: rest).getD (offset + n) 0 = 0 := by
      rw [hn, getD_append_right _ _ _ _ (Nat.le_refl _), Nat.sub_self]
      rfl
    rw [hend, if_neg (by decide)]
    refine ⟨offset + n, rfl, by omega, htext, ?_⟩
    rw [drop_eq_nil_of_le (by omega), drop_eq_nil_of_le (by omega)]
  · rw [← h1, drop_drop] at hd
    have hlt : offset + n < input.length := by
      by_contra hge
      rw [drop_eq_nil_of_le (by omega)] at hd
      cases hd
    have hget : (input ++ 0 :: rest).getD (offset + n) 0 = newline := by
      rw [getD_append _ _ _ _ hlt, getD_eq_getElem _ _ hlt]
      rw [drop_eq_getElem_cons hlt] at hd
      exact (List.cons.inj hd).1
    rw [hget, if_pos rfl]
    exact ⟨offset + n + 1, rfl, by omega, htext, rfl⟩

example : uniq_stdin [] [] (text "ab\nab\n") = [.line (text "ab"), .line (text "b")] := by decide

/-! ### Both programs -/

section Answer
variable {ls file : List (List Byte)}

end Answer

section Main
variable {sb : Superblock} {s : State} {cwd : Ptr} {c : Nat} {path input : List Byte}

end Main

end Xv6.Uniq
