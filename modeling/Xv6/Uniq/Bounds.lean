import Xv6.Uniq.Stdin
import Xv6.Uniq.Head

/-! The buffers of `sys_uniq_kernel` and `sys_head_kernel`.

Here a buffer has the bytes it is declared with and no others, and a run ends, with `none`, when an
index is outside of its buffer or when a buffer without a zero is passed as a string. A run that
does not end so is a run of the functions in `Kernel`, `Stdin` and `Head`, whatever stands after
the buffers.

Only `sys_head_kernel` on a file always stays within its buffers. `readline` fills the 256 bytes of
`current_line` and leaves no place for a zero, and nothing bounds what is read from standard input. -/
namespace Xv6.Uniq.Bounds
open Lib Fs List

/-! ### Accesses -/

/-- The buffer is passed as a string. -/
def pass (buf : List Byte) : Option Unit := if buf.contains 0 then some () else none

/-- The byte at index `i` is read or written. -/
def within (buf : List Byte) (i : Nat) : Option Unit := if i < buf.length then some () else none

/-- The first `n` bytes are written. -/
def hold (buf : List Byte) (n : Nat) : Option Unit := if n ≤ buf.length then some () else none

/-- The string in `source` is copied to a buffer of `n` bytes. -/
def room (source : List Byte) (n : Nat) : Option Unit := if strlen source < n then some () else none

/-! ### A line of a file -/

def readline_from (bytes_read : Nat) : Nat → List Byte → Nat → Option (List Byte × Nat)
  | 0, buf, i => do
    pass buf
    pure (buf, i)
  | fuel + 1, buf, i => do
    pass buf
    if i < strlen buf then do
      within buf i
      if buf.getD i 0 = newline ∨ bytes_read ≤ i then pure (poke buf i 0, i)
      else readline_from bytes_read fuel buf (i + 1)
    else pure (buf, i)

/-- `readline`, when `r` is what `readi` delivers. -/
def readline (r : Option (List Byte)) (buf : List Byte) : Option (List Byte × Option Nat) :=
  match r with
  | none => some (buf, none)
  | some bytes => do
    hold buf bytes.length
    let buf := bytes ++ buf.drop bytes.length
    if bytes.length < 4 then within buf bytes.length
    let buf := if bytes.length < 4 then poke buf bytes.length 0 else buf
    let (buf, n) ← readline_from bytes.length (strlen buf) buf 0
    pure (buf, some n)

/-- What `readi` delivers of a file for `readline`. -/
def reads (contents : List Byte) (start : Nat) : Option (List Byte) :=
  if contents.length < start then none else some ((contents.drop start).take BUF_SIZE)

/-! ### `sys_uniq_kernel` on a file -/

/-- The body of the loop: both lines are compared, or copied to lower case, before one is copied. -/
def uniq_body (fl : Flags) (v : Vars) : Option (Vars × List Printed) := do
  pass v.current_line
  pass v.previous_line
  if fl.isCaseInsensitive then do
    room v.current_line 256
    room v.previous_line 256
  if v.isDifferent fl then room v.current_line v.previous_line.length
  else if fl.isDelete ∧ v.isRepeated = false then room v.current_line 256
  pure (Uniq.uniq_body fl v)

def uniq_loop (contents : List Byte) (fl : Flags) : Nat → Nat → Vars → Option (Vars × List Printed)
  | 0, _, v => some (v, [])
  | fuel + 1, indexCounter, v => do
    let (buf, bytesRead) ← readline (reads contents indexCounter) v.current_line
    let v := {v with current_line := buf}
    match bytesRead with
    | none => pure (v, [])
    | some 0 => pure (v, [])
    | some n => do
      let (v, out) ← uniq_body fl v
      let (v, rest) ← uniq_loop contents fl fuel (indexCounter + n + 1) v
      pure (v, out ++ rest)

/-- What is printed for a file with these contents. -/
def uniq_file (contents : List Byte) (fl : Flags) : Option (List Printed) := do
  let (v, out) ← uniq_loop contents fl (contents.length + 1) 0
    ⟨List.replicate BUF_SIZE 0, List.replicate BUF_SIZE 0, 1, false⟩
  pass v.previous_line
  pure (out ++ uniq_last fl v)

/-! ### `sys_uniq_kernel` on standard input -/

/-- The loop that reads standard input into `buffer`, and the zero after it. -/
def read_stdin : List Byte → List Byte → Nat → Option (List Byte)
  | [], buffer, i => do
    within buffer i
    pure (poke buffer i 0)
  | c :: input, buffer, i => do
    within buffer i
    read_stdin input (poke buffer i c) (i + 1)

def extract_from : List Byte → List Byte → Nat → Option (List Byte × Nat)
  | [], _, _ => none
  | c :: data, line, lineIndex =>
    if c ≠ 0 ∧ c ≠ newline then do
      within line lineIndex
      extract_from data (poke line lineIndex c) (lineIndex + 1)
    else pure (line, lineIndex)

def extract_line (startPos : Nat) (data line : List Byte) : Option (List Byte × Option Nat) := do
  pass data
  if strlen data ≤ startPos then pure (line, none)
  else do
    let (line, lineIndex) ← extract_from (data.drop startPos) line 0
    let dataIndex := startPos + lineIndex
    within line lineIndex
    within data dataIndex
    pure (poke line lineIndex 0, some (if data.getD dataIndex 0 = newline then dataIndex + 1 else dataIndex))

def stdin_body (v : Vars) : Option (Vars × List Printed) := do
  pass v.previous_line
  if strcmp v.previous_line [] = 0 then do
    pass v.current_line
    room v.current_line v.previous_line.length
  else do
    pass v.current_line
    if strcmp v.current_line v.previous_line ≠ 0 then room v.current_line v.previous_line.length
  pure (Uniq.stdin_body v)

def stdin_loop (buffer : List Byte) : Nat → Nat → Vars → Option (Vars × List Printed)
  | 0, _, v => some (v, [])
  | fuel + 1, offset, v => do
    let (line, offset) ← extract_line offset buffer v.current_line
    let v := {v with current_line := line}
    match offset with
    | none => pure (v, [])
    | some offset =>
      if 0 < offset then do
        let (v, out) ← stdin_body v
        let (v, rest) ← stdin_loop buffer fuel (offset + 1) v
        pure (v, out ++ rest)
      else pure (v, [])

/-- What is printed for standard input. The array `buffer` is not initialised. -/
def uniq_stdin (buffer input : List Byte) : Option (List Printed) := do
  let buffer ← read_stdin input buffer 0
  let (v, out) ← stdin_loop buffer (input.length + 1) 0
    ⟨List.replicate BUF_SIZE 0, List.replicate BUF_SIZE 0, 1, false⟩
  pass v.previous_line
  pure (out ++ if strcmp v.previous_line [] ≠ 0 then [.line (str v.previous_line)] else [.line []])

/-! ### `sys_head_kernel` -/

def head_loop (contents : List Byte) (numLinesToShow : Int) :
    Nat → Int → Nat → List Byte → Option (List Printed)
  | 0, _, _, _ => some []
  | fuel + 1, linesRead, fileIndex, buf =>
    if linesRead ≤ numLinesToShow then do
      let (buf, bytesRead) ← readline (reads contents fileIndex) buf
      match bytesRead with
      | none => pure []
      | some 0 => pure []
      | some n => do
        pass buf
        let rest ← head_loop contents numLinesToShow fuel (linesRead + 1) (fileIndex + n + 1) buf
        pure (.line (str buf) :: rest)
    else pure []

/-- What is printed for a file with these contents. -/
def head_file (contents : List Byte) (numLinesToShow : Int) : Option (List Printed) := do
  let out ← head_loop contents numLinesToShow (contents.length + 1) 1 0 (List.replicate 1024 0)
  pure (out ++ [.line []])

def head_stdin_loop (numLinesToShow : Int) :
    List Byte → List Byte → Nat → Int → Option (List Printed)
  | [], _, _, _ => some []
  | currentChar :: input, lineBuffer, bufferIndex, linesDisplayed =>
    if currentChar = newline then do
      within lineBuffer bufferIndex
      let lineBuffer := poke lineBuffer bufferIndex 0
      pass lineBuffer
      if numLinesToShow < linesDisplayed + 1 then pure [.line (str lineBuffer)]
      else do
        let rest ← head_stdin_loop numLinesToShow input (List.replicate lineBuffer.length 0) 0
          (linesDisplayed + 1)
        pure (.line (str lineBuffer) :: rest)
    else do
      within lineBuffer bufferIndex
      head_stdin_loop numLinesToShow input (poke lineBuffer bufferIndex currentChar) (bufferIndex + 1)
        linesDisplayed

/-! ### Whole calls

`contents` is what the file holds and `input` what can be read from standard input. The arrays
`buffer` and `lineBuffer` are not initialised. -/

def uniq_kernel (contents buffer input flag : List Byte) : Option (List Printed) :=
  if strcmp flag (text "-z") = 0 then uniq_stdin buffer input else uniq_file contents (Flags.of flag)

def head_kernel (contents lineBuffer input : List Byte) (numLinesToShow inputSource : BitVec 32) :
    Option (List Printed) :=
  if inputSource = 0 then head_stdin_loop numLinesToShow.toInt input lineBuffer 0 1
  else head_file contents numLinesToShow.toInt

/-! ### Single accesses -/

section Accesses
variable {buf : List Byte}

theorem isSome_then {α β : Type} (o : Option α) (f : α → β) :
    (o.bind fun x => pure (f x)).isSome = o.isSome := by
  cases o <;> rfl

@[simp] theorem pass_of_mem (h : 0 ∈ buf) : pass buf = some () := if_pos (List.contains_iff_mem.mpr h)

@[simp] theorem pass_of_notMem (h : 0 ∉ buf) : pass buf = none := if_neg fun hc => h (List.contains_iff_mem.mp hc)

@[simp] theorem within_of_lt (h : i < buf.length) : within buf i = some () := if_pos h

@[simp] theorem within_of_le (h : buf.length ≤ i) : within buf i = none := if_neg (Nat.not_lt.mpr h)

@[simp] theorem hold_of_le (h : n ≤ buf.length) : hold buf n = some () := if_pos h

@[simp] theorem room_of_lt (h : strlen buf < n) : room buf n = some () := if_pos h

theorem length_poke (h : i < buf.length) (c : Byte) : (poke buf i c).length = buf.length := by
  rw [poke, length_append, length_take, length_cons, length_drop]
  omega

theorem mem_poke (c : Byte) : c ∈ poke buf i c :=
  mem_append_right _ (mem_cons_self ..)

/-- A zero is never overwritten by another. -/
theorem poke_keeps {i : Nat} (h : buf[i]? = some 0) (j : Nat) : (poke buf j 0)[i]? = some 0 := by
  have hi : i < buf.length := (List.getElem?_eq_some_iff.mp h).1
  rw [poke, List.getElem?_append, length_take]
  split
  · rw [List.getElem?_take_of_lt (by omega)]
    exact h
  · by_cases hij : i = j
    · rw [hij, Nat.min_eq_left (by omega), Nat.sub_self]
      rfl
    · rw [List.getElem?_cons, if_neg (by omega), List.getElem?_drop, show j + 1 + (i - min j buf.length - 1) = i by omega]
      exact h

theorem poke_append (h : i < buf.length) (stack : List Byte) (c : Byte) :
    poke (buf ++ stack) i c = poke buf i c ++ stack := by
  rw [poke, poke, take_append_of_le_length (Nat.le_of_lt h), drop_append_of_le_length h,
    append_assoc, cons_append]

theorem str_append_of_mem (h : 0 ∈ buf) (stack : List Byte) : str (buf ++ stack) = str buf := by
  induction buf with
  | nil => exact absurd h not_mem_nil
  | cons c buf ih =>
    rw [cons_append]
    by_cases hc : c = 0
    · rw [hc, str_cons_zero, str_cons_zero]
    · rw [str_cons hc, str_cons hc, ih ((mem_cons.mp h).resolve_left (Ne.symm hc))]

theorem strlen_lt (h : 0 ∈ buf) : strlen buf < buf.length := by
  refine Nat.lt_of_le_of_ne (strlen_le buf) fun heq => notMem_str buf ?_
  rw [str_eq_take, heq, take_length]
  exact h

end Accesses

/-! ### `readline` -/

section Readline
variable {buf bytes : List Byte}

theorem readline_from_of_mem (h : 0 ∈ buf) (n fuel i : Nat) :
    readline_from n fuel buf i = some (Uniq.readline_from n fuel buf i) := by
  have hlen := strlen_lt h
  induction fuel generalizing i with
  | zero => rw [readline_from, pass_of_mem h]; rfl
  | succ fuel ih =>
    rw [readline_from, Uniq.readline_from, pass_of_mem h]
    by_cases hi : i < strlen buf
    · simp only [if_pos hi, within_of_lt (Nat.lt_trans hi hlen), Option.bind_eq_bind, Option.bind_some]
      split
      · rfl
      · exact ih (i + 1)
    · simp only [if_neg hi, Option.bind_eq_bind, Option.bind_some]
      rfl

theorem readline_from_of_notMem (h : 0 ∉ buf) (n fuel i : Nat) : readline_from n fuel buf i = none := by
  cases fuel <;> rw [readline_from, pass_of_notMem h] <;> rfl

/-- The buffer after `readi` has delivered, with the zero that is written only after less than
four bytes. -/
def fill (bytes buf : List Byte) : List Byte :=
  if bytes.length < 4 then poke (bytes ++ buf.drop bytes.length) bytes.length 0
  else bytes ++ buf.drop bytes.length

/-- The buffer and the length of the line after the search for its end. -/
def scan (bytes buf : List Byte) : List Byte × Nat :=
  Uniq.readline_from bytes.length (strlen (fill bytes buf)) (fill bytes buf) 0

theorem length_fill (hb : bytes.length ≤ buf.length) (h4 : 4 ≤ buf.length) :
    (fill bytes buf).length = buf.length := by
  have hlen : (bytes ++ buf.drop bytes.length).length = buf.length := by
    rw [length_append, length_drop]
    omega
  rw [fill]
  split
  · rw [length_poke (by omega), hlen]
  · exact hlen

theorem readline_some (hb : bytes.length ≤ buf.length) (h4 : 4 ≤ buf.length) :
    readline (some bytes) buf =
      if 0 ∈ fill bytes buf then some ((scan bytes buf).1, some (scan bytes buf).2) else none := by
  have hw : bytes.length < 4 → within (bytes ++ buf.drop bytes.length) bytes.length = some () := fun h =>
    within_of_lt (by rw [length_append, length_drop]; omega)
  have hline : readline (some bytes) buf =
      (readline_from bytes.length (strlen (fill bytes buf)) (fill bytes buf) 0).bind
        fun r => some (r.1, some r.2) := by
    simp only [readline, hold_of_le hb, Option.bind_eq_bind, Option.bind_some]
    by_cases h : bytes.length < 4
    · simp only [if_pos h, hw h, Option.bind_some, fill]
      rfl
    · simp only [if_neg h, fill]
      rfl
  rw [hline]
  split
  · rename_i h0
    rw [readline_from_of_mem h0]
    rfl
  · rename_i h0
    rw [readline_from_of_notMem h0]
    rfl

/-- The search changes at most one byte, to zero. -/
theorem readline_from_cases (n fuel : Nat) (buf : List Byte) (i : Nat) :
    (Uniq.readline_from n fuel buf i).1 = buf ∨
      ∃ j < strlen buf, (Uniq.readline_from n fuel buf i).1 = poke buf j 0 := by
  induction fuel generalizing i with
  | zero => exact .inl rfl
  | succ fuel ih =>
    rw [Uniq.readline_from]
    split
    · rename_i hi
      split
      · exact .inr ⟨i, hi, rfl⟩
      · exact ih (i + 1)
    · exact .inl rfl

theorem scan_keeps (h0 : 0 ∈ fill bytes buf) :
    (scan bytes buf).1.length = (fill bytes buf).length ∧ 0 ∈ (scan bytes buf).1 := by
  rcases readline_from_cases bytes.length (strlen (fill bytes buf)) (fill bytes buf) 0 with h | ⟨j, hj, h⟩
  · rw [scan, h]
    exact ⟨rfl, h0⟩
  · rw [scan, h]
    exact ⟨length_poke (Nat.lt_trans hj (strlen_lt h0)) 0, mem_poke 0⟩

/-- The line ends where the bytes end that were read. -/
theorem readline_from_le (hi : i ≤ n) : (Uniq.readline_from n fuel buf i).2 ≤ n := by
  induction fuel generalizing i with
  | zero => exact hi
  | succ fuel ih =>
    rw [Uniq.readline_from]
    split
    · split
      · exact hi
      · rename_i hstop
        exact ih (Nat.lt_of_not_le (not_or.mp hstop).2)
    · exact hi

theorem scan_le : (scan bytes buf).2 ≤ bytes.length := readline_from_le (Nat.zero_le _)

theorem readline_from_append (h : 0 ∈ buf) (stack : List Byte) (n fuel i : Nat) :
    Uniq.readline_from n fuel (buf ++ stack) i =
      ((Uniq.readline_from n fuel buf i).1 ++ stack, (Uniq.readline_from n fuel buf i).2) := by
  induction fuel generalizing i with
  | zero => rfl
  | succ fuel ih =>
    rw [Uniq.readline_from, Uniq.readline_from, strlen, str_append_of_mem h, ← strlen]
    by_cases hi : i < strlen buf
    · have hlt := Nat.lt_trans hi (strlen_lt h)
      rw [if_pos hi, if_pos hi, getD_append _ _ _ _ hlt, poke_append hlt]
      split
      · rfl
      · exact ih (i + 1)
    · rw [if_neg hi, if_neg hi]

theorem fill_append (hb : bytes.length ≤ buf.length) (h4 : 4 ≤ buf.length) (stack : List Byte) :
    fill bytes (buf ++ stack) = fill bytes buf ++ stack := by
  have hdrop : bytes ++ (buf ++ stack).drop bytes.length = (bytes ++ buf.drop bytes.length) ++ stack := by
    rw [drop_append_of_le_length hb, append_assoc]
  rw [fill, fill, hdrop]
  split
  · exact poke_append (by rw [length_append, length_drop]; omega) stack 0
  · rfl

theorem scan_append (hb : bytes.length ≤ buf.length) (h4 : 4 ≤ buf.length) (h0 : 0 ∈ fill bytes buf)
    (stack : List Byte) : scan bytes (buf ++ stack) = ((scan bytes buf).1 ++ stack, (scan bytes buf).2) := by
  rw [scan, fill_append hb h4, strlen, str_append_of_mem h0]
  exact readline_from_append h0 stack ..

/-- A zero after the bytes that are read stays. -/
theorem fill_keeps {i : Nat} (hb : bytes.length ≤ i) (h : buf[i]? = some 0) : (fill bytes buf)[i]? = some 0 := by
  have hi : (bytes ++ buf.drop bytes.length)[i]? = some 0 := by
    rw [List.getElem?_append_right hb, List.getElem?_drop, Nat.add_sub_cancel' hb]
    exact h
  rw [fill]
  split
  · exact poke_keeps hi _
  · exact hi

theorem scan_keeps_zero {i : Nat} (h : (fill bytes buf)[i]? = some 0) : (scan bytes buf).1[i]? = some 0 := by
  rcases readline_from_cases bytes.length (strlen (fill bytes buf)) (fill bytes buf) 0 with he | ⟨j, -, he⟩
  · rw [scan, he]
    exact h
  · rw [scan, he]
    exact poke_keeps h j

end Readline

/-! ### The lines of a file -/

/-- The line buffer, each time that `readline` has filled it. -/
def fills (contents : List Byte) : Nat → Nat → List Byte → List (List Byte)
  | 0, _, _ => []
  | fuel + 1, start, buf =>
    match reads contents start with
    | none => []
    | some bytes =>
      fill bytes buf ::
        match (scan bytes buf).2 with
        | 0 => []
        | n + 1 => fills contents fuel (start + (n + 1) + 1) (scan bytes buf).1

/-- A line buffer with a string. -/
structure Held (buf : List Byte) : Prop where
  size : buf.length = BUF_SIZE
  zero : 0 ∈ buf

theorem Held.strlen_lt (h : Held buf) : strlen buf < BUF_SIZE := by
  rw [← h.size]
  exact Bounds.strlen_lt h.zero

theorem held_zeros : Held (List.replicate BUF_SIZE 0) := ⟨length_replicate .., by decide⟩

theorem held_strcpy (hs : Held source) (hb : Held buf) : Held (strcpy source buf) := by
  have hlt := hs.strlen_lt
  refine ⟨?_, mem_append_right _ (mem_cons_self ..)⟩
  rw [strcpy, length_append, length_cons, length_drop, hb.size]
  rw [strlen] at hlt ⊢
  omega

section File
variable {contents : List Byte} {fl : Flags}

theorem length_reads (h : reads contents start = some bytes) :
    bytes.length ≤ BUF_SIZE := by
  rw [reads] at h
  split at h
  · cases h
  · rw [← Option.some.inj h]
    exact length_take_le ..

theorem length_reads_le (h : reads contents start = some bytes) :
    start + bytes.length ≤ contents.length := by
  rw [reads] at h
  split at h
  · cases h
  · rw [← Option.some.inj h, length_take, length_drop]
    omega

/-- The variables, when `stack` stands after the buffer of the current line. -/
def Vars.on (v : Vars) (stack : List Byte) : Vars := {v with current_line := v.current_line ++ stack}

theorem strcpy_append (h : 0 ∈ source) (stack buf : List Byte) :
    strcpy (source ++ stack) buf = strcpy source buf := by
  rw [strcpy, strcpy, strlen, strlen, str_append_of_mem h]

theorem uniq_body_on (h : 0 ∈ v.current_line) (stack : List Byte) :
    Uniq.uniq_body fl (Vars.on v stack) =
      (Vars.on (Uniq.uniq_body fl v).1 stack, (Uniq.uniq_body fl v).2) := by
  have hd : (Vars.on v stack).isDifferent fl = v.isDifferent fl := by
    rw [isDifferent_eq, isDifferent_eq, Vars.on, str_append_of_mem h]
  have hcopy : strcpy (Vars.on v stack).current_line v.previous_line = strcpy v.current_line v.previous_line :=
    strcpy_append h stack _
  simp only [Uniq.uniq_body, hd]
  rw [show (Vars.on v stack).previous_line = v.previous_line from rfl, hcopy,
    show (Vars.on v stack).lineCount = v.lineCount from rfl,
    show (Vars.on v stack).isRepeated = v.isRepeated from rfl]
  split
  · split
    · rfl
    split
    · rfl
    split
    · rfl
    split <;> rfl
  · split <;> rfl

/-- `readline` on a file: what it scans are the bytes that `readi` delivers. -/
theorem readline_reads_runs
    (L : Layout sb) (hg : Good sb s) (hp : Points s ip i) (hv : (s.icache ip).valid = true)
    (ht : (nodes sb s i).type ≠ T_DEV) (hs : start ≤ (nodes sb s i).data.length + 1)
    (buf : List Byte) :
    Runs (Uniq.readline sb ip buf start) s
      (fun r t => t = s ∧ match reads (nodes sb s i).data start with
        | none => r = (buf, none)
        | some bytes => r = ((scan bytes buf).1, some (scan bytes buf).2)) E := by
  have hmax := hg.length_le i
  simp only [MAXFILE, BSIZE, NDIRECT, NINDIRECT] at hmax
  have hlt : start + BUF_SIZE < 2 ^ 32 := by simp only [BUF_SIZE]; omega
  rw [Uniq.readline, Nat.mod_eq_of_lt (by omega)]
  refine Runs.bind (readi_node_runs L hg hp hv ht (by omega) (by decide)) fun r t hr => ?_
  obtain ⟨hr, rfl⟩ := hr
  rw [reads]
  by_cases hend : (nodes sb t i).data.length < start
  · rw [if_pos (.inl hend)] at hr
    rw [hr, if_pos hend]
    exact Runs.pure ⟨rfl, rfl⟩
  · rw [if_neg fun h => h.elim hend (by omega)] at hr
    rw [hr, if_neg hend]
    exact Runs.pure ⟨rfl, rfl⟩

/-- With a string in both buffers the body of the loop stays within them. -/
theorem uniq_body_held (hc : Held v.current_line) (hp : Held v.previous_line) :
    uniq_body fl v = some (Uniq.uniq_body fl v) := by
  have hroom : room v.current_line v.previous_line.length = some () := room_of_lt (hp.size ▸ hc.strlen_lt)
  rw [uniq_body, pass_of_mem hc.zero, pass_of_mem hp.zero, room_of_lt hc.strlen_lt, room_of_lt hp.strlen_lt, hroom]
  by_cases hi : fl.isCaseInsensitive = true
  · rw [if_pos hi]
    split
    · rfl
    · split <;> rfl
  · rw [if_neg hi]
    split
    · rfl
    · split <;> rfl

theorem uniq_body_previous (v : Vars) :
    (Uniq.uniq_body fl v).1.previous_line = v.previous_line ∨
      (Uniq.uniq_body fl v).1.previous_line = strcpy v.current_line v.previous_line := by
  simp only [Uniq.uniq_body]
  split
  · right
    split
    · rfl
    split
    · rfl
    split
    · rfl
    split <;> rfl
  · left
    split <;> rfl

theorem held_uniq_body (hc : Held v.current_line) (hp : Held v.previous_line) :
    Held (Uniq.uniq_body fl v).1.current_line ∧ Held (Uniq.uniq_body fl v).1.previous_line := by
  refine ⟨by rw [uniq_body_current_line]; exact hc, ?_⟩
  rcases uniq_body_previous v with h | h
  · rw [h]
    exact hp
  · rw [h]
    exact held_strcpy hc hp

/-- The variables after `readline` has delivered `bytes`. -/
def Vars.after (v : Vars) (bytes : List Byte) : Vars := {v with current_line := (scan bytes v.current_line).1}

theorem held_after (hc : v.current_line.length = BUF_SIZE)
    (hb : bytes.length ≤ BUF_SIZE) (h0 : 0 ∈ fill bytes v.current_line) :
    Held (Vars.after v bytes).current_line := by
  obtain ⟨hsize, hzero⟩ := scan_keeps h0
  refine ⟨?_, hzero⟩
  rw [Vars.after, hsize, length_fill (hc ▸ hb) (by rw [hc]; decide), hc]

theorem uniq_loop_step (hc : v.current_line.length = BUF_SIZE) (hp : Held v.previous_line)
    (hr : reads contents start = some bytes) :
    uniq_loop contents fl (fuel + 1) start v =
      if 0 ∈ fill bytes v.current_line then
        match (scan bytes v.current_line).2 with
        | 0 => some (Vars.after v bytes, [])
        | n + 1 =>
          (uniq_loop contents fl fuel (start + (n + 1) + 1) (Uniq.uniq_body fl (Vars.after v bytes)).1).map
            fun r => (r.1, (Uniq.uniq_body fl (Vars.after v bytes)).2 ++ r.2)
      else none := by
  have hle := length_reads hr
  rw [uniq_loop, hr, readline_some (hc ▸ hle) (by rw [hc]; decide)]
  by_cases h0 : 0 ∈ fill bytes v.current_line
  · have hbody := @uniq_body_held fl (Vars.after v bytes) (held_after hc hle h0) hp
    rw [if_pos h0, if_pos h0]
    cases hn : (scan bytes v.current_line).2 with
    | zero => rfl
    | succ n =>
      simp only [Option.bind_eq_bind, Option.bind_some]
      rw [← Vars.after, hbody, Option.map_eq_bind]
      rfl
  · rw [if_neg h0, if_neg h0]
    rfl

/-- The line that was kept ends within its buffer. -/
theorem uniq_loop_held (fuel start : Nat) (hc : v.current_line.length = BUF_SIZE)
    (hp : Held v.previous_line) (h : uniq_loop contents fl fuel start v = some r) :
    Held r.1.previous_line := by
  induction fuel generalizing start v r with
  | zero => rw [← Option.some.inj h]; exact hp
  | succ fuel ih =>
    cases hr : reads contents start with
    | none =>
      rw [uniq_loop, hr] at h
      rw [← Option.some.inj h]
      exact hp
    | some bytes =>
      rw [uniq_loop_step hc hp hr] at h
      split at h
      · rename_i h0
        have hheld := @held_uniq_body fl _ (held_after hc (length_reads hr) h0) hp
        split at h
        · rw [← Option.some.inj h]
          exact hp
        · obtain ⟨x, hx, rfl⟩ := Option.map_eq_some_iff.mp h
          exact ih _ hheld.1.size hheld.2 (r := x) hx
      · cases h

/-- The loop is over at the end of the file. -/
theorem uniq_loop_enough (h : contents.length < start + fuel) (v : Vars) :
    uniq_loop contents fl (fuel + 1) start v = uniq_loop contents fl fuel start v := by
  induction fuel generalizing start v with
  | zero =>
    have hr : reads contents start = none := if_pos h
    rw [uniq_loop.eq_2, hr]
    rfl
  | succ fuel ih =>
    rw [uniq_loop, uniq_loop]
    refine congrArg _ (funext fun r => ?_)
    obtain ⟨buf, n⟩ := r
    cases n with
    | none => rfl
    | some n =>
      cases n with
      | zero => rfl
      | succ n =>
        simp only [ih (show contents.length < start + (n + 1) + 1 + fuel by omega)]

/-- The loop stays within its buffers as long as `readline` leaves a zero in the buffer. -/
theorem uniq_loop_iff (fuel start : Nat) (hc : v.current_line.length = BUF_SIZE)
    (hp : Held v.previous_line) :
    (uniq_loop contents fl fuel start v).isSome ↔
      ∀ b ∈ fills contents fuel start v.current_line, 0 ∈ b := by
  induction fuel generalizing start v with
  | zero => exact iff_of_true rfl fun b hb => absurd hb not_mem_nil
  | succ fuel ih =>
    cases hr : reads contents start with
    | none =>
      rw [uniq_loop, fills, hr]
      exact iff_of_true rfl fun b hb => absurd hb not_mem_nil
    | some bytes =>
      rw [uniq_loop_step hc hp hr, fills, hr, forall_mem_cons]
      by_cases h0 : 0 ∈ fill bytes v.current_line
      · rw [if_pos h0, iff_true_intro h0, true_and]
        cases hn : (scan bytes v.current_line).2 with
        | zero => exact iff_of_true rfl fun b hb => absurd hb not_mem_nil
        | succ n =>
          have hheld := @held_uniq_body fl _ (held_after hc (length_reads hr) h0) hp
          have hrest := ih (start + (n + 1) + 1) hheld.1.size hheld.2
          rw [uniq_body_current_line] at hrest
          rw [Option.isSome_map]
          exact hrest
      · rw [if_neg h0]
        exact iff_of_false (by decide) fun h => h0 h.1

theorem uniq_file_iff :
    (uniq_file contents fl).isSome ↔
      ∀ b ∈ fills contents (contents.length + 1) 0 (List.replicate BUF_SIZE 0), 0 ∈ b := by
  rw [← uniq_loop_iff (contents.length + 1) 0
    (v := ⟨List.replicate BUF_SIZE 0, List.replicate BUF_SIZE 0, 1, false⟩) held_zeros.size held_zeros, uniq_file]
  cases hr : uniq_loop contents fl (contents.length + 1) 0
    ⟨List.replicate BUF_SIZE 0, List.replicate BUF_SIZE 0, 1, false⟩ with
  | none => exact iff_of_false Bool.false_ne_true Bool.false_ne_true
  | some r =>
    have hheld := uniq_loop_held _ _ held_zeros.size held_zeros hr
    refine iff_of_true ?_ rfl
    simp only [Option.bind_eq_bind, Option.bind_some, pass_of_mem hheld.zero]
    rfl

/-- A run that stays within the buffers is the run of the loop on the file. -/
theorem uniq_loop_runs (L : Layout sb)
    (hg : Good sb s) (hp : Points s ip i) (hv : (s.icache ip).valid = true) (ht : (nodes sb s i).type ≠ T_DEV)
    (stack : List Byte) (fuel : Nat) (hs : start ≤ (nodes sb s i).data.length + 1)
    (hc : v.current_line.length = BUF_SIZE) (hheld : Held v.previous_line)
    (h : uniq_loop (nodes sb s i).data fl fuel start v = some r) :
    Runs (Uniq.uniq_loop sb ip fl fuel start (Vars.on v stack)) s
      (fun x t => x = (Vars.on r.1 stack, r.2) ∧ t = s) E := by
  induction fuel generalizing start v r with
  | zero =>
    rw [← Option.some.inj h]
    exact Runs.pure ⟨rfl, rfl⟩
  | succ fuel ih =>
    refine Runs.bind (readline_reads_runs L hg hp hv ht hs _) fun x t hx => ?_
    obtain ⟨rfl, hx⟩ := hx
    cases hr : reads (nodes sb t i).data start with
    | none =>
      rw [hr] at hx
      rw [uniq_loop, hr] at h
      rw [hx, ← Option.some.inj h]
      exact Runs.pure ⟨rfl, rfl⟩
    | some bytes =>
      have hle := length_reads hr
      rw [hr] at hx
      rw [uniq_loop_step hc hheld hr] at h
      split at h
      · rename_i h0
        have hafter := held_after hc hle h0
        have hbody := @held_uniq_body fl _ hafter hheld
        have hscan := scan_append (hc ▸ hle) (by rw [hc]; decide) h0 stack
        have hx : x = ((scan bytes (v.current_line ++ stack)).1, some (scan bytes (v.current_line ++ stack)).2) := hx
        rw [hscan] at hx
        subst hx
        cases hn : (scan bytes v.current_line).2 with
        | zero =>
          rw [hn] at h
          rw [← Option.some.inj h]
          exact Runs.pure ⟨rfl, rfl⟩
        | succ n =>
          rw [hn] at h
          obtain ⟨r, hloop, rfl⟩ := Option.map_eq_some_iff.mp h
          have hnext : start + (n + 1) + 1 ≤ (nodes sb t i).data.length + 1 := by
            have hread := length_reads_le hr
            have hle := @scan_le v.current_line bytes
            omega
          have hrest := ih hnext hbody.1.size hbody.2 (r := r) hloop
          have hon := @uniq_body_on fl (Vars.after v bytes) hafter.zero stack
          have hturn : Runs (do
              let x ← Uniq.uniq_loop sb ip fl fuel (start + (n + 1) + 1)
                (Uniq.uniq_body fl (Vars.on (Vars.after v bytes) stack)).1
              pure (x.1, (Uniq.uniq_body fl (Vars.on (Vars.after v bytes) stack)).2 ++ x.2)) t
              (fun x u => x = (Vars.on r.1 stack, (Uniq.uniq_body fl (Vars.after v bytes)).2 ++ r.2) ∧ u = t) E := by
            rw [hon]
            refine Runs.bind hrest fun x u hx => Runs.pure ⟨?_, hx.2⟩
            rw [hx.1]
          exact hturn
      · cases h

theorem fills_short {i : Nat} (hi : contents.length ≤ i) (fuel start : Nat) {buf : List Byte}
    (hz : buf[i]? = some 0) : ∀ b ∈ fills contents fuel start buf, 0 ∈ b := by
  induction fuel generalizing start buf with
  | zero => exact fun b hb => absurd hb not_mem_nil
  | succ fuel ih =>
    rw [fills]
    cases hr : reads contents start with
    | none => exact fun b hb => absurd hb not_mem_nil
    | some bytes =>
      have hbytes : bytes.length ≤ i := by
        have := length_reads_le hr
        omega
      have hfill := fill_keeps hbytes hz
      rw [forall_mem_cons]
      refine ⟨mem_of_getElem? hfill, ?_⟩
      cases (scan bytes buf).2 with
      | zero => exact fun b hb => absurd hb not_mem_nil
      | succ n => exact ih _ (scan_keeps_zero hfill)

/-- The first 256 bytes of a file leave no place for a zero. -/
theorem fills_long (h0 : 0 ∉ contents) (h : BUF_SIZE ≤ contents.length) (fuel : Nat) :
    ¬ ∀ b ∈ fills contents (fuel + 1) 0 (List.replicate BUF_SIZE 0), 0 ∈ b := by
  have hr : reads contents 0 = some (contents.take BUF_SIZE) := by
    rw [reads, if_neg (Nat.not_lt_zero _), drop_zero]
  have hlen : (contents.take BUF_SIZE).length = BUF_SIZE := by rw [length_take]; omega
  have hfill : fill (contents.take BUF_SIZE) (List.replicate BUF_SIZE 0) = contents.take BUF_SIZE := by
    rw [fill, hlen, if_neg (by decide), drop_replicate, Nat.sub_self, replicate_zero, append_nil]
  intro hall
  rw [fills, hr, forall_mem_cons, hfill] at hall
  exact h0 (mem_of_mem_take hall.1)

end File

/-! ### `head` on a file -/

/-- The buffer of `head` is longer than what `readline` reads. -/
theorem head_loop_some (contents : List Byte) (N : Int) (fuel : Nat) (linesRead : Int) (start : Nat)
    {buf : List Byte} (hz : buf[BUF_SIZE]? = some 0) :
    (head_loop contents N fuel linesRead start buf).isSome := by
  have hlen : BUF_SIZE < buf.length := (List.getElem?_eq_some_iff.mp hz).1
  induction fuel generalizing linesRead start buf with
  | zero => rfl
  | succ fuel ih =>
    rw [head_loop]
    split
    · cases hr : reads contents start with
      | none => rfl
      | some bytes =>
        have hle := length_reads hr
        have hfill := fill_keeps hle hz
        have hscan := scan_keeps_zero hfill
        have h4 : 4 ≤ BUF_SIZE := by decide
        rw [readline_some (by omega) (by omega), if_pos (mem_of_getElem? hfill)]
        cases hn : (scan bytes buf).2 with
        | zero => rfl
        | succ n =>
          have hrest := ih (linesRead + 1) (start + (n + 1) + 1) hscan (List.getElem?_eq_some_iff.mp hscan).1
          obtain ⟨out, hout⟩ := Option.isSome_iff_exists.mp hrest
          simp only [Option.bind_eq_bind, Option.bind_some, pass_of_mem (mem_of_getElem? hscan), hout]
          rfl
    · rfl

theorem head_loop_enough (h : contents.length < start + fuel) (linesRead : Int) (buf : List Byte) :
    head_loop contents N (fuel + 1) linesRead start buf = head_loop contents N fuel linesRead start buf := by
  induction fuel generalizing start linesRead buf with
  | zero =>
    have hr : reads contents start = none := if_pos h
    rw [head_loop.eq_2, hr]
    split <;> rfl
  | succ fuel ih =>
    rw [head_loop, head_loop]
    refine congrArg (fun x => ite _ x _) (congrArg _ (funext fun r => ?_))
    obtain ⟨buf, n⟩ := r
    cases n with
    | none => rfl
    | some n =>
      cases n with
      | zero => rfl
      | succ n =>
        simp only [ih (show contents.length < start + (n + 1) + 1 + fuel by omega)]

theorem head_loop_runs {sb : Superblock} {s : State} {ip : Ptr} {i : Nat} {E : Halt → Prop} (L : Layout sb)
    (hg : Good sb s) (hp : Points s ip i) (hv : (s.icache ip).valid = true) (ht : (nodes sb s i).type ≠ T_DEV)
    (stack : List Byte) (N : Int) (fuel : Nat) (linesRead : Int) {start : Nat}
    (hs : start ≤ (nodes sb s i).data.length + 1) {buf : List Byte} (hz : buf[BUF_SIZE]? = some 0) :
    Runs (Uniq.head_loop sb ip N fuel linesRead start (buf ++ stack)) s
      (fun out t => head_loop (nodes sb s i).data N fuel linesRead start buf = some out ∧ t = s) E := by
  induction fuel generalizing linesRead start buf with
  | zero => exact Runs.pure ⟨rfl, rfl⟩
  | succ fuel ih =>
    rw [Uniq.head_loop, head_loop]
    refine Runs.ite (fun hle => ?_) fun hgt => ?_
    · rw [if_pos hle]
      refine Runs.bind (readline_reads_runs L hg hp hv ht hs _) fun x t hx => ?_
      obtain ⟨rfl, hx⟩ := hx
      cases hr : reads (nodes sb t i).data start with
      | none =>
        rw [hr] at hx
        rw [hx]
        exact Runs.pure ⟨rfl, rfl⟩
      | some bytes =>
        have hlen : BUF_SIZE < buf.length := (List.getElem?_eq_some_iff.mp hz).1
        have h4 : 4 ≤ BUF_SIZE := by decide
        have hbytes := length_reads hr
        have hfill := fill_keeps hbytes hz
        have hscan := scan_keeps_zero hfill
        have happend := scan_append (by omega) (by omega) (mem_of_getElem? hfill) stack
        rw [hr] at hx
        have hx : x = ((scan bytes (buf ++ stack)).1, some (scan bytes (buf ++ stack)).2) := hx
        rw [happend] at hx
        rw [readline_some (by omega) (by omega), if_pos (mem_of_getElem? hfill)]
        subst hx
        cases hn : (scan bytes buf).2 with
        | zero => exact Runs.pure ⟨rfl, rfl⟩
        | succ n =>
          have hnext : start + (n + 1) + 1 ≤ (nodes sb t i).data.length + 1 := by
            have hread := length_reads_le hr
            have hle := @scan_le buf bytes
            omega
          refine Runs.bind (ih (linesRead + 1) hnext hscan) fun out u hout => Runs.pure ⟨?_, hout.2⟩
          simp only [Option.bind_eq_bind, Option.bind_some, pass_of_mem (mem_of_getElem? hscan), hout.1,
            str_append_of_mem (mem_of_getElem? hscan)]
          rfl
    · rw [if_neg hgt]
      exact Runs.pure ⟨rfl, rfl⟩

theorem head_file_some (contents : List Byte) (N : Int) : (head_file contents N).isSome := by
  have hz : (List.replicate 1024 (0 : Byte))[BUF_SIZE]? = some 0 :=
    List.getElem?_replicate_of_lt (by decide)
  obtain ⟨out, hout⟩ :=
    Option.isSome_iff_exists.mp (head_loop_some contents N (contents.length + 1) 1 0 hz)
  rw [head_file, hout]
  rfl

end Xv6.Uniq.Bounds
