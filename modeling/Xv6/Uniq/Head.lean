import Xv6.Uniq.Reading
import Xv6.Fs.Check

/-! `head` three times: `sys_head_kernel` on a file and on standard input, and `head_user.c`.

What each displays is compared as lines, without empty ones at the end. `head_user` always displays
the first lines of its input. The kernel on a file stops at an empty line and cuts long ones, and
on standard input it does not display a last line that has no newline. -/
namespace Xv6.Uniq
open Lib Fs List

/-! ### The three loops -/

/-- The bytes that a call of `cprintf` writes. -/
def Printed.bytes : Printed → List Byte
  | .line s => s ++ [newline]
  | .counted n s => text (toString n) ++ text "  " ++ s ++ [newline]

/-- The inner loop of `head`, over the bytes in `buffer`: `linesDisplayed`, and what is printed. -/
def User.head_chunk (numDisplayedLines : Int) : List Byte → Int → Int × List Byte
  | [], linesDisplayed => (linesDisplayed, [])
  | c :: buffer, linesDisplayed =>
    if linesDisplayed < numDisplayedLines then
      let (n, out) :=
        head_chunk numDisplayedLines buffer (if c = newline then linesDisplayed + 1 else linesDisplayed)
      (n, c :: out)
    else (linesDisplayed, [])

/-- The outer loop of `head`, over what the calls of `read` deliver. -/
def User.head_loop (numDisplayedLines : Int) : List (List Byte) → Int → List Byte
  | [], _ => []
  | buffer :: reads, linesDisplayed =>
    if linesDisplayed < numDisplayedLines ∧ 0 < buffer.length then
      let (n, out) := head_chunk numDisplayedLines buffer linesDisplayed
      out ++ head_loop numDisplayedLines reads n
    else []

/-- `head` of `head_user.c`: the bytes it prints. -/
def User.head (reads : List (List Byte)) (numDisplayedLines : Int) : List Byte :=
  head_loop numDisplayedLines reads 0 ++ [newline]

/-- The calls of `read` deliver the contents in any pieces that fit the buffer of 512 bytes. -/
structure Delivers (contents : List Byte) (reads : List (List Byte)) : Prop where
  flatten : reads.flatten = contents
  fits : ∀ r ∈ reads, 0 < r.length ∧ r.length ≤ 512

/-- The loop of `sys_head_kernel` over standard input. -/
def head_stdin_loop (numLinesToShow : Int) : List Byte → List Byte → Nat → Int → List Printed
  | [], _, _, _ => []
  | currentChar :: input, lineBuffer, bufferIndex, linesDisplayed =>
    if currentChar = newline then
      .line (str (poke lineBuffer bufferIndex 0)) ::
        if numLinesToShow < linesDisplayed + 1 then []
        else
          head_stdin_loop numLinesToShow input (List.replicate 1024 0 ++ lineBuffer.drop 1024) 0
            (linesDisplayed + 1)
    else
      head_stdin_loop numLinesToShow input (poke lineBuffer bufferIndex currentChar) (bufferIndex + 1)
        linesDisplayed

/-- `sys_head_kernel` with any `inputSource`. `input` is what can be read from standard input, and
`lineBuffer` what stands in the buffer for it before it is written. -/
def head_kernel (sb : Superblock) (cwd : Ptr) (stack lineBuffer input : List Byte)
    (args : Option (List Byte × BitVec 32 × BitVec 32)) : M (Int × List Printed) :=
  match args with
  | none => pure (-1, [])
  | some (targetFile, numLinesToShow, inputSource) =>
    if inputSource = 0 then
      pure (numLinesToShow.toInt, head_stdin_loop numLinesToShow.toInt input lineBuffer 0 1)
    else sys_head_kernel sb cwd stack (some (targetFile, numLinesToShow))

/-! ### What is displayed -/

/-- The lines on the screen, without empty ones at the end. -/
def displayed (out : List Byte) : List (List Byte) := trim (lines newline out)

theorem displayed_lines (h : ∀ x ∈ ls, newline ∉ x) :
    displayed ((ls.map Printed.line).flatMap Printed.bytes) = trim ls := by
  rw [displayed, flatMap_map]
  exact congrArg trim (lines_flatMap h)

/-! ### `head_user` -/

section User
variable {N n : Int}

theorem head_chunk_of_le (h : N ≤ n) (l : List Byte) : User.head_chunk N l n = (n, []) := by
  cases l with
  | nil => rfl
  | cons c l => rw [User.head_chunk, if_neg (by omega)]

theorem head_chunk_append (a b : List Byte) (n : Int) :
    User.head_chunk N (a ++ b) n =
      ((User.head_chunk N b (User.head_chunk N a n).1).1,
        (User.head_chunk N a n).2 ++ (User.head_chunk N b (User.head_chunk N a n).1).2) := by
  induction a generalizing n with
  | nil => rfl
  | cons c a ih =>
    rw [cons_append, User.head_chunk, User.head_chunk]
    by_cases h : n < N
    · simp only [if_pos h, ih]
      rfl
    · simp only [if_neg h, head_chunk_of_le (Int.not_lt.mp h)]
      rfl

/-- How `read` cuts the contents does not matter. -/
theorem head_loop_flatten (h : ∀ r ∈ reads, 0 < r.length) (n : Int) :
    User.head_loop N reads n = (User.head_chunk N reads.flatten n).2 := by
  induction reads generalizing n with
  | nil => rfl
  | cons r reads ih =>
    rw [User.head_loop, flatten_cons, head_chunk_append]
    by_cases hn : n < N
    · rw [if_pos ⟨hn, h r (mem_cons_self ..)⟩]
      simp only [ih fun x hx => h x (mem_cons_of_mem _ hx)]
    · rw [if_neg fun hr => hn hr.1]
      simp only [head_chunk_of_le (Int.not_lt.mp hn)]
      rfl

/-- The first `k` lines are printed, and then an empty one unless the last has no newline. -/
theorem head_chunk_lines (l : List Byte) {k : Nat} (hk : n + k = N) :
    ∃ e, (e = [] ∨ e = [[]]) ∧
      lines newline ((User.head_chunk N l n).2 ++ [newline]) = (lines newline l).take k ++ e := by
  induction l generalizing n k with
  | nil => exact ⟨[[]], .inr rfl, by rw [lines, take_nil]; rfl⟩
  | cons c l ih =>
    cases k with
    | zero =>
      rw [head_chunk_of_le (by omega), take_zero]
      exact ⟨[[]], .inr rfl, rfl⟩
    | succ k =>
      rw [User.head_chunk, if_pos (by omega)]
      by_cases hc : c = newline
      · obtain ⟨e, he, hl⟩ := ih (n := n + 1) (k := k) (by omega)
        refine ⟨e, he, ?_⟩
        simp only [if_pos hc, cons_append, lines, hl, take_succ_cons]
      · obtain ⟨e, he, hl⟩ := ih hk
        simp only [if_neg hc, cons_append, lines, hl]
        -- The byte is put before the first of the other lines, if there is one.
        cases hls : lines newline l with
        | nil =>
          refine ⟨[], .inl rfl, ?_⟩
          rcases he with rfl | rfl <;> simp
        | cons x ls => exact ⟨e, he, rfl⟩

/-- `p` is the shortest prefix of `l` with `k` newlines, or all of `l` if it has fewer. -/
structure Shortest (k : Nat) (l p : List Byte) : Prop where
  part : p <+: l
  whole : l.count newline < k → p = l
  count : k ≤ l.count newline → p.count newline = k
  least : ∀ q, q <+: l → k ≤ q.count newline → p.length ≤ q.length

theorem Shortest.cons {c : Byte} (h : Shortest k l p) (hpos : 0 < k + [c].count newline) :
    Shortest (k + [c].count newline) (c :: l) (c :: p) := by
  have hcount : ∀ x : List Byte, (c :: x).count newline = x.count newline + [c].count newline := by
    intro x
    simp [count_cons]
  refine ⟨(prefix_cons_inj c).mpr h.part, fun hlt => ?_, fun hle => ?_, fun q hq hle => ?_⟩
  · rw [hcount l] at hlt
    rw [h.whole (by omega)]
  · rw [hcount l] at hle
    rw [hcount p, h.count (by omega)]
  · cases q with
    | nil =>
      rw [count_nil] at hle
      omega
    | cons d q =>
      obtain ⟨rfl, hql⟩ := cons_prefix_cons.mp hq
      rw [hcount q] at hle
      exact Nat.succ_le_succ (h.least q hql (by omega))

theorem head_chunk_shortest (l : List Byte) {k : Nat} (hk : n + k = N) :
    Shortest k l (User.head_chunk N l n).2 := by
  induction l generalizing n k with
  | nil => exact ⟨prefix_rfl, fun _ => rfl, fun h => (Nat.le_zero.mp h).symm, fun _ _ _ => Nat.zero_le _⟩
  | cons c l ih =>
    cases k with
    | zero =>
      rw [head_chunk_of_le (by omega)]
      exact ⟨⟨_, rfl⟩, fun h => absurd h (Nat.not_lt_zero _), fun _ => rfl, fun _ _ _ => Nat.zero_le _⟩
    | succ k =>
      rw [User.head_chunk, if_pos (by omega)]
      by_cases hc : c = newline
      · have h := (ih (n := n + 1) (k := k) (by omega)).cons (c := c)
        rw [hc, count_singleton_self] at h
        rw [hc]
        exact h (by omega)
      · have h := (ih hk).cons (c := c) (by omega)
        rw [count_eq_zero.mpr (by simpa using Ne.symm hc)] at h
        rw [if_neg hc]
        exact h

end User

theorem displayed_head_user {contents : List Byte} {reads : List (List Byte)} (h : Delivers contents reads)
    {N : Int} (hN : 0 ≤ N) : displayed (User.head reads N) = top N.toNat contents := by
  obtain ⟨e, he, hl⟩ := head_chunk_lines contents (n := 0) (N := N) (k := N.toNat) (by omega)
  rw [displayed, User.head, head_loop_flatten fun r hr => (h.fits r hr).1, h.flatten, hl, top]
  rcases he with rfl | rfl
  · rw [append_nil]
  · exact trim_concat_nil _

/-- **`head_user` prints the shortest prefix with `N` newlines, or everything, and one more newline.** -/
theorem head_shortest {stream : List Byte} {reads : List (List Byte)} (h : Delivers stream reads) {N : Int}
    (hN : 0 < N) : ∃ p, User.head reads N = p ++ [newline] ∧ Shortest N.toNat stream p := by
  refine ⟨_, rfl, ?_⟩
  rw [head_loop_flatten fun r hr => (h.fits r hr).1, h.flatten]
  exact head_chunk_shortest stream (by omega)

theorem head_shortest_two : Delivers (text "a\nb\nc") [text "a\nb", text "\nc"] ∧
    ∃ p, User.head [text "a\nb", text "\nc"] 2 = p ++ [newline] ∧ Shortest 2 (text "a\nb\nc") p := by
  have h : Delivers (text "a\nb\nc") [text "a\nb", text "\nc"] := ⟨by decide, by decide⟩
  exact ⟨h, head_shortest h (by decide)⟩

/-! ### Standard input -/

section Stdin
variable {N : Int}

/-- Bytes other than a newline go to the buffer. -/
theorem head_stdin_bytes (ha : newline ∉ a) (rest : List Byte) (hi : i ≤ buf.length) (n : Int) :
    ∃ buf', buf'.take (i + a.length) = buf.take i ++ a ∧
      head_stdin_loop N (a ++ rest) buf i n = head_stdin_loop N rest buf' (i + a.length) n := by
  induction a generalizing buf i with
  | nil => exact ⟨buf, (append_nil _).symm, rfl⟩
  | cons c a ih =>
    obtain ⟨hc, ha⟩ := not_or.mp (mt mem_cons.mpr ha)
    obtain ⟨buf', htake, hloop⟩ := ih ha (i := i + 1) (lt_length_poke hi c)
    rw [Nat.add_assoc, Nat.add_comm 1, ← length_cons (a := c)] at htake hloop
    refine ⟨buf', ?_, ?_⟩
    · rw [htake, take_poke hi, append_assoc, singleton_append]
    · rw [cons_append, head_stdin_loop, if_neg (Ne.symm hc), hloop]

/-- The lines that end in a newline are printed. -/
theorem head_stdin_loop_ended {l : List Byte} (h0 : 0 ∉ l) {k : Nat} (hk : 0 < k) {n : Int}
    (hn : n + k = N + 1) (buf : List Byte) :
    head_stdin_loop N l buf 0 n = ((ended newline l).take k).map .line := by
  induction l using lines_induction newline generalizing n k buf with
  | hnil =>
    have hnil : ended newline ([] : List Byte) = [] := rfl
    rw [hnil, take_nil]
    rfl
  | hline l hl ih =>
    obtain ⟨buf', htake, hloop⟩ := head_stdin_bytes (N := N) (sep_notMem_firstLine (l := l))
      (l.drop (firstLine newline l).length) (Nat.zero_le buf.length) n
    rw [firstLine_eq_take, length_take, Nat.min_eq_left length_firstLine_le, take_append_drop,
      Nat.zero_add] at hloop
    rw [take_zero, nil_append, Nat.zero_add] at htake
    rw [hloop]
    rcases drop_firstLine newline l with hd | hd
    · rw [hd, ended_of_drop_nil hd, take_nil]
      rfl
    · have htext : str (poke buf' (firstLine newline l).length 0) = firstLine newline l := by
        rw [poke, htake]
        exact str_append_zero (fun h => h0 (firstLine_isPrefix.subset h)) _
      rw [ended_of_drop_cons hd, hd, head_stdin_loop, if_pos rfl, htext]
      obtain ⟨k, rfl⟩ : ∃ j, k = j + 1 := ⟨k - 1, by omega⟩
      rw [take_succ_cons, map_cons]
      congr 1
      by_cases hlast : k = 0
      · rw [if_pos (by omega), hlast]
        rfl
      · rw [if_neg (by omega)]
        exact ih (fun h => h0 (mem_of_mem_drop h)) (by omega) (by omega) _

end Stdin

theorem take_ended (h : l = [] ∨ l.getLast? = some newline ∨ n < (lines newline l).length) :
    (ended newline l).take n = (lines newline l).take n := by
  rw [ended]
  rcases h with rfl | h | h
  · rfl
  · rw [if_pos h]
  · split
    · rfl
    · rw [dropLast_eq_take, take_take, Nat.min_eq_left (by omega)]

/-- A last line without a newline is missing. -/
theorem displayed_ended_iff :
    displayed ((((ended newline l).take n).map .line).flatMap Printed.bytes) = top n l ↔
      l = [] ∨ l.getLast? = some newline ∨ n < (lines newline l).length := by
  have hmem : ∀ x ∈ (ended newline l).take n, newline ∉ x := fun x hx => by
    refine sep_notMem_lines (l := l) ?_
    have hx := mem_of_mem_take hx
    rw [ended] at hx
    split at hx
    · exact hx
    · exact mem_of_mem_dropLast hx
  rw [displayed_lines hmem, top]
  refine ⟨fun h => ?_, fun h => by rw [take_ended h]⟩
  by_contra hnot
  obtain ⟨hl, hnot⟩ := not_or.mp hnot
  obtain ⟨hlast, hn⟩ := not_or.mp hnot
  obtain ⟨ls, x, hls, hx⟩ := exists_last_line hl hlast
  have hend : ended newline l = ls := by rw [ended, if_neg hlast, hls, dropLast_concat]
  rw [take_of_length_le (Nat.not_lt.mp hn), hend, hls, trim_concat hx] at h
  have hlen := Nat.le_trans (length_trim_le (ls.take n)) (length_take_le' ..)
  rw [h, length_append] at hlen
  exact absurd hlen (Nat.not_succ_le_self _)

/-! ### A file -/

section File
variable {sb : Superblock} {s : State} {cwd ip : Ptr} {c i : Nat} {path : List Byte} {last : Name}

/-- The loop of `head` takes lines as the loop of `uniq` does, up to their number. -/
theorem head_loop_texts {N n : Int} {k : Nat} (hk : n + k = N + 1) (fuel start : Nat) (buf : List Byte)
    (s : State) :
    Alike (uniq_texts sb ip (min fuel k) start buf) (head_loop sb ip N fuel n start buf) s
      fun ls out => out = ls.map .line := by
  induction fuel generalizing n k start buf s with
  | zero =>
    rw [Nat.zero_min]
    exact Alike.pure rfl
  | succ fuel ih =>
    rw [head_loop]
    cases k with
    | zero =>
      rw [Nat.min_zero, if_neg (by omega)]
      exact Alike.pure rfl
    | succ k =>
      rw [Nat.succ_min_succ, if_pos (by omega)]
      refine Alike.step fun r t => ?_
      obtain ⟨buf', m⟩ := r
      cases m with
      | none => exact Alike.pure rfl
      | some m =>
        cases m with
        | zero => exact Alike.pure rfl
        | succ m =>
          refine (ih (n := n + 1) (k := k) (by omega) _ buf' t).bind fun ls out u hout => Alike.pure ?_
          rw [hout]
          rfl

/-- On a file the first lines are displayed, exactly when they fit. -/
theorem sys_head_kernel_runs (Ly : Layout sb) (h : Sound sb s) (hc : Points s cwd c)
    (hroom : s.lh.length + (s.outstanding + 1) * MAXOPBLOCKS ≤ LOGSIZE)
    (hfile : resolve sb.ninodes (nodes sb s) (counts s) false c path = .found i last)
    (ht : (nodes sb s i).type = T_FILE) (h0 : 0 ∉ (nodes sb s i).data) (stack : List Byte) {N : BitVec 32}
    (hN : 0 < N.toInt) :
    Runs (sys_head_kernel sb cwd stack (some (path, N))) s
      (fun r _ => r.1 = N.toInt ∧
        (displayed (r.2.flatMap Printed.bytes) = top N.toInt.toNat (nodes sb s i).data ↔
          Fit (top N.toInt.toNat (nodes sb s i).data))) fun _ => False := by
  refine file_runs Ly h hc hroom hfile ht fun ip t fuel hg hp hv hn hf => ?_
  rw [← hn] at h0 hf ht
  have hdev : (nodes sb t i).type ≠ T_DEV := by
    rw [ht]
    decide
  have hk : (1 : Int) + N.toInt.toNat = N.toInt + 1 := by omega
  have hread := uniq_texts_runs (E := fun _ => False) Ly hg hp hv hdev h0 (min fuel N.toInt.toNat) (Nat.zero_le _)
    (List.replicate 1024 0 ++ stack)
  obtain ⟨ls, u, hls, hcut, rfl⟩ := hread.answers
  obtain ⟨out, hout, rfl⟩ := Runs.of_ok (head_loop_texts hk fuel 0 _ u) hls
  rw [drop_zero] at hcut
  refine Runs.of_eq_ok hout ⟨⟨rfl, ?_⟩, rfl⟩
  rw [← hn, ← top_min (Nat.le_of_lt hf), ← cuts_eq_top_iff, ← hcut]
  have hmem : ∀ x ∈ ls ++ [[]], newline ∉ x := fun x hx => by
    rcases mem_append.mp hx with hx | hx
    · exact newline_notMem_cuts (hcut ▸ hx)
    · rw [mem_singleton.mp hx]
      exact not_mem_nil
  have hshow : displayed ((ls.map Printed.line ++ [Printed.line []]).flatMap Printed.bytes) = ls := by
    have happend : ls.map Printed.line ++ [.line []] = (ls ++ [[]]).map Printed.line := by
      rw [map_append]
      rfl
    rw [happend, displayed_lines hmem, trim_concat_nil, trim_of_ne_nil (hcut ▸ nil_notMem_cuts _ _)]
  show displayed ((ls.map Printed.line ++ [Printed.line []]).flatMap Printed.bytes) = _ ↔ _
  rw [hshow]

/-- All three display the first lines, exactly when none of those is empty (but at the end) or longer
than the kernel's buffer, and the last line of the contents has a newline or is not among them. -/
theorem head_agree_iff (Ly : Layout sb) (h : Sound sb s) (hc : Points s cwd c)
    (hroom : s.lh.length + (s.outstanding + 1) * MAXOPBLOCKS ≤ LOGSIZE)
    (hfile : resolve sb.ninodes (nodes sb s) (counts s) false c path = .found i last)
    (ht : (nodes sb s i).type = T_FILE) (h0 : 0 ∉ (nodes sb s i).data) (reads : List (List Byte))
    (hreads : Delivers (nodes sb s i).data reads) (stack lineBuffer input targetFile : List Byte) {N : BitVec 32}
    (hN : 0 < N.toInt) :
    ∃ onFile onStdin t,
      head_kernel sb cwd stack lineBuffer input (some (path, N, 1)) s = .ok ((N.toInt, onFile), t) ∧
      head_kernel sb cwd stack lineBuffer (nodes sb s i).data (some (targetFile, N, 0)) s =
        .ok ((N.toInt, onStdin), s) ∧
      (displayed (onFile.flatMap Printed.bytes) = top N.toInt.toNat (nodes sb s i).data ∧
        displayed (onStdin.flatMap Printed.bytes) = top N.toInt.toNat (nodes sb s i).data ∧
        displayed (User.head reads N.toInt) = top N.toInt.toNat (nodes sb s i).data ↔
      Fit (top N.toInt.toNat (nodes sb s i).data) ∧ ((nodes sb s i).data = [] ∨
        (nodes sb s i).data.getLast? = some newline ∨
        N.toInt.toNat < (lines newline (nodes sb s i).data).length)) := by
  obtain ⟨r, t, hr, hret, hiff⟩ := (sys_head_kernel_runs Ly h hc hroom hfile ht h0 stack hN).answers
  refine ⟨r.2, _, t, hr.trans (by rw [← hret]), rfl, ?_⟩
  have hk : (1 : Int) + N.toInt.toNat = N.toInt + 1 := by omega
  rw [hiff, head_stdin_loop_ended h0 (by omega) hk, displayed_ended_iff, displayed_head_user hreads (by omega),
    and_iff_left rfl]

theorem head_agree_first_line : ∃ onFile onStdin t,
    head_kernel Mkfs.sb 0 [] [] [] (some ([102], 1, 1)) (shelf (text "a\nb")) = .ok ((1, onFile), t) ∧
    head_kernel Mkfs.sb 0 [] [] (text "a\nb") (some ([], 1, 0)) (shelf (text "a\nb")) =
      .ok ((1, onStdin), shelf (text "a\nb")) ∧
    displayed (onFile.flatMap Printed.bytes) = [text "a"] ∧
    displayed (onStdin.flatMap Printed.bytes) = [text "a"] ∧
    displayed (User.head [text "a", text "\nb"] 1) = [text "a"] := by
  have hpos : 0 < (text "a\nb").length := by decide
  have hsize : (text "a\nb").length ≤ BSIZE := by decide
  have hn := congrFun (nodes_shelf hpos hsize) 24
  obtain ⟨onFile, onStdin, t, h1, h2, hiff⟩ := head_agree_iff layout_mkfs (sound_shelf hpos hsize) (points_shelf _)
    (by decide) (resolve_shelf hpos hsize) (by rw [hn]; rfl) (by rw [hn]; decide)
    [text "a", text "\nb"] ⟨by rw [hn]; decide, by decide⟩ [] [] [] [] (N := 1) (by decide)
  rw [hn] at h2 hiff
  exact ⟨onFile, onStdin, t, h1, h2, hiff.mpr ⟨by unfold Fit; decide, by decide⟩⟩

set_option maxRecDepth 100000 in
/-- A line without a newline is displayed by `head_user`, and by the kernel from a file, but not from
standard input. -/
theorem head_stdin_misses_last_line :
    displayed (User.head [text "a"] 1) = [text "a"] ∧
    (∃ t, head_kernel Mkfs.sb 0 [] [] [] (some ([102], 1, 1)) (shelf (text "a")) =
      .ok ((1, [.line (text "a"), .line []]), t)) ∧
    head_kernel Mkfs.sb 0 [] [] (text "a") (some ([], 1, 0)) (shelf (text "a")) = .ok ((1, []), shelf (text "a")) := by
  have hanswer : answer (head_kernel Mkfs.sb 0 [] [] [] (some ([102], 1, 1))) (shelf (text "a")) =
      some (1, [.line (text "a"), .line []]) := by decide +kernel
  exact ⟨by decide, of_answer hanswer, rfl⟩

end File

end Xv6.Uniq
