import Xv6.Lib.Lines
import Xv6.Grep.Match

/-! The buffer of `grep`: the function `grep` of `grep.c` over what `read` delivers.

A chunk is read after what the buffer holds, the lines in the buffer are matched and printed, and what
follows the last newline is moved to the front for the next chunk. A chunk without a newline is
forgotten together with what stood before it, so that the output is right for every pattern exactly when every
chunk has a newline. -/
namespace Xv6.Grep
open Lib

def NEWLINE : Byte := 10

/-- `sizeof(buf)` -/
abbrev SIZE : Nat := 1024

/-! ### The function -/

/-- `strchr` for a newline, in the string that follows position `p`. -/
def strchr : List Byte → Nat → Option Nat
  | [], _ => none
  | b :: s, p => if b = 0 then none else if b = NEWLINE then some p else strchr s (p + 1)

/-- The string at position `p`. -/
def cstring (buf : List Byte) (p : Nat) : List Byte := (buf.drop p).takeWhile (· ≠ 0)

/-- The inner loop: the buffer, `p`, and what is printed. -/
def print_lines (pattern : List Byte) : Nat → List Byte → Nat → List Byte × Nat × List Byte
  | 0, buf, p => (buf, p, [])
  | fuel + 1, buf, p =>
    match strchr (buf.drop p) p with
    | none => (buf, p, [])
    | some q =>
      let buf := buf.set q 0
      if matchre pattern (cstring buf p) then
        let buf := buf.set q NEWLINE
        let r := print_lines pattern fuel buf (q + 1)
        (r.1, r.2.1, (buf.drop p).take (q + 1 - p) ++ r.2.2)
      else print_lines pattern fuel buf (q + 1)

/-- The buffer, the number `m` of bytes kept in it, and what has been printed. -/
structure State where
  buf : List Byte
  m : Nat
  out : List Byte

def State.start (buf : List Byte) : State := ⟨buf, 0, []⟩

/-- What `read` is asked for. -/
def State.request (s : State) : Nat := SIZE - s.m - 1

/-- The body of the loop of `grep`, when `read` has delivered `chunk`. No more lines are in the buffer than bytes. -/
def body (pattern : List Byte) (s : State) (chunk : List Byte) : State :=
  let buf := s.buf.take s.m ++ chunk ++ s.buf.drop (s.m + chunk.length)
  let m := s.m + chunk.length
  let buf := buf.set m 0
  let r := print_lines pattern SIZE buf 0
  let m := if r.2.1 = 0 then 0 else m
  if 0 < m then
    let m := m - r.2.1
    ⟨(r.1.drop r.2.1).take m ++ r.1.drop m, m, s.out ++ r.2.2⟩
  else ⟨r.1, m, s.out ++ r.2.2⟩

/-- What `grep` prints. -/
def grep (pattern : List Byte) (s : State) (chunks : List (List Byte)) : List Byte :=
    (chunks.foldl (body pattern) s).out

/-- `read` delivers the input in these chunks, not empty and not longer than asked for, until there is nothing to
deliver or nothing is asked for. -/
def Delivered (pattern : List Byte) : State → List (List Byte) → List Byte → Prop
  | s, [], input => input = [] ∨ s.request = 0
  | s, chunk :: chunks, input => chunk ≠ [] ∧ chunk.length ≤ s.request ∧
      ∃ rest, input = chunk ++ rest ∧ Delivered pattern (body pattern s chunk) chunks rest

/-! ### Lines -/

/-- Lines with their newlines. -/
def joined (ls : List (List Byte)) : List Byte := ls.flatMap (· ++ [NEWLINE])

/-- The lines that match. -/
def matching (pattern : List Byte) (ls : List (List Byte)) : List (List Byte) := ls.filter (matchre pattern)

theorem matching_cons_pos (h : matchre pattern l = true) (ls : List (List Byte)) :
    matching pattern (l :: ls) = l :: matching pattern ls := List.filter_cons_of_pos h

theorem matching_cons_neg (h : ¬matchre pattern l = true) (ls : List (List Byte)) :
    matching pattern (l :: ls) = matching pattern ls := List.filter_cons_of_neg h

/-- Lines have no newline. -/
def Plain (ls : List (List Byte)) : Prop := ∀ l ∈ ls, NEWLINE ∉ l

variable {pattern buf chunk rest : List Byte} {ls : List (List Byte)} {s : State}

@[simp] theorem joined_nil : joined [] = [] := rfl

theorem joined_cons (l : List Byte) (ls : List (List Byte)) : joined (l :: ls) = l ++ NEWLINE :: joined ls := by
  simp [joined]

theorem joined_append (ls ls' : List (List Byte)) : joined (ls ++ ls') = joined ls ++ joined ls' :=
    List.flatMap_append

theorem mem_joined (h : ls ≠ []) : NEWLINE ∈ joined ls := by
  cases ls with
  | nil => exact absurd rfl h
  | cons l ls => simp [joined_cons]

/-- Every text is made of lines and a rest without a newline. -/
theorem exists_lines (data : List Byte) : ∃ ls rest, data = joined ls ++ rest ∧ Plain ls ∧ NEWLINE ∉ rest := by
  induction data with
  | nil => exact ⟨[], [], rfl, fun _ h => absurd h List.not_mem_nil, List.not_mem_nil⟩
  | cons b data ih =>
    obtain ⟨ls, rest, rfl, hls, hrest⟩ := ih
    by_cases hb : b = NEWLINE
    · refine ⟨[] :: ls, rest, by simp [joined_cons, hb], ?_, hrest⟩
      exact List.forall_mem_cons.mpr ⟨List.not_mem_nil, hls⟩
    · cases ls with
      | nil => exact ⟨[], b :: rest, rfl, hls, by simp [hrest, Ne.symm hb]⟩
      | cons l ls =>
        obtain ⟨hl, hls⟩ := List.forall_mem_cons.mp hls
        refine ⟨(b :: l) :: ls, rest, by simp [joined_cons], ?_, hrest⟩
        exact List.forall_mem_cons.mpr ⟨by simp [hl, Ne.symm hb], hls⟩

/-- The lines of the beginning of a text are its first lines. -/
theorem joined_append_eq (hls : Plain ls) (hls' : Plain ls')
    (h : joined ls ++ rest = joined ls') : ∃ ls₂, ls' = ls ++ ls₂ ∧ rest = joined ls₂ := by
  induction ls generalizing ls' with
  | nil => exact ⟨ls', rfl, h⟩
  | cons l ls ih =>
    obtain ⟨hl, hls⟩ := List.forall_mem_cons.mp hls
    cases ls' with
    | nil => simp [joined_cons] at h
    | cons l' ls' =>
      obtain ⟨hl', hplain'⟩ := List.forall_mem_cons.mp hls'
      rw [joined_cons, joined_cons, List.append_assoc, List.cons_append] at h
      have hlines := congrArg (lines NEWLINE) h
      rw [lines_append_sep hl, lines_append_sep hl'] at hlines
      obtain rfl := (List.cons.inj hlines).1
      obtain ⟨ls₂, rfl, hrest⟩ := ih hls hplain' (List.cons.inj (List.append_cancel_left h)).2
      exact ⟨ls₂, rfl, hrest⟩

/-! ### The inner loop -/

theorem strchr_none (h : NEWLINE ∉ rest) (p : Nat) : strchr (rest ++ 0 :: junk) p = none := by
  induction rest generalizing p with
  | nil => simp [strchr]
  | cons b rest ih =>
    obtain ⟨hb, hrest⟩ := not_or.mp (mt List.mem_cons.mpr h)
    rw [List.cons_append, strchr, if_neg (Ne.symm hb), ih hrest]
    exact ite_self _

theorem strchr_line (h : NEWLINE ∉ l) (h0 : 0 ∉ l) (p : Nat) :
    strchr (l ++ NEWLINE :: junk) p = some (p + l.length) := by
  induction l generalizing p with
  | nil => simp [strchr, NEWLINE]
  | cons b l ih =>
    obtain ⟨hb, hl⟩ := not_or.mp (mt List.mem_cons.mpr h)
    obtain ⟨hb0, hl0⟩ := not_or.mp (mt List.mem_cons.mpr h0)
    rw [List.cons_append, strchr, if_neg (Ne.symm hb0), if_neg (Ne.symm hb), ih hl hl0, List.length_cons]
    congr 1
    omega

theorem drop_set_line (h : buf.drop p = l ++ c :: tail) (b : Byte) :
    (buf.set (p + l.length) b).drop p = l ++ b :: tail ∧ (buf.set (p + l.length) b).drop (p + l.length + 1) =
      tail := by
  have hline : (buf.set (p + l.length) b).drop p = l ++ b :: tail := by
    rw [List.drop_set, if_neg (by omega), h, Nat.add_sub_cancel_left, List.set_append_right _ _ (Nat.le_refl _),
      Nat.sub_self, List.set_cons_zero]
  refine ⟨hline, ?_⟩
  rw [Nat.add_assoc, ← List.drop_drop, hline, ← List.drop_drop, List.drop_left]
  rfl

/-- The inner loop prints the matching ones of the lines before the zero, and stops after the last of them. -/
theorem print_lines_runs (pattern : List Byte) (hbuf : buf.drop p = joined ls ++ rest ++ 0 :: junk)
    (hls : Plain ls) (h0 : 0 ∉ joined ls) (hrest : NEWLINE ∉ rest) (hfuel : ls.length < fuel) :
    ∃ buf', print_lines pattern fuel buf p = (buf', p + (joined ls).length, joined (matching pattern ls)) ∧
      buf'.drop (p + (joined ls).length) = rest ++ 0 :: junk ∧ buf'.length = buf.length := by
  induction ls generalizing buf p fuel with
  | nil =>
    obtain ⟨fuel, rfl⟩ : ∃ k, fuel = k + 1 := ⟨fuel - 1, by omega⟩
    rw [joined_nil, List.nil_append] at hbuf
    refine ⟨buf, ?_, hbuf, rfl⟩
    rw [print_lines, hbuf, strchr_none hrest]
    rfl
  | cons l ls ih =>
    obtain ⟨fuel, rfl⟩ : ∃ k, fuel = k + 1 := ⟨fuel - 1, by omega⟩
    have hfuel : ls.length < fuel := Nat.lt_of_succ_lt_succ hfuel
    obtain ⟨hl, hls⟩ := List.forall_mem_cons.mp hls
    rw [joined_cons] at h0 hbuf ⊢
    have hl0 : 0 ∉ l := fun h => h0 (List.mem_append_left _ h)
    have hls0 : 0 ∉ joined ls := fun h => h0 (List.mem_append_right _ (List.mem_cons_of_mem _ h))
    have hdrop : buf.drop p = l ++ NEWLINE :: (joined ls ++ rest ++ 0 :: junk) := by
      rw [hbuf]
      simp
    have hline : cstring (buf.set (p + l.length) 0) p = l := by
      rw [cstring, (drop_set_line hdrop 0).1, List.takeWhile_append_of_pos]
      · simp
      · exact fun x hx => decide_eq_true fun he => hl0 (he ▸ hx)
    have hend : p + (l ++ NEWLINE :: joined ls).length = p + l.length + 1 + (joined ls).length := by
      rw [List.length_append, List.length_cons]
      omega
    rw [print_lines, hdrop, strchr_line hl hl0, hend]
    by_cases hmatch : matchre pattern l = true
    · -- The newline is put back, and printed with the line.
      obtain ⟨hprinted, hnext⟩ := drop_set_line hdrop NEWLINE
      obtain ⟨buf', hloop, hdrop', hlen⟩ := ih hnext hls hls0 hfuel
      refine ⟨buf', ?_, hdrop', by rw [hlen, List.length_set]⟩
      simp only [hline, if_pos hmatch, List.set_set, hloop, hprinted]
      rw [matching_cons_pos hmatch, joined_cons, show p + l.length + 1 - p = l.length + 1 by omega, List.take_append,
        List.take_of_length_le (Nat.le_succ _), Nat.add_sub_cancel_left, List.take_succ_cons, List.take_zero,
        List.append_assoc, List.singleton_append]
    · obtain ⟨buf', hloop, hdrop', hlen⟩ := ih (drop_set_line hdrop 0).2 hls hls0 hfuel
      refine ⟨buf', ?_, hdrop', by rw [hlen, List.length_set]⟩
      simp only [hline, if_neg hmatch, hloop]
      rw [matching_cons_neg hmatch]

/-! ### One chunk -/

/-- What the buffer keeps for the next chunk is `kept`. -/
structure Keeps (s : State) (kept : List Byte) : Prop where
  size : s.buf.length = SIZE
  take : s.buf.take s.m = kept
  length : s.m = kept.length
  plain : NEWLINE ∉ kept

theorem length_joined (ls : List (List Byte)) : ls.length ≤ (joined ls).length := by
  induction ls with
  | nil => exact Nat.le_refl _
  | cons l ls ih =>
    rw [joined_cons, List.length_append, List.length_cons, List.length_cons]
    omega

/-- The lines that a chunk completes are matched, and what follows them is kept; with no such line, all is
forgotten. -/
theorem body_runs (pattern : List Byte) (h : Keeps s kept) (hne : chunk ≠ [])
    (hfit : chunk.length ≤ s.request)
    (h0 : 0 ∉ kept ++ chunk) (hlines : kept ++ chunk = joined ls ++ rest) (hls : Plain ls) (hrest : NEWLINE ∉ rest) :
    Keeps (body pattern s chunk) (if ls = [] then [] else rest) ∧
      (body pattern s chunk).out = s.out ++ joined (matching pattern ls) := by
  obtain ⟨hsize, htake, hlength, -⟩ := h
  have hlt : s.m + chunk.length < SIZE := by
    have := List.length_pos_iff.mpr hne
    rw [State.request] at hfit
    omega
  -- The buffer with the chunk and the zero after it.
  obtain ⟨b, junk, hjunk⟩ : ∃ b junk, s.buf.drop (s.m + chunk.length) = b :: junk :=
    List.exists_cons_of_length_pos (by rw [List.length_drop]; omega)
  have hbuf : (s.buf.take s.m ++ chunk ++ s.buf.drop (s.m + chunk.length)).set (s.m + chunk.length) 0 =
      joined ls ++ rest ++ 0 :: junk := by
    rw [htake, hjunk, ← hlines, hlength, ← List.length_append, List.set_append_right _ _ (Nat.le_refl _),
      Nat.sub_self,
      List.set_cons_zero]
  have hsum : s.m + chunk.length = (joined ls).length + rest.length := by
    rw [hlength, ← List.length_append, ← List.length_append, hlines]
  have hfuel : ls.length < SIZE := by
    have := length_joined ls
    omega
  have hls0 : 0 ∉ joined ls := fun hz => h0 (hlines ▸ List.mem_append_left _ hz)
  obtain ⟨buf', hloop, hdrop, hlen⟩ := print_lines_runs pattern (p := 0) hbuf hls hls0 hrest hfuel
  have hsize' : buf'.length = SIZE := by
    rw [hlen, List.length_set]
    simp only [List.length_append, List.length_take, List.length_drop]
    omega
  rw [Nat.zero_add] at hloop hdrop
  simp only [body, hloop]
  by_cases hnil : ls = []
  · subst hnil
    simp only [joined_nil, List.length_nil, if_true, if_neg (Nat.lt_irrefl 0)]
    exact ⟨⟨hsize', rfl, rfl, List.not_mem_nil⟩, trivial⟩
  · have hpos : 0 < (joined ls).length := Nat.lt_of_lt_of_le (List.length_pos_iff.mpr hnil) (length_joined ls)
    have hm : s.m + chunk.length - (joined ls).length = rest.length := by omega
    have hmove : (buf'.drop (joined ls).length).take rest.length = rest := by rw [hdrop, List.take_left]
    rw [if_neg (Nat.ne_of_gt hpos), if_pos (by omega), hm, hmove, if_neg hnil]
    refine ⟨⟨?_, List.take_left, rfl, hrest⟩, rfl⟩
    rw [List.length_append, List.length_drop]
    omega

/-! ### All chunks -/

/-- A line, as `grep` may get it. -/
structure Short (l : List Byte) : Prop where
  plain : NEWLINE ∉ l
  text : 0 ∉ l
  length : l.length ≤ 1022

theorem zero_notMem_joined (h : ∀ l ∈ ls, Short l) : 0 ∉ joined ls := by
  intro h0
  obtain ⟨l, hl, hz⟩ := List.mem_flatMap.mp h0
  rcases List.mem_append.mp hz with hz | hz
  · exact (h l hl).text hz
  · exact absurd (List.mem_singleton.mp hz) (by decide)

theorem length_kept (hkept : NEWLINE ∉ kept) (h : kept ++ input = joined ls)
    (hls : ∀ l ∈ ls, Short l) : kept.length ≤ 1022 := by
  cases ls with
  | nil =>
    rw [(List.append_eq_nil_iff.mp h).1]
    exact Nat.zero_le _
  | cons l ls =>
    refine Nat.le_trans ?_ (hls l (List.mem_cons_self ..)).length
    rw [joined_cons] at h
    rcases List.append_eq_append_iff.mp h with ⟨a, rfl, -⟩ | ⟨a, rfl, ha⟩
    · rw [List.length_append]
      exact Nat.le_add_right ..
    · cases a with
      | nil => simp
      | cons b a =>
        rw [← (List.cons.inj ha).1] at hkept
        exact absurd (List.mem_append_right _ (List.mem_cons_self ..)) hkept

/-- Every chunk has a newline: the output is the matching lines. -/
theorem grep_of_newlines (h : Keeps s kept)
    (hread : Delivered pattern s chunks input) (hall : ∀ chunk ∈ chunks, NEWLINE ∈ chunk)
    (hlines : kept ++ input = joined ls) (hls : ∀ l ∈ ls, Short l) :
    grep pattern s chunks = s.out ++ joined (matching pattern ls) := by
  induction chunks generalizing s kept input ls with
  | nil =>
    have hinput : input = [] := by
      refine hread.resolve_right fun hzero => ?_
      have := length_kept h.plain hlines hls
      rw [State.request, h.length, SIZE] at hzero
      omega
    rw [hinput, List.append_nil] at hlines
    have hnil : ls = [] := by
      by_contra hne
      exact h.plain (hlines ▸ mem_joined hne)
    rw [hnil]
    exact (List.append_nil _).symm
  | cons chunk chunks ih =>
    obtain ⟨hne, hfit, input, rfl, hread⟩ := hread
    obtain ⟨hnl, hall⟩ := List.forall_mem_cons.mp hall
    have h0 : 0 ∉ kept ++ chunk := by
      intro hz
      refine zero_notMem_joined hls ?_
      rw [← hlines, ← List.append_assoc]
      exact List.mem_append_left _ hz
    obtain ⟨ls₁, rest, hsplit, hls₁, hrest⟩ := exists_lines (kept ++ chunk)
    have hls₁ne : ls₁ ≠ [] := by
      rintro rfl
      exact hrest (by rw [← List.nil_append rest, ← joined_nil, ← hsplit]; exact List.mem_append_right _ hnl)
    rw [← List.append_assoc, hsplit, List.append_assoc] at hlines
    obtain ⟨ls₂, rfl, hlines₂⟩ := joined_append_eq hls₁ (fun l hl => (hls l hl).plain) hlines
    obtain ⟨hkeeps, hout⟩ := body_runs pattern h hne hfit h0 hsplit hls₁ hrest
    rw [if_neg hls₁ne] at hkeeps
    have hgrep := ih hkeeps hread hall hlines₂ fun l hl => hls l (List.mem_append_right _ hl)
    rw [hout, List.append_assoc, ← joined_append] at hgrep
    rw [matching, List.filter_append]
    exact hgrep

theorem length_joined_matching (pattern : List Byte) (ls : List (List Byte)) :
    (joined (matching pattern ls)).length ≤ (joined ls).length := by
  induction ls with
  | nil => exact Nat.le_refl _
  | cons l ls ih =>
    by_cases h : matchre pattern l = true
    · rw [matching_cons_pos h, joined_cons, joined_cons, List.length_append, List.length_append, List.length_cons,
        List.length_cons]
      omega
    · rw [matching_cons_neg h, joined_cons, List.length_append, List.length_cons]
      omega

/-- No more is printed than is read, and less when a chunk has no newline. -/
theorem length_grep (h : Keeps s kept)
    (hread : Delivered pattern s chunks input) (h0 : 0 ∉ kept ++ input) :
    (grep pattern s chunks).length ≤ s.out.length + (kept ++ input).length ∧
      ((∃ chunk ∈ chunks, NEWLINE ∉ chunk) → (grep pattern s chunks).length < s.out.length +
        (kept ++ input).length) := by
  induction chunks generalizing s kept input with
  | nil => exact ⟨Nat.le_add_right .., fun hex => by obtain ⟨_, hc, -⟩ := hex; cases hc⟩
  | cons chunk chunks ih =>
    obtain ⟨hne, hfit, input, rfl, hread⟩ := hread
    rw [← List.append_assoc] at h0 ⊢
    have h0' : 0 ∉ kept ++ chunk := fun hz => h0 (List.mem_append_left _ hz)
    obtain ⟨ls₁, rest, hsplit, hls₁, hrest⟩ := exists_lines (kept ++ chunk)
    obtain ⟨hkeeps, hout⟩ := body_runs pattern h hne hfit h0' hsplit hls₁ hrest
    have hprinted := length_joined_matching pattern ls₁
    rw [hsplit] at h0 ⊢
    have hgrep : grep pattern s (chunk :: chunks) = grep pattern (body pattern s chunk) chunks := rfl
    by_cases hnil : ls₁ = []
    · -- Nothing is printed or kept of this chunk.
      subst hnil
      rw [if_pos rfl] at hkeeps
      have hless := (ih hkeeps hread (fun hz => h0 (List.mem_append_right _ hz))).1
      have hpos : 0 < rest.length := by
        have hlen := congrArg List.length hsplit
        have := List.length_pos_iff.mpr hne
        rw [joined_nil, List.nil_append, List.length_append] at hlen
        omega
      rw [hout] at hless
      simp only [matching, List.filter_nil, joined_nil, List.nil_append, List.append_nil] at hless ⊢
      rw [hgrep, List.length_append]
      exact ⟨by omega, fun _ => by omega⟩
    · rw [if_neg hnil] at hkeeps
      rw [List.append_assoc] at h0 ⊢
      obtain ⟨hle, hlt⟩ := ih hkeeps hread fun hz => h0 (List.mem_append_right _ hz)
      rw [hout, List.length_append] at hle hlt
      rw [hgrep, List.length_append]
      refine ⟨by omega, fun hex => ?_⟩
      obtain ⟨c, hc, hnl⟩ := hex
      rcases List.mem_cons.mp hc with rfl | hc
      · exfalso
        have hmem : NEWLINE ∈ kept ++ c := by
          rw [hsplit]
          exact List.mem_append_left _ (mem_joined hnil)
        exact (List.mem_append.mp hmem).elim h.plain hnl
      · have := hlt ⟨c, hc, hnl⟩
        omega

theorem keeps_start (h : buf.length = SIZE) : Keeps (State.start buf) [] := ⟨h, rfl, rfl, List.not_mem_nil⟩

/-- **The output is the matching lines, for every pattern, exactly when every chunk has a newline.** -/
theorem grep_iff {chunks : List (List Byte)} (hbuf : buf.length = SIZE) (hls : ∀ l ∈ ls, Short l)
    (hread : ∀ pattern, Delivered pattern (.start buf) chunks (joined ls)) :
    (∀ pattern, grep pattern (.start buf) chunks = joined (matching pattern ls)) ↔ ∀ chunk ∈ chunks, NEWLINE ∈
      chunk := by
  constructor
  · intro hright
    by_contra hmiss
    push Not at hmiss
    have hless := (length_grep (keeps_start hbuf) (hread []) (zero_notMem_joined hls)).2 hmiss
    have hall : matching [] ls = ls := List.filter_eq_self.mpr fun l _ => by
      cases l <;> simp [matchre, match_from, matchhere]
    rw [hright [], hall] at hless
    exact absurd hless (by simp [State.start])
  · intro hall pattern
    exact grep_of_newlines (keeps_start hbuf) (hread pattern) hall rfl hls

/-- A chunk of two lines. -/
theorem grep_two_lines : ∃ buf : List Byte, buf.length = SIZE ∧
    ∀ pattern, grep pattern (.start buf) [joined [[97], [98]]] = joined (matching pattern [[97], [98]]) := by
  have hbuf : (List.replicate SIZE (0 : Byte)).length = SIZE := List.length_replicate
  have hls : ∀ l ∈ [[97], [98]], Short l :=
    List.forall_mem_cons.mpr ⟨⟨by decide, by decide, by decide⟩,
      List.forall_mem_singleton.mpr ⟨by decide, by decide, by decide⟩⟩
  have hread : ∀ pattern, Delivered pattern (.start (List.replicate SIZE 0)) [joined [[97], [98]]]
      (joined [[97], [98]]) :=
    fun pattern => ⟨by decide, by decide, [], (List.append_nil _).symm, .inl rfl⟩
  exact ⟨_, hbuf, (grep_iff hbuf hls hread).mpr (List.forall_mem_singleton.mpr (by decide))⟩

/-- The line `ab` in the chunks `a` and `b` with its newline: what is printed is `b`. -/
theorem grep_loses_chunk : ∃ buf : List Byte, buf.length = SIZE ∧ Short [97, 98] ∧
    Delivered [98] (.start buf) [[97], [98, NEWLINE]] (joined [[97, 98]]) ∧ matching [98] [[97, 98]] = [[97, 98]] ∧
    grep [98] (.start buf) [[97], [98, NEWLINE]] = [98, NEWLINE] := by
  have hbuf : (List.replicate SIZE (0 : Byte)).length = SIZE := List.length_replicate
  -- The first chunk is forgotten, and the second one is a line.
  obtain ⟨hfirst, hout⟩ := body_runs [98] (keeps_start hbuf) (by decide) (show [97].length ≤ _ by decide) (by decide)
    (show [] ++ [97] = joined [] ++ [97] by decide) (fun _ h => by cases h) (by decide)
  have hm : (body [98] (.start (List.replicate SIZE 0)) [97]).m = 0 := hfirst.length
  have hfit : [98, NEWLINE].length ≤ (body [98] (.start (List.replicate SIZE 0)) [97]).request := by
    rw [State.request, hm]
    decide
  obtain ⟨-, hsecond⟩ := body_runs [98] hfirst (by decide) hfit (by decide)
    (show [] ++ [98, NEWLINE] = joined [[98]] ++ [] by decide) (List.forall_mem_singleton.mpr (by decide)) (by decide)
  have hmatch : ∀ l, l = [98] ∨ l = [97, 98] → matching [98] [l] = [l] := by
    rintro l (rfl | rfl) <;> simp [matching, matchre, match_from, matchhere]
  refine ⟨_, hbuf, ⟨by decide, by decide, by decide⟩, ?_, hmatch _ (.inr rfl), ?_⟩
  · exact ⟨by decide, by decide, [98, NEWLINE], rfl, by decide, hfit, [], rfl, .inl rfl⟩
  · refine hsecond.trans ?_
    rw [hout, hmatch _ (.inl rfl)]
    rfl

end Xv6.Grep
