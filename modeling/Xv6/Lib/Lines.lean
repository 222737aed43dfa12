import Mathlib.Data.List.Basic
import Mathlib.Data.List.TakeWhile

/-! Lines of a text.

A separator ends a line; what follows the last separator is a line too, unless it is empty. -/
namespace Xv6.Lib

open List

section Separator
variable {α : Type} [DecidableEq α] (sep : α)

/-- The lines of a text, without their separators. -/
def lines : List α → List (List α)
  | [] => []
  | c :: rest =>
    if c = sep then [] :: lines rest
    else
      match lines rest with
      | [] => [[c]]
      | l :: ls => (c :: l) :: ls

/-- What stands before the first separator. -/
def firstLine (l : List α) : List α := l.takeWhile (· ≠ sep)

variable {sep} {l : List α}

theorem firstLine_cons_sep : firstLine sep (sep :: l) = [] :=
  takeWhile_cons_of_neg (by simp)

theorem firstLine_cons {c : α} (h : c ≠ sep) : firstLine sep (c :: l) = c :: firstLine sep l :=
  takeWhile_cons_of_pos (by simpa using h)

theorem firstLine_isPrefix : firstLine sep l <+: l := takeWhile_prefix _

theorem length_firstLine_le : (firstLine sep l).length ≤ l.length := firstLine_isPrefix.length_le

theorem firstLine_eq_take : firstLine sep l = l.take (firstLine sep l).length :=
  List.prefix_iff_eq_take.mp firstLine_isPrefix

theorem firstLine_take (l : List α) (n : Nat) : firstLine sep (l.take n) = (firstLine sep l).take n := by
  induction l generalizing n with
  | nil => rw [take_nil, firstLine, takeWhile_nil, take_nil]
  | cons c rest ih =>
    cases n with
    | zero => rfl
    | succ n =>
      by_cases hc : c = sep
      · rw [take_succ_cons, hc, firstLine_cons_sep, firstLine_cons_sep, take_nil]
      · rw [take_succ_cons, firstLine_cons hc, firstLine_cons hc, ih, take_succ_cons]

theorem lines_eq_nil : lines sep l = [] ↔ l = [] := by
  cases l with
  | nil => exact iff_of_true rfl rfl
  | cons c rest =>
    refine iff_of_false (fun h => ?_) (cons_ne_nil _ _)
    rw [lines] at h
    split at h
    · cases h
    · split at h <;> cases h

/-- The first line, and the lines after its separator. -/
theorem lines_eq (h : l ≠ []) :
    lines sep l = firstLine sep l :: lines sep (l.drop ((firstLine sep l).length + 1)) := by
  induction l with
  | nil => exact absurd rfl h
  | cons c rest ih =>
    rw [lines]
    split
    · rename_i hc
      rw [hc, firstLine_cons_sep]
      rfl
    · rename_i hc
      rw [firstLine_cons hc, length_cons, drop_succ_cons]
      by_cases hr : rest = []
      · subst hr
        rfl
      · rw [ih hr]

/-- Past the first line there is nothing, or its separator. -/
theorem drop_firstLine (sep : α) (l : List α) :
    l.drop (firstLine sep l).length = [] ∨
      l.drop (firstLine sep l).length = sep :: l.drop ((firstLine sep l).length + 1) := by
  induction l with
  | nil => exact .inl rfl
  | cons c rest ih =>
    by_cases hc : c = sep
    · rw [hc, firstLine_cons_sep]
      exact .inr rfl
    · rw [firstLine_cons hc, length_cons, drop_succ_cons, drop_succ_cons]
      exact ih

theorem sep_notMem_firstLine : sep ∉ firstLine sep l := fun h => by
  have := mem_takeWhile_imp h
  simp at this

/-- Induction on the lines of a text. -/
theorem lines_induction (sep : α) {motive : List α → Prop} (hnil : motive [])
    (hline : ∀ l, l ≠ [] → motive (l.drop ((firstLine sep l).length + 1)) → motive l) (l : List α) :
    motive l := by
  induction hn : l.length using Nat.strongRecOn generalizing l with
  | ind n ih =>
    by_cases hl : l = []
    · rw [hl]
      exact hnil
    · refine hline l hl (ih _ ?_ _ rfl)
      have := length_pos_iff.mpr hl
      rw [length_drop]
      omega

theorem sep_notMem_lines {x : List α} (hx : x ∈ lines sep l) : sep ∉ x := by
  induction l using lines_induction sep with
  | hnil => exact absurd hx not_mem_nil
  | hline l hl ih =>
    rw [lines_eq hl] at hx
    rcases mem_cons.mp hx with rfl | hx
    · exact sep_notMem_firstLine
    · exact ih hx

theorem lines_append_sep {a : List α} (h : sep ∉ a) (rest : List α) :
    lines sep (a ++ sep :: rest) = a :: lines sep rest := by
  induction a with
  | nil => rw [nil_append, lines, if_pos rfl]
  | cons c a ih =>
    obtain ⟨hc, ha⟩ := not_or.mp (mt mem_cons.mpr h)
    rw [cons_append, lines, if_neg (Ne.symm hc), ih ha]

/-- Lines put together, each with its separator. -/
theorem lines_flatMap {ls : List (List α)} (h : ∀ x ∈ ls, sep ∉ x) :
    lines sep (ls.flatMap fun x => x ++ [sep]) = ls := by
  induction ls with
  | nil => rfl
  | cons x ls ih =>
    rw [flatMap_cons, append_assoc, singleton_append, lines_append_sep (h x (mem_cons_self ..)),
      ih fun y hy => h y (mem_cons_of_mem _ hy)]

/-! ### Lines that end in a separator -/

variable (sep) in
/-- The lines that end in a separator. -/
def ended (l : List α) : List (List α) :=
  if l.getLast? = some sep then lines sep l else (lines sep l).dropLast

theorem ended_of_drop_nil (h : l.drop (firstLine sep l).length = []) : ended sep l = [] := by
  have hl : firstLine sep l = l := by
    rw [firstLine_eq_take, take_of_length_le (drop_eq_nil_iff.mp h)]
  by_cases hnil : l = []
  · rw [hnil]
    rfl
  have hlast : l.getLast? ≠ some sep := fun he => by
    have hmem := mem_of_getLast? he
    rw [← hl] at hmem
    exact sep_notMem_firstLine hmem
  rw [ended, if_neg hlast, lines_eq hnil, hl, drop_eq_nil_of_le (Nat.le_succ _)]
  rfl

theorem getLast?_of_drop_cons (h : l.drop (firstLine sep l).length = sep :: l.drop ((firstLine sep l).length + 1)) :
    l.getLast? = (sep :: l.drop ((firstLine sep l).length + 1)).getLast? := by
  rw [← List.getLast?_append_cons (l.take (firstLine sep l).length), ← h, take_append_drop]

theorem ended_of_drop_cons (h : l.drop (firstLine sep l).length = sep :: l.drop ((firstLine sep l).length + 1)) :
    ended sep l = firstLine sep l :: ended sep (l.drop ((firstLine sep l).length + 1)) := by
  have hl : l ≠ [] := fun hnil => by
    rw [hnil] at h
    cases h
  rw [ended, ended, getLast?_of_drop_cons h, lines_eq hl]
  generalize l.drop ((firstLine sep l).length + 1) = r
  cases r with
  | nil => rw [List.getLast?_singleton, if_pos rfl]; rfl
  | cons c r =>
    rw [List.getLast?_cons_cons]
    split
    · rfl
    · exact dropLast_cons_of_ne_nil (mt lines_eq_nil.mp (cons_ne_nil _ _))

/-- A last line without a separator is not empty. -/
theorem exists_last_line (hl : l ≠ []) (h : l.getLast? ≠ some sep) : ∃ ls x, lines sep l = ls ++ [x] ∧ x ≠ [] := by
  induction l using lines_induction sep with
  | hnil => exact absurd rfl hl
  | hline l _ ih =>
    rw [lines_eq hl]
    rcases drop_firstLine sep l with hd | hd
    · refine ⟨[], firstLine sep l, ?_, fun hnil => hl ?_⟩
      · rw [drop_eq_nil_of_le (Nat.le_succ_of_le (drop_eq_nil_iff.mp hd))]
        rfl
      · rw [hnil] at hd
        exact hd
    · rw [getLast?_of_drop_cons hd] at h
      generalize l.drop ((firstLine sep l).length + 1) = r at *
      cases r with
      | nil => exact absurd rfl h
      | cons c r =>
        obtain ⟨ls, x, hls, hx⟩ := ih (cons_ne_nil _ _) (by rwa [List.getLast?_cons_cons] at h)
        exact ⟨firstLine sep l :: ls, x, by rw [hls]; rfl, hx⟩

theorem length_lines_le : (lines sep l).length ≤ l.length := by
  induction l with
  | nil => exact Nat.le_refl _
  | cons c rest ih =>
    rw [lines]
    split
    · exact Nat.succ_le_succ ih
    · split
      · exact Nat.succ_le_succ (Nat.zero_le _)
      · rename_i hls
        rw [hls, length_cons] at ih
        exact Nat.le_succ_of_le ih

end Separator

/-! ### Empty lines at the end -/

section Trim
variable {α : Type}

/-- The lines without the empty ones at the end. -/
def trim : List (List α) → List (List α)
  | [] => []
  | x :: ls => if x = [] ∧ trim ls = [] then [] else x :: trim ls

theorem trim_cons {x : List α} (h : x ≠ []) (ls : List (List α)) : trim (x :: ls) = x :: trim ls :=
  if_neg fun hx => h hx.1

theorem trim_of_ne_nil {ls : List (List α)} (h : [] ∉ ls) : trim ls = ls := by
  induction ls with
  | nil => rfl
  | cons x ls ih =>
    obtain ⟨hx, hls⟩ := not_or.mp (mt mem_cons.mpr h)
    rw [trim_cons (Ne.symm hx), ih hls]

theorem trim_concat_nil (ls : List (List α)) : trim (ls ++ [[]]) = trim ls := by
  induction ls with
  | nil => exact if_pos ⟨rfl, rfl⟩
  | cons x ls ih => rw [cons_append, trim, trim, ih]

theorem trim_concat {x : List α} (h : x ≠ []) (ls : List (List α)) : trim (ls ++ [x]) = ls ++ [x] := by
  induction ls with
  | nil => exact trim_cons h []
  | cons y ls ih =>
    have hne : ls ++ [x] ≠ [] := by simp
    rw [cons_append, trim, ih, if_neg fun hy => hne hy.2]

theorem length_trim_le (ls : List (List α)) : (trim ls).length ≤ ls.length := by
  induction ls with
  | nil => exact Nat.le_refl _
  | cons x ls ih =>
    rw [trim]
    split
    · exact Nat.zero_le _
    · exact Nat.succ_le_succ ih

end Trim

end Xv6.Lib
