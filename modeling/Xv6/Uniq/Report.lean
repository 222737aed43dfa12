import Xv6.Uniq.Kernel
import Xv6.Lib.Lines
import Mathlib.Data.List.Destutter

/-! What `uniq` is for: a report on a sequence of lines.

`Run` is what `uniq` remembers: the line of the present run, how long the run is, and whether
it has been printed. The body of the loop of `sys_uniq_kernel`, which works on buffers, is one
step of it. -/
namespace Xv6.Uniq
open Lib Fs List

/-! ### Strings in buffers -/

theorem str_cons_zero (a : List Byte) : str (0 :: a) = [] := takeWhile_cons_of_neg (by decide)

theorem str_cons (h : c ≠ 0) (a : List Byte) : str (c :: a) = c :: str a :=
  takeWhile_cons_of_pos (decide_eq_true h)

theorem str_append_zero (h : 0 ∉ a) (b : List Byte) : str (a ++ 0 :: b) = a := by
  induction a with
  | nil => exact str_cons_zero b
  | cons c a ih =>
    rw [cons_append, str_cons (fun h0 => h (h0 ▸ mem_cons_self ..)),
      ih fun ha => h (mem_cons_of_mem _ ha)]

theorem str_of_notMem (h : 0 ∉ a) : str a = a :=
  takeWhile_eq_self_iff.mpr fun c hc => decide_eq_true fun (h0 : c = 0) => h (h0 ▸ hc)

theorem str_eq_take (a : List Byte) : str a = a.take (strlen a) := prefix_iff_eq_take.mp <| takeWhile_prefix _

theorem strlen_le (a : List Byte) : strlen a ≤ a.length := (takeWhile_sublist _).length_le

theorem notMem_str (a : List Byte) : 0 ∉ str a := fun h => by
  have := mem_takeWhile_imp h
  simp at this

theorem lt_length_poke (h : i ≤ buf.length) (c : Byte) :
    i < (poke buf i c).length := by
  rw [poke, length_append, length_take, length_cons]
  omega

theorem take_poke (h : i ≤ buf.length) (c : Byte) :
    (poke buf i c).take (i + 1) = buf.take i ++ [c] := by
  rw [poke, ← singleton_append, ← append_assoc]
  exact take_left' (by rw [length_append, length_take, Nat.min_eq_left h]; rfl)

theorem str_strcpy (source buf : List Byte) : str (strcpy source buf) = str source :=
  str_append_zero (notMem_str source) _

theorem strcmp_eq_zero (p q : List Byte) : strcmp p q = 0 ↔ str p = str q := by
  have hzero : ∀ c : Byte, c.toNat = 0 ↔ c = 0 := fun c => by rw [← BitVec.toNat_inj]; rfl
  induction p generalizing q with
  | nil =>
    cases q with
    | nil => exact iff_of_true rfl rfl
    | cons d q =>
      rw [strcmp, char, headD_cons]
      by_cases hd : d = 0
      · rw [hd, str_cons_zero]
        exact iff_of_true rfl rfl
      · rw [str_cons hd]
        refine iff_of_false (fun h0 => hd ((hzero d).mp ?_)) (fun h0 => by cases h0)
        omega
  | cons c p ih =>
    have hsub : ∀ d : Byte, (c.toNat : Int) - d.toNat = 0 ↔ c = d := fun d => by
      rw [← BitVec.toNat_inj]
      omega
    cases q with
    | nil =>
      rw [strcmp, char, headD_nil, if_neg (fun h => h.1 h.2), hsub]
      by_cases hc : c = 0
      · rw [hc, str_cons_zero]
        exact iff_of_true rfl rfl
      · rw [str_cons hc]
        exact iff_of_false hc fun h0 => by cases h0
    | cons d q =>
      rw [strcmp, char, headD_cons, tail_cons]
      by_cases hc : c = 0
      · rw [if_neg fun h => h.1 hc, hsub, hc, str_cons_zero]
        by_cases hd : d = 0
        · rw [hd, str_cons_zero]
          exact iff_of_true rfl rfl
        · rw [str_cons hd]
          exact iff_of_false (Ne.symm hd) fun h0 => by cases h0
      · rw [str_cons hc]
        by_cases hcd : c = d
        · rw [if_pos ⟨hc, hcd⟩, ← hcd, str_cons hc, List.cons.injEq]
          exact (ih q).trans (and_iff_right rfl).symm
        · rw [if_neg fun h => hcd h.2, hsub]
          refine iff_of_false hcd fun h0 => hcd ?_
          by_cases hd : d = 0
          · rw [hd, str_cons_zero] at h0
            cases h0
          · rw [str_cons hd] at h0
            exact (List.cons.inj h0).1

theorem notMem_convertToLowercase (h : 0 ∉ s) : 0 ∉ convertToLowercase s := by
  intro h0
  obtain ⟨c, hc, he⟩ := mem_map.mp h0
  split at he
  · rename_i hl
    have : ∀ c : Byte, 65 ≤ c ∧ c ≤ 90 → c + 32 ≠ 0 := by decide
    exact this c hl he
  · exact h (he ▸ hc)

/-! ### Runs of lines -/

structure Run where
  line : List Byte
  length : BitVec 32
  printed : Bool

/-- Before the first line. -/
def Run.start : Run := ⟨[], 1, false⟩

/-- The two lines are not in one run. -/
def Flags.differ (fl : Flags) (a b : List Byte) : Bool :=
  if fl.isCaseInsensitive then convertToLowercase a ≠ convertToLowercase b else a ≠ b

namespace Run
variable (fl : Flags) (r : Run)

/-- The next line: the run it ends is printed, unless the flags say otherwise. -/
def next (line : List Byte) : Run × List Printed :=
  if fl.differ line r.line then
    if r.line = [] then (⟨line, 1, r.printed⟩, [])
    else if fl.isCountFlag then (⟨line, 1, r.printed⟩, [.counted r.length.toInt r.line])
    else if fl.isNoFlag ∧ 1 < r.length.toInt then (⟨line, 1, r.printed⟩, [.line r.line])
    else if fl.isDelete then (⟨line, 1, false⟩, [])
    else (⟨line, 1, r.printed⟩, [.line r.line])
  else if fl.isDelete ∧ r.printed = false then (⟨r.line, r.length + 1, true⟩, [.line r.line])
  else (⟨r.line, r.length + 1, r.printed⟩, [])

/-- The lines one after another. -/
def all : Run → List (List Byte) → Run × List Printed
  | r, [] => (r, [])
  | r, l :: ls => ((all (r.next fl l).1 ls).1, (r.next fl l).2 ++ (all (r.next fl l).1 ls).2)

/-- What is printed at the end. -/
def last : List Printed :=
  if r.line ≠ [] then
    if fl.isCountFlag then [.counted r.length.toInt r.line]
    else if fl.isNoFlag ∨ fl.isCaseInsensitive then [.line r.line]
    else []
  else [.line []]

end Run

/-- All that `uniq` prints about the lines. -/
def report (fl : Flags) (ls : List (List Byte)) : List Printed :=
  (Run.start.all fl ls).2 ++ (Run.start.all fl ls).1.last fl

/-! ### Reports without counts -/

/-- Runs are of equal lines, and neither counted nor printed for being runs. -/
structure Flags.Plain (fl : Flags) : Prop where
  count : fl.isCountFlag = false
  case : fl.isCaseInsensitive = false
  delete : fl.isDelete = false

section Plain
variable {fl : Flags} (h : fl.Plain)
include h

end Plain

/-! ### The loop body -/

/-- The run that the variables of the loop are about. -/
def Vars.run (v : Vars) : Run := ⟨str v.previous_line, v.lineCount, v.isRepeated⟩

theorem isDifferent_eq (fl : Flags) (v : Vars) :
    v.isDifferent fl = fl.differ (str v.current_line) (str v.previous_line) := by
  rw [Vars.isDifferent, Flags.differ]
  split
  · simp only [ne_eq, strcmp_eq_zero, str_of_notMem (notMem_convertToLowercase (notMem_str _))]
  · simp only [ne_eq, strcmp_eq_zero]

theorem strcmp_nil (buf : List Byte) : strcmp buf [] = 0 ↔ str buf = [] := strcmp_eq_zero buf []

/-- The body of the loop takes the run on by the line in `current_line`. -/
theorem uniq_body_run (fl : Flags) (v : Vars) :
    (uniq_body fl v).1.run = (v.run.next fl (str v.current_line)).1 ∧
      (uniq_body fl v).2 = (v.run.next fl (str v.current_line)).2 := by
  have hcopy := str_strcpy v.current_line v.previous_line
  have hdiff := isDifferent_eq fl v
  by_cases hd : fl.differ (str v.current_line) (str v.previous_line) = true
  · by_cases he : str v.previous_line = []
    · rw [he] at hd hdiff
      simp [uniq_body, Run.next, Vars.run, strcmp_nil, hdiff, hd, he, hcopy]
    by_cases hc : fl.isCountFlag = true
    · simp [uniq_body, Run.next, Vars.run, strcmp_nil, hdiff, hd, he, hc, hcopy]
    by_cases hn : fl.isNoFlag = true ∧ 1 < v.lineCount.toInt
    · simp [uniq_body, Run.next, Vars.run, strcmp_nil, hdiff, hd, he, hc, hn, hcopy]
    by_cases hx : fl.isDelete = true
    · simp [uniq_body, Run.next, Vars.run, strcmp_nil, hdiff, hd, he, hc, hn, hx, hcopy]
    · simp [uniq_body, Run.next, Vars.run, strcmp_nil, hdiff, hd, he, hc, hn, hx, hcopy]
  · by_cases hx : fl.isDelete = true ∧ v.isRepeated = false
    · simp [uniq_body, Run.next, Vars.run, hdiff, hd, hx]
    · simp [uniq_body, Run.next, Vars.run, hdiff, hd, hx]

theorem uniq_body_current_line (fl : Flags) (v : Vars) :
    (uniq_body fl v).1.current_line = v.current_line := by
  simp only [uniq_body]
  split
  · split
    · rfl
    split
    · rfl
    split
    · rfl
    split <;> rfl
  · split <;> rfl

theorem uniq_last_run (fl : Flags) (v : Vars) : uniq_last fl v = v.run.last fl := by
  have hiff : strcmp v.previous_line [] ≠ 0 ↔ v.run.line ≠ [] := not_congr (strcmp_nil _)
  by_cases h : v.run.line ≠ []
  · rw [uniq_last, Run.last, if_pos (hiff.mpr h), if_pos h]
    rfl
  · rw [uniq_last, Run.last, if_neg (mt hiff.mp h), if_neg h]

end Xv6.Uniq
