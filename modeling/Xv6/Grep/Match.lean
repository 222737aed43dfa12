import Xv6.Lib.Bytes

/-! Matching: `match`, `matchhere` and `matchstar` of `grep.c`.

Patterns and texts are strings without their terminating zero. A pattern is read from left to right into
items, and each item says which words it matches; the functions search all ways to cut the text into words
of the items. -/
namespace Xv6.Grep
open Lib List

abbrev CARET : Byte := 94
abbrev DOLLAR : Byte := 36
abbrev DOT : Byte := 46
abbrev STAR : Byte := 42

/-! ### The functions -/

mutual

/-- Search for `re` at the beginning of `text`. -/
def matchhere (re text : List Byte) : Bool :=
  match re with
  | [] => true
  | c :: re =>
    if re.head? = some STAR then matchstar c re.tail text
    else if c = DOLLAR ∧ re = [] then text = []
    else
      match text with
      | [] => false
      | t :: text => if c = DOT ∨ c = t then matchhere re text else false
termination_by (re.length, text.length, 0)
decreasing_by
  · exact Prod.Lex.left _ _ (by simp only [List.length_tail, List.length_cons]; omega)
  · exact Prod.Lex.left _ _ (Nat.lt_succ_self _)

/-- Search for `c*re` at the beginning of `text`. -/
def matchstar (c : Byte) (re text : List Byte) : Bool :=
  if matchhere re text then true
  else
    match text with
    | [] => false
    | t :: text => if t = c ∨ c = DOT then matchstar c re text else false
termination_by (re.length, text.length, 1)
decreasing_by
  · exact Prod.Lex.right _ (Prod.Lex.right _ Nat.zero_lt_one)
  · exact Prod.Lex.right _ (Prod.Lex.left _ _ (Nat.lt_succ_self _))

end

/-- The loop of `match`: search for `re` anywhere in `text`. -/
def match_from (re : List Byte) : List Byte → Bool
  | [] => matchhere re []
  | t :: text => if matchhere re (t :: text) then true else match_from re text

/-- `match` -/
def matchre (re text : List Byte) : Bool :=
  if re.head? = some CARET then matchhere re.tail text else match_from re text

/-! ### Items -/

inductive Item where
  /-- Zero or more of a character. -/
  | star (c : Byte)
  /-- The end of the text. -/
  | ending
  /-- Any character. -/
  | any
  | char (c : Byte)

/-- The item of a character without a star. -/
def single (c : Byte) : Item := if c = DOT then .any else .char c

/-- The items of a pattern, from left to right. -/
def items : List Byte → List Item
  | [] => []
  | [c] => if c = DOLLAR then [.ending] else [single c]
  | c :: d :: re => if d = STAR then .star c :: items re else single c :: items (d :: re)

/-- The item matches `word` before `rest`. -/
def Item.Matches : Item → List Byte → List Byte → Prop
  | star c, word, _ => ∀ x ∈ word, x = c ∨ c = DOT
  | ending, word, rest => word = [] ∧ rest = []
  | any, word, _ => ∃ x, word = [x]
  | char c, word, _ => word = [c]

/-- The items match, one after another, `word` before `rest`. -/
def Matches : List Item → List Byte → List Byte → Prop
  | [], word, _ => word = []
  | i :: is, word, rest => ∃ u v, word = u ++ v ∧ i.Matches u (v ++ rest) ∧ Matches is v rest

/-- The items match at the beginning of a text. -/
def Starts (is : List Item) (text : List Byte) : Prop := ∃ word rest, text = word ++ rest ∧ Matches is word rest

variable {c d : Byte} {re text : List Byte} {is : List Item}

theorem starts_nil (text : List Byte) : Starts [] text := ⟨[], text, rfl, rfl⟩

/-- The first item takes a word, and the others start after it. -/
theorem starts_cons : Starts (i :: is) text ↔ ∃ u v, text = u ++ v ∧ i.Matches u v ∧ Starts is v := by
  constructor
  · rintro ⟨word, rest, rfl, u, v, rfl, hi, his⟩
    exact ⟨u, v ++ rest, append_assoc .., hi, v, rest, rfl, his⟩
  · rintro ⟨u, _, rfl, hi, v, rest, rfl, his⟩
    exact ⟨u ++ v, rest, (append_assoc ..).symm, u, v, rfl, hi, his⟩

/-- A single character takes the first one of the text. -/
theorem starts_single : Starts (single c :: is) text ↔ ∃ t rest, text = t :: rest ∧ (c = DOT ∨ c = t) ∧ Starts is
    rest := by
  have hsingle : ∀ u v, (single c).Matches u v ↔ ∃ t, u = [t] ∧ (c = DOT ∨ c = t) := by
    intro u v
    by_cases hc : c = DOT
    · rw [single, if_pos hc, Item.Matches]
      simp [hc]
    · rw [single, if_neg hc, Item.Matches]
      constructor
      · exact fun hu => ⟨c, hu, .inr rfl⟩
      · rintro ⟨t, hu, ht⟩
        rw [hu, ht.resolve_left hc]
  rw [starts_cons]
  constructor
  · rintro ⟨u, v, rfl, hi, his⟩
    obtain ⟨t, rfl, ht⟩ := (hsingle u v).mp hi
    exact ⟨t, v, rfl, ht, his⟩
  · rintro ⟨t, rest, rfl, ht, his⟩
    exact ⟨[t], rest, rfl, (hsingle _ _).mpr ⟨t, rfl, ht⟩, his⟩

theorem starts_ending : Starts [.ending] text ↔ text = [] := by
  rw [starts_cons]
  constructor
  · rintro ⟨u, v, rfl, ⟨rfl, rfl⟩, -⟩
    rfl
  · rintro rfl
    exact ⟨[], [], rfl, ⟨rfl, rfl⟩, starts_nil _⟩

theorem starts_star_nil : Starts (.star c :: is) [] ↔ Starts is [] := by
  rw [starts_cons]
  constructor
  · rintro ⟨u, v, h, -, his⟩
    rw [(append_eq_nil_iff.mp h.symm).2] at his
    exact his
  · exact fun h => ⟨[], [], rfl, fun _ hx => absurd hx not_mem_nil, h⟩

/-- A star takes no character, or one and then others. -/
theorem starts_star_cons :
    Starts (.star c :: is) (t :: text) ↔ Starts is (t :: text) ∨ (t = c ∨ c = DOT) ∧ Starts (.star c :: is) text := by
  simp only [starts_cons, cons_eq_append_iff]
  constructor
  · rintro ⟨u, v, ⟨rfl, rfl⟩ | ⟨u, rfl, rfl⟩, hi, his⟩
    · exact .inl his
    · exact .inr ⟨hi t (mem_cons_self ..), u, v, rfl, fun x hx => hi x (mem_cons_of_mem _ hx), his⟩
  · rintro (h | ⟨ht, u, v, rfl, hi, his⟩)
    · exact ⟨[], _, .inl ⟨rfl, rfl⟩, fun _ hx => absurd hx not_mem_nil, h⟩
    · exact ⟨t :: u, v, .inr ⟨u, rfl, rfl⟩, forall_mem_cons.mpr ⟨ht, hi⟩, his⟩

/-! ### The functions search for the items -/

theorem matchstar_iff (h : ∀ text, matchhere re text = true ↔ Starts is text) (c : Byte) (text : List Byte) :
    matchstar c re text = true ↔ Starts (.star c :: is) text := by
  induction text with
  | nil =>
    rw [matchstar, starts_star_nil, ← h]
    simp
  | cons t text ih =>
    rw [matchstar, starts_star_cons, ← h, ← ih]
    simp

theorem matchhere_cons (hstar : re.head? ≠ some STAR) (hend : ¬(c = DOLLAR ∧ re = []))
    (h : ∀ text, matchhere re text = true ↔ Starts is text) (text : List Byte) :
    matchhere (c :: re) text = true ↔ Starts (single c :: is) text := by
  rw [starts_single]
  cases text with
  | nil =>
    rw [matchhere, if_neg hstar, if_neg hend]
    simp
  | cons t text =>
    rw [matchhere, if_neg hstar, if_neg hend]
    simp [h]

/-- `matchhere` searches for the items of the pattern at the beginning of the text. -/
theorem matchhere_iff (re text : List Byte) : matchhere re text = true ↔ Starts (items re) text := by
  induction re using items.induct generalizing text with
  | case1 =>
    rw [matchhere]
    exact iff_of_true rfl (starts_nil _)
  | case2 =>
    rw [items, if_pos rfl, starts_ending]
    cases text with
    | nil => simp [matchhere]
    | cons t text => simp [matchhere]
  | case3 c hc =>
    rw [items, if_neg hc]
    refine matchhere_cons (by simp) (fun h => hc h.1) (fun text => ?_) text
    rw [matchhere]
    exact iff_of_true rfl (starts_nil _)
  | case4 c re ih =>
    rw [items, if_pos rfl, ← matchstar_iff ih]
    cases text with
    | nil => simp [matchhere]
    | cons t text => simp [matchhere]
  | case5 c d re hd ih =>
    rw [items, if_neg hd]
    exact matchhere_cons (by simpa using hd) (by simp) ih text

theorem match_from_iff (re text : List Byte) :
    match_from re text = true ↔ ∃ skipped rest, text = skipped ++ rest ∧ Starts (items re) rest := by
  induction text with
  | nil =>
    rw [match_from, matchhere_iff]
    constructor
    · exact fun h => ⟨[], [], rfl, h⟩
    · rintro ⟨skipped, rest, h, hrest⟩
      rw [(append_eq_nil_iff.mp h.symm).2] at hrest
      exact hrest
  | cons t text ih =>
    have hor : match_from re (t :: text) = true ↔ matchhere re (t :: text) = true ∨ match_from re text = true := by
      rw [match_from]
      simp
    rw [hor, matchhere_iff, ih]
    simp only [cons_eq_append_iff]
    constructor
    · rintro (h | ⟨skipped, rest, rfl, hrest⟩)
      · exact ⟨[], _, .inl ⟨rfl, rfl⟩, h⟩
      · exact ⟨t :: skipped, rest, .inr ⟨skipped, rfl, rfl⟩, hrest⟩
    · rintro ⟨skipped, rest, ⟨rfl, rfl⟩ | ⟨skipped, rfl, rfl⟩, hrest⟩
      · exact .inl hrest
      · exact .inr ⟨skipped, rest, rfl, hrest⟩

/-- The pattern is tied to the beginning of the text. -/
def anchored (re : List Byte) : Bool := re.head? = some CARET

/-- **`match` finds exactly the texts with a word of the pattern's items**, at the beginning of the text if the
pattern starts with `^`. -/
theorem match_iff (re text : List Byte) : matchre re text = true ↔
    ∃ skipped word rest, text = skipped ++ word ++ rest ∧ (anchored re = true → skipped = []) ∧
      Matches (items (if anchored re then re.tail else re)) word rest := by
  rw [matchre, anchored]
  by_cases h : re.head? = some CARET
  · simp only [h, if_true, decide_true, matchhere_iff, Starts]
    constructor
    · rintro ⟨word, rest, rfl, hword⟩
      exact ⟨[], word, rest, rfl, fun _ => rfl, hword⟩
    · rintro ⟨skipped, word, rest, rfl, hskip, hword⟩
      exact ⟨word, rest, by rw [hskip trivial]; rfl, hword⟩
  · simp only [h, if_false, decide_false, match_from_iff, Starts, Bool.false_eq_true, false_implies, true_and]
    constructor
    · rintro ⟨skipped, _, rfl, word, rest, rfl, hword⟩
      exact ⟨skipped, word, rest, (append_assoc ..).symm, hword⟩
    · rintro ⟨skipped, word, rest, rfl, hword⟩
      exact ⟨skipped, _, append_assoc .., word, rest, rfl, hword⟩

end Xv6.Grep
