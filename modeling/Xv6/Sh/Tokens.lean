import Mathlib.Data.List.GetD
import Mathlib.Data.List.TakeWhile
import Mathlib.Tactic.SplitIfs
import Xv6.Sh.Parse

/-! The tokens of a command line, and what `gettoken` and `peek` make of them.

The token sequence of a text is a function of the text alone: white space separates, a word is as long as
possible, and `>>` is one token. `gettoken` takes the first token off the sequence, and `peek` looks at it. -/
namespace Xv6.Sh
open Lib

/-! ### Token sequences -/

inductive Token where
  | bar
  | amp
  | semi
  | lparen
  | rparen
  | less
  | greater
  | append
  | word (w : List Byte)
deriving DecidableEq

/-- What `gettoken` returns for it. -/
def Token.code : Token → Byte
  | bar => ascii '|'
  | amp => ascii '&'
  | semi => ascii ';'
  | lparen => ascii '('
  | rparen => ascii ')'
  | less => ascii '<'
  | greater => ascii '>'
  | append => ascii '+'
  | word _ => ascii 'a'

/-- The token that starts with the byte `c`, and what is after it when `s` is after `c`. -/
def lex (c : Byte) (s : List Byte) : Token × List Byte :=
  if c = ascii '|' then (.bar, s)
  else if c = ascii '&' then (.amp, s)
  else if c = ascii ';' then (.semi, s)
  else if c = ascii '(' then (.lparen, s)
  else if c = ascii ')' then (.rparen, s)
  else if c = ascii '<' then (.less, s)
  else if c = ascii '>' then if s.head? = some (ascii '>') then (.append, s.tail) else (.greater, s)
  else (.word (c :: s.takeWhile wordByte), s.dropWhile wordByte)

theorem lex_length (c : Byte) (s : List Byte) : (lex c s).2.length ≤ s.length := by
  have htail : s.tail.length ≤ s.length := by
    rw [List.length_tail]
    exact Nat.sub_le ..
  have hword : (s.dropWhile wordByte).length ≤ s.length := (List.dropWhile_sublist wordByte).length_le
  unfold lex
  split_ifs
  all_goals first | exact Nat.le_refl _ | exact htail | exact hword

/-- The token sequence of a text. -/
def tokens : List Byte → List Token
  | [] => []
  | c :: s => if strchr whitespace c then tokens s else (lex c s).1 :: tokens (lex c s).2
termination_by s => s.length
decreasing_by
  · exact Nat.lt_succ_self _
  · exact Nat.lt_succ_of_le (lex_length c s)

theorem tokens_nil : tokens [] = [] := by rw [tokens]

theorem tokens_cons {c : Byte} {s : List Byte} (h : strchr whitespace c = false) :
    tokens (c :: s) = (lex c s).1 :: tokens (lex c s).2 := by
  rw [tokens, if_neg (by rw [h]; exact Bool.false_ne_true)]

theorem tokens_dropWhile (s : List Byte) : tokens (s.dropWhile (strchr whitespace)) = tokens s := by
  induction s with
  | nil => rfl
  | cons c s ih =>
    rw [List.dropWhile_cons]
    split
    · rename_i h
      rw [ih, tokens, if_pos h]
    · rfl

theorem length_tokens_le (s : List Byte) : (tokens s).length ≤ s.length := by
  fun_induction tokens s with
  | case1 => exact Nat.le_refl _
  | case2 c s _ ih => exact Nat.le_succ_of_le ih
  | case3 c s _ ih =>
    rw [List.length_cons, List.length_cons]
    exact Nat.succ_le_succ (Nat.le_trans ih (lex_length c s))

/-! ### Scanning -/

variable {str : List Byte} {s : Nat} {ts : List Token} {E : Stop → Prop}

theorem drop_eq_cons (h : s < str.length) : str.drop s = str.getD s 0 :: str.drop (s + 1) := by
  rw [List.drop_eq_getElem_cons h, List.getD_eq_getElem _ _ h]

theorem of_drop_eq_cons {c : Byte} {r : List Byte} (h : str.drop s = c :: r) :
    s < str.length ∧ str.getD s 0 = c ∧ str.drop (s + 1) = r := by
  have hlt : s < str.length := by
    by_contra hge
    rw [List.drop_eq_nil_of_le (Nat.not_lt.mp hge)] at h
    cases h
  rw [drop_eq_cons hlt] at h
  exact ⟨hlt, (List.cons.inj h).1, (List.cons.inj h).2⟩

theorem scan_eq (p : Byte → Bool) {fuel : Nat} (h : str.length - s = fuel) :
    scan p str fuel s = s + ((str.drop s).takeWhile p).length := by
  induction fuel generalizing s with
  | zero =>
    rw [List.drop_eq_nil_of_le (Nat.sub_eq_zero_iff_le.mp h)]
    rfl
  | succ fuel ih =>
    rw [drop_eq_cons (by omega), List.takeWhile_cons, scan]
    split
    · rw [ih (by omega), List.length_cons]
      omega
    · rfl

theorem drop_scan (p : Byte → Bool) : str.drop (scan p str (str.length - s) s) = (str.drop s).dropWhile p := by
  have h : str.drop s = (str.drop s).takeWhile p ++ (str.drop s).dropWhile p := List.takeWhile_append_dropWhile.symm
  rw [scan_eq p rfl, ← List.drop_drop]
  calc (str.drop s).drop ((str.drop s).takeWhile p).length
      = ((str.drop s).takeWhile p ++ (str.drop s).dropWhile p).drop ((str.drop s).takeWhile p).length :=
        congrArg (List.drop ((str.drop s).takeWhile p).length) h
    _ = (str.drop s).dropWhile p := List.drop_left

theorem scan_le (p : Byte → Bool) (hs : s ≤ str.length) : scan p str (str.length - s) s ≤ str.length := by
  have h := (List.takeWhile_sublist p (l := str.drop s)).length_le
  rw [List.length_drop] at h
  rw [scan_eq p rfl]
  omega

theorem drop_skip : str.drop (skip str s) = (str.drop s).dropWhile (strchr whitespace) := drop_scan _

theorem skip_le (hs : s ≤ str.length) : skip str s ≤ str.length := scan_le _ hs

/-! ### A place in the token sequence -/

/-- The tokens from `s` on are `ts`. -/
structure At (str : List Byte) (s : Nat) (ts : List Token) : Prop where
  le : s ≤ str.length
  eq : tokens (str.drop s) = ts
  last : ts <:+ tokens str

theorem At.start (str : List Byte) : At str 0 (tokens str) := ⟨Nat.zero_le _, rfl, List.suffix_refl _⟩

theorem At.skip (h : At str s ts) : At str (skip str s) ts where
  le := skip_le h.le
  eq := by rw [drop_skip, tokens_dropWhile, h.eq]
  last := h.last

/-- After white space there is the end of the text, or the first token. -/
theorem At.next (h : At str s ts) :
    (ts = [] ∧ Sh.skip str s = str.length) ∨
    ∃ c r, str.drop (Sh.skip str s) = c :: r ∧ strchr whitespace c = false ∧
      ts = (lex c r).1 :: tokens (lex c r).2 := by
  have hts := h.skip.eq
  cases hr : str.drop (Sh.skip str s) with
  | nil =>
    rw [hr, tokens_nil] at hts
    exact .inl ⟨hts.symm, Nat.le_antisymm h.skip.le (List.drop_eq_nil_iff.mp hr)⟩
  | cons c r =>
    have hc : strchr whitespace c = false := by
      have hhead := List.head?_dropWhile_not (strchr whitespace) (str.drop s)
      rw [← drop_skip, hr] at hhead
      exact hhead
    rw [hr, tokens_cons hc] at hts
    exact .inr ⟨c, r, rfl, hc, hts.symm⟩

/-! ### Words in the text -/

/-- The word `w` is at `p`, and ends there. -/
structure Spans (str : List Byte) (p : Span) (w : List Byte) : Prop where
  length : p.1 + w.length = p.2
  bound : p.2 ≤ str.length
  cut : str.drop p.1 = w ++ str.drop p.2
  bytes : ∀ c ∈ w, wordByte c = true
  ends : ∀ c, (str.drop p.2).head? = some c → wordByte c = false

/-- The word `w` is a token of the text, which is at `p`. -/
structure WordAt (str : List Byte) (p : Span) (w : List Byte) : Prop extends Spans str p w where
  token : Token.word w :: tokens (str.drop p.2) <:+ tokens str

theorem spans_scan {c : Byte} {r : List Byte} (h : str.drop s = c :: r) (hc : wordByte c = true) :
    Spans str (s, scan wordByte str (str.length - s) s) (c :: r.takeWhile wordByte) := by
  obtain ⟨hlt, -, -⟩ := of_drop_eq_cons h
  have htake : (str.drop s).takeWhile wordByte = c :: r.takeWhile wordByte := by
    rw [h, List.takeWhile_cons_of_pos hc]
  refine ⟨?_, scan_le _ (Nat.le_of_lt hlt), ?_, fun b hb => ?_, fun b hb => ?_⟩
  · rw [scan_eq _ rfl, htake]
  · rw [drop_scan, ← htake, List.takeWhile_append_dropWhile]
  · rw [← htake] at hb
    exact List.mem_takeWhile_imp hb
  · have hhead := List.head?_dropWhile_not wordByte (str.drop s)
    rw [drop_scan] at hb
    rw [hb] at hhead
    exact hhead

/-! ### `gettoken` -/

theorem mem_of_strchr {l : List Byte} {c : Byte} (h : strchr l c = true) : c ∈ l := by
  obtain ⟨b, hb, he⟩ := List.any_eq_true.mp h
  rwa [← eq_of_beq he]

theorem strchr_of_mem {l : List Byte} {c : Byte} (h : c ∈ l) : strchr l c = true :=
  List.any_eq_true.mpr ⟨c, h, beq_self_eq_true c⟩

theorem getD_eq_iff {c : Byte} (hc : c ≠ 0) : str.getD s 0 = c ↔ (str.drop s).head? = some c := by
  rw [List.head?_drop, List.getD_eq_getElem?_getD]
  cases str[s]? with
  | none => exact iff_of_false (Ne.symm hc) (fun h => by cases h)
  | some b => exact ⟨congrArg some, Option.some.inj⟩

theorem lex_word {c : Byte} (hsix : ¬ strchr (['|', '(', ')', ';', '&', '<'].map ascii) c = true)
    (hgreater : c ≠ ascii '>')
    (r : List Byte) :
    lex c r = (.word (c :: r.takeWhile wordByte), r.dropWhile wordByte) ∧ strchr symbols c = false := by
  have hne : ∀ d ∈ ['|', '(', ')', ';', '&', '<'], c ≠ ascii d := fun d hd he =>
    hsix (strchr_of_mem (he ▸ List.mem_map_of_mem hd))
  constructor
  · rw [lex, if_neg (hne '|' (by decide)), if_neg (hne '&' (by decide)), if_neg (hne ';' (by decide)),
      if_neg (hne '(' (by decide)), if_neg (hne ')' (by decide)), if_neg (hne '<' (by decide)), if_neg hgreater]
  · refine Bool.eq_false_iff.mpr fun h => ?_
    obtain ⟨d, hd, he⟩ := List.mem_map.mp (mem_of_strchr h)
    simp only [List.mem_cons, List.not_mem_nil, or_false] at hd
    rcases hd with rfl | rfl | rfl | rfl | rfl | rfl | rfl
    · exact hne '<' (by decide) he.symm
    · exact hne '|' (by decide) he.symm
    · exact hgreater he.symm
    · exact hne '&' (by decide) he.symm
    · exact hne ';' (by decide) he.symm
    · exact hne '(' (by decide) he.symm
    · exact hne ')' (by decide) he.symm

/-- The `switch` finds the first token. -/
theorem token_spec {c : Byte} {r : List Byte} (h : str.drop s = c :: r) (hc : c ≠ 0)
    (hwhite : strchr whitespace c = false) :
    (token str s).1 = (lex c r).1.code ∧ str.drop (token str s).2 = (lex c r).2 ∧ (token str s).2 ≤ str.length ∧
    ∀ w, (lex c r).1 = .word w → Spans str (s, (token str s).2) w := by
  obtain ⟨hlt, hget, hdrop⟩ := of_drop_eq_cons h
  rw [token, hget, if_neg hc]
  by_cases hsix : strchr (['|', '(', ')', ';', '&', '<'].map ascii) c = true
  · rw [if_pos hsix]
    have hmem := mem_of_strchr hsix
    simp only [List.map_cons, List.map_nil, List.mem_cons, List.not_mem_nil, or_false] at hmem
    rcases hmem with rfl | rfl | rfl | rfl | rfl | rfl
    all_goals exact ⟨rfl, hdrop, hlt, fun w hw => by cases hw⟩
  rw [if_neg hsix]
  by_cases hgreater : c = ascii '>'
  · subst hgreater
    have hlex : lex (ascii '>') r = if r.head? = some (ascii '>') then (.append, r.tail) else (.greater, r) := rfl
    have hhead : str.getD (s + 1) 0 = ascii '>' ↔ r.head? = some (ascii '>') := by
      rw [← hdrop]
      exact getD_eq_iff (by decide)
    rw [if_pos rfl, hlex]
    by_cases hnext : r.head? = some (ascii '>')
    · rw [if_pos hnext, if_pos (hhead.mpr hnext)]
      obtain ⟨r', rfl⟩ : ∃ r', r = ascii '>' :: r' := List.head?_eq_some_iff.mp hnext
      obtain ⟨hlt', -, hdrop'⟩ := of_drop_eq_cons hdrop
      exact ⟨rfl, hdrop', hlt', fun w hw => by cases hw⟩
    · rw [if_neg hnext, if_neg fun hc => hnext (hhead.mp hc)]
      exact ⟨rfl, hdrop, hlt, fun w hw => by cases hw⟩
  · obtain ⟨hlex, hsymbol⟩ := lex_word hsix hgreater r
    have hbyte : wordByte c = true := by rw [wordByte, hwhite, hsymbol]; rfl
    have hspans := spans_scan h hbyte
    rw [if_neg hgreater, hlex]
    refine ⟨rfl, ?_, hspans.bound, fun w hw => ?_⟩
    · rw [drop_scan, h, List.dropWhile_cons_of_pos hbyte]
    · obtain rfl := Token.word.inj hw
      exact hspans

theorem gettoken_nil (h : At str s []) :
    Runs (gettoken str) s (fun r t => r.1 = 0 ∧ At str t []) E := by
  obtain ⟨-, hskip⟩ | ⟨c, r, -, -, hts⟩ := h.next
  · have htoken : token str (skip str s) = (0, skip str s) := by
      rw [hskip, token, List.getD_eq_default _ _ (Nat.le_refl _), if_pos rfl]
    refine Runs.bind_get (Runs.bind_ok rfl (Runs.pure ?_))
    dsimp only
    rw [htoken]
    exact ⟨rfl, h.skip.skip⟩
  · cases hts

theorem gettoken_cons (h0 : 0 ∉ str) {t : Token} (h : At str s (t :: ts)) :
    Runs (gettoken str) s (fun r u => r.1 = t.code ∧ At str u ts ∧ ∀ w, t = .word w → WordAt str r.2 w) E := by
  obtain ⟨hts, -⟩ | ⟨c, r, hdrop, hwhite, hts⟩ := h.next
  · cases hts
  · obtain ⟨rfl, rfl⟩ := List.cons.inj hts
    have hc : c ≠ 0 := by
      rintro rfl
      exact h0 (List.mem_of_mem_drop (hdrop ▸ List.mem_cons_self ..))
    obtain ⟨hret, hrest, hle, hspans⟩ := token_spec hdrop hc hwhite
    have hat : At str (token str (skip str s)).2 (tokens (lex c r).2) :=
      ⟨hle, by rw [hrest], (List.suffix_cons ..).trans h.last⟩
    refine Runs.bind_get (Runs.bind_ok rfl (Runs.pure ⟨hret, hat.skip, fun w hw => ⟨hspans w hw, ?_⟩⟩))
    rw [hat.eq, ← hw]
    exact h.last

/-! ### `peek` -/

/-- The first byte of a token that is not a word. -/
def Token.symbol : Token → Option Byte
  | bar => some (ascii '|')
  | amp => some (ascii '&')
  | semi => some (ascii ';')
  | lparen => some (ascii '(')
  | rparen => some (ascii ')')
  | less => some (ascii '<')
  | greater => some (ascii '>')
  | append => some (ascii '>')
  | word _ => none

/-- The first token starts with one of `toks`. -/
def starts (toks : List Char) : List Token → Bool
  | [] => false
  | t :: _ => t.symbol.any (strchr (toks.map ascii))

theorem lex_symbol (c : Byte) (r : List Byte) :
    (lex c r).1.symbol = some c ∨ ((lex c r).1.symbol = none ∧ strchr symbols c = false) := by
  by_cases hsix : strchr (['|', '(', ')', ';', '&', '<'].map ascii) c = true
  · have hmem := mem_of_strchr hsix
    simp only [List.map_cons, List.map_nil, List.mem_cons, List.not_mem_nil, or_false] at hmem
    rcases hmem with rfl | rfl | rfl | rfl | rfl | rfl
    all_goals exact .inl rfl
  by_cases hgreater : c = ascii '>'
  · subst hgreater
    have hlex : lex (ascii '>') r = if r.head? = some (ascii '>') then (.append, r.tail) else (.greater, r) := rfl
    rw [hlex]
    split
    · exact .inl rfl
    · exact .inl rfl
  · obtain ⟨hlex, hsymbol⟩ := lex_word hsix hgreater r
    rw [hlex]
    exact .inr ⟨rfl, hsymbol⟩

theorem peek_runs (h0 : 0 ∉ str) {toks : List Char} (htoks : toks.all fun d => strchr symbols (ascii d))
    (h : At str s ts) :
    Runs (peek str toks) s (fun b u => b = starts toks ts ∧ At str u ts ∧ (u = str.length ↔ ts = [])) E := by
  refine Runs.bind_get (Runs.bind_ok rfl (Runs.pure ⟨?_, h.skip, ?_⟩))
  · obtain ⟨rfl, hskip⟩ | ⟨c, r, hdrop, -, rfl⟩ := h.next
    · rw [hskip, List.getD_eq_default _ _ (Nat.le_refl _)]
      rfl
    · obtain ⟨-, hget, -⟩ := of_drop_eq_cons hdrop
      have hc : c ≠ 0 := by
        rintro rfl
        exact h0 (List.mem_of_mem_drop (hdrop ▸ List.mem_cons_self ..))
      rw [hget, decide_eq_true hc, Bool.true_and, starts]
      rcases lex_symbol c r with hsome | ⟨hnone, hsymbol⟩
      · rw [hsome]
        rfl
      · rw [hnone]
        refine Bool.eq_false_iff.mpr fun hmem => ?_
        obtain ⟨d, hd, rfl⟩ := List.mem_map.mp (mem_of_strchr hmem)
        rw [List.all_eq_true.mp htoks d hd] at hsymbol
        cases hsymbol
  · obtain ⟨rfl, hskip⟩ | ⟨c, r, hdrop, -, rfl⟩ := h.next
    · exact iff_of_true hskip rfl
    · obtain ⟨hlt, -, -⟩ := of_drop_eq_cons hdrop
      exact iff_of_false (Nat.ne_of_lt hlt) (fun hc => by cases hc)

end Xv6.Sh
