import Xv6.Sh.Grammar

/-! The words of a command, as C strings in the command line: `nulterminate` and `parsecmd`.

All words are in one buffer. The byte after a word is not part of any word, so that to terminate one
leaves the others as they are. -/
namespace Xv6.Sh
open Lib

variable {α β : Type}

/-- The string at `q`. -/
def cstring (buf : List Byte) (q : Nat) : List Byte := (buf.drop q).takeWhile (· != 0)

def Cmd.map (f : α → β) : Cmd α → Cmd β
  | .exec argv => .exec (argv.map f)
  | .redir cmd file mode fd => .redir (cmd.map f) (f file) mode fd
  | .pipe left right => .pipe (left.map f) (right.map f)
  | .list left right => .list (left.map f) (right.map f)
  | .back cmd => .back (cmd.map f)

/-- The words of all nodes, in the order in which they are terminated. -/
def Cmd.words : Cmd α → List α
  | .exec argv => argv
  | .redir cmd file _ _ => cmd.words ++ [file]
  | .pipe left right => left.words ++ right.words
  | .list left right => left.words ++ right.words
  | .back cmd => cmd.words

/-- The argument vectors of all `EXEC` nodes. -/
def Cmd.argvs : Cmd α → List (List α)
  | .exec argv => [argv]
  | .redir cmd _ _ _ => cmd.argvs
  | .pipe left right => left.argvs ++ right.argvs
  | .list left right => left.argvs ++ right.argvs
  | .back cmd => cmd.argvs

/-- The command with its words as the strings in `buf`. -/
def Cmd.strings (buf : List Byte) (cmd : Cmd Span) : Tree := cmd.map fun p => cstring buf p.1

/-! ### Trees that differ in their words -/

theorem map_eq_of_forall₂ {R : α → β → Prop} {f : α → β} {a : List α} {b : List β} (h : List.Forall₂ R a b)
    (hf : ∀ x y, x ∈ a → R x y → f x = y) : a.map f = b := by
  induction h with
  | nil => rfl
  | cons hxy _ ih =>
    rw [List.map_cons, hf _ _ (List.mem_cons_self ..) hxy, ih fun x y hx => hf x y (List.mem_cons_of_mem _ hx)]

theorem exists_of_forall₂ {R : α → β → Prop} {a : List α} {b : List β} (h : List.Forall₂ R a b) {x : α} (hx : x ∈ a) :
    ∃ y ∈ b, R x y := by
  induction h with
  | nil => cases hx
  | @cons x' y' a b hxy _ ih =>
    rcases List.mem_cons.mp hx with rfl | hx
    · exact ⟨y', List.mem_cons_self .., hxy⟩
    · obtain ⟨y, hy, hR⟩ := ih hx
      exact ⟨y, List.mem_cons_of_mem _ hy, hR⟩

namespace Cmd.Rel
variable {R : α → β → Prop} {c : Cmd α} {d : Cmd β}

theorem words (h : Rel R c d) : List.Forall₂ R c.words d.words := by
  induction h with
  | exec h => exact h
  | redir _ hfile ih => exact List.rel_append ih (.cons hfile .nil)
  | pipe _ _ ih ih' => exact List.rel_append ih ih'
  | list _ _ ih ih' => exact List.rel_append ih ih'
  | back _ ih => exact ih

theorem argvs (h : Rel R c d) : List.Forall₂ (fun a b => a.length = b.length) c.argvs d.argvs := by
  induction h with
  | exec h => exact .cons h.length_eq .nil
  | redir _ _ ih => exact ih
  | pipe _ _ ih ih' => exact List.rel_append ih ih'
  | list _ _ ih ih' => exact List.rel_append ih ih'
  | back _ ih => exact ih

theorem map_eq {f : α → β} (h : Rel R c d) (hf : ∀ x y, x ∈ c.words → R x y → f x = y) : c.map f = d := by
  induction h with
  | exec h => rw [Cmd.map, map_eq_of_forall₂ h hf]
  | redir _ hfile ih =>
    rw [Cmd.map, ih fun x y hx => hf x y (List.mem_append_left _ hx),
      hf _ _ (List.mem_append_right _ (List.mem_singleton_self _)) hfile]
  | pipe _ _ ih ih' =>
    rw [Cmd.map, ih fun x y hx => hf x y (List.mem_append_left _ hx),
      ih' fun x y hx => hf x y (List.mem_append_right _ hx)]
  | list _ _ ih ih' =>
    rw [Cmd.map, ih fun x y hx => hf x y (List.mem_append_left _ hx),
      ih' fun x y hx => hf x y (List.mem_append_right _ hx)]
  | back _ ih => rw [Cmd.map, ih hf]

end Cmd.Rel

/-! ### Termination -/

/-- The bytes at `ends` are NUL. -/
def terminate (ends : List Nat) (buf : List Byte) : List Byte := ends.foldl (fun buf i => buf.set i 0) buf

theorem nulterminate_eq (cmd : Cmd Span) (buf : List Byte) :
    nulterminate cmd buf = terminate (cmd.words.map Prod.snd) buf := by
  induction cmd generalizing buf with
  | exec argv => rw [nulterminate, terminate, List.foldl_map, Cmd.words]
  | redir cmd file mode fd ih =>
    rw [nulterminate, ih, Cmd.words, List.map_append, terminate, terminate, List.foldl_append]
    rfl
  | pipe left right ih ih' =>
    rw [nulterminate, ih, ih', Cmd.words, List.map_append, terminate, terminate, terminate, List.foldl_append]
  | list left right ih ih' =>
    rw [nulterminate, ih, ih', Cmd.words, List.map_append, terminate, terminate, terminate, List.foldl_append]
  | back cmd ih => exact ih buf

theorem getElem?_terminate (ends : List Nat) (buf : List Byte) (i : Nat) :
    (terminate ends buf)[i]? = if i ∈ ends then buf[i]?.map fun _ => 0 else buf[i]? := by
  induction ends generalizing buf with
  | nil => rfl
  | cons e ends ih =>
    have hset : (buf.set e 0)[i]? = if e = i then buf[i]?.map fun _ => 0 else buf[i]? := by
      rw [List.getElem?_set']
      rfl
    rw [terminate, List.foldl_cons, ← terminate, ih, hset]
    by_cases he : e = i
    · rw [if_pos he, if_pos (List.mem_cons.mpr (.inl he.symm)), Option.map_map]
      split
      · rfl
      · rfl
    · have hmem : i ∈ e :: ends ↔ i ∈ ends := List.mem_cons.trans (or_iff_right (Ne.symm he))
      simp only [if_neg he, hmem]

variable {str : List Byte} {p : Span} {w : List Byte} {cmd : Cmd Span} {t : Tree}

theorem Spans.getElem? (h : Spans str p w) {i : Nat} (hi : i < w.length) : str[p.1 + i]? = w[i]? := by
  rw [← List.getElem?_drop, h.cut, List.getElem?_append_left hi]

theorem Spans.not_zero (h : Spans str p w) (h0 : 0 ∉ str) : 0 ∉ w := by
  intro hw
  have hmem : 0 ∈ str.drop p.1 := by
    rw [h.cut]
    exact List.mem_append_left _ hw
  exact h0 (List.mem_of_mem_drop hmem)

/-- A word is read back when its end is NUL, and so may the ends of other words be. -/
theorem cstring_terminate (h0 : 0 ∉ str) (h : Spans str p w) {ends : List Nat} (hp : p.2 ∈ ends)
    (hends : ∀ e ∈ ends, ∀ c, (str.drop e).head? = some c → wordByte c = false) :
    cstring (terminate ends (str ++ [0])) p.1 = w := by
  have hword : ∀ i, i < w.length → (terminate ends (str ++ [0]))[p.1 + i]? = w[i]? := by
    intro i hi
    have hlen := h.length
    have hlt : p.1 + i < str.length := Nat.lt_of_lt_of_le (by omega) h.bound
    -- A byte of a word is not the end of a word.
    have hnot : p.1 + i ∉ ends := by
      intro hmem
      have hget := h.getElem? hi
      rw [List.getElem?_eq_getElem hi, ← List.head?_drop] at hget
      have hbyte := hends _ hmem _ hget
      rw [h.bytes _ (List.getElem_mem hi)] at hbyte
      cases hbyte
    rw [getElem?_terminate, if_neg hnot, List.getElem?_append_left hlt, h.getElem? hi]
  have hend : (terminate ends (str ++ [0]))[p.2]? = some 0 := by
    have hlt : p.2 < (str ++ [0]).length := by
      rw [List.length_append]
      exact Nat.lt_succ_of_le h.bound
    rw [getElem?_terminate, if_pos hp, List.getElem?_eq_getElem hlt]
    rfl
  have hdrop : (terminate ends (str ++ [0])).drop p.1 = w ++ 0 :: (terminate ends (str ++ [0])).drop (p.2 + 1) := by
    refine List.ext_getElem? fun i => ?_
    rw [List.getElem?_drop]
    rcases Nat.lt_trichotomy i w.length with hi | rfl | hi
    · rw [hword i hi, List.getElem?_append_left hi]
    · rw [h.length, hend, List.getElem?_append_right (Nat.le_refl _), Nat.sub_self]
      rfl
    · obtain ⟨k, rfl⟩ := Nat.exists_eq_add_of_lt hi
      rw [List.getElem?_append_right (by omega), show w.length + k + 1 - w.length = k + 1 by omega,
        List.getElem?_cons_succ,
        List.getElem?_drop, ← h.length]
      congr 1
      omega
  have hall : ∀ c ∈ w, (c != 0) = true := fun c hc => bne_iff_ne.mpr fun he => h.not_zero h0 (he ▸ hc)
  rw [cstring, hdrop, List.takeWhile_append_of_pos hall, List.takeWhile_cons_of_neg (by decide), List.append_nil]

/-- After `nulterminate`, every word is the string at its start. -/
theorem strings_nulterminate (h0 : 0 ∉ str) (h : cmd.Rel (WordAt str) t) {x : Span} (hx : x ∈ cmd.words)
    (hw : WordAt str x w) :
    cstring (nulterminate cmd (str ++ [0])) x.1 = w := by
  rw [nulterminate_eq]
  refine cstring_terminate h0 hw.toSpans (List.mem_map_of_mem hx) fun e he => ?_
  obtain ⟨y, hy, rfl⟩ := List.mem_map.mp he
  obtain ⟨v, -, hv⟩ := exists_of_forall₂ h.words hy
  exact hv.ends

/-! ### `parsecmd` -/

theorem parsecmd_sound (h0 : 0 ∉ str) :
    Runs (parsecmd str) 0 (fun r _ => ∃ t, Line (tokens str) t ∧ r.1.Rel (WordAt str) t ∧
      r.2 = nulterminate r.1 (str ++ [0])) fun e => e ≠ .fuel := by
  have hlen := length_tokens_le str
  refine ((sound h0 _).1 str.length (Nat.le_refl _) 0 _ (.start str) hlen).bind fun c s hc => ?_
  obtain ⟨us, vs, t, hts, hus, hs, hc⟩ := hc
  refine (peek_runs h0 (by decide) hs).bind fun b u hb => Runs.bind_get ?_
  refine Runs.ite (fun _ => Runs.throw fun hc => by cases hc) fun hu => Runs.pure ⟨t, ?_, hc, rfl⟩
  rw [hts, hb.2.2.mp (not_not.mp hu), List.append_nil]
  exact hus

theorem parsecmd_complete (h0 : 0 ∉ str) (h : Line (tokens str) t) :
    Runs (parsecmd str) 0 (fun r _ => r.1.Rel (WordAt str) t ∧ r.2 = nulterminate r.1 (str ++ [0]))
      fun _ => False := by
  have hlen := length_tokens_le str
  have hat : At str 0 (tokens str ++ []) := by
    rw [List.append_nil]
    exact .start str
  refine ((complete h0 _).1 str.length (Nat.le_refl _) 0 _ [] t h (.inl rfl) hat hlen).bind fun c s hc => ?_
  refine (peek_runs h0 (by decide) hc.2).bind fun b u hb => Runs.bind_get ?_
  rw [if_neg (not_not.mpr (hb.2.2.mpr rfl))]
  exact Runs.pure ⟨hc.1, rfl⟩

/-- At most `MAXARGS - 1` words are in an argument vector. -/
theorem Line.argvs_short {ts : List Token} (h : Line ts t) : ∀ argv ∈ t.argvs, argv.length < MAXARGS := by
  have happend : ∀ {a b : List (List (List Byte))}, (∀ argv ∈ a, argv.length < MAXARGS) →
      (∀ argv ∈ b, argv.length < MAXARGS) → ∀ argv ∈ a ++ b, argv.length < MAXARGS :=
    fun ha hb => List.forall_mem_append.mpr ⟨ha, hb⟩
  refine h.rule (P := fun t => ∀ argv ∈ t.argvs, argv.length < MAXARGS) (fun ws hws => ?_) (fun _ _ _ _ _ ht => ht)
    (fun _ _ => happend) (fun _ _ => happend) fun _ ht => ht
  exact List.forall_mem_singleton.mpr hws

theorem Cmd.Rel.strings (h0 : 0 ∉ str) (h : cmd.Rel (WordAt str) t) :
    cmd.strings (nulterminate cmd (str ++ [0])) = t :=
  h.map_eq fun _ _ hx hw => strings_nulterminate h0 h hx hw

theorem parsecmd_of_line (h0 : 0 ∉ str) (h : Line (tokens str) t) :
    ∃ cmd buf s, parsecmd str 0 = .ok ((cmd, buf), s) ∧ cmd.strings buf = t := by
  obtain ⟨⟨cmd, buf⟩, s, hok, hrel, hbuf⟩ := (parsecmd_complete h0 h).answers
  dsimp only at hrel hbuf
  exact ⟨cmd, buf, s, hok, by rw [hbuf, hrel.strings h0]⟩

/-- The parser accepts exactly the grammar, and returns the tree of the derivation. -/
theorem parsecmd_iff_line (h0 : 0 ∉ str) : parsecmd str 0 ≠ .error .fuel ∧
    ∀ t, (∃ cmd buf s, parsecmd str 0 = .ok ((cmd, buf), s) ∧ cmd.strings buf = t) ↔ Line (tokens str) t := by
  refine ⟨fun hfuel => (parsecmd_sound h0).of_error hfuel rfl, fun t => ⟨?_, parsecmd_of_line h0⟩⟩
  · rintro ⟨cmd, buf, s, hok, rfl⟩
    obtain ⟨t, ht, hrel, hbuf⟩ := (parsecmd_sound h0).of_ok hok
    dsimp only at hrel hbuf
    rw [hbuf, hrel.strings h0]
    exact ht

/-- `a<b|c&` -/
def sample : List Byte := ['a', '<', 'b', '|', 'c', '&'].map ascii

theorem line_sample :
    Line (tokens sample) (.back (.pipe (.redir (.exec [[ascii 'a']]) [ascii 'b'] O_RDONLY 0)
      (.exec [[ascii 'c']]))) := by
  have htokens : tokens sample = [.word [ascii 'a'], .less, .word [ascii 'b'], .bar, .word [ascii 'c'], .amp] := by
    simp [sample, tokens, lex, ascii, strchr, whitespace, symbols, wordByte]
  rw [htokens]
  have hleft : Exec [.word [ascii 'a'], .less, .word [ascii 'b']]
      (.redir (.exec [[ascii 'a']]) [ascii 'b'] O_RDONLY 0) :=
    .args .nil (.cons (.cons rfl .nil) .nil) (by decide)
  have hright : Exec [.word [ascii 'c']] (.exec [[ascii 'c']]) := .args .nil (.cons .nil .nil) (by decide)
  exact .pipe 1 (.pipe hleft (.exec hright))

theorem parsecmd_sample : 0 ∉ sample ∧ ∃ cmd buf s, parsecmd sample 0 = .ok ((cmd, buf), s) ∧
    cmd.strings buf = .back (.pipe (.redir (.exec [[ascii 'a']]) [ascii 'b'] O_RDONLY 0) (.exec [[ascii 'c']])) :=
  ⟨by decide, ((parsecmd_iff_line (by decide)).2 _).mpr line_sample⟩

/-- Each word is the string at its start, and each argument vector has room for the zero after its words. -/
theorem parsecmd_words (h0 : 0 ∉ str) {buf : List Byte} {s : Nat} (h : parsecmd str 0 = .ok ((cmd, buf), s)) :
    (∀ p ∈ cmd.words, WordAt str p (cstring buf p.1)) ∧ ∀ argv ∈ cmd.argvs, argv.length < MAXARGS := by
  obtain ⟨t, ht, hrel, hbuf⟩ := (parsecmd_sound h0).of_ok h
  dsimp only at hrel hbuf
  refine ⟨fun p hp => ?_, fun argv hargv => ?_⟩
  · obtain ⟨w, -, hw⟩ := exists_of_forall₂ hrel.words hp
    rw [hbuf, strings_nulterminate h0 hrel hp hw]
    exact hw
  · obtain ⟨ws, hws, hlen⟩ := exists_of_forall₂ hrel.argvs hargv
    rw [hlen]
    exact ht.argvs_short ws hws

theorem parsecmd_words_sample : ∃ cmd buf s, parsecmd sample 0 = .ok ((cmd, buf), s) ∧
    (∀ p ∈ cmd.words, WordAt sample p (cstring buf p.1)) ∧ ∀ argv ∈ cmd.argvs, argv.length < MAXARGS := by
  have h0 : 0 ∉ sample := by decide
  obtain ⟨cmd, buf, s, hok, -⟩ := parsecmd_of_line h0 line_sample
  exact ⟨cmd, buf, s, hok, parsecmd_words h0 hok⟩

end Xv6.Sh
