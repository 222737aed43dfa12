import Mathlib.Data.List.Forall2
import Xv6.Sh.Tokens

/-! The grammar of command lines, and the parser that accepts it.

`Line`, `Pipe` and `Exec` derive a tree from a token sequence. The parser is sound: what it has read when
it returns derives the tree that it returns. It is complete: before a token that cannot go on, it reads
what derives a tree, and returns that tree. Each function takes four units of fuel for every token, so
that none ever runs out of it. -/
namespace Xv6.Sh
open Lib

/-! ### The grammar -/

/-- A command with the words themselves. -/
abbrev Tree := Cmd (List Byte)

structure Redirect where
  file : List Byte
  mode : Nat
  fd : Nat

/-- How a redirection opens its file. -/
def Token.opens : Token → Option (Nat × Nat)
  | less => some (O_RDONLY, 0)
  | greater => some (O_WRONLY ||| O_CREATE, 1)
  | append => some (O_WRONLY ||| O_CREATE, 1)
  | _ => none

/-- The command under redirections, the first one innermost. -/
def wrap (rs : List Redirect) (t : Tree) : Tree := rs.foldl (fun t r => .redir t r.file r.mode r.fd) t

/-- One node for each `&`. -/
def backs : Nat → Tree → Tree
  | 0, t => t
  | n + 1, t => backs n (.back t)

/-- `redir*` -/
inductive Redirs : List Token → List Redirect → Prop
  | nil : Redirs [] []
  | cons {t : Token} {w : List Byte} {mode fd : Nat} {ts : List Token} {rs : List Redirect} :
    t.opens = some (mode, fd) → Redirs ts rs → Redirs (t :: .word w :: ts) (⟨w, mode, fd⟩ :: rs)

/-- `(word redir*)*` -/
inductive Args : List Token → List (List Byte) → List Redirect → Prop
  | nil : Args [] [] []
  | cons {w : List Byte} {ts us : List Token} {ws : List (List Byte)} {rs qs : List Redirect} :
    Redirs ts rs → Args us ws qs → Args (.word w :: ts ++ us) (w :: ws) (rs ++ qs)

mutual

/-- `line ::= pipe '&'* [';' line]` -/
inductive Line : List Token → Tree → Prop
  | pipe {ts : List Token} {t : Tree} (n : Nat) : Pipe ts t → Line (ts ++ List.replicate n .amp) (backs n t)
  | list {ts us : List Token} {t u : Tree} (n : Nat) : Pipe ts t → Line us u →
    Line (ts ++ List.replicate n .amp ++ .semi :: us) (.list (backs n t) u)

/-- `pipe ::= exec ['|' pipe]` -/
inductive Pipe : List Token → Tree → Prop
  | exec {ts : List Token} {t : Tree} : Exec ts t → Pipe ts t
  | pipe {ts us : List Token} {t u : Tree} : Exec ts t → Pipe us u → Pipe (ts ++ .bar :: us) (.pipe t u)

/-- `exec ::= '(' line ')' redir*` or `redir* (word redir*)*` with at most `MAXARGS-1` words -/
inductive Exec : List Token → Tree → Prop
  | block {ts us : List Token} {t : Tree} {rs : List Redirect} : Line ts t → Redirs us rs →
    Exec (.lparen :: ts ++ .rparen :: us) (wrap rs t)
  | args {ts us : List Token} {ws : List (List Byte)} {rs qs : List Redirect} : Redirs ts rs → Args us ws qs →
    ws.length ≤ MAXARGS - 1 → Exec (ts ++ us) (wrap (rs ++ qs) (.exec ws))

end

/-! ### Trees with words and with their places -/

variable {α β : Type}

/-- Two commands that differ in their words only, by `R`. -/
inductive Cmd.Rel (R : α → β → Prop) : Cmd α → Cmd β → Prop
  | exec {a : List α} {b : List β} : List.Forall₂ R a b → Rel R (.exec a) (.exec b)
  | redir {c : Cmd α} {d : Cmd β} {x : α} {y : β} {mode fd : Nat} : Rel R c d → R x y →
    Rel R (.redir c x mode fd) (.redir d y mode fd)
  | pipe {c c' : Cmd α} {d d' : Cmd β} : Rel R c d → Rel R c' d' → Rel R (.pipe c c') (.pipe d d')
  | list {c c' : Cmd α} {d d' : Cmd β} : Rel R c d → Rel R c' d' → Rel R (.list c c') (.list d d')
  | back {c : Cmd α} {d : Cmd β} : Rel R c d → Rel R (.back c) (.back d)

theorem Cmd.Rel.addArg {R : α → β → Prop} {c : Cmd α} {d : Cmd β} {x : α} {y : β} (h : Rel R c d) (hxy : R x y) :
    Rel R (c.addArg x) (d.addArg y) := by
  induction h with
  | exec h => exact .exec (List.rel_append h (.cons hxy .nil))
  | redir _ hfile ih => exact .redir ih hfile
  | pipe h h' _ _ => exact .pipe h h'
  | list h h' _ _ => exact .list h h'
  | back h _ => exact .back h

theorem wrap_append (rs qs : List Redirect) (t : Tree) : wrap (rs ++ qs) t = wrap qs (wrap rs t) := List.foldl_append

theorem wrap_addArg (rs : List Redirect) (t : Tree) (w : List Byte) :
    (wrap rs t).addArg w = wrap rs (t.addArg w) := by
  induction rs generalizing t with
  | nil => rfl
  | cons r rs ih => exact ih _

variable {str : List Byte} {s : Nat} {ts us vs : List Token} {cmd : Cmd Span} {t : Tree} {E : Stop → Prop}

/-! ### What follows -/

/-- Nothing is left, or the next token starts with one of `toks`. -/
def Follow (toks : List Char) (ts : List Token) : Prop := ts = [] ∨ starts toks ts = true

theorem starts_eq_true {toks : List Char} (h : starts toks ts = true) :
    ∃ d ∈ toks, ∃ a rest, ts = a :: rest ∧ a.symbol = some (ascii d) := by
  cases ts with
  | nil => cases h
  | cons a rest =>
    obtain ⟨c, ha, hc⟩ := (Option.any_eq_true _ _).mp h
    obtain ⟨d, hd, rfl⟩ := List.mem_map.mp (mem_of_strchr hc)
    exact ⟨d, hd, a, rest, rfl, ha⟩

theorem Follow.not_starts {toks toks' : List Char} (h : Follow toks ts)
    (hd : toks.all fun d => !strchr (toks'.map ascii) (ascii d)) : starts toks' ts = false := by
  rcases h with rfl | h
  · rfl
  · obtain ⟨d, hmem, a, rest, rfl, ha⟩ := starts_eq_true h
    rw [starts, ha]
    simpa using List.all_eq_true.mp hd d hmem

theorem Follow.mono {toks toks' : List Char} (h : Follow toks ts)
    (hd : toks.all fun d => strchr (toks'.map ascii) (ascii d)) : Follow toks' ts := by
  rcases h with rfl | h
  · exact .inl rfl
  · obtain ⟨d, hmem, a, rest, rfl, ha⟩ := starts_eq_true h
    refine .inr ?_
    rw [starts, ha]
    exact List.all_eq_true.mp hd d hmem

/-- The symbols other than `>` are one token each. -/
theorem lex_of_symbol {a : Token} {c : Byte} (ha : a.symbol = some c) (hc : c ≠ ascii '>') : (lex c []).1 = a := by
  cases a with
  | word w => cases ha
  | greater => exact absurd (Option.some.inj ha).symm hc
  | append => exact absurd (Option.some.inj ha).symm hc
  | _ =>
    obtain rfl := Option.some.inj ha
    rfl

theorem starts_symbol {d : Char} {a : Token} (ha : a.symbol = some (ascii d)) (hd : ascii d ≠ ascii '>')
    (h : starts [d] ts = true) : ∃ rest, ts = a :: rest := by
  obtain ⟨d', hd', b, rest, rfl, hb⟩ := starts_eq_true h
  rw [List.mem_singleton.mp hd'] at hb
  exact ⟨rest, by rw [← lex_of_symbol ha hd, ← lex_of_symbol hb hd]⟩

/-! ### Redirections -/

theorem code_eq_word {a : Token} : a.code = ascii 'a' ↔ ∃ w, a = .word w := by
  cases a with
  | word w => exact iff_of_true rfl ⟨w, rfl⟩
  | _ => exact iff_of_false (by decide) (fun ⟨_, hc⟩ => by cases hc)

theorem code_ne_zero (a : Token) : a.code ≠ 0 := by
  cases a with
  | word w => exact (by decide : ascii 'a' ≠ 0)
  | _ => decide

theorem starts_redir (h : starts ['<', '>'] ts = true) :
    ∃ a mode fd rest, ts = a :: rest ∧ a.opens = some (mode, fd) := by
  cases ts with
  | nil => cases h
  | cons a rest =>
    cases a with
    | less => exact ⟨_, _, _, rest, rfl, rfl⟩
    | greater => exact ⟨_, _, _, rest, rfl, rfl⟩
    | append => exact ⟨_, _, _, rest, rfl, rfl⟩
    | _ => cases h

theorem starts_of_opens {a : Token} {p : Nat × Nat} (h : a.opens = some p) : starts ['<', '>'] (a :: ts) = true := by
  cases a with
  | less => rfl
  | greater => rfl
  | append => rfl
  | _ => cases h

theorem starts_of_opens_ne {a : Token} {p : Nat × Nat} (h : a.opens = some p) : starts ['('] (a :: ts) = false := by
  cases a with
  | word w => cases h
  | lparen => cases h
  | _ => rfl

theorem parseredirs_stop (h0 : 0 ∉ str) {fuel : Nat} (h : At str s ts) (hstop : starts ['<', '>'] ts = false) :
    Runs (parseredirs str (fuel + 1) cmd) s (fun c u => c = cmd ∧ At str u ts) E := by
  refine (peek_runs h0 (by decide) h).bind fun b u hb => ?_
  obtain ⟨rfl, hu, -⟩ := hb
  rw [hstop, if_neg Bool.false_ne_true]
  exact Runs.pure ⟨rfl, hu⟩

/-- A turn of `parseredirs`. -/
theorem parseredirs_turn (h0 : 0 ∉ str) {fuel mode fd : Nat} {a : Token} {w : List Byte} {Q : Cmd Span → Nat → Prop}
    (h : At str s (a :: .word w :: ts)) (ha : a.opens = some (mode, fd))
    (hrest : ∀ p u, WordAt str p w → At str u ts → Runs (parseredirs str fuel (.redir cmd p mode fd)) u Q E) :
    Runs (parseredirs str (fuel + 1) cmd) s Q E := by
  refine (peek_runs h0 (by decide) h).bind fun b u hb => ?_
  obtain ⟨rfl, hu, -⟩ := hb
  rw [starts_of_opens ha, if_pos rfl]
  refine (gettoken_cons h0 hu).bind fun r v hr => ?_
  obtain ⟨htok, hv, -⟩ := hr
  refine (gettoken_cons h0 hv).bind fun r' x hr' => ?_
  obtain ⟨hret, hx, hspans⟩ := hr'
  have hnext := hrest r'.2 x (hspans w rfl) hx
  dsimp only
  rw [hret, htok, if_neg (show ¬ (Token.word w).code ≠ ascii 'a' from not_not.mpr rfl)]
  cases a with
  | less =>
    obtain ⟨rfl, rfl⟩ := Prod.mk.inj (Option.some.inj ha)
    exact hnext
  | greater =>
    obtain ⟨rfl, rfl⟩ := Prod.mk.inj (Option.some.inj ha)
    exact hnext
  | append =>
    obtain ⟨rfl, rfl⟩ := Prod.mk.inj (Option.some.inj ha)
    exact hnext
  | _ => cases ha

theorem parseredirs_sound (h0 : 0 ∉ str) {fuel : Nat} (h : At str s ts) (hfuel : ts.length < fuel)
    (hcmd : cmd.Rel (WordAt str) t) :
    Runs (parseredirs str fuel cmd) s (fun c u => ∃ us vs rs, ts = us ++ vs ∧ Redirs us rs ∧ At str u vs ∧
      c.Rel (WordAt str) (wrap rs t)) fun e => e ≠ .fuel := by
  induction fuel generalizing s ts cmd t with
  | zero => exact absurd hfuel (Nat.not_lt_zero _)
  | succ fuel ih =>
    by_cases hstart : starts ['<', '>'] ts = true
    · obtain ⟨a, mode, fd, rest, rfl, ha⟩ := starts_redir hstart
      by_cases hword : ∃ w us, rest = .word w :: us
      · obtain ⟨w, us, rfl⟩ := hword
        refine parseredirs_turn h0 h ha fun p u hp hu => ?_
        have hlen : us.length < fuel := by
          simp only [List.length_cons] at hfuel
          omega
        refine (ih hu hlen (.redir hcmd hp)).post fun c v hc => ?_
        obtain ⟨xs, vs, rs, rfl, hrs, hv, hc⟩ := hc
        exact ⟨a :: .word w :: xs, vs, ⟨w, mode, fd⟩ :: rs, rfl, .cons ha hrs, hv, hc⟩
      · -- There is no word after the symbol.
        have hpanic : ∀ {c : Prop} [Decidable c] {x : M (Cmd Span)} {Q : Cmd Span → Nat → Prop} {u : Nat}, c →
            Runs (if c then panic "missing file for redirection" else x) u Q fun e => e ≠ .fuel := by
          intro c _ x Q u hc
          rw [if_pos hc]
          exact Runs.throw fun hc => by cases hc
        refine (peek_runs h0 (by decide) h).bind fun b u hb => ?_
        obtain ⟨rfl, hu, -⟩ := hb
        rw [hstart, if_pos rfl]
        refine (gettoken_cons h0 hu).bind fun r v hr => ?_
        obtain ⟨-, hv, -⟩ := hr
        cases rest with
        | nil =>
          refine (gettoken_nil hv).bind fun r' x hr' => hpanic ?_
          rw [hr'.1]
          decide
        | cons b rest =>
          refine (gettoken_cons h0 hv).bind fun r' x hr' => hpanic ?_
          rw [hr'.1]
          intro hcode
          obtain ⟨w, rfl⟩ := code_eq_word.mp hcode
          exact hword ⟨w, rest, rfl⟩
    · refine (parseredirs_stop h0 h (Bool.eq_false_iff.mpr hstart)).post fun c u hc => ?_
      obtain ⟨rfl, hu⟩ := hc
      exact ⟨[], ts, [], rfl, .nil, hu, hcmd⟩

theorem parseredirs_complete (h0 : 0 ∉ str) {fuel : Nat} {rs : List Redirect} (hus : Redirs us rs)
    (hstop : starts ['<', '>'] vs = false) (h : At str s (us ++ vs)) (hfuel : us.length < fuel)
    (hcmd : cmd.Rel (WordAt str) t) :
    Runs (parseredirs str fuel cmd) s (fun c u => c.Rel (WordAt str) (wrap rs t) ∧ At str u vs) E := by
  induction hus generalizing s fuel cmd t with
  | nil =>
    obtain ⟨fuel, rfl⟩ : ∃ k, fuel = k + 1 := ⟨fuel - 1, by omega⟩
    refine (parseredirs_stop h0 h hstop).post fun c u hc => ?_
    obtain ⟨rfl, hu⟩ := hc
    exact ⟨hcmd, hu⟩
  | cons ha hrest ih =>
    obtain ⟨fuel, rfl⟩ : ∃ k, fuel = k + 1 := ⟨fuel - 1, by omega⟩
    refine parseredirs_turn h0 h ha fun p u hp hu => ih hu ?_ (.redir hcmd hp)
    simp only [List.length_cons] at hfuel
    omega

/-! ### Words -/

theorem parseexec_args_stop (h0 : 0 ∉ str) {fuel argc : Nat} (h : At str s ts)
    (hstop : Follow ['|', ')', '&', ';'] ts) :
    Runs (parseexec_args str (fuel + 1) cmd argc) s (fun c u => c = cmd ∧ At str u ts) E := by
  refine (peek_runs h0 (by decide) h).bind fun b u hb => ?_
  obtain ⟨rfl, hu, -⟩ := hb
  rcases hstop with rfl | hstop
  · refine (gettoken_nil hu).bind fun r v hr => ?_
    dsimp only
    rw [hr.1, if_pos rfl]
    exact Runs.pure ⟨rfl, hr.2⟩
  · rw [hstop, if_pos rfl]
    exact Runs.pure ⟨rfl, hu⟩

/-- A turn of the loop, up to the redirections after the word. -/
theorem parseexec_args_turn (h0 : 0 ∉ str) {fuel argc : Nat} {w : List Byte} {Q : Cmd Span → Nat → Prop}
    (h : At str s (.word w :: ts)) (hargc : argc + 1 < MAXARGS)
    (hrest : ∀ p u, WordAt str p w → At str u ts →
      Runs (parseredirs str fuel (cmd.addArg p) >>= fun ret => parseexec_args str fuel ret (argc + 1)) u Q E) :
    Runs (parseexec_args str (fuel + 1) cmd argc) s Q E := by
  refine (peek_runs h0 (by decide) h).bind fun b u hb => ?_
  obtain ⟨rfl, hu, -⟩ := hb
  refine (gettoken_cons h0 hu).bind fun r v hr => ?_
  obtain ⟨htok, hv, hspans⟩ := hr
  have hnext := hrest r.2 v (hspans w rfl) hv
  dsimp only
  rw [htok, if_neg (code_ne_zero _), if_neg (show ¬ (Token.word w).code ≠ ascii 'a' from not_not.mpr rfl),
    if_neg (Nat.not_le.mpr hargc)]
  exact hnext

theorem parseexec_args_sound (h0 : 0 ∉ str) {fuel : Nat} {rs : List Redirect} {ws : List (List Byte)}
    (h : At str s ts)
    (hfuel : ts.length < fuel) (hws : ws.length < MAXARGS) (hcmd : cmd.Rel (WordAt str) (wrap rs (.exec ws))) :
    Runs (parseexec_args str fuel cmd ws.length) s (fun c u => ∃ us vs ws' qs, ts = us ++ vs ∧ Args us ws' qs ∧
      (ws ++ ws').length < MAXARGS ∧ At str u vs ∧ c.Rel (WordAt str) (wrap (rs ++ qs) (.exec (ws ++ ws'))))
      fun e => e ≠ .fuel := by
  induction fuel generalizing s ts cmd rs ws with
  | zero => exact absurd hfuel (Nat.not_lt_zero _)
  | succ fuel ih =>
    by_cases hstop : Follow ['|', ')', '&', ';'] ts
    · refine (parseexec_args_stop h0 h hstop).post fun c u hc => ?_
      obtain ⟨rfl, hu⟩ := hc
      refine ⟨[], ts, [], [], rfl, .nil, ?_, hu, ?_⟩
      · rw [List.append_nil]
        exact hws
      · rw [List.append_nil, List.append_nil]
        exact hcmd
    obtain ⟨hnil, hstart⟩ := not_or.mp hstop
    obtain ⟨a, rest, rfl⟩ := List.exists_cons_of_ne_nil hnil
    by_cases hgood : (∃ w, a = .word w) ∧ ws.length + 1 < MAXARGS
    · obtain ⟨⟨w, rfl⟩, hargc⟩ := hgood
      refine parseexec_args_turn h0 h hargc fun p u hp hu => ?_
      have hadd := hcmd.addArg hp
      rw [wrap_addArg] at hadd
      have hlen : rest.length < fuel := Nat.lt_of_succ_lt_succ hfuel
      refine (parseredirs_sound h0 hu hlen hadd).bind fun c v hc => ?_
      obtain ⟨xs, vs, qs, rfl, hqs, hv, hc⟩ := hc
      rw [← wrap_append] at hc
      have hargs := ih hv (by rw [List.length_append] at hlen; omega)
        (by rw [List.length_append]; exact hargc) hc
      rw [List.length_append] at hargs
      refine hargs.post fun d x hd => ?_
      obtain ⟨ys, zs, ws', qs', rfl, hys, hws', hx, hd⟩ := hd
      refine ⟨.word w :: xs ++ ys, zs, w :: ws', qs ++ qs', ?_, .cons hqs hys, ?_, hx, ?_⟩
      · rw [List.cons_append, List.cons_append, List.append_assoc]
      · rw [List.append_assoc, List.singleton_append] at hws'
        exact hws'
      · rw [List.append_assoc, List.append_assoc, List.singleton_append] at hd
        exact hd
    · -- A symbol, or one word too many.
      refine (peek_runs h0 (by decide) h).bind fun b u hb => ?_
      obtain ⟨rfl, hu, -⟩ := hb
      rw [if_neg hstart]
      refine (gettoken_cons h0 hu).bind fun r v hr => ?_
      dsimp only
      rw [hr.1, if_neg (code_ne_zero a)]
      refine Runs.ite (fun _ => Runs.throw fun hc => by cases hc) fun hcode => ?_
      refine Runs.ite (fun _ => Runs.throw fun hc => by cases hc) fun hargc => ?_
      exact absurd ⟨code_eq_word.mp (not_not.mp hcode), Nat.not_le.mp hargc⟩ hgood

/-- A word or the end of the command is next. -/
theorem Args.follow {ws : List (List Byte)} {qs : List Redirect} (h : Args us ws qs)
    (hvs : Follow ['|', ')', '&', ';'] vs)
    {toks : List Char} (hd : ['|', ')', '&', ';'].all fun d => !strchr (toks.map ascii) (ascii d)) :
    starts toks (us ++ vs) = false := by
  cases h with
  | nil => exact hvs.not_starts hd
  | cons => rfl

theorem parseexec_args_complete (h0 : 0 ∉ str) {fuel : Nat} {rs qs : List Redirect} {ws ws' : List (List Byte)}
    (hus : Args us ws' qs) (hstop : Follow ['|', ')', '&', ';'] vs) (h : At str s (us ++ vs))
    (hfuel : us.length < fuel) (hws : (ws ++ ws').length < MAXARGS)
      (hcmd : cmd.Rel (WordAt str) (wrap rs (.exec ws))) :
    Runs (parseexec_args str fuel cmd ws.length) s (fun c u =>
      c.Rel (WordAt str) (wrap (rs ++ qs) (.exec (ws ++ ws'))) ∧ At str u vs) E := by
  induction hus generalizing s fuel cmd rs ws with
  | nil =>
    obtain ⟨fuel, rfl⟩ : ∃ k, fuel = k + 1 := ⟨fuel - 1, by omega⟩
    refine (parseexec_args_stop h0 h hstop).post fun c u hc => ?_
    obtain ⟨rfl, hu⟩ := hc
    rw [List.append_nil, List.append_nil]
    exact ⟨hcmd, hu⟩
  | @cons w xs ys ws' rs' qs' hxs hys ih =>
    obtain ⟨fuel, rfl⟩ : ∃ k, fuel = k + 1 := ⟨fuel - 1, by omega⟩
    simp only [List.cons_append, List.length_cons, List.length_append, List.append_assoc] at h hfuel hws
    refine parseexec_args_turn h0 h (by omega) fun p u hp hu => ?_
    have hadd := hcmd.addArg hp
    rw [wrap_addArg] at hadd
    refine (parseredirs_complete h0 hxs (hys.follow hstop (by decide)) hu (by omega) hadd).bind fun c v hc => ?_
    rw [← wrap_append] at hc
    have hargs := ih hc.2 (show ys.length < fuel by omega)
        (by simp only [List.length_append, List.length_singleton]; omega) hc.1
    rw [List.length_append, List.append_assoc, List.append_assoc] at hargs
    exact hargs

/-! ### Lines -/

theorem parseline_back_turn (h0 : 0 ∉ str) {fuel : Nat} {Q : Cmd Span → Nat → Prop} (h : At str s (.amp :: ts))
    (hrest : ∀ u, At str u ts → Runs (parseline_back str fuel (.back cmd)) u Q E) :
    Runs (parseline_back str (fuel + 1) cmd) s Q E := by
  refine (peek_runs h0 (by decide) h).bind fun b u hb => ?_
  obtain ⟨rfl, hu, -⟩ := hb
  exact (gettoken_cons h0 hu).bind fun r v hr => hrest v hr.2.1

theorem parseline_back_stop (h0 : 0 ∉ str) {fuel : Nat} (h : At str s ts) (hstop : starts ['&'] ts = false) :
    Runs (parseline_back str (fuel + 1) cmd) s (fun c u => c = cmd ∧ At str u ts) E := by
  refine (peek_runs h0 (by decide) h).bind fun b u hb => ?_
  obtain ⟨rfl, hu, -⟩ := hb
  rw [hstop, if_neg Bool.false_ne_true]
  exact Runs.pure ⟨rfl, hu⟩

theorem parseline_back_sound (h0 : 0 ∉ str) {fuel : Nat} (h : At str s ts) (hfuel : ts.length < fuel)
    (hcmd : cmd.Rel (WordAt str) t) :
    Runs (parseline_back str fuel cmd) s (fun c u => ∃ n vs, ts = List.replicate n .amp ++ vs ∧ At str u vs ∧
      c.Rel (WordAt str) (backs n t)) fun e => e ≠ .fuel := by
  induction fuel generalizing s ts cmd t with
  | zero => exact absurd hfuel (Nat.not_lt_zero _)
  | succ fuel ih =>
    by_cases hstart : starts ['&'] ts = true
    · obtain ⟨rest, rfl⟩ : ∃ rest, ts = .amp :: rest := starts_symbol rfl (by decide) hstart
      refine parseline_back_turn h0 h fun u hu => ?_
      refine (ih hu (Nat.lt_of_succ_lt_succ hfuel) (.back hcmd)).post fun c v hc => ?_
      obtain ⟨n, vs, rfl, hv, hc⟩ := hc
      exact ⟨n + 1, vs, rfl, hv, hc⟩
    · refine (parseline_back_stop h0 h (Bool.eq_false_iff.mpr hstart)).post fun c u hc => ?_
      obtain ⟨rfl, hu⟩ := hc
      exact ⟨0, ts, rfl, hu, hcmd⟩

theorem parseline_back_complete (h0 : 0 ∉ str) {fuel n : Nat} (hstop : starts ['&'] vs = false)
    (h : At str s (List.replicate n .amp ++ vs)) (hfuel : n < fuel) (hcmd : cmd.Rel (WordAt str) t) :
    Runs (parseline_back str fuel cmd) s (fun c u => c.Rel (WordAt str) (backs n t) ∧ At str u vs) E := by
  induction n generalizing s fuel cmd t with
  | zero =>
    obtain ⟨fuel, rfl⟩ : ∃ k, fuel = k + 1 := ⟨fuel - 1, by omega⟩
    refine (parseline_back_stop h0 h hstop).post fun c u hc => ?_
    obtain ⟨rfl, hu⟩ := hc
    exact ⟨hcmd, hu⟩
  | succ n ih =>
    obtain ⟨fuel, rfl⟩ : ∃ k, fuel = k + 1 := ⟨fuel - 1, by omega⟩
    exact parseline_back_turn h0 h fun u hu => ih hu (Nat.lt_of_succ_lt_succ hfuel) (.back hcmd)

/-! ### The parser is sound -/

/-- What `x` has read when it returns derives what it returns, when at most `n` tokens are left. -/
def Sound (str : List Byte) (x : M (Cmd Span)) (G : List Token → Tree → Prop) (n : Nat) : Prop :=
  ∀ s ts, At str s ts → ts.length ≤ n → Runs x s (fun c u => ∃ us vs t, ts = us ++ vs ∧ G us t ∧ At str u vs ∧
    c.Rel (WordAt str) t) fun e => e ≠ .fuel

theorem parseblock_sound (h0 : 0 ∉ str) {fuel n : Nat} (hfuel : n < fuel)
    (hline : Sound str (parseline str fuel) Line n) :
    Sound str (parseblock str (fuel + 1)) Exec (n + 1) := by
  intro s ts h hlen
  rw [parseblock]
  refine (peek_runs h0 (by decide) h).bind fun b u hb => ?_
  obtain ⟨rfl, hu, -⟩ := hb
  refine Runs.ite (fun hstart => ?_) fun _ => Runs.throw fun hc => by cases hc
  obtain ⟨rest, rfl⟩ : ∃ rest, ts = .lparen :: rest := starts_symbol rfl (by decide) hstart
  refine (gettoken_cons h0 hu).bind fun r v hr => ?_
  refine (hline v rest hr.2.1 (Nat.le_of_succ_le_succ hlen)).bind fun c x hc => ?_
  obtain ⟨us, vs, t, rfl, hus, hx, hc⟩ := hc
  refine (peek_runs h0 (by decide) hx).bind fun b y hb => ?_
  obtain ⟨rfl, hy, -⟩ := hb
  refine Runs.ite (fun hclose => ?_) fun _ => Runs.throw fun hc => by cases hc
  obtain ⟨rest, rfl⟩ : ∃ rest, vs = .rparen :: rest := starts_symbol rfl (by decide) hclose
  refine (gettoken_cons h0 hy).bind fun r z hr => ?_
  have hrest : rest.length < fuel := by
    simp only [List.length_cons, List.length_append] at hlen
    omega
  refine (parseredirs_sound h0 hr.2.1 hrest hc).post fun d w hd => ?_
  obtain ⟨xs, ys, rs, rfl, hxs, hw, hd⟩ := hd
  exact ⟨.lparen :: us ++ .rparen :: xs, ys, wrap rs t, by simp, .block hus hxs, hw, hd⟩

theorem parseexec_sound (h0 : 0 ∉ str) {fuel n : Nat} (hfuel : n < fuel)
    (hblock : Sound str (parseblock str fuel) Exec n) :
    Sound str (parseexec str (fuel + 1)) Exec n := by
  intro s ts h hlen
  rw [parseexec]
  refine (peek_runs h0 (by decide) h).bind fun b u hb => ?_
  obtain ⟨rfl, hu, -⟩ := hb
  refine Runs.ite (fun _ => hblock u ts hu hlen) fun _ => ?_
  refine (parseredirs_sound h0 hu (Nat.lt_of_le_of_lt hlen hfuel) (.exec .nil)).bind fun c v hc => ?_
  obtain ⟨us, vs, rs, rfl, hus, hv, hc⟩ := hc
  have hvs : vs.length < fuel := by
    rw [List.length_append] at hlen
    omega
  refine (parseexec_args_sound h0 hv hvs (by decide) hc).post fun d w hd => ?_
  obtain ⟨xs, ys, ws, qs, rfl, hxs, hws, hw, hd⟩ := hd
  exact ⟨us ++ xs, ys, _, by rw [List.append_assoc], .args hus hxs (Nat.le_of_lt_succ hws), hw, hd⟩

theorem parsepipe_sound (h0 : 0 ∉ str) {fuel n : Nat} (hexec : Sound str (parseexec str fuel) Exec n)
    (hpipe : ∀ m, m < n → Sound str (parsepipe str fuel) Pipe m) : Sound str (parsepipe str (fuel + 1)) Pipe n := by
  intro s ts h hlen
  rw [parsepipe]
  refine (hexec s ts h hlen).bind fun c u hc => ?_
  obtain ⟨us, vs, t, rfl, hus, hu, hc⟩ := hc
  refine (peek_runs h0 (by decide) hu).bind fun b v hb => ?_
  obtain ⟨rfl, hv, -⟩ := hb
  refine Runs.ite (fun hbar => ?_) fun _ => Runs.pure ⟨us, vs, t, rfl, .exec hus, hv, hc⟩
  obtain ⟨rest, rfl⟩ : ∃ rest, vs = .bar :: rest := starts_symbol rfl (by decide) hbar
  refine (gettoken_cons h0 hv).bind fun r x hr => ?_
  have hrest : rest.length < n := by
    simp only [List.length_cons, List.length_append] at hlen
    omega
  refine (hpipe _ hrest x rest hr.2.1 (Nat.le_refl _)).bind fun d y hd => Runs.pure ?_
  obtain ⟨xs, ys, t', rfl, hxs, hy, hd⟩ := hd
  exact ⟨us ++ .bar :: xs, ys, _, by simp, .pipe hus hxs, hy, .pipe hc hd⟩

theorem parseline_sound (h0 : 0 ∉ str) {fuel n : Nat} (hfuel : n < fuel)
    (hpipe : Sound str (parsepipe str fuel) Pipe n)
    (hline : ∀ m, m < n → Sound str (parseline str fuel) Line m) : Sound str (parseline str (fuel + 1)) Line n := by
  intro s ts h hlen
  rw [parseline]
  refine (hpipe s ts h hlen).bind fun c u hc => ?_
  obtain ⟨us, vs, t, rfl, hus, hu, hc⟩ := hc
  have hvs : vs.length < fuel := by
    rw [List.length_append] at hlen
    omega
  refine (parseline_back_sound h0 hu hvs hc).bind fun c v hc => ?_
  obtain ⟨k, ws, rfl, hv, hc⟩ := hc
  refine (peek_runs h0 (by decide) hv).bind fun b x hb => ?_
  obtain ⟨rfl, hx, -⟩ := hb
  refine Runs.ite (fun hsemi => ?_) fun _ => ?_
  · obtain ⟨rest, rfl⟩ : ∃ rest, ws = .semi :: rest := starts_symbol rfl (by decide) hsemi
    refine (gettoken_cons h0 hx).bind fun r y hr => ?_
    have hrest : rest.length < n := by
      simp only [List.length_cons, List.length_append] at hlen
      omega
    refine (hline _ hrest y rest hr.2.1 (Nat.le_refl _)).bind fun d z hd => Runs.pure ?_
    obtain ⟨xs, ys, t', rfl, hxs, hz, hd⟩ := hd
    exact ⟨us ++ List.replicate k .amp ++ .semi :: xs, ys, _, by simp, .list k hus hxs, hz, .list hc hd⟩
  · exact Runs.pure ⟨us ++ List.replicate k .amp, ws, _, by rw [List.append_assoc], .pipe k hus, hx, hc⟩

/-- All four functions, by induction on the fuel. -/
theorem sound (h0 : 0 ∉ str) (fuel : Nat) :
    (∀ n, 4 * n + 4 ≤ fuel → Sound str (parseline str fuel) Line n) ∧
    (∀ n, 4 * n + 3 ≤ fuel → Sound str (parsepipe str fuel) Pipe n) ∧
    (∀ n, 4 * n + 2 ≤ fuel → Sound str (parseexec str fuel) Exec n) ∧
    ∀ n, 4 * n + 1 ≤ fuel → Sound str (parseblock str fuel) Exec n := by
  induction fuel with
  | zero =>
    refine ⟨fun n hn => ?_, fun n hn => ?_, fun n hn => ?_, fun n hn => ?_⟩
    all_goals exact absurd hn (Nat.not_succ_le_zero _)
  | succ fuel ih =>
    obtain ⟨hline, hpipe, hexec, hblock⟩ := ih
    refine ⟨fun n hn => ?_, fun n hn => ?_, fun n hn => ?_, fun n hn => ?_⟩
    · exact parseline_sound h0 (by omega) (hpipe n (by omega)) fun m hm => hline m (by omega)
    · exact parsepipe_sound h0 (hexec n (by omega)) fun m hm => hpipe m (by omega)
    · exact parseexec_sound h0 (by omega) (hblock n (by omega))
    · cases n with
      | zero =>
        -- Without a token there is no parenthesis.
        intro s ts h hlen
        rw [parseblock]
        refine (peek_runs h0 (by decide) h).bind fun b u hb => ?_
        obtain ⟨rfl, -, -⟩ := hb
        rw [List.length_eq_zero_iff.mp (Nat.le_zero.mp hlen)]
        exact Runs.throw fun hc => by cases hc
      | succ n => exact parseblock_sound h0 (by omega) (hline n (by omega))

/-! ### The parser is complete -/

/-- `x` reads what derives a tree, up to tokens with `F`, and returns it. -/
def Complete (str : List Byte) (x : M (Cmd Span)) (G : List Token → Tree → Prop) (toks : List Char)
    (n : Nat) : Prop :=
  ∀ s us vs t, G us t → Follow toks vs → At str s (us ++ vs) → us.length ≤ n →
    Runs x s (fun c u => c.Rel (WordAt str) t ∧ At str u vs) fun _ => False

/-- `'(' line ')' redir*` -/
def Block (ts : List Token) (t : Tree) : Prop :=
  ∃ us xs u rs, ts = .lparen :: us ++ .rparen :: xs ∧ Line us u ∧ Redirs xs rs ∧ t = wrap rs u

theorem parseblock_complete (h0 : 0 ∉ str) {fuel n : Nat} (hfuel : n < fuel)
    (hline : Complete str (parseline str fuel) Line [')'] n) :
    Complete str (parseblock str (fuel + 1)) Block ['|', ')', '&', ';'] (n + 1) := by
  rintro s ts vs t ⟨us, xs, u, rs, rfl, hus, hxs, rfl⟩ hvs h hlen
  simp only [List.cons_append, List.append_assoc, List.length_cons, List.length_append] at h hlen
  rw [parseblock]
  refine (peek_runs h0 (by decide) h).bind fun b v hb => ?_
  obtain ⟨rfl, hv, -⟩ := hb
  refine (gettoken_cons h0 hv).bind fun r w hr => ?_
  refine (hline w us _ u hus (.inr rfl) hr.2.1 (by omega)).bind fun c x hc => ?_
  refine (peek_runs h0 (by decide) hc.2).bind fun b y hb => ?_
  obtain ⟨rfl, hy, -⟩ := hb
  refine (gettoken_cons h0 hy).bind fun r z hr => ?_
  exact parseredirs_complete h0 hxs (hvs.not_starts (by decide)) hr.2.1 (by omega) hc.1

theorem parseexec_complete (h0 : 0 ∉ str) {fuel n : Nat} (hfuel : n < fuel)
    (hblock : Complete str (parseblock str fuel) Block ['|', ')', '&', ';'] n) :
    Complete str (parseexec str (fuel + 1)) Exec ['|', ')', '&', ';'] n := by
  intro s ts vs t hts hvs h hlen
  rw [parseexec]
  refine (peek_runs h0 (by decide) h).bind fun b u hb => ?_
  obtain ⟨rfl, hu, -⟩ := hb
  cases hts with
  | block hus hxs => exact hblock u _ vs _ ⟨_, _, _, _, rfl, hus, hxs, rfl⟩ hvs hu hlen
  | @args us xs ws rs qs hus hxs hws =>
    rw [List.append_assoc] at hu
    rw [List.length_append] at hlen
    have hparen : starts ['('] (us ++ xs ++ vs) = false := by
      cases hus with
      | nil => exact hxs.follow hvs (by decide)
      | cons ha => exact starts_of_opens_ne ha
    rw [hparen, if_neg Bool.false_ne_true]
    refine (parseredirs_complete h0 hus (hxs.follow hvs (by decide)) hu (by omega) (.exec .nil)).bind fun c v hc => ?_
    have hlt : ([] ++ ws : List (List Byte)).length < MAXARGS := Nat.lt_succ_of_le hws
    exact parseexec_args_complete h0 hxs hvs hc.2 (by omega) hlt hc.1

theorem parsepipe_complete (h0 : 0 ∉ str) {fuel n : Nat}
    (hexec : Complete str (parseexec str fuel) Exec ['|', ')', '&', ';'] n)
    (hpipe : ∀ m, m < n → Complete str (parsepipe str fuel) Pipe [')', '&', ';'] m) :
    Complete str (parsepipe str (fuel + 1)) Pipe [')', '&', ';'] n := by
  intro s ts vs t hts hvs h hlen
  rw [parsepipe]
  cases hts with
  | exec hts =>
    refine (hexec s ts vs t hts (hvs.mono (by decide)) h hlen).bind fun c u hc => ?_
    refine (peek_runs h0 (by decide) hc.2).bind fun b v hb => ?_
    obtain ⟨rfl, hv, -⟩ := hb
    rw [hvs.not_starts (by decide), if_neg Bool.false_ne_true]
    exact Runs.pure ⟨hc.1, hv⟩
  | @pipe us xs t t' hus hxs =>
    simp only [List.cons_append, List.append_assoc, List.length_cons, List.length_append] at h hlen
    refine (hexec s us _ t hus (.inr rfl) h (by omega)).bind fun c u hc => ?_
    refine (peek_runs h0 (by decide) hc.2).bind fun b v hb => ?_
    obtain ⟨rfl, hv, -⟩ := hb
    refine (gettoken_cons h0 hv).bind fun r w hr => ?_
    refine (hpipe xs.length (by omega) w xs vs t' hxs hvs hr.2.1 (Nat.le_refl _)).bind fun d x hd => ?_
    exact Runs.pure ⟨.pipe hc.1 hd.1, hd.2⟩

theorem Follow.amps {toks : List Char} (h : Follow toks vs)
    (hd : toks.all fun d => strchr ([')', '&', ';'].map ascii) (ascii d))
    (n : Nat) : Follow [')', '&', ';'] (List.replicate n .amp ++ vs) := by
  cases n with
  | zero => exact h.mono hd
  | succ n => exact .inr rfl

theorem parseline_complete (h0 : 0 ∉ str) {fuel n : Nat} (hfuel : n < fuel)
    (hpipe : Complete str (parsepipe str fuel) Pipe [')', '&', ';'] n)
    (hline : ∀ m, m < n → Complete str (parseline str fuel) Line [')'] m) :
    Complete str (parseline str (fuel + 1)) Line [')'] n := by
  intro s ts vs t hts hvs h hlen
  rw [parseline]
  cases hts with
  | @pipe us t k hus =>
    simp only [List.append_assoc, List.length_append, List.length_replicate] at h hlen
    refine (hpipe s us _ t hus (hvs.amps (by decide) k) h (by omega)).bind fun c u hc => ?_
    refine (parseline_back_complete h0 (hvs.not_starts (by decide)) hc.2 (by omega) hc.1).bind fun c v hc => ?_
    refine (peek_runs h0 (by decide) hc.2).bind fun b w hb => ?_
    obtain ⟨rfl, hw, -⟩ := hb
    rw [hvs.not_starts (by decide), if_neg Bool.false_ne_true]
    exact Runs.pure ⟨hc.1, hw⟩
  | @list us xs t t' k hus hxs =>
    simp only [List.cons_append, List.append_assoc, List.length_append, List.length_cons,
      List.length_replicate] at h hlen
    have hsemi : Follow [';'] (.semi :: (xs ++ vs)) := .inr rfl
    refine (hpipe s us _ t hus (hsemi.amps (by decide) k) h (by omega)).bind fun c u hc => ?_
    refine (parseline_back_complete h0 (hsemi.not_starts (by decide)) hc.2 (by omega) hc.1).bind fun c v hc => ?_
    refine (peek_runs h0 (by decide) hc.2).bind fun b w hb => ?_
    obtain ⟨rfl, hw, -⟩ := hb
    refine (gettoken_cons h0 hw).bind fun r x hr => ?_
    refine (hline xs.length (by omega) x xs vs t' hxs hvs hr.2.1 (Nat.le_refl _)).bind fun d y hd => ?_
    exact Runs.pure ⟨.list hc.1 hd.1, hd.2⟩

theorem complete (h0 : 0 ∉ str) (fuel : Nat) :
    (∀ n, 4 * n + 4 ≤ fuel → Complete str (parseline str fuel) Line [')'] n) ∧
    (∀ n, 4 * n + 3 ≤ fuel → Complete str (parsepipe str fuel) Pipe [')', '&', ';'] n) ∧
    (∀ n, 4 * n + 2 ≤ fuel → Complete str (parseexec str fuel) Exec ['|', ')', '&', ';'] n) ∧
    ∀ n, 4 * n + 1 ≤ fuel → Complete str (parseblock str fuel) Block ['|', ')', '&', ';'] n := by
  induction fuel with
  | zero =>
    refine ⟨fun n hn => ?_, fun n hn => ?_, fun n hn => ?_, fun n hn => ?_⟩
    all_goals exact absurd hn (Nat.not_succ_le_zero _)
  | succ fuel ih =>
    obtain ⟨hline, hpipe, hexec, hblock⟩ := ih
    refine ⟨fun n hn => ?_, fun n hn => ?_, fun n hn => ?_, fun n hn => ?_⟩
    · exact parseline_complete h0 (by omega) (hpipe n (by omega)) fun m hm => hline m (by omega)
    · exact parsepipe_complete h0 (hexec n (by omega)) fun m hm => hpipe m (by omega)
    · exact parseexec_complete h0 (by omega) (hblock n (by omega))
    · cases n with
      | zero =>
        rintro s ts vs t ⟨us, xs, u, rs, rfl, -⟩ - - hlen
        exact absurd hlen (Nat.not_succ_le_zero _)
      | succ n => exact parseblock_complete h0 (by omega) (hline n (by omega))

/-! ### Trees of the grammar -/

theorem opens_fd {a : Token} {mode fd : Nat} (h : a.opens = some (mode, fd)) : fd = 0 ∨ fd = 1 := by
  cases a with
  | less => exact .inl (Prod.mk.inj (Option.some.inj h)).2.symm
  | greater => exact .inr (Prod.mk.inj (Option.some.inj h)).2.symm
  | append => exact .inr (Prod.mk.inj (Option.some.inj h)).2.symm
  | _ => cases h

theorem Redirs.fd {rs : List Redirect} (h : Redirs ts rs) : ∀ r ∈ rs, r.fd = 0 ∨ r.fd = 1 := by
  induction h with
  | nil => exact fun r hr => by cases hr
  | cons ha _ ih => exact List.forall_mem_cons.mpr ⟨opens_fd ha, ih⟩

theorem Args.fd {ws : List (List Byte)} {rs : List Redirect} (h : Args ts ws rs) : ∀ r ∈ rs, r.fd = 0 ∨ r.fd = 1 := by
  induction h with
  | nil => exact fun r hr => by cases hr
  | cons hrs _ ih => exact List.forall_mem_append.mpr ⟨hrs.fd, ih⟩

/-- What every node keeps holds of every tree. -/
theorem Line.rule {P : Tree → Prop} (hexec : ∀ ws, ws.length < MAXARGS → P (.exec ws))
    (hredir : ∀ t file mode fd, fd = 0 ∨ fd = 1 → P t → P (.redir t file mode fd))
    (hpipe : ∀ t u, P t → P u → P (.pipe t u)) (hlist : ∀ t u, P t → P u → P (.list t u))
    (hback : ∀ t, P t → P (.back t)) (h : Line ts t) : P t := by
  have hwrap : ∀ (rs : List Redirect) (t : Tree), (∀ r ∈ rs, r.fd = 0 ∨ r.fd = 1) → P t → P (wrap rs t) := by
    intro rs
    induction rs with
    | nil => exact fun _ _ ht => ht
    | cons r rs ih =>
      exact fun t hr ht => ih _ (List.forall_mem_cons.mp hr).2 (hredir t _ _ _ (List.forall_mem_cons.mp hr).1 ht)
  have hbacks : ∀ (n : Nat) (t : Tree), P t → P (backs n t) := by
    intro n
    induction n with
    | zero => exact fun _ ht => ht
    | succ n ih => exact fun t ht => ih _ (hback t ht)
  refine @Line.rec (fun _ t _ => P t) (fun _ t _ => P t) (fun _ t _ => P t) ?_ ?_ ?_ ?_ ?_ ?_ ts t h
  · exact fun n _ ih => hbacks n _ ih
  · exact fun n _ _ ih ih' => hlist _ _ (hbacks n _ ih) ih'
  · exact fun _ ih => ih
  · exact fun _ _ ih ih' => hpipe _ _ ih ih'
  · exact fun _ hus ih => hwrap _ _ hus.fd ih
  · exact fun hrs hqs hws => hwrap _ _ (List.forall_mem_append.mpr ⟨hrs.fd, hqs.fd⟩) (hexec _ (Nat.lt_succ_of_le hws))

end Xv6.Sh
