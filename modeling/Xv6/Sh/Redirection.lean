import Mathlib.Data.List.Induction
import Xv6.Sh.Run

/-! Several redirections of one command.

The parser puts every redirection around the ones before it, so that the textually last one is the outermost and
`runcmd` comes to it first. The textually first redirection of a descriptor is therefore made last, and is the one
that the command sees. -/
namespace Xv6.Sh
open Lib

/-! ### Simple commands and blocks -/

/-- A simple command or a block: its redirections in the order of the text, and the command under them. -/
inductive Simple : List Token → List Redirect → Tree → Prop
  | block {ts us : List Token} {t : Tree} {rs : List Redirect} : Line ts t → Redirs us rs →
    Simple (.lparen :: ts ++ .rparen :: us) rs t
  | args {ts us : List Token} {ws : List (List Byte)} {rs qs : List Redirect} : Redirs ts rs → Args us ws qs →
    ws.length ≤ MAXARGS - 1 → Simple (ts ++ us) (rs ++ qs) (.exec ws)

variable {ts : List Token} {rs : List Redirect} {t : Tree}

theorem Simple.exec (h : Simple ts rs t) : Exec ts (wrap rs t) := by
  cases h with
  | block ht hrs => exact .block ht hrs
  | args hrs hqs hlen => exact .args hrs hqs hlen

theorem Simple.line (h : Simple ts rs t) : Line ts (wrap rs t) := by
  have hline : Line (ts ++ List.replicate 0 .amp) (wrap rs t) := .pipe 0 (.exec h.exec)
  rwa [List.replicate_zero, List.append_nil] at hline

theorem Simple.fd (h : Simple ts rs t) : ∀ r ∈ rs, r.fd = 0 ∨ r.fd = 1 := by
  cases h with
  | block _ hrs => exact hrs.fd
  | args hrs hqs _ => exact List.forall_mem_append.mpr ⟨hrs.fd, hqs.fd⟩

/-- The textually first redirection of a descriptor. -/
def first (rs : List Redirect) (fd : Nat) : Option Redirect := rs.find? (·.fd = fd)

/-- The textually last redirection of a descriptor. -/
def last (rs : List Redirect) (fd : Nat) : Option Redirect := rs.reverse.find? (·.fd = fd)

/-- Every redirected descriptor is of the file of its last redirection. -/
def LastWins (rs : List Redirect) (fds : Fds (List Byte)) : Prop :=
  ∀ fd r, last rs fd = some r → ∃ node mode, fds fd = some (.opened node r.file mode)

theorem first_concat (rs : List Redirect) (r : Redirect) (fd : Nat) :
    first (rs ++ [r]) fd = (first rs fd).or (if r.fd = fd then some r else none) := by
  rw [first, List.find?_append, ← first]
  by_cases h : r.fd = fd <;> simp [h]

theorem first_of_last {fd : Nat} {r : Redirect} (h : last rs fd = some r) : ∃ q, first rs fd = some q := by
  have hfd := List.find?_some h
  exact Option.isSome_iff_exists.mp (List.find?_isSome.mpr
    ⟨r, List.mem_reverse.mp (List.mem_of_find?_eq_some h), hfd⟩)

/-! ### The chain of redirections -/

theorem wrap_concat (rs : List Redirect) (r : Redirect) (t : Tree) :
    wrap (rs ++ [r]) t = .redir (wrap rs t) r.file r.mode r.fd := wrap_append rs [r] t

/-- The way to the command under redirections. -/
def chain (rs : List Redirect) : Path := List.replicate rs.length .redir

theorem chain_concat (rs : List Redirect) (r : Redirect) (node : Path) :
    chain (rs ++ [r]) ++ node = chain rs ++ .redir :: node := by
  rw [chain, chain, List.length_append, List.length_singleton, List.replicate_succ', List.append_assoc,
    List.singleton_append]

variable {tree : Tree} {node : Path} {fd : Nat}

theorem sub_redir {r : Redirect} (h : tree.sub node = some (wrap (rs ++ [r]) t)) :
    tree.sub (.redir :: node) = some (wrap rs t) := by
  rw [Cmd.sub, h, wrap_concat]
  rfl

theorem source_redir {r : Redirect} (h : tree.sub node = some (wrap (rs ++ [r]) t)) :
    source tree fd (.redir :: node) = if r.fd = fd then .opened node r.file r.mode else source tree fd node := by
  rw [source, h, wrap_concat]

theorem source_chain_none (hr : first rs fd = none) (h : tree.sub node = some (wrap rs t)) :
    source tree fd (chain rs ++ node) = source tree fd node := by
  induction rs using List.reverseRecOn generalizing node with
  | nil => rfl
  | append_singleton rs q ih =>
    rw [first_concat, Option.or_eq_none_iff] at hr
    have hne : ¬q.fd = fd := by
      intro hc
      rw [if_pos hc] at hr
      cases hr.2
    rw [chain_concat, ih hr.1 (sub_redir h), source_redir h, if_neg hne]

/-- Under a chain of redirections a descriptor is of the file of its first redirection. -/
theorem source_chain {r : Redirect} (hr : first rs fd = some r) (h : tree.sub node = some (wrap rs t)) :
    ∃ n, source tree fd (chain rs ++ node) = .opened n r.file r.mode := by
  induction rs using List.reverseRecOn generalizing node with
  | nil => cases hr
  | append_singleton rs q ih =>
    rw [chain_concat]
    rw [first_concat, Option.or_eq_some_iff] at hr
    rcases hr with hrs | ⟨hrs, hq⟩
    · exact ih hrs (sub_redir h)
    · split at hq
      · rename_i hfd
        obtain rfl := Option.some.inj hq
        rw [source_chain_none hrs (sub_redir h), source_redir h, if_pos hfd]
        exact ⟨node, rfl⟩
      · cases hq

/-! ### Running the chain -/

theorem run_redir (hstd : tree.Standard) {p : Process (List Byte)} (ran : List Path) {r : Redirect}
    (hp : Legal tree p) (hprog : p.prog = .run node (wrap (rs ++ [r]) t)) :
    ∃ q, Legal tree q ∧ q.prog = .run (.redir :: node) (wrap rs t) ∧
      Lib.run step ⟨[p], ran⟩ [(0, 0), (0, 0), (0, 0)] = some ⟨[q], node :: ran⟩ := by
  obtain ⟨parent, n, prog, fds⟩ := p
  dsimp only at hprog
  subst hprog
  rw [wrap_concat] at hp ⊢
  have hclose := hp.advance hstd rfl
  have hopen := hclose.advance hstd rfl
  obtain ⟨s, hs, hnext⟩ := hopen.fine
  dsimp only at hs
  refine ⟨⟨parent, node, .run (.redir :: node) (wrap rs t), s.2⟩, hopen.advance hstd ?_, rfl, ?_⟩
  · simp only [Process.advance, hs]
  · simp [Lib.run, step, Process.advance, runcmd, hs]

theorem run_chain (hstd : tree.Standard) {p : Process (List Byte)} (ran : List Path) (hp : Legal tree p)
    (hprog : p.prog = .run node (wrap rs t)) : ∃ acts q ran', q.prog = .run (chain rs ++ node) t ∧
      Lib.run step ⟨[p], ran⟩ acts = some ⟨[q], ran'⟩ := by
  induction rs using List.reverseRecOn generalizing node p ran with
  | nil => exact ⟨[], p, ran, hprog, rfl⟩
  | append_singleton rs r ih =>
    obtain ⟨q, hq, hqprog, hrun⟩ := run_redir hstd ran hp hprog
    obtain ⟨acts, q', ran', hprog', hrun'⟩ := ih (node :: ran) hq hqprog
    refine ⟨_, q', ran', ?_, run_append.mpr ⟨_, hrun, hrun'⟩⟩
    rw [chain_concat, hprog']

/-- The process is about to run the command under the redirections of the line. -/
def Reaches (rs : List Redirect) (t : Tree) (p : Process (List Byte)) : Prop :=
  ∃ acts x, Lib.run step (System.start (wrap rs t)) acts = some x ∧ p ∈ x.procs ∧ p.prog = .run (chain rs) t

theorem exists_reaches (h : Simple ts rs t) : ∃ p, Reaches rs t p := by
  obtain ⟨acts, q, ran, hprog, hrun⟩ := run_chain h.line.standard [] (legal_start _ (List.mem_singleton.mpr rfl)) rfl
  rw [List.append_nil] at hprog
  exact ⟨q, acts, _, hrun, List.mem_singleton.mpr rfl, hprog⟩

/-- The command sees the first redirection of each descriptor. -/
theorem Reaches.first (h : Simple ts rs t) {p : Process (List Byte)} (hp : Reaches rs t p) {r : Redirect}
    (hr : first rs fd = some r) : ∃ n, p.fds fd = some (.opened n r.file r.mode) := by
  obtain ⟨acts, x, hrun, hmem, hprog⟩ := hp
  have hfine := (legal_run h.line.standard hrun p hmem).fine
  rw [hprog] at hfine
  have hfd := List.find?_some hr
  rw [decide_eq_true_eq] at hfd
  have hlt : fd < 3 := by
    have := h.fd r (List.mem_of_find?_eq_some hr)
    omega
  have hroot : (wrap rs t).sub [] = some (wrap rs t) := rfl
  obtain ⟨n, hn⟩ := source_chain hr hroot
  rw [List.append_nil] at hn
  rw [hfine.2.1, plumbed_of_lt hlt, hn]
  exact ⟨n, rfl⟩

/-- The line is parsed, its command is reached, and the last redirection of every descriptor wins exactly when it is
of the same file as the first. -/
theorem last_wins_iff {str : List Byte} (h0 : 0 ∉ str) (h : Simple (tokens str) rs t) :
    (∃ cmd buf s, parsecmd str 0 = .ok ((cmd, buf), s) ∧ cmd.strings buf = wrap rs t) ∧ (∃ p, Reaches rs t p) ∧
    ((∀ p, Reaches rs t p → LastWins rs p.fds) ↔
      ∀ fd r q, first rs fd = some r → last rs fd = some q → r.file = q.file) := by
  refine ⟨parsecmd_of_line h0 h.line, exists_reaches h, fun hwins fd r q hr hq => ?_, fun hsame p hp fd q hq => ?_⟩
  · obtain ⟨p, hp⟩ := exists_reaches h
    obtain ⟨n, hn⟩ := hp.first h hr
    obtain ⟨node, mode, hfds⟩ := hwins p hp fd q hq
    rw [hn] at hfds
    exact (File.opened.inj (Option.some.inj hfds)).2.1
  · obtain ⟨r, hr⟩ := first_of_last hq
    obtain ⟨n, hn⟩ := hp.first h hr
    rw [hn, hsame fd r q hr hq]
    exact ⟨n, r.mode, rfl⟩

theorem last_wins_once : ∃ str rs, 0 ∉ str ∧ Simple (tokens str) rs (.exec [[ascii 'a']]) ∧ rs.length = 1 ∧
    ∀ p, Reaches rs (.exec [[ascii 'a']]) p → LastWins rs p.fds := by
  have htokens : tokens (['a', '<', 'b'].map ascii) = [.word [ascii 'a'], .less, .word [ascii 'b']] := by
    simp [tokens, lex, ascii, strchr, whitespace, symbols, wordByte]
  have hsimple : Simple (tokens (['a', '<', 'b'].map ascii)) [⟨[ascii 'b'], O_RDONLY, 0⟩] (.exec [[ascii 'a']]) := by
    rw [htokens]
    exact .args .nil (.cons (.cons rfl .nil) .nil) (by decide)
  refine ⟨_, _, by decide, hsimple, rfl, (last_wins_iff (by decide) hsimple).2.2.mpr fun fd r q hr hq => ?_⟩
  rw [List.mem_singleton.mp (List.mem_of_find?_eq_some hr), List.mem_singleton.mp (List.mem_of_find?_eq_some hq)]

/-- The command of `a<b<c` reads from `b`. -/
theorem first_wins_twice : ∃ str rs, str = ['a', '<', 'b', '<', 'c'].map ascii ∧
    (∃ cmd buf s, parsecmd str 0 = .ok ((cmd, buf), s) ∧ cmd.strings buf = wrap rs (.exec [[ascii 'a']])) ∧
    last rs 0 = some ⟨[ascii 'c'], O_RDONLY, 0⟩ ∧
    ∃ p, Reaches rs (.exec [[ascii 'a']]) p ∧ p.fds 0 = some (.opened [.redir] [ascii 'b'] O_RDONLY) := by
  have htokens : tokens (['a', '<', 'b', '<', 'c'].map ascii) =
      [.word [ascii 'a'], .less, .word [ascii 'b'], .less, .word [ascii 'c']] := by
    simp [tokens, lex, ascii, strchr, whitespace, symbols, wordByte]
  have hsimple : Simple (tokens (['a', '<', 'b', '<', 'c'].map ascii))
      [⟨[ascii 'b'], O_RDONLY, 0⟩, ⟨[ascii 'c'], O_RDONLY, 0⟩] (.exec [[ascii 'a']]) := by
    rw [htokens]
    exact .args .nil (.cons (.cons rfl (.cons rfl .nil)) .nil) (by decide)
  have hrun : ∃ p, Reaches [⟨[ascii 'b'], O_RDONLY, 0⟩, ⟨[ascii 'c'], O_RDONLY, 0⟩] (.exec [[ascii 'a']]) p ∧
      p.fds 0 = some (.opened [.redir] [ascii 'b'] O_RDONLY) :=
    ⟨_, ⟨List.replicate 6 (0, 0), _, rfl, List.mem_singleton.mpr rfl, rfl⟩, rfl⟩
  exact ⟨_, _, rfl, parsecmd_of_line (by decide) hsimple.line, rfl, hrun⟩

end Xv6.Sh
