import Mathlib.Data.List.Infix
import Xv6.Lib.Machine
import Xv6.Sh.Words

/-! Running a command: `runcmd` of `sh.c`, and the descriptors of the processes that it makes.

A process has a program, the system calls ahead of it, and descriptors. `runcmd` is the program for a
node of the tree, up to its calls of `runcmd` for other nodes. Processes take turns in any order. A node is
known by the way to it from the root, so that a pipe may be named after its node, of which there is one
run at most. -/
namespace Xv6.Sh
open Lib Function

variable {α : Type}

/-! ### Programs -/

/-- From a node to one below it. -/
inductive Dir where
  | redir
  | left
  | right
  | first
  | second
  | back
deriving DecidableEq

/-- The way from a node up to the root. -/
abbrev Path := List Dir

inductive File (α : Type) where
  | inherited (fd : Nat)
  | opened (node : Path) (file : α) (mode : Nat)
  | read (node : Path)
  | write (node : Path)

/-- The system calls of a process. `run` calls `runcmd`; `exec` is an `EXEC` node, whose program ends at some
time; an exited process is a `zombie` until it is `reaped`. -/
inductive Prog (α : Type) where
  | run (node : Path) (cmd : Cmd α)
  | exec (argv : List α)
  | close (fd : Nat) (next : Prog α)
  | open (file : α) (mode : Nat) (next : Prog α)
  | dup (fd : Nat) (next : Prog α)
  | pipe (next : Nat → Nat → Prog α)
  | fork (child next : Prog α)
  | wait (next : Prog α)
  | exit
  | zombie
  | reaped

/-- `runcmd` for the command at `node`. -/
def runcmd (node : Path) : Cmd α → Prog α
  | .exec argv => .exec argv
  | .redir cmd file mode fd => .close fd (.open file mode (.run (.redir :: node) cmd))
  | .list left right => .fork (.run (.first :: node) left) (.wait (.run (.second :: node) right))
  | .pipe left right =>
    .pipe fun p0 p1 =>
      .fork (.close 1 (.dup p1 (.close p0 (.close p1 (.run (.left :: node) left)))))
        (.fork (.close 0 (.dup p0 (.close p0 (.close p1 (.run (.right :: node) right)))))
          (.close p0 (.close p1 (.wait (.wait .exit)))))
  | .back cmd => .fork (.run (.back :: node) cmd) .exit

/-! ### Processes -/

abbrev Fds (α : Type) := Nat → Option (File α)

/-- The lowest free descriptor. -/
def lowest (fds : Fds α) : Option Nat := (List.range NOFILE).find? fun fd => (fds fd).isNone

/-- `fdalloc`: the descriptor, and the descriptors with it. -/
def fdalloc (fds : Fds α) (f : File α) : Option (Nat × Fds α) :=
  (lowest fds).map fun fd => (fd, update fds fd (some f))

structure Process (α : Type) where
  parent : Option Nat
  node : Path
  prog : Prog α
  fds : Fds α

/-- A system call that concerns the process alone, or the end of the program at an `EXEC` node. Without a free
descriptor the process exits. -/
def Process.advance (p : Process α) : Option (Process α) :=
  match p.prog with
  | .run node cmd => some {p with node := node, prog := runcmd node cmd}
  | .exec _ => some {p with prog := .exit}
  | .close fd next => some {p with prog := next, fds := update p.fds fd none}
  | .open file mode next =>
    match fdalloc p.fds (.opened p.node file mode) with
    | none => some {p with prog := .exit}
    | some (_, fds) => some {p with prog := next, fds := fds}
  | .dup fd next =>
    match (p.fds fd).bind (fdalloc p.fds) with
    | none => some {p with prog := next}
    | some (_, fds) => some {p with prog := next, fds := fds}
  | .pipe next =>
    match fdalloc p.fds (.read p.node) with
    | none => some {p with prog := .exit}
    | some (p0, fds) =>
      match fdalloc fds (.write p.node) with
      | none => some {p with prog := .exit}
      | some (p1, fds) => some {p with prog := next p0 p1, fds := fds}
  | .exit => some {p with prog := .zombie, fds := fun _ => none}
  | _ => none

/-- All processes, and the nodes that have been run. -/
structure System (α : Type) where
  procs : List (Process α)
  ran : List Path

def Prog.isReaped : Prog α → Bool
  | .reaped => true
  | _ => false

/-- The process has no child that it has not waited for. -/
def System.childless (x : System α) (i : Nat) : Prop :=
  ∀ p ∈ x.procs, p.parent = some i → p.prog.isReaped = true

instance (x : System α) (i : Nat) : Decidable (x.childless i) :=
  inferInstanceAs (Decidable (∀ p ∈ x.procs, p.parent = some i → p.prog.isReaped = true))

/-- The process `i` goes on; `j` is the child that it waits for. -/
def step (x : System α) (a : Nat × Nat) : Option (System α) :=
  match x.procs[a.1]? with
  | none => none
  | some p =>
    match p.prog with
    | .fork child next =>
      some {x with procs := x.procs.set a.1 {p with prog := next} ++ [{p with parent := some a.1, prog := child}]}
    | .wait next =>
      match x.procs[a.2]? with
      | some ⟨some i, node, .zombie, fds⟩ =>
        if i = a.1 then
          some {x with procs := (x.procs.set a.2 ⟨some i, node, .reaped, fds⟩).set a.1 {p with prog := next}}
        else none
      | _ => if x.childless a.1 then some {x with procs := x.procs.set a.1 {p with prog := next}} else none
    | .run node _ => p.advance.map fun p => ⟨x.procs.set a.1 p, node :: x.ran⟩
    | _ => p.advance.map fun p => {x with procs := x.procs.set a.1 p}

/-- The shell's child runs the command, with the descriptors 0, 1 and 2. -/
def System.start (cmd : Cmd α) : System α :=
  ⟨[⟨none, [], .run [] cmd, fun fd => if fd < 3 then some (.inherited fd) else none⟩], []⟩

/-! ### Where a descriptor leads -/

def Cmd.child : Dir → Cmd α → Option (Cmd α)
  | .redir, .redir cmd _ _ _ => some cmd
  | .left, .pipe left _ => some left
  | .right, .pipe _ right => some right
  | .first, .list left _ => some left
  | .second, .list _ right => some right
  | .back, .back cmd => some cmd
  | _, _ => none

/-- The node at a path. -/
def Cmd.sub (tree : Cmd α) : Path → Option (Cmd α)
  | [] => some tree
  | d :: node => (tree.sub node).bind (Cmd.child d)

/-- The file of descriptor `fd` at a node: that of the innermost redirection, or end of a pipe, around it. -/
def source (tree : Cmd α) (fd : Nat) : Path → File α
  | [] => .inherited fd
  | .redir :: node =>
    match tree.sub node with
    | some (.redir _ file mode n) => if n = fd then .opened node file mode else source tree fd node
    | _ => source tree fd node
  | .left :: node => if fd = 1 then .write node else source tree fd node
  | .right :: node => if fd = 0 then .read node else source tree fd node
  | _ :: node => source tree fd node

/-- Exactly the descriptors 0, 1 and 2 are open. -/
def plumbed (tree : Cmd α) (node : Path) : Fds α := fun fd => if fd < 3 then some (source tree fd node) else none

/-- Redirections are of the descriptors 0 and 1. -/
def Cmd.Standard : Cmd α → Prop
  | .exec _ => True
  | .redir cmd _ _ fd => (fd = 0 ∨ fd = 1) ∧ cmd.Standard
  | .pipe left right => left.Standard ∧ right.Standard
  | .list left right => left.Standard ∧ right.Standard
  | .back cmd => cmd.Standard

theorem Cmd.Standard.child {c c' : Cmd α} (h : c.Standard) {d : Dir} (hd : c.child d = some c') : c'.Standard := by
  cases d <;> cases c <;> cases hd
  · exact h.2
  · exact h.1
  · exact h.2
  · exact h.1
  · exact h.2
  · exact h

theorem Cmd.Standard.sub {tree c : Cmd α} (h : tree.Standard) {node : Path} (hc : tree.sub node = some c) :
    c.Standard := by
  induction node generalizing c with
  | nil =>
    obtain rfl := Option.some.inj hc
    exact h
  | cons d node ih =>
    obtain ⟨b, hb, hc⟩ := Option.bind_eq_some_iff.mp hc
    exact (ih hb).child hc

/-- The end of a pipe that is written to is found below its left side only. -/
theorem source_write {tree : Cmd α} {fd : Nat} {node other : Path} (h : source tree fd node = .write other) :
    .left :: other <:+ node := by
  induction node with
  | nil => cases h
  | cons d node ih =>
    have hsuffix : ∀ {d : Dir}, source tree fd node = .write other → .left :: other <:+ d :: node :=
      fun h => (ih h).trans (List.suffix_cons ..)
    cases d with
    | redir =>
      rw [source] at h
      split at h
      · split at h
        · cases h
        · exact hsuffix h
      · exact hsuffix h
    | left =>
      rw [source] at h
      split at h
      · obtain rfl := File.write.inj h
        exact List.suffix_refl _
      · exact hsuffix h
    | right =>
      rw [source] at h
      split at h
      · cases h
      · exact hsuffix h
    | first => exact hsuffix h
    | second => exact hsuffix h
    | back => exact hsuffix h

/-! ### What a program needs -/

/-- The program may go on with these descriptors, and does what it should with them: each call of `runcmd` is made
with those of its node. -/
def Fine (tree : Cmd α) (node : Path) : Prog α → Fds α → Prop
  | .run n cmd, fds => tree.sub n = some cmd ∧ fds = plumbed tree n ∧ (n = [] ∨ ∃ d, n = d :: node)
  | .exec argv, fds => tree.sub node = some (.exec argv) ∧ fds = plumbed tree node
  | .close fd next, fds => Fine tree node next (update fds fd none)
  | .open file mode next, fds => ∃ r, fdalloc fds (.opened node file mode) = some r ∧ Fine tree node next r.2
  | .dup fd next, fds => ∃ f r, fds fd = some f ∧ fdalloc fds f = some r ∧ Fine tree node next r.2
  | .pipe next, fds => ∃ r s, fdalloc fds (.read node) = some r ∧ fdalloc r.2 (.write node) = some s ∧
      Fine tree node (next r.1 s.1) s.2
  | .fork child next, fds => Fine tree node child fds ∧ Fine tree node next fds
  | .wait next, fds => fds = plumbed tree node ∧ Fine tree node next fds
  | .exit, fds => fds = plumbed tree node
  | .zombie, fds => fds = fun _ => none
  | .reaped, fds => fds = fun _ => none

variable {tree : Cmd α} {node : Path}

theorem fdalloc_eq {fds : Fds α} {fd : Nat} (hfree : fds fd = none) (hlt : fd < NOFILE)
    (hbelow : ∀ i < fd, fds i ≠ none)
    (f : File α) : fdalloc fds f = some (fd, update fds fd (some f)) := by
  have hlow : lowest fds = some fd := by
    rw [lowest, List.find?_range_eq_some]
    refine ⟨by rw [hfree]; rfl, List.mem_range.mpr hlt, fun i hi => ?_⟩
    rw [Bool.not_eq_true', Option.isNone_eq_false_iff]
    exact Option.isSome_iff_ne_none.mpr (hbelow i hi)
  rw [fdalloc, hlow]
  rfl

theorem plumbed_of_lt {fd : Nat} (h : fd < 3) : plumbed tree node fd = some (source tree fd node) := if_pos h

theorem plumbed_of_le {fd : Nat} (h : 3 ≤ fd) : plumbed tree node fd = none := if_neg (Nat.not_lt.mpr h)

theorem fine_redir {cmd : Cmd α} {file : α} {mode fd : Nat} (h : tree.sub node = some (.redir cmd file mode fd))
    (hfd : fd = 0 ∨ fd = 1) : Fine tree node (runcmd node (.redir cmd file mode fd)) (plumbed tree node) := by
  have hlt : fd < 3 := by omega
  refine ⟨_, fdalloc_eq (update_self ..) (Nat.lt_trans hlt (by decide)) (fun i hi => ?_) _, ?_, ?_, .inr
    ⟨.redir, rfl⟩⟩
  · rw [update_of_ne (Nat.ne_of_lt hi), plumbed_of_lt (Nat.lt_trans hi hlt)]
    exact Option.some_ne_none _
  · rw [Cmd.sub, h]
    rfl
  · funext i
    rw [update_idem]
    dsimp only
    by_cases hi : i = fd
    · rw [hi, update_self, plumbed_of_lt hlt, source, h]
      exact congrArg some (if_pos rfl).symm
    · rw [update_of_ne hi, plumbed, plumbed, source, h]
      exact congrArg (fun f => if i < 3 then some f else none) (if_neg (Ne.symm hi)).symm

/-- The descriptors of a process that has made a pipe. -/
def piped (tree : Cmd α) (node : Path) : Fds α :=
  update (update (plumbed tree node) 3 (some (.read node))) 4 (some (.write node))

theorem fds_ext {f g : Fds α} (h0 : f 0 = g 0) (h1 : f 1 = g 1) (h2 : f 2 = g 2) (h3 : f 3 = g 3) (h4 : f 4 = g 4)
    (h : ∀ i, 5 ≤ i → f i = g i) : f = g := by
  funext i
  match i with
  | 0 => exact h0
  | 1 => exact h1
  | 2 => exact h2
  | 3 => exact h3
  | 4 => exact h4
  | i + 5 => exact h (i + 5) (Nat.le_add_left ..)

theorem fine_left {left : Cmd α} (h : tree.sub (.left :: node) = some left) :
    Fine tree node (.close 1 (.dup 4 (.close 3 (.close 4 (.run (.left :: node) left))))) (piped tree node) := by
  refine ⟨.write node, _, rfl, fdalloc_eq (update_self ..) (by decide) (fun i hi => ?_) _, h, ?_, .inr
    ⟨.left, rfl⟩⟩
  · obtain rfl : i = 0 := by omega
    exact Option.some_ne_none _
  · refine fds_ext rfl rfl rfl rfl rfl fun i hi => ?_
    simp only [piped, plumbed, update_apply]
    rw [if_neg, if_neg, if_neg, if_neg, if_neg, if_neg, if_neg, if_neg] <;> omega

theorem fine_right {right : Cmd α} (h : tree.sub (.right :: node) = some right) :
    Fine tree node (.close 0 (.dup 3 (.close 3 (.close 4 (.run (.right :: node) right))))) (piped tree node) := by
  refine ⟨.read node, _, rfl, fdalloc_eq (update_self ..) (by decide) (fun i hi => ?_) _, h, ?_, .inr
    ⟨.right, rfl⟩⟩
  · exact absurd hi (Nat.not_lt_zero _)
  · refine fds_ext rfl rfl rfl rfl rfl fun i hi => ?_
    simp only [piped, plumbed, update_apply]
    rw [if_neg, if_neg, if_neg, if_neg, if_neg, if_neg, if_neg, if_neg] <;> omega

theorem fine_pipe {left right : Cmd α} (h : tree.sub node = some (.pipe left right)) :
    Fine tree node (runcmd node (.pipe left right)) (plumbed tree node) := by
  have hread : fdalloc (plumbed tree node) (.read node) =
      some (3, update (plumbed tree node) 3 (some (.read node))) :=
    fdalloc_eq rfl (by decide) (fun i hi => by rw [plumbed_of_lt hi]; exact Option.some_ne_none _) _
  have hwrite : fdalloc (update (plumbed tree node) 3 (some (.read node))) (.write node) =
      some (4, piped tree node) := by
    refine fdalloc_eq rfl (by decide) (fun i hi => ?_) _
    by_cases h3 : i = 3
    · rw [h3, update_self]
      exact Option.some_ne_none _
    · rw [update_of_ne h3, plumbed_of_lt (by omega)]
      exact Option.some_ne_none _
  have hclosed : update (update (piped tree node) 3 none) 4 none = plumbed tree node := by
    refine fds_ext rfl rfl rfl rfl rfl fun i hi => ?_
    rw [update_of_ne (by omega), update_of_ne (by omega), piped, update_of_ne (by omega),
      update_of_ne (by omega)]
  have hl : tree.sub (.left :: node) = some left := by rw [Cmd.sub, h]; rfl
  have hr : tree.sub (.right :: node) = some right := by rw [Cmd.sub, h]; rfl
  exact ⟨_, _, hread, hwrite, fine_left hl, fine_right hr, hclosed, hclosed, hclosed⟩

theorem fine_runcmd {cmd : Cmd α} (h : tree.sub node = some cmd) (hstd : cmd.Standard) :
    Fine tree node (runcmd node cmd) (plumbed tree node) := by
  cases cmd with
  | exec argv => exact ⟨h, rfl⟩
  | redir cmd file mode fd => exact fine_redir h hstd.1
  | pipe left right => exact fine_pipe h
  | list left right =>
    have hl : tree.sub (.first :: node) = some left := by rw [Cmd.sub, h]; rfl
    have hr : tree.sub (.second :: node) = some right := by rw [Cmd.sub, h]; rfl
    exact ⟨⟨hl, rfl, .inr ⟨.first, rfl⟩⟩, rfl, hr, rfl, .inr ⟨.second, rfl⟩⟩
  | back cmd =>
    have hc : tree.sub (.back :: node) = some cmd := by rw [Cmd.sub, h]; rfl
    exact ⟨⟨hc, rfl, .inr ⟨.back, rfl⟩⟩, rfl⟩

/-! ### Steps -/

/-- A pipe is written to by processes below its left side, and by those at its node. -/
def Holds (node : Path) (fds : Fds α) : Prop :=
  ∀ fd other, fds fd = some (.write other) → .left :: other <:+ node ∨ other = node

theorem Holds.update {fds : Fds α} (h : Holds node fds) {f : Option (File α)}
    (hf : ∀ other, f = some (.write other) → .left :: other <:+ node ∨ other = node) (fd : Nat) :
    Holds node (update fds fd f) := by
  intro i other hi
  by_cases hfd : i = fd
  · rw [hfd, update_self] at hi
    exact hf other hi
  · rw [update_of_ne hfd] at hi
    exact h i other hi

theorem Holds.fdalloc {fds : Fds α} (h : Holds node fds) {f : File α} {r : Nat × Fds α} (hr : fdalloc fds f = some r)
    (hf : ∀ other, f = .write other → .left :: other <:+ node ∨ other = node) : Holds node r.2 := by
  obtain ⟨fd, -, rfl⟩ := Option.map_eq_some_iff.mp hr
  exact h.update (fun other ho => hf other (Option.some.inj ho)) fd

theorem plumbed_write {fd : Nat} {other : Path} (h : plumbed tree node fd = some (.write other)) :
    .left :: other <:+ node := by
  rw [plumbed] at h
  split at h
  · exact source_write (Option.some.inj h)
  · cases h

theorem holds_plumbed : Holds node (plumbed tree node) := fun _ _ h => .inl (plumbed_write h)

/-- What holds of every process. -/
structure Legal (tree : Cmd α) (p : Process α) : Prop where
  fine : Fine tree p.node p.prog p.fds
  holds : Holds p.node p.fds

variable {p q : Process α} {x y : System α}

/-- A system call of the process alone keeps the invariant. -/
theorem Legal.advance (hstd : tree.Standard) (h : Legal tree p) (hq : p.advance = some q) : Legal tree q := by
  obtain ⟨parent, node, prog, fds⟩ := p
  obtain ⟨hfine, hholds⟩ := h
  dsimp only at hfine hholds
  cases prog with
  | run n cmd =>
    obtain rfl := Option.some.inj hq
    obtain ⟨hsub, rfl, -⟩ := hfine
    exact ⟨fine_runcmd hsub (hstd.sub hsub), holds_plumbed⟩
  | exec argv =>
    obtain rfl := Option.some.inj hq
    exact ⟨hfine.2, hholds⟩
  | close fd next =>
    obtain rfl := Option.some.inj hq
    exact ⟨hfine, hholds.update (fun _ hc => by cases hc) fd⟩
  | «open» file mode next =>
    obtain ⟨r, hr, hnext⟩ := hfine
    simp only [Process.advance, hr] at hq
    obtain rfl := Option.some.inj hq
    exact ⟨hnext, hholds.fdalloc hr fun _ hc => by cases hc⟩
  | dup fd next =>
    obtain ⟨f, r, hf, hr, hnext⟩ := hfine
    simp only [Process.advance, hf, Option.bind_some, hr] at hq
    obtain rfl := Option.some.inj hq
    exact ⟨hnext, hholds.fdalloc hr fun other ho => hholds fd other (by rw [hf, ho])⟩
  | pipe next =>
    obtain ⟨r, s, hr, hs, hnext⟩ := hfine
    simp only [Process.advance, hr, hs] at hq
    obtain rfl := Option.some.inj hq
    refine ⟨hnext, (hholds.fdalloc hr fun _ hc => by cases hc).fdalloc hs fun other ho => .inr ?_⟩
    exact (File.write.inj ho).symm
  | exit =>
    obtain rfl := Option.some.inj hq
    exact ⟨rfl, fun _ _ hc => by cases hc⟩
  | fork child next => cases hq
  | wait next => cases hq
  | zombie => cases hq
  | reaped => cases hq

/-- What a step may be. -/
theorem step_cases {a : Nat × Nat} (h : step x a = some y) : ∃ p, x.procs[a.1]? = some p ∧
    ((∃ child next, p.prog = .fork child next ∧
        y = {x with procs := x.procs.set a.1 {p with prog := next} ++ [{p with parent := some a.1, prog := child}]}) ∨
     (∃ next q, p.prog = .wait next ∧ x.procs[a.2]? = some q ∧ q.prog = .zombie ∧
        y = {x with procs := (x.procs.set a.2 {q with prog := .reaped}).set a.1 {p with prog := next}}) ∨
     (∃ next, p.prog = .wait next ∧ y = {x with procs := x.procs.set a.1 {p with prog := next}}) ∨
     (∃ node cmd q, p.prog = .run node cmd ∧ p.advance = some q ∧ y = ⟨x.procs.set a.1 q, node :: x.ran⟩) ∨
     ∃ q, (∀ node cmd, p.prog ≠ .run node cmd) ∧ p.advance = some q ∧ y = {x with procs := x.procs.set a.1 q}) := by
  rw [step] at h
  split at h
  · cases h
  rename_i p hp
  refine ⟨p, hp, ?_⟩
  split at h
  · rename_i child next hprog
    exact .inl ⟨child, next, hprog, (Option.some.inj h).symm⟩
  · rename_i next hprog
    split at h
    · rename_i i node fds hq
      split at h
      · exact .inr (.inl ⟨next, _, hprog, hq, rfl, (Option.some.inj h).symm⟩)
      · cases h
    · split at h
      · exact .inr (.inr (.inl ⟨next, hprog, (Option.some.inj h).symm⟩))
      · cases h
  · rename_i node cmd hprog
    obtain ⟨q, hq, rfl⟩ := Option.map_eq_some_iff.mp h
    exact .inr (.inr (.inr (.inl ⟨node, cmd, q, hprog, hq, rfl⟩)))
  · rename_i hfork hwait hrun
    obtain ⟨q, hq, rfl⟩ := Option.map_eq_some_iff.mp h
    exact .inr (.inr (.inr (.inr ⟨q, hrun, hq, rfl⟩)))

/-- Every process stays legal. -/
theorem legal_step (hstd : tree.Standard) (h : ∀ p ∈ x.procs, Legal tree p) {a : Nat × Nat} (hy : step x a = some y) :
    ∀ p ∈ y.procs, Legal tree p := by
  have hset : ∀ {l : List (Process α)} {i : Nat} {q : Process α}, (∀ p ∈ l, Legal tree p) → Legal tree q →
      ∀ p ∈ l.set i q, Legal tree p := fun hl hq p hp => (List.mem_or_eq_of_mem_set hp).elim (hl p) fun he => he ▸ hq
  obtain ⟨p, hp, hcases⟩ := step_cases hy
  have hlegal := h p (List.mem_of_getElem? hp)
  obtain ⟨child, next, hprog, rfl⟩ | ⟨next, q, hprog, hq, hzombie, rfl⟩ | ⟨next, hprog, rfl⟩ |
    ⟨node, cmd, q, -, hq, rfl⟩ |
    ⟨q, -, hq, rfl⟩ := hcases
  · obtain ⟨hfine, hholds⟩ := hlegal
    rw [hprog] at hfine
    intro r hr
    rcases List.mem_append.mp hr with hr | hr
    · have hnext : Legal tree {p with prog := next} := ⟨hfine.2, hholds⟩
      exact hset h hnext r hr
    · rw [List.mem_singleton.mp hr]
      exact ⟨hfine.1, hholds⟩
  · obtain ⟨hfine, hholds⟩ := hlegal
    obtain ⟨hfine', hholds'⟩ := h q (List.mem_of_getElem? hq)
    rw [hprog] at hfine
    rw [hzombie] at hfine'
    exact hset (hset h ⟨hfine', hholds'⟩) ⟨hfine.2, hholds⟩
  · obtain ⟨hfine, hholds⟩ := hlegal
    rw [hprog] at hfine
    exact hset h ⟨hfine.2, hholds⟩
  · exact hset h (hlegal.advance hstd hq)
  · exact hset h (hlegal.advance hstd hq)

theorem legal_start : ∀ p ∈ (System.start tree).procs, Legal tree p := by
  intro p hp
  rw [List.mem_singleton.mp hp]
  have hholds : Holds [] (plumbed tree []) := holds_plumbed
  exact ⟨⟨rfl, rfl, .inl rfl⟩, hholds⟩

theorem legal_run (hstd : tree.Standard) {acts : List (Nat × Nat)}
    (h : Lib.run step (System.start tree) acts = some y) :
    ∀ p ∈ y.procs, Legal tree p :=
  run_invariant (I := fun _ x => ∀ p ∈ x.procs, Legal tree p) legal_start
    (fun _ _ _ _ hx hy => legal_step hstd hx hy) h

/-! ### Each node is run once -/

/-- The nodes that a program will run. -/
def Prog.ahead : Prog α → List Path
  | .run node _ => [node]
  | .close _ next => next.ahead
  | .open _ _ next => next.ahead
  | .dup _ next => next.ahead
  | .pipe next => (next 0 0).ahead
  | .fork child next => child.ahead ++ next.ahead
  | .wait next => next.ahead
  | _ => []

/-- What a program will run does not depend on the descriptors of a pipe. -/
def Prog.Steady : Prog α → Prop
  | .close _ next => next.Steady
  | .open _ _ next => next.Steady
  | .dup _ next => next.Steady
  | .pipe next => ∀ p0 p1, (next p0 p1).ahead = (next 0 0).ahead ∧ (next p0 p1).Steady
  | .fork child next => child.Steady ∧ next.Steady
  | .wait next => next.Steady
  | _ => True

theorem steady_runcmd (node : Path) (cmd : Cmd α) : (runcmd node cmd).Steady := by
  cases cmd with
  | pipe left right => exact fun _ _ => ⟨rfl, trivial, trivial, trivial⟩
  | list left right => exact ⟨trivial, trivial⟩
  | back cmd => exact ⟨trivial, trivial⟩
  | _ => trivial

theorem ahead_runcmd (node : Path) (cmd : Cmd α) :
    (runcmd node cmd).ahead.Nodup ∧ ∀ n ∈ (runcmd node cmd).ahead, ∃ d, n = d :: node := by
  cases cmd with
  | exec argv => exact ⟨List.nodup_nil, fun n hn => by cases hn⟩
  | redir cmd file mode fd => simp [runcmd, Prog.ahead]
  | pipe left right => simp [runcmd, Prog.ahead]
  | list left right => simp [runcmd, Prog.ahead]
  | back cmd => simp [runcmd, Prog.ahead]

theorem advance_ahead (hp : p.prog.Steady) (hrun : ∀ node cmd, p.prog ≠ .run node cmd) (hq : p.advance = some q) :
    q.prog.ahead.Sublist p.prog.ahead ∧ q.prog.Steady := by
  obtain ⟨parent, node, prog, fds⟩ := p
  cases prog with
  | run n cmd => exact absurd rfl (hrun n cmd)
  | exec argv =>
    obtain rfl := Option.some.inj hq
    exact ⟨List.Sublist.refl _, trivial⟩
  | close fd next =>
    obtain rfl := Option.some.inj hq
    exact ⟨List.Sublist.refl _, hp⟩
  | «open» file mode next =>
    simp only [Process.advance] at hq
    split at hq
    · obtain rfl := Option.some.inj hq
      exact ⟨List.nil_sublist _, trivial⟩
    · obtain rfl := Option.some.inj hq
      exact ⟨List.Sublist.refl _, hp⟩
  | dup fd next =>
    simp only [Process.advance] at hq
    split at hq
    · obtain rfl := Option.some.inj hq
      exact ⟨List.Sublist.refl _, hp⟩
    · obtain rfl := Option.some.inj hq
      exact ⟨List.Sublist.refl _, hp⟩
  | pipe next =>
    simp only [Process.advance] at hq
    split at hq
    · obtain rfl := Option.some.inj hq
      exact ⟨List.nil_sublist _, trivial⟩
    · split at hq
      · obtain rfl := Option.some.inj hq
        exact ⟨List.nil_sublist _, trivial⟩
      · obtain rfl := Option.some.inj hq
        exact ⟨(hp _ _).1 ▸ List.Sublist.refl _, (hp _ _).2⟩
  | exit =>
    obtain rfl := Option.some.inj hq
    exact ⟨List.Sublist.refl _, trivial⟩
  | fork child next => cases hq
  | wait next => cases hq
  | zombie => cases hq
  | reaped => cases hq

/-- The nodes that are run at some time. -/
def System.nodes (x : System α) : List Path := x.procs.flatMap (·.prog.ahead) ++ x.ran

/-- No node is run twice, and none before the one above it. -/
structure Once (x : System α) : Prop where
  steady : ∀ p ∈ x.procs, p.prog.Steady
  nodup : x.nodes.Nodup
  above : ∀ d node, d :: node ∈ x.nodes → node ∈ x.ran

theorem nodes_set {procs : List (Process α)} {i : Nat} (hi : i < procs.length) (q : Process α) (ran : List Path) :
    (System.nodes ⟨procs.set i q, ran⟩).Perm
      (q.prog.ahead ++ ((procs.take i ++ procs.drop (i + 1)).flatMap (·.prog.ahead) ++ ran)) := by
  rw [System.nodes, List.set_eq_take_append_cons_drop, if_pos hi, List.flatMap_append, List.flatMap_append,
    List.flatMap_cons, ← List.append_assoc, ← List.append_assoc, ← List.append_assoc]
  exact ((List.perm_append_comm).append_right _).append_right _

theorem Once.set (h : Once x) {i : Nat} (hp : x.procs[i]? = some p) (hsub : q.prog.ahead.Sublist p.prog.ahead)
    (hq : q.prog.Steady) : Once {x with procs := x.procs.set i q} := by
  obtain ⟨hi, hget⟩ := List.getElem?_eq_some_iff.mp hp
  have hself : x.procs.set i p = x.procs := by rw [← hget, List.set_getElem_self]
  have hold := nodes_set hi p x.ran
  rw [hself] at hold
  have hnew := nodes_set hi q x.ran
  have hle := hsub.append_right ((x.procs.take i ++ x.procs.drop (i + 1)).flatMap (·.prog.ahead) ++ x.ran)
  refine ⟨fun r hr => ?_, hnew.nodup_iff.mpr ((hold.nodup_iff.mp h.nodup).sublist hle), fun d node hmem => ?_⟩
  · exact (List.mem_or_eq_of_mem_set hr).elim (h.steady r) fun he => he ▸ hq
  · exact h.above d node (hold.mem_iff.mpr (hle.subset (hnew.mem_iff.mp hmem)))

theorem Once.fork (h : Once x) {i : Nat} (hp : x.procs[i]? = some p) {child next : Prog α}
    (hprog : p.prog = .fork child next) :
    Once {x with procs := x.procs.set i {p with prog := next} ++ [{p with parent := some i, prog := child}]} := by
  obtain ⟨hi, hget⟩ := List.getElem?_eq_some_iff.mp hp
  have hself : x.procs.set i p = x.procs := by rw [← hget, List.set_getElem_self]
  have hsteady := h.steady p (List.mem_of_getElem? hp)
  rw [hprog] at hsteady
  have hold := nodes_set hi p x.ran
  rw [hself, hprog] at hold
  have hnew := nodes_set hi {p with prog := next} (child.ahead ++ x.ran)
  have hperm : (System.nodes {x with procs := x.procs.set i {p with prog := next} ++
      [{p with parent := some i, prog := child}]}).Perm
      x.nodes := by
    have hmove : System.nodes {x with procs := x.procs.set i {p with prog := next} ++
        [{p with parent := some i, prog := child}]} =
        System.nodes ⟨x.procs.set i {p with prog := next}, child.ahead ++ x.ran⟩ := by
      rw [System.nodes, System.nodes, List.flatMap_append, List.flatMap_singleton, List.append_assoc]
    rw [hmove]
    refine hnew.trans (List.Perm.trans ?_ hold.symm)
    rw [Prog.ahead, List.append_assoc]
    exact ((List.perm_append_comm_assoc ..).append_left _).trans (List.perm_append_comm_assoc ..)
  refine ⟨fun r hr => ?_, hperm.nodup_iff.mpr h.nodup, fun d node hmem => h.above d node (hperm.mem_iff.mp hmem)⟩
  rcases List.mem_append.mp hr with hr | hr
  · exact (List.mem_or_eq_of_mem_set hr).elim (h.steady r) fun he => he ▸ hsteady.2
  · rw [List.mem_singleton.mp hr]
    exact hsteady.1

theorem Once.run (h : Once x) {i : Nat} (hp : x.procs[i]? = some p) {node : Path} {cmd : Cmd α}
    (hprog : p.prog = .run node cmd)
    (hq : q.prog = runcmd node cmd) : Once ⟨x.procs.set i q, node :: x.ran⟩ := by
  obtain ⟨hi, hget⟩ := List.getElem?_eq_some_iff.mp hp
  have hself : x.procs.set i p = x.procs := by rw [← hget, List.set_getElem_self]
  have hold := nodes_set hi p x.ran
  rw [hself, hprog] at hold
  have hnew := nodes_set hi q (node :: x.ran)
  have hperm : (System.nodes ⟨x.procs.set i q, node :: x.ran⟩).Perm ((runcmd node cmd).ahead ++ x.nodes) := by
    rw [hq] at hnew
    exact hnew.trans (List.Perm.append_left _ (List.perm_middle.trans hold.symm))
  obtain ⟨hkids, hbelow⟩ := ahead_runcmd node cmd
  -- The node has not been run, so that no node below it has been or will be.
  have hnode : node ∉ x.ran := by
    have hnodup := hold.nodup_iff.mp h.nodup
    rw [Prog.ahead, List.singleton_append] at hnodup
    exact fun hc => (List.nodup_cons.mp hnodup).1 (List.mem_append_right _ hc)
  refine ⟨fun r hr => ?_, ?_, fun d n hmem => ?_⟩
  · refine (List.mem_or_eq_of_mem_set hr).elim (h.steady r) fun he => ?_
    rw [he, hq]
    exact steady_runcmd node cmd
  · rw [hperm.nodup_iff, List.nodup_append]
    refine ⟨hkids, h.nodup, fun n hn m hm hnm => ?_⟩
    obtain ⟨d, rfl⟩ := hbelow n hn
    exact hnode (h.above d node (hnm ▸ hm))
  · rcases List.mem_append.mp (hperm.mem_iff.mp hmem) with hmem | hmem
    · obtain ⟨d', he⟩ := hbelow _ hmem
      rw [(List.cons.inj he).2]
      exact List.mem_cons_self ..
    · exact List.mem_cons_of_mem _ (h.above d n hmem)

theorem Once.step (h : Once x) {a : Nat × Nat} (hy : step x a = some y) : Once y := by
  obtain ⟨p, hp, hcases⟩ := step_cases hy
  have hsteady := h.steady p (List.mem_of_getElem? hp)
  obtain ⟨child, next, hprog, rfl⟩ | ⟨next, q, hprog, hq, hzombie, rfl⟩ | ⟨next, hprog, rfl⟩ |
    ⟨node, cmd, q, hprog, hq, rfl⟩ |
    ⟨q, hrun, hq, rfl⟩ := hcases
  · exact h.fork hp hprog
  · have hne : a.2 ≠ a.1 := by
      intro he
      rw [he, hp] at hq
      rw [← Option.some.inj hq, hprog] at hzombie
      cases hzombie
    have hreap : Once {x with procs := x.procs.set a.2 {q with prog := .reaped}} :=
      h.set hq (List.nil_sublist _) trivial
    rw [hprog] at hsteady
    refine hreap.set (p := p) ?_ (by rw [hprog]; exact List.Sublist.refl _) hsteady
    rw [← hp]
    exact List.getElem?_set_ne hne
  · rw [hprog] at hsteady
    exact h.set hp (by rw [hprog]; exact List.Sublist.refl _) hsteady
  · refine h.run hp hprog ?_
    rw [Process.advance, hprog] at hq
    rw [← Option.some.inj hq]
  · obtain ⟨hsub, hq'⟩ := advance_ahead hsteady hrun hq
    exact h.set hp hsub hq'

/-- No node is run twice. -/
theorem ran_nodup {acts : List (Nat × Nat)} (h : Lib.run step (System.start tree) acts = some y) : y.ran.Nodup := by
  have hstart : Once (System.start tree) := by
    refine ⟨fun p hp => ?_, by simp [System.nodes, System.start, Prog.ahead], fun d node hmem => ?_⟩
    · rw [List.mem_singleton.mp hp]
      trivial
    · cases List.mem_singleton.mp hmem
  have honce : Once y := run_invariant (I := fun _ x => Once x) hstart (fun _ _ _ _ hx hy => hx.step hy) h
  exact (List.nodup_append.mp honce.nodup).2.1

/-! ### Plumbing -/

/-- The process has made its `close` calls at its node. -/
def Prog.Settled : Prog α → Prop
  | .close _ _ => False
  | .open _ _ _ => False
  | .dup _ _ => False
  | .pipe _ => False
  | .fork _ _ => False
  | _ => True

/-- The process is the left child at the node, or one below it. -/
def Process.LeftOf (p : Process α) (node : Path) : Prop :=
  .left :: node <:+ p.node ∨ (p.node = node ∧ ∃ cmd, p.prog = .run (.left :: node) cmd)

/-- The end of a pipe that is written to is held by the left side only, by settled processes at its node. -/
theorem Legal.leftOf (h : Legal tree p) {node : Path} (hsettled : p.node = node → p.prog.Settled) {fd : Nat}
    (hfd : p.fds fd = some (.write node)) : p.LeftOf node := by
  obtain ⟨hfine, hholds⟩ := h
  rcases hholds fd node hfd with hleft | rfl
  · exact .inl hleft
  have hs := hsettled rfl
  have hself : p.fds = plumbed tree p.node → p.LeftOf p.node := fun he => .inl (plumbed_write (he ▸ hfd))
  cases hprog : p.prog with
  | run n cmd =>
    rw [hprog] at hfine
    obtain ⟨-, hfds, hn⟩ := hfine
    rw [hfds] at hfd
    have hsuffix := plumbed_write hfd
    rcases hn with rfl | ⟨d, rfl⟩
    · cases List.suffix_nil.mp hsuffix
    · rcases List.suffix_cons_iff.mp hsuffix with he | hsuffix
      · refine .inr ⟨rfl, cmd, ?_⟩
        rw [hprog, he]
      · exact .inl hsuffix
  | exec argv =>
    rw [hprog] at hfine
    exact hself hfine.2
  | wait next =>
    rw [hprog] at hfine
    exact hself hfine.1
  | exit =>
    rw [hprog] at hfine
    exact hself hfine
  | zombie =>
    rw [hprog] at hfine
    rw [show p.fds = fun _ => none from hfine] at hfd
    cases hfd
  | reaped =>
    rw [hprog] at hfine
    rw [show p.fds = fun _ => none from hfine] at hfd
    cases hfd
  | _ =>
    rw [hprog] at hs
    exact hs.elim

/-- Every process at an `EXEC` node has the descriptors 0, 1 and 2 with the files around the node, and nothing else,
and a pipe is written to only from its left side, once the processes at its node have closed it. -/
structure Plumbed (tree : Cmd α) (x : System α) : Prop where
  exec : ∀ p ∈ x.procs, ∀ argv, p.prog = .exec argv → tree.sub p.node = some (.exec argv) ∧
    (∀ fd, fd < 3 → p.fds fd = some (source tree fd p.node)) ∧ ∀ fd, 3 ≤ fd → p.fds fd = none
  write : ∀ node, (∀ p ∈ x.procs, p.node = node → p.prog.Settled) →
    ∀ p ∈ x.procs, ∀ fd, p.fds fd = some (.write node) → p.LeftOf node

theorem plumbed_run (hstd : tree.Standard) {acts : List (Nat × Nat)}
    (h : Lib.run step (System.start tree) acts = some y) :
    Plumbed tree y := by
  have hlegal := legal_run hstd h
  refine ⟨fun p hp argv hprog => ?_, fun node hsettled p hp fd hfd => ?_⟩
  · have hfine := (hlegal p hp).fine
    rw [hprog] at hfine
    obtain ⟨hsub, hfds⟩ := hfine
    rw [hfds]
    exact ⟨hsub, fun fd hfd => plumbed_of_lt hfd, fun fd hfd => plumbed_of_le hfd⟩
  · exact (hlegal p hp).leftOf (hsettled p hp) hfd

theorem Line.standard {ts : List Token} {t : Tree} (h : Line ts t) : t.Standard :=
  h.rule (P := fun t => t.Standard) (fun _ _ => trivial) (fun _ _ _ _ hfd ht => ⟨hfd, ht⟩)
    (fun _ _ ht hu => ⟨ht, hu⟩) (fun _ _ ht hu => ⟨ht, hu⟩) fun _ ht => ht

/-- The command of every line that the parser accepts is plumbed, in every order in which the processes run. -/
theorem plumbed_of_parse {str buf : List Byte} {cmd : Cmd Span} {s : Nat} (h0 : 0 ∉ str)
    (hparse : parsecmd str 0 = .ok ((cmd, buf), s)) {acts : List (Nat × Nat)} {x : System (List Byte)}
    (hrun : Lib.run step (System.start (cmd.strings buf)) acts = some x) :
    Plumbed (cmd.strings buf) x ∧ x.ran.Nodup := by
  obtain ⟨t, ht, hrel, hbuf⟩ := (parsecmd_sound h0).of_ok hparse
  dsimp only at hrel hbuf
  rw [hbuf, hrel.strings h0] at hrun ⊢
  exact ⟨plumbed_run ht.standard hrun, ran_nodup hrun⟩

/-- `a<b|c&`, up to where its left side is at the program `a`. -/
theorem plumbed_sample : ∃ cmd buf s, parsecmd sample 0 = .ok ((cmd, buf), s) ∧
    ∃ x, Lib.run step (System.start (cmd.strings buf))
        ([0, 0, 1, 1, 1, 2, 2, 2, 2, 2, 2, 2, 2].map fun i => (i, 0)) = some x ∧
      (∃ p ∈ x.procs, p.prog = .exec [[ascii 'a']]) ∧ Plumbed (cmd.strings buf) x ∧ x.ran.Nodup := by
  obtain ⟨cmd, buf, s, hparse, htree⟩ := parsecmd_of_line (show 0 ∉ sample by decide) line_sample
  have hrun : ∃ x, Lib.run step (System.start (cmd.strings buf))
      ([0, 0, 1, 1, 1, 2, 2, 2, 2, 2, 2, 2, 2].map fun i => (i, 0)) =
      some x ∧ ∃ p ∈ x.procs, p.prog = .exec [[ascii 'a']] := by
    rw [htree]
    exact ⟨_, rfl, _, List.mem_of_getElem? (i := 2) rfl, rfl⟩
  obtain ⟨x, hrun, hexec⟩ := hrun
  exact ⟨cmd, buf, s, hparse, x, hrun, hexec, plumbed_of_parse (by decide) hparse hrun⟩

end Xv6.Sh
