import Xv6.Kern.Handles
import Xv6.Fs.Check

/-! Every system call keeps the reference counts. -/
namespace Xv6.Kern
open Lib Fs Function List

variable (sb : Superblock)
variable {k k' : Kernel} {F : List FilePtr} {T : List Ptr} {p : Slot} {cwd : Ptr}

/-- Only the process `p` is another, and it is in the state it was in. -/
structure Own (p : Slot) (k k' : Kernel) : Prop where
  other : ∀ q, q ≠ p → k'.proc q = k.proc q
  state : (k'.proc p).state = (k.proc p).state

theorem Own.of_eq (h : k'.proc = k.proc) : Own p k k' := ⟨fun _ _ => by rw [h], by rw [h]⟩

theorem Own.trans (h : Own p k k') (h' : Own p k' k'') : Own p k k'' :=
  ⟨fun q hq => (h'.other q hq).trans (h.other q hq), h'.state.trans h.state⟩

theorem own_setProc (hg : (g (k.proc p)).state = (k.proc p).state) :
    Own p k (k.setProc p g) :=
  ⟨fun _ hq => update_of_ne hq .., by simp only [Kernel.setProc, update_self]; exact hg⟩

theorem own_setFd : Own p k (k.setFd p fd v) := own_setProc rfl

/-! ### Descriptors -/

theorem sys_dup_runs (h : Counted k [] []) (fd : Option (BitVec 32)) :
    Runs (sys_dup p fd) k (fun _ k' => Counted k' [] [] ∧ Own p k k') fun _ => True := by
  refine argfd_runs.bind fun r k₁ h₁ => ?_
  obtain ⟨rfl, hr⟩ := h₁
  match r with
  | none => exact Runs.pure ⟨h, .of_eq rfl⟩
  | some (_, f) =>
    refine fdalloc_runs.bind fun r k₂ h₂ => ?_
    match r with
    | none =>
      rw [h₂.1]
      exact Runs.pure ⟨h, .of_eq rfl⟩
    | some fd =>
      obtain ⟨hfd, rfl⟩ := h₂
      refine (filedup_runs (f := f) (h.of_proc (g := (k₁.setFd p fd (some f)).proc))).bind fun _ k₃ h₃ => ?_
      refine Runs.pure ⟨?_, own_setFd.trans (.of_eq h₃.2)⟩
      have hstore := h₃.1.store hfd
      rw [← cwds_setFd k₁ p fd (some f)] at hstore
      exact hstore.rebase (fun q => by rw [h₃.2]) fun q => by rw [h₃.2]

theorem sys_close_runs (h : Counted k [] []) (fd : Option (BitVec 32)) :
    Runs (sys_close sb p fd) k (fun _ k' => Counted k' [] [] ∧ Own p k k') fun _ => True := by
  refine argfd_runs.bind fun r k₁ h₁ => ?_
  obtain ⟨rfl, hr⟩ := h₁
  match r with
  | none => exact Runs.pure ⟨h, .of_eq rfl⟩
  | some (fd, f) =>
    have htake := h.take (hr _ rfl)
    rw [← cwds_setFd k₁ p fd none] at htake
    refine Runs.bind_ok rfl ?_
    refine (fileclose_runs sb (htake.of_proc (g := (k₁.setFd p fd none).proc))).bind fun _ k₂ h₂ => ?_
    refine Runs.pure ⟨h₂.1.rebase (fun q => by rw [h₂.2]) fun q => by rw [h₂.2], ?_⟩
    exact own_setFd.trans (.of_eq h₂.2)

theorem Counted.of_counts (h : Counts (slots k) (cwds k) k₁ F T) (hp : k₁.proc = k.proc) :
    Counted k₁ F T :=
  h.rebase (fun q => by rw [hp]) fun q => by rw [hp]

private theorem close_both (h : Counted k (rf :: wf :: F) T) :
    Runs (do fileclose sb rf; fileclose sb wf; pure none : K (Option (Fd × Fd))) k
      (fun _ k' => Counted k' F T ∧ Own p k k') fun _ => True := by
  refine (fileclose_runs sb h).bind fun _ k₁ h₁ => ?_
  refine (fileclose_runs sb h₁.1).bind fun _ k₂ h₂ => Runs.pure ?_
  have hp := h₂.2.trans h₁.2
  exact ⟨.of_counts h₂.1 hp, .of_eq hp⟩

theorem Counted.storeFd (h : Counted k (f :: F) T)
    (hfd : (k.proc p).ofile fd = none) : Counted (k.setFd p fd (some f)) F T := by
  have := h.store hfd
  rw [← cwds_setFd k p fd (some f)] at this
  exact this.of_proc

theorem Counted.takeFd (h : Counted k F T)
    (hfd : (k.proc p).ofile fd = some f) : Counted (k.setFd p fd none) (f :: F) T := by
  have := h.take hfd
  rw [← cwds_setFd k p fd none] at this
  exact this.of_proc

theorem sys_pipe_runs (h : Counted k [] []) (fds : Bool)
    (hpage : k.pages.count (.kalloc page) = k.pages.count (.kfree page)) :
    Runs (sys_pipe sb p fds page) k (fun _ k' => Counted k' [] [] ∧ Own p k k') fun _ => True := by
  refine Runs.ite (fun _ => Runs.pure ⟨h, .of_eq rfl⟩) fun _ => ?_
  refine (pipealloc_runs sb h hpage).bind fun r k₁ h₁ => ?_
  obtain ⟨hproc, hr⟩ := h₁
  match r with
  | none => exact Runs.pure ⟨.of_counts hr hproc, .of_eq hproc⟩
  | some (rf, wf) =>
    have hboth : Counted k₁ [rf, wf] [] := .of_counts hr hproc
    refine fdalloc_runs.bind fun r k₂ h₂ => ?_
    match r with
    | none =>
      rw [h₂.1]
      exact (close_both sb (p := p) hboth).post fun _ _ hk => ⟨hk.1, (Own.of_eq hproc).trans hk.2⟩
    | some fd0 =>
      obtain ⟨hfd0, rfl⟩ := h₂
      have hone := hboth.storeFd hfd0
      refine fdalloc_runs.bind fun r k₃ h₃ => ?_
      match r with
      | some fd1 =>
        obtain ⟨hfd1, rfl⟩ := h₃
        exact Runs.pure ⟨hone.storeFd hfd1, ((Own.of_eq hproc).trans own_setFd).trans own_setFd⟩
      | none =>
        rw [h₃.1]
        have hfd : ((k₁.setFd p fd0 (some rf)).proc p).ofile fd0 = some rf := by
          simp only [Kernel.setFd, Kernel.setProc, update_self]
        refine Runs.bind_ok rfl ((close_both sb (p := p) (hone.takeFd hfd)).post fun _ _ hk => ⟨hk.1, ?_⟩)
        exact (((Own.of_eq hproc).trans own_setFd).trans own_setFd).trans hk.2

theorem Counted.setProc (h : Counted k F T) (hf : (g (k.proc p)).ofile = (k.proc p).ofile)
    (hc : (g (k.proc p)).cwd = (k.proc p).cwd) : Counted (k.setProc p g) F T := by
  refine (h.rebase (fun q => ?_) fun q => ?_).of_proc
  all_goals
    rw [Kernel.setProc_proc]
    split
    case isTrue hq => rw [hq]; assumption
    case isFalse => rfl

theorem Counted.storeCwd (h : Counted k F (ip :: T))
    (hcwd : (k.proc p).cwd = none) (hg : (g (k.proc p)).cwd = some ip)
    (hf : (g (k.proc p)).ofile = (k.proc p).ofile) :
    Counts (slots (k.setProc p g)) (cwds (k.setProc p g)) k F T := by
  have hs : slots (k.setProc p g) = slots k := by
    refine slots_congr fun q => ?_
    rw [Kernel.setProc_proc]
    split
    case isTrue hq => rw [hq, hf]
    case isFalse => rfl
  rw [hs]
  exact Counts.storeCwd h hcwd hg

/-! ### Files and directories -/

theorem cwd_pos (hcwd : (k.proc p).cwd = some cwd) : 0 < files k cwd + cwds k cwd := by
  have := le_sum (fun q => if (k.proc q).cwd = some cwd then 1 else 0) p
  simp only [hcwd, if_true] at this
  simp only [cwds]
  omega

theorem Counted.fs {α : Type} {x : M α} {U : α → List Ptr} (h : Counted k F T)
    (hx : Runs x k.fs (fun a s => Hold (fun ip => files k ip + cwds k ip) s (U a)) fun _ => True) :
    Runs (Kern.fs x) k (fun a k' => Counted k' F (U a) ∧ k'.proc = k.proc ∧ k'.ftable = k.ftable)
      fun _ => True :=
  (Counts.fs h hx).post fun a k' hk => by
    obtain ⟨hc, hk⟩ := hk
    have hp : k'.proc = k.proc := by rw [hk]
    exact ⟨.of_counts hc hp, hp, by rw [hk]⟩

theorem hold_open_inode (h : Hold b s []) (hcwd : 0 < b cwd)
    (path : List Byte) (omode : BitVec 32) :
    Runs (open_inode sb cwd path omode) s (fun r s' => Hold b s' r.toList) fun _ => True := by
  refine Runs.ite (fun _ => (h.create sb hcwd path _ _ _).post fun r s' hr => ?_) fun _ => ?_
  · rwa [Gained, append_nil] at hr
  refine (h.namei sb hcwd path).bind fun r s₁ h₁ => ?_
  match r with
  | none => exact Runs.pure h₁
  | some ip =>
    refine (Hold.leaves h₁ (leaves_ilock sb ip)).bind fun _ s₂ h₂ => bind_inode ?_
    exact Runs.ite (fun _ => (Hold.iunlockput sb h₂).bind fun _ _ h => Runs.pure h) fun _ => Runs.pure h₂

theorem open_bad_runs (h : Counted k F (ip :: T)) :
    Runs (open_bad sb ip) k (fun _ k' => Counted k' F T ∧ k'.proc = k.proc) fun _ => True := by
  refine (h.fs (U := fun _ => T) ?_).bind fun _ k₁ h₁ => Runs.pure ⟨h₁.1, h₁.2.1⟩
  exact (h.inode.iunlockput sb).bind fun _ _ h => h.leaves leaves_end_op

theorem Counted.opened (h : Counted k F (ip :: T)) (hr : (k.ftable f).ref ≠ 0)
    (ht : (k.ftable f).type = .FD_NONE) (omode : BitVec 32) :
    Counted (k.setFile f (File.opened ip omode)) F T := by
  refine Counts.setFile h (h.file f) (fun _ _ => rfl) (fun q => ?_) (fun h0 => absurd h0 hr) ?_
  · rw [if_neg (by simp [File.Names, ht]), count_cons]
    have : ((k.ftable f).opened ip omode).Names q ↔ ip = q :=
      ⟨fun h => h.2.2, fun h => ⟨Nat.pos_of_ne_zero hr, rfl, h⟩⟩
    simp only [this, beq_iff_eq]
    omega
  · rw [File.pipeEnd, File.pipeEnd, ht]
    rfl

theorem sys_open_runs (h : Counted k [] []) (hcwd : (k.proc p).cwd = some cwd)
    (args : Option (List Byte × BitVec 32)) :
    Runs (sys_open sb p cwd args) k (fun _ k' => Counted k' [] [] ∧ Own p k k') fun _ => True := by
  match args with
  | none => exact Runs.pure ⟨h, .of_eq rfl⟩
  | some (path, omode) =>
    refine (h.fs (U := fun _ => []) (h.inode.leaves leaves_begin_op)).bind fun _ k₁ h₁ => ?_
    obtain ⟨hc₁, hp₁, -⟩ := h₁
    have hpos : 0 < files k₁ cwd + cwds k₁ cwd := cwd_pos (p := p) (by rw [hp₁]; exact hcwd)
    refine (hc₁.fs (hold_open_inode sb hc₁.inode hpos path omode)).bind fun r k₂ h₂ => ?_
    obtain ⟨hc₂, hp₂, -⟩ := h₂
    match r with
    | none =>
      refine (hc₂.fs (U := fun _ => []) (Hold.leaves hc₂.inode leaves_end_op)).bind fun _ k₃ h₃ => ?_
      exact Runs.pure ⟨h₃.1, .of_eq ((h₃.2.1.trans hp₂).trans hp₁)⟩
    | some ip =>
      refine filealloc_runs.bind fun r k₃ h₃ => ?_
      match r with
      | none =>
        rw [h₃.1]
        exact (open_bad_runs sb hc₂).post fun _ _ hk => ⟨hk.1, .of_eq ((hk.2.trans hp₂).trans hp₁)⟩
      | some f =>
        obtain ⟨hr, rfl⟩ := h₃
        have hc₃ : Counted (k₂.setFile f fun r => {r with ref := 1}) [f] [ip] := hc₂.filealloc hr
        refine fdalloc_runs.bind fun r k₄ h₄ => ?_
        match r with
        | none =>
          rw [h₄.1]
          refine (fileclose_runs sb hc₃).bind fun _ k₅ h₅ => ?_
          have hc₅ : Counted k₅ [] [ip] := .of_counts h₅.1 h₅.2
          refine (open_bad_runs sb hc₅).post fun _ k₆ h₆ => ⟨h₆.1, .of_eq ?_⟩
          exact ((h₆.2.trans h₅.2).trans hp₂).trans hp₁
        | some fd =>
          obtain ⟨hfd, rfl⟩ := h₄
          have hc₄ := hc₃.storeFd hfd
          refine (hc₄.fs (U := fun _ => [ip])
            ((hc₄.inode.leaves (leaves_iunlock ip)).bind fun _ _ h => h.leaves leaves_end_op)).bind fun _ k₅ h₅ => ?_
          obtain ⟨hc₅, hp₅, hf₅⟩ := h₅
          have hf : k₅.ftable f = {k₂.ftable f with ref := 1} := by
            rw [hf₅]
            exact update_self ..
          refine Runs.bind_ok rfl (Runs.pure ⟨hc₅.opened ?_ ?_ omode, ?_⟩)
          · rw [hf]
            exact Nat.one_ne_zero
          · rw [hf]
            exact hc₂.closed f hr
          · exact (Own.of_eq (hp₂.trans hp₁)).trans (own_setFd.trans (.of_eq hp₅))

theorem Counted.pass {α : Type} {x : M α} (h : Counted k F T) (hx : Leaves tags x) :
    Runs (Kern.fs x) k (fun _ k' => Counted k' F T ∧ k'.proc = k.proc) fun _ => True :=
  (h.fs (U := fun _ => T) (h.inode.leaves hx)).post fun _ _ hk => ⟨hk.1, hk.2.1⟩

theorem Counted.iunlockput (h : Counted k F (ip :: T)) :
    Runs (Kern.fs (Fs.iunlockput sb ip)) k (fun _ k' => Counted k' F T ∧ k'.proc = k.proc) fun _ => True :=
  (h.fs (U := fun _ => T) (h.inode.iunlockput sb)).post fun _ _ hk => ⟨hk.1, hk.2.1⟩

theorem Counted.iputCwd (h : Counted k F T) (hcwd : (k.proc p).cwd = some cwd)
    (hx : ∀ s b, Hold b s (cwd :: T) → Runs x s (fun _ s' => Hold b s' T) fun _ => True) :
    Runs (Kern.fs x) k (fun _ k' => k'.proc = k.proc ∧
      Counts (slots k) (cwds (k.setProc p fun r => {r with cwd := none})) k' F T) fun _ => True := by
  have htake := h.takeCwd (g := fun r => {r with cwd := none}) hcwd rfl
  refine (htake.fs (U := fun _ => T) (hx _ _ htake.inode)).post fun _ k' hk => ⟨?_, hk.1⟩
  rw [hk.2]

/-- A process that gave up its current directory gets another one. -/
theorem Counts.newCwd
    (h : Counts (slots k) (cwds (k.setProc p fun r => {r with cwd := none})) k₁ F (ip :: T))
    (hp : k₁.proc = k.proc) (hg : (g (k.proc p)).cwd = some ip)
    (hgf : (g (k.proc p)).ofile = (k.proc p).ofile) :
    Counts (slots (k₁.setProc p g)) (cwds (k₁.setProc p g)) k₁ F T := by
  have hstore := h.storeCwd (p := p) (g := fun _ => g (k.proc p))
    (by simp only [Kernel.setProc_proc, if_true]) hg
  have hc : cwds ((k.setProc p fun r => {r with cwd := none}).setProc p fun _ => g (k.proc p)) =
      cwds (k₁.setProc p g) := by
    refine cwds_congr fun q => ?_
    simp only [Kernel.setProc_proc, hp]
    split <;> rfl
  have hs : slots k = slots (k₁.setProc p g) := by
    refine slots_congr fun q => ?_
    simp only [Kernel.setProc_proc, hp]
    split
    case isTrue hq => rw [hq, hgf]
    case isFalse => rfl
  rw [hc, hs] at hstore
  exact hstore

theorem sys_chdir_runs (h : Counted k [] []) (hcwd : (k.proc p).cwd = some cwd)
    (path : Option (List Byte)) :
    Runs (sys_chdir sb p cwd path) k (fun _ k' => Counted k' [] [] ∧ Own p k k') fun _ => True := by
  refine (h.pass leaves_begin_op).bind fun _ k₁ h₁ => ?_
  obtain ⟨hc₁, hp₁⟩ := h₁
  match path with
  | none => exact (hc₁.pass leaves_end_op).bind fun _ _ hk => Runs.pure ⟨hk.1, .of_eq (hk.2.trans hp₁)⟩
  | some path =>
    have hpos : 0 < files k₁ cwd + cwds k₁ cwd := cwd_pos (p := p) (by rw [hp₁]; exact hcwd)
    refine (hc₁.fs (hc₁.inode.namei sb hpos path)).bind fun r k₂ h₂ => ?_
    obtain ⟨hc₂, hp₂, -⟩ := h₂
    match r with
    | none =>
      refine (Counted.pass hc₂ leaves_end_op).bind fun _ _ hk => Runs.pure ⟨hk.1, .of_eq ?_⟩
      exact (hk.2.trans hp₂).trans hp₁
    | some ip =>
      refine (Counted.pass hc₂ (leaves_ilock sb ip)).bind fun _ k₃ h₃ => ?_
      refine (Counted.pass h₃.1 (leaves_inode ip)).bind fun i k₄ h₄ => Runs.ite (fun _ => ?_) fun _ => ?_
      · refine (Counted.iunlockput sb h₄.1).bind fun _ k₅ h₅ => ?_
        refine (h₅.1.pass leaves_end_op).bind fun _ _ hk => Runs.pure ⟨hk.1, .of_eq ?_⟩
        rw [hk.2, h₅.2, h₄.2, h₃.2, hp₂, hp₁]
      · refine (Counted.pass h₄.1 (leaves_iunlock ip)).bind fun _ k₅ h₅ => ?_
        have hp₅ : k₅.proc = k.proc := by rw [h₅.2, h₄.2, h₃.2, hp₂, hp₁]
        have hcwd₅ : (k₅.proc p).cwd = some cwd := by rw [hp₅]; exact hcwd
        refine (Counted.iputCwd (T := [ip]) h₅.1 hcwd₅ fun s b hs => hs.iput sb).bind fun _ k₆ h₆ => ?_
        obtain ⟨hp₆, hc₆⟩ := h₆
        refine (hc₆.fs (U := fun _ => [ip]) (hc₆.inode.leaves leaves_end_op)).bind fun _ k₇ h₇ => ?_
        have hp₇ : k₇.proc = k₅.proc := by rw [h₇.2]; exact hp₆
        refine Runs.bind_ok rfl (Runs.pure ⟨?_, (Own.of_eq (hp₇.trans hp₅)).trans (own_setProc rfl)⟩)
        exact (h₇.1.newCwd hp₇ rfl rfl).of_proc

/-! ### Processes -/

/-- Every reference is counted, and what is not there to make calls has no handles. -/
structure Balanced (k : Kernel) : Prop where
  counts : Counted k [] []
  idle : ∀ p, ¬ (k.proc p).Alive → (k.proc p).cwd = none ∧ ∀ fd, (k.proc p).ofile fd = none

theorem Balanced.own (h : Balanced k) (ha : (k.proc p).Alive) (hc : Counted k' [] []) (ho : Own p k k') :
    Balanced k' := by
  refine ⟨hc, fun q hq => ?_⟩
  by_cases hqp : q = p
  · subst hqp
    rw [Proc.Alive, ho.state] at hq
    exact absurd ha hq
  · rw [ho.other q hqp] at hq ⊢
    exact h.idle q hq

/-- The kernel while `fork` copies the descriptors of `done` to `np`. -/
private structure Copying (k : Kernel) (np : Slot) (done : List Fd) (k' : Kernel) : Prop where
  counts : Counted k' [] []
  own : Own np k k'
  cwd : (k'.proc np).cwd = none
  left : ∀ fd, fd ∉ done → (k'.proc np).ofile fd = none

private theorem fork_files_runs (h : Counted k [] []) (hcwd : (k.proc np).cwd = none)
    (hfd : ∀ fd, (k.proc np).ofile fd = none) :
    Runs (fork_files p np) k (fun _ k' => Copying k np (List.finRange NOFILE) k') fun _ => True := by
  refine Runs.forM (fun done k' => Copying k np done k') (fun done fd rest k₁ hl h₁ => ?_)
    ⟨h, .of_eq rfl, hcwd, fun fd _ => hfd fd⟩
  have hnew : fd ∉ done := by
    have hnodup := nodup_finRange NOFILE
    rw [hl] at hnodup
    exact fun hin => (nodup_append.mp hnodup).2.2 fd hin fd mem_cons_self rfl
  refine Runs.bind_get ?_
  match (k₁.proc p).ofile fd with
  | none =>
    refine Runs.pure ⟨h₁.counts, h₁.own, h₁.cwd, fun i hi => h₁.left i fun hin => hi ?_⟩
    exact mem_append_left _ hin
  | some f =>
    refine (filedup_runs (f := f) h₁.counts).bind fun _ k₂ h₂ => Runs.modify ?_
    have hc₂ : Counted k₂ [f] [] := .of_counts h₂.1 h₂.2
    refine ⟨hc₂.storeFd (by rw [h₂.2]; exact h₁.left fd hnew), ?_, ?_, fun i hi => ?_⟩
    · exact (h₁.own.trans (.of_eq h₂.2)).trans own_setFd
    · simp only [Kernel.setFd, Kernel.setProc_proc, if_true, h₂.2]
      exact h₁.cwd
    · rw [mem_append, mem_singleton, not_or] at hi
      simp only [Kernel.setFd, Kernel.setProc_proc, if_true, h₂.2, update_of_ne hi.2]
      exact h₁.left i hi.1

theorem fork_runs (h : Balanced k) (ha : (k.proc p).Alive) (hcwd : (k.proc p).cwd = some cwd)
    (memory : Bool) : Runs (fork p cwd memory) k (fun _ k' => Balanced k') fun _ => True := by
  refine Runs.bind_get ?_
  match hf : (List.finRange NPROC).find? fun q => (k.proc q).state = .UNUSED with
  | none => exact Runs.pure h
  | some np =>
    have hunused := List.find?_some hf
    rw [decide_eq_true_eq] at hunused
    have hdead : ¬ (k.proc np).Alive := by simp [Proc.Alive, hunused]
    have hnp : p ≠ np := fun he => hdead (he ▸ ha)
    obtain ⟨hncwd, hnfd⟩ := h.idle np hdead
    refine Runs.ite (fun _ => Runs.pure h) fun _ => Runs.bind_ok rfl ?_
    -- The parent pointer is of no account.
    have hc₁ : Counted (k.setProc np fun r => {r with parent := some p}) [] [] :=
      Counted.setProc h.counts rfl rfl
    refine (fork_files_runs (p := p) hc₁ ?_ ?_).bind fun _ k₂ h₂ => ?_
    · simp only [Kernel.setProc_proc, if_true]
      exact hncwd
    · simp only [Kernel.setProc_proc, if_true]
      exact hnfd
    have hother : ∀ q, q ≠ np → k₂.proc q = k.proc q := fun q hq =>
      (h₂.own.other q hq).trans (by rw [Kernel.setProc_proc, if_neg hq])
    have hcwd₂ : (k₂.proc p).cwd = some cwd := by rw [hother p hnp]; exact hcwd
    have hpos := cwd_pos hcwd₂
    refine (h₂.counts.fs (U := fun ip => [ip]) ((h₂.counts.inode.idup hpos).post fun ip _ hr => ?_)).bind
      fun ip k₃ h₃ => Runs.bind_ok rfl (Runs.pure ?_)
    · rw [hr.1]
      exact hr.2
    have hncwd₃ : (k₃.proc np).cwd = none := by rw [h₃.2.1]; exact h₂.cwd
    refine ⟨(Counted.storeCwd h₃.1 hncwd₃ rfl rfl).of_proc, fun q hq => ?_⟩
    rw [Kernel.setProc_proc] at hq ⊢
    by_cases hqn : q = np
    · rw [if_pos hqn] at hq
      exact absurd (.inr (.inl rfl)) hq
    · rw [if_neg hqn, h₃.2.1, hother q hqn] at hq ⊢
      exact h.idle q hq

/-- What giving up a reference to an inode keeps of the file system. -/
def Lasting (sb : Superblock) (J : State → Prop) : Prop :=
  ∀ s ip, J s → 0 < (s.icache ip).ref →
    Runs (do Fs.begin_op; Fs.iput sb ip; Fs.end_op) s (fun _ s' => J s') fun _ => True

theorem lasting_true : Lasting sb fun _ => True := fun _ _ _ _ => Runs.always

theorem fileclose_lasting (hJ : Lasting sb J) (h : Counts c d k (f :: F) T) (hj : J k.fs) :
    Runs (fileclose sb f) k (fun _ k' => J k'.fs) fun _ => True := by
  refine Runs.bind_get (Runs.ite (fun _ => Runs.throw trivial) fun hr => ?_)
  refine Runs.ite (fun _ => Runs.modify hj) fun _ => Runs.bind_ok rfl ?_
  rw [release]
  cases ht : (k.ftable f).type with
  | FD_NONE => exact Runs.pure hj
  | FD_PIPE =>
    exact Runs.bind_get (Runs.bind_ok rfl (Runs.ite (fun _ => Runs.modify hj) fun _ => Runs.pure hj))
  | FD_INODE =>
    have hn : (k.ftable f).Names (k.ftable f).ip := ⟨by omega, ht, rfl⟩
    have hle := le_sum (fun q => if (k.ftable q).Names (k.ftable f).ip then 1 else 0) f
    simp only [if_pos hn] at hle
    have href : 0 < (k.fs.icache (k.ftable f).ip).ref := by
      rw [h.inode.ref, files]
      omega
    exact (fs_runs (k := k.setFile f fun r => {r with ref := 0, type := .FD_NONE})
      (hJ _ _ hj href)).post fun _ _ hk => hk.1

/-- The kernel while `exit` closes the descriptors of `done`. -/
private structure Closing (J : State → Prop) (k : Kernel) (p : Slot) (cwd : Ptr) (done : List Fd)
    (k' : Kernel) : Prop where
  counts : Counted k' [] []
  own : Own p k k'
  cwd : (k'.proc p).cwd = some cwd
  done : ∀ fd, fd ∈ done → (k'.proc p).ofile fd = none
  fs : J k'.fs

private theorem exit_files_runs (hJ : Lasting sb J) (h : Counted k [] [])
    (hcwd : (k.proc p).cwd = some cwd) (hj : J k.fs) :
    Runs (exit_files sb p) k (fun _ k' => Closing J k p cwd (List.finRange NOFILE) k') fun _ => True := by
  refine Runs.forM (fun done k' => Closing J k p cwd done k') (fun done fd rest k₁ hl h₁ => ?_)
    ⟨h, .of_eq rfl, hcwd, nofun, hj⟩
  refine Runs.bind_get ?_
  match hfd : (k₁.proc p).ofile fd with
  | none =>
    refine Runs.pure ⟨h₁.counts, h₁.own, h₁.cwd, fun i hi => ?_, h₁.fs⟩
    obtain hi | hi := mem_append.mp hi
    · exact h₁.done i hi
    · rw [mem_singleton.mp hi]
      exact hfd
  | some f =>
    have htake := h₁.counts.take hfd
    refine (((fileclose_runs sb htake).and (fileclose_lasting sb hJ htake h₁.fs)).stops
      fun _ _ => trivial).bind fun _ k₂ h₂ => Runs.modify ?_
    obtain ⟨⟨hc₂, hp₂⟩, hj₂⟩ := h₂
    refine ⟨?_, (h₁.own.trans (.of_eq hp₂)).trans own_setFd, ?_, fun i hi => ?_, hj₂⟩
    · rw [← cwds_setFd k₁ p fd none] at hc₂
      refine (hc₂.rebase (fun q => ?_) fun q => ?_).of_proc
      all_goals simp only [Kernel.setFd, Kernel.setProc_proc, hp₂]
    · simp only [Kernel.setFd, Kernel.setProc_proc, if_true, hp₂]
      exact h₁.cwd
    · simp only [Kernel.setFd, Kernel.setProc_proc, if_true, hp₂]
      by_cases hif : i = fd
      · rw [hif, update_self]
      · rw [update_of_ne hif]
        obtain hi | hi := mem_append.mp hi
        · exact h₁.done i hi
        · exact absurd (mem_singleton.mp hi) hif

theorem exit_runs (hJ : Lasting sb J) (h : Balanced k) (hcwd : (k.proc p).cwd = some cwd)
    (hj : J k.fs) : Runs (exit sb p cwd) k (fun _ k' => Balanced k' ∧ J k'.fs) fun _ => True := by
  refine (exit_files_runs sb hJ h.counts hcwd hj).bind fun _ k₁ h₁ => ?_
  have hput : Runs (Kern.fs do Fs.begin_op; Fs.iput sb cwd; Fs.end_op) k₁ (fun _ k' => J k'.fs) fun _ => True := by
    refine (fs_runs (hJ _ cwd h₁.fs ?_)).post fun _ _ hk => hk.1
    rw [h₁.counts.inode.ref]
    exact Nat.add_pos_left (cwd_pos h₁.cwd) _
  refine (((Counted.iputCwd h₁.counts h₁.cwd fun s b hs => ?_).and hput).stops fun _ _ => trivial).bind
    fun _ k₂ ⟨h₂, hj₂⟩ => ?_
  · exact (hs.leaves leaves_begin_op).bind fun _ _ h => (h.iput sb).bind fun _ _ h => h.leaves leaves_end_op
  obtain ⟨hp₂, hc₂⟩ := h₂
  refine Runs.bind_ok rfl (Runs.modify ?_)
  have hproc : ∀ q, ((k₂.setProc p fun r => {r with cwd := none}).proc q).ofile = (k₁.proc q).ofile := by
    intro q
    simp only [Kernel.setProc_proc, hp₂]
    split
    case isTrue hq => rw [hq]
    case isFalse => rfl
  refine ⟨⟨?_, fun q hq => ?_⟩, hj₂⟩
  · have hc : cwds (k₁.setProc p fun r => {r with cwd := none}) =
        cwds ((k₂.setProc p fun r => {r with cwd := none}).leave p) := by
      refine cwds_congr fun q => ?_
      simp only [Kernel.leave, Kernel.setProc_proc, hp₂]
    have hs : slots k₁ = slots ((k₂.setProc p fun r => {r with cwd := none}).leave p) :=
      slots_congr fun q => (hproc q).symm
    rw [hc, hs] at hc₂
    exact hc₂.of_proc
  · by_cases hqp : q = p
    · subst hqp
      refine ⟨by simp only [Kernel.leave, Kernel.setProc_proc, if_true], fun fd => ?_⟩
      exact (congrFun (hproc q) fd).trans (h₁.done fd (mem_finRange fd))
    · have hother : (k₂.setProc p fun r => {r with cwd := none}).proc q = k.proc q := by
        rw [Kernel.setProc_proc, if_neg hqp, hp₂, h₁.own.other q hqp]
      have hlive : ¬ (k.proc q).Alive := by
        simp only [Proc.Alive, Kernel.leave, if_neg hqp, hother] at hq
        exact hq
      simp only [Kernel.leave, hother]
      exact h.idle q hlive

theorem wait_runs (h : Balanced k) : Runs (wait p) k (fun _ k' => Balanced k') fun _ => True := by
  refine Runs.bind_get ?_
  match hf : (List.finRange NPROC).find? fun q =>
      (k.proc q).parent = some p ∧ (k.proc q).state = .ZOMBIE with
  | none => exact Runs.pure h
  | some q =>
    have hz := List.find?_some hf
    rw [decide_eq_true_eq] at hz
    refine Runs.bind_ok rfl (Runs.pure ⟨Counted.setProc h.counts rfl rfl, fun i hi => ?_⟩)
    rw [Kernel.setProc_proc] at hi ⊢
    by_cases hiq : i = q
    · rw [if_pos hiq]
      exact h.idle q (by simp [Proc.Alive, hz.2])
    · rw [if_neg hiq] at hi ⊢
      exact h.idle i hi

/-! ### Runs -/

private theorem Balanced.fs {α : Type} {x : M α} (h : Balanced k) (ha : (k.proc p).Alive)
    (hx : Runs x k.fs (fun _ s => Hold (fun ip => files k ip + cwds k ip) s []) fun _ => True) :
    Runs (do let _ ← Kern.fs x : K Unit) k (fun _ k' => Balanced k') fun _ => True :=
  (Counted.fs (U := fun _ => []) h.counts hx).bind fun _ _ hk => Runs.pure (h.own ha hk.1 (.of_eq hk.2.1))

theorem perform_runs (h : Balanced k) (ha : (k.proc p).Alive) (hcwd : (k.proc p).cwd = some cwd)
    (hal : Allowed k p a) :
    Runs (perform sb p cwd a) k (fun _ k' => Balanced k') fun _ => True := by
  have hpos := cwd_pos hcwd
  have hown : ∀ {α : Type} {x : K α}, Runs x k (fun _ k' => Counted k' [] [] ∧ Own p k k') (fun _ => True) →
      Runs (do let _ ← x : K Unit) k (fun _ k' => Balanced k') fun _ => True :=
    fun hx => hx.bind fun _ _ hk => Runs.pure (h.own ha hk.1 hk.2)
  cases a with
  | fork memory => exact (fork_runs h ha hcwd memory).bind fun _ _ hk => Runs.pure hk
  | exit => exact (exit_runs sb (lasting_true sb) h hcwd trivial).post fun _ _ hk => hk.1
  | wait => exact (wait_runs h).bind fun _ _ hk => Runs.pure hk
  | «open» args => exact hown (sys_open_runs sb h.counts hcwd args)
  | dup fd => exact hown (sys_dup_runs h.counts fd)
  | close fd => exact hown (sys_close_runs sb h.counts fd)
  | pipe fds page => exact hown (sys_pipe_runs sb h.counts fds hal)
  | chdir path => exact hown (sys_chdir_runs sb h.counts hcwd path)
  | link args => exact h.fs ha (h.counts.inode.sys_link sb hpos args)
  | unlink path => exact h.fs ha (h.counts.inode.sys_unlink sb hpos path)
  | mkdir path => exact h.fs ha (h.counts.inode.sys_mkdir sb hpos path)
  | mknod args => exact h.fs ha (h.counts.inode.sys_mknod sb hpos args)
  | exec m path => exact h.fs ha (h.counts.inode.sys_exec sb hpos m path)

theorem balanced_step (h : Balanced k) (hs : step sb k a = some k') : Balanced k' := by
  obtain ⟨p, a⟩ := a
  obtain ⟨cwd, hcwd, ha, hal, hp⟩ := of_step sb hs
  exact (perform_runs sb h ha hcwd hal).of_ok hp

/-- The kernel after `userinit`: no file is open, and there is one process, whose current
directory is the only inode in the cache. -/
structure Booted (k : Kernel) (root : Ptr) : Prop where
  ftable : ∀ f, (k.ftable f).ref = 0 ∧ (k.ftable f).type = .FD_NONE
  pages : k.pages = []
  ofile : ∀ p fd, (k.proc p).ofile fd = none
  cwd : ∀ p, (k.proc p).cwd = if p = k.initproc then some root else none
  alive : (k.proc k.initproc).Alive
  cache : ∀ ip, (k.fs.icache ip).ref = if ip = root then 1 else 0

theorem balanced_booted (h : Booted k root) : Balanced k := by
  have hslots : ∀ f, slots k f = 0 := fun f => by simp [slots, h.ofile]
  have hfiles : ∀ ip, files k ip = 0 := fun ip => by simp [files, File.Names, (h.ftable _).1]
  have hcwds : ∀ ip, cwds k ip = if ip = root then 1 else 0 := by
    intro ip
    have : ∀ q, ((k.proc q).cwd = some ip) ↔ (q = k.initproc ∧ ip = root) := by
      intro q
      rw [h.cwd q]
      split
      case isTrue hq => simp [hq, eq_comm]
      case isFalse hq => simp [hq]
    simp only [cwds, this, ite_and, Finset.sum_ite_eq', Finset.mem_univ, if_true]
  refine ⟨⟨⟨fun f => ?_, ⟨fun ip => ?_, fun ip q hp hq _ _ => ?_⟩, fun f _ => (h.ftable f).2⟩, ?_⟩, fun p hp => ?_⟩
  · rw [(h.ftable f).1, hslots, count_nil]
  · rw [h.cache ip, hfiles, hcwds, count_nil]
    omega
  · rw [h.cache] at hp hq
    have hone : ∀ ip : Ptr, (0 < if ip = root then 1 else 0) → ip = root := fun ip h0 => by
      by_contra hne
      rw [if_neg hne] at h0
      exact absurd h0 (Nat.lt_irrefl 0)
    rw [hone ip hp, hone q hq]
  · have hnone : ∀ f, k.ends f = none := fun f => by
      rw [Kernel.ends, File.pipeEnd, (h.ftable f).2, if_neg (by simp)]
    have hopen : ∀ a, ¬ Open k.ends a := fun a ha => by
      obtain ⟨f, w, hf⟩ := ha
      rw [hnone f] at hf
      cases hf
    refine ⟨fun f g e hf => ?_, fun a ha => absurd ha (hopen a), fun a ha => absurd ha (hopen a), fun a => ?_⟩
    · rw [hnone f] at hf
      cases hf
    · rw [h.pages, if_neg (hopen a), count_nil, count_nil]
  · refine ⟨?_, h.ofile p⟩
    rw [h.cwd p, if_neg fun hpi => hp (by rw [hpi]; exact h.alive)]

theorem balanced_run (h : Booted k₀ root) (hr : run (step sb) k₀ as = some k) : Balanced k :=
  run_invariant (I := fun _ k => Balanced k) (balanced_booted h)
    (fun _ _ _ _ hb hs => balanced_step sb hb hs) hr

/-- The file is open on the pipe in page `a`. -/
def File.On (r : File) (a : Nat) : Prop := 0 < r.ref ∧ r.type = .FD_PIPE ∧ r.pipe = a

instance (r : File) (a : Nat) : Decidable (r.On a) := by
  unfold File.On
  infer_instance

theorem Balanced.open_iff (h : Balanced k) (a : Nat) : Open k.ends a ↔ ∃ f, (k.ftable f).On a := by
  refine exists_congr fun f => ?_
  rw [Kernel.ends, File.pipeEnd]
  by_cases ht : (k.ftable f).type = .FD_PIPE
  · have hr : 0 < (k.ftable f).ref := Nat.pos_of_ne_zero fun h0 => by
      have := h.counts.closed f h0
      rw [ht] at this
      cases this
    simp [File.On, ht, hr]
  · simp [File.On, ht]

/-- **References are handles.** Whatever system calls the processes have made since boot, in
whatever order, the references to an open file are its descriptors, those to a cached inode
are the files open on it and the current directories it is, no inode is cached twice, and a
pipe's page is back with the allocator exactly when no file is open on it. -/
theorem references_counted {root : Ptr} {k₀ : Kernel} {as : List (Slot × Action)} (h : Booted k₀ root)
    (hr : run (step sb) k₀ as = some k) :
    (∀ f, (k.ftable f).ref = slots k f) ∧
    (∀ ip, (k.fs.icache ip).ref = files k ip + cwds k ip) ∧
    (∀ ip q, 0 < (k.fs.icache ip).ref → 0 < (k.fs.icache q).ref →
      (k.fs.icache ip).dev = (k.fs.icache q).dev → (k.fs.icache ip).inum = (k.fs.icache q).inum → ip = q) ∧
    ∀ a, k.pages.count (.kalloc a) =
      k.pages.count (.kfree a) + if ∃ f, (k.ftable f).On a then 1 else 0 := by
  have hb := balanced_run sb h hr
  refine ⟨fun f => ?_, fun ip => ?_, hb.counts.inode.one, fun a => ?_⟩
  · rw [hb.counts.file f, count_nil, Nat.add_zero]
  · rw [hb.counts.inode.ref ip, count_nil, Nat.add_zero]
  · rw [hb.counts.pipes.page a]
    simp only [hb.open_iff a]

/-- A kernel after boot, in process 0. -/
def booted : Kernel where
  fs := {
    disk := fun _ => Bytes.zero
    lh := []
    outstanding := 0
    icache := fun ip => ⟨ROOTDEV, ROOTINO, if ip = 0 then 1 else 0, false, false, Dinode.zero⟩
    console := []}
  ftable := fun _ => ⟨.FD_NONE, 0, false, false, 0, 0, 0⟩
  pipe := fun _ => ⟨false, false⟩
  pages := []
  proc := fun p => ⟨if p = 0 then .RUNNABLE else .UNUSED, none, fun _ => none, if p = 0 then some 0 else none⟩
  initproc := 0

theorem booted_booted : Booted booted 0 where
  ftable _ := ⟨rfl, rfl⟩
  pages := rfl
  ofile _ _ := rfl
  cwd _ := rfl
  alive := .inr (.inl rfl)
  cache _ := rfl

/-- A pipe made, shared with a child, and closed by both. -/
def pipeline : List (Slot × Action) :=
  [(0, .pipe true 4096), (0, .dup (some 1)), (0, .fork true), (1, .close (some 0)), (0, .close (some 1)),
    (0, .close (some 2)), (1, .exit), (0, .close (some 0)), (0, .wait)]

set_option maxRecDepth 100000 in
theorem pipeline_runs : (run (step Mkfs.sb) booted pipeline).isSome = true := by decide +kernel

theorem references_counted_pipeline : ∃ k, run (step Mkfs.sb) booted pipeline = some k ∧
    (∀ f, (k.ftable f).ref = slots k f) ∧ ∀ a, k.pages.count (.kalloc a) =
      k.pages.count (.kfree a) + if ∃ f, (k.ftable f).On a then 1 else 0 := by
  obtain ⟨k, hk⟩ := Option.isSome_iff_exists.mp pipeline_runs
  obtain ⟨hfile, -, -, hpage⟩ := references_counted Mkfs.sb booted_booted hk
  exact ⟨k, hk, hfile, hpage⟩

/-- Three processes in the small file system: in `/`, in `/a/b` and in `/a`. -/
def home : Kernel :=
  {booted with
    fs := Fs.home
    proc := fun p => ⟨if p.val < 3 then .RUNNABLE else .UNUSED, none, fun _ => none,
      if p = 0 then some 0 else if p = 1 then some 1 else if p = 2 then some 2 else none⟩}

theorem points_home : Points home.fs 0 ROOTINO := ⟨by decide, rfl⟩

theorem balanced_home : Balanced home := by
  have hends : ∀ f, home.ends f = none := fun f => by
    rw [Kernel.ends, File.pipeEnd]
    exact if_neg fun h => by cases h
  have hopen : ∀ a, ¬ Open home.ends a := fun a ha => by
    obtain ⟨f, w, hf⟩ := ha
    rw [hends f] at hf
    cases hf
  refine ⟨⟨⟨fun f => ?_, ⟨by decide +kernel, fun ip q hp hq _ hi => good_home.once ip q hp hq hi⟩,
    fun _ _ => rfl⟩, ?_⟩, fun p hp => ⟨?_, fun _ => rfl⟩⟩
  · simp [slots, home, booted]
  · refine ⟨fun f g e hf => ?_, fun a ha => absurd ha (hopen a), fun a ha => absurd ha (hopen a), fun a => ?_⟩
    · rw [hends f] at hf
      cases hf
    · rw [if_neg (hopen a)]
      rfl
  · revert p
    decide

end Xv6.Kern
