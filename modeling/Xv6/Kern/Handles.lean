import Xv6.Lib.Count
import Xv6.Fs.Handles
import Xv6.Kern.Pipes
import Xv6.Kern.Machine

/-! Reference counts and the handles they count.

`Counts k F T` says that every file and every cached inode has as many references as there
are handles on it: descriptors and current directories, and the handles that the call that
runs has in its variables, `F` on files and `T` on inodes. Every operation moves a handle
from one place to another, or makes or drops one together with its reference. -/
namespace Xv6.Kern
open Lib Fs Function List

/-! ### Counting handles -/

/-- The descriptors on file `f`. -/
def slots (k : Kernel) (f : FilePtr) : Nat :=
  ∑ p, ∑ fd, if (k.proc p).ofile fd = some f then 1 else 0

/-- The file is open on the cached inode `ip`. -/
def File.Names (r : File) (ip : Ptr) : Prop := 0 < r.ref ∧ r.type = .FD_INODE ∧ r.ip = ip

instance (r : File) (ip : Ptr) : Decidable (r.Names ip) := by
  unfold File.Names
  infer_instance

/-- The open files on the cached inode `ip`. -/
def files (k : Kernel) (ip : Ptr) : Nat := ∑ f, if (k.ftable f).Names ip then 1 else 0

/-- The processes whose current directory is the cached inode `ip`. -/
def cwds (k : Kernel) (ip : Ptr) : Nat := ∑ p, if (k.proc p).cwd = some ip then 1 else 0

theorem slots_congr (h : ∀ p, (k'.proc p).ofile = (k.proc p).ofile) :
    slots k' = slots k := by
  funext f
  simp only [slots, h]

theorem cwds_congr (h : ∀ p, (k'.proc p).cwd = (k.proc p).cwd) : cwds k' = cwds k := by
  funext ip
  simp only [cwds, h]

/-- A descriptor that changes moves one handle. -/
theorem slots_setFd (k : Kernel) (p : Slot) (fd : Fd) (v : Option FilePtr) (f : FilePtr) :
    slots (k.setFd p fd v) f + (if (k.proc p).ofile fd = some f then 1 else 0) =
      slots k f + if v = some f then 1 else 0 := by
  have houter := sum_change (fun q => ∑ i, if (k.proc q).ofile i = some f then 1 else 0)
    (fun q => ∑ i, if ((k.setFd p fd v).proc q).ofile i = some f then 1 else 0) p fun q hq => by
      simp only [Kernel.setFd, Kernel.setProc, update_of_ne hq]
  have hinner := sum_change (fun i => if (k.proc p).ofile i = some f then 1 else 0)
    (fun i => if ((k.setFd p fd v).proc p).ofile i = some f then 1 else 0) fd fun i hi => by
      simp only [Kernel.setFd, Kernel.setProc, update_self, update_of_ne hi]
  have hnew : ((k.setFd p fd v).proc p).ofile fd = v := by
    simp only [Kernel.setFd, Kernel.setProc, update_self]
  simp only [hnew] at hinner
  simp only [slots]
  omega

theorem files_setFile (k : Kernel) (f : FilePtr) (g : File → File) (ip : Ptr) :
    files (k.setFile f g) ip + (if (k.ftable f).Names ip then 1 else 0) =
      files k ip + if (g (k.ftable f)).Names ip then 1 else 0 := by
  have h := sum_change (fun q => if (k.ftable q).Names ip then 1 else 0)
    (fun q => if ((k.setFile f g).ftable q).Names ip then 1 else 0) f fun q hq => by
      simp only [Kernel.setFile, update_of_ne hq]
  simp only [Kernel.setFile, update_self] at h
  simp only [files, Kernel.setFile]
  exact h

theorem cwds_setProc (k : Kernel) (p : Slot) (g : Proc → Proc) (ip : Ptr) :
    cwds (k.setProc p g) ip + (if (k.proc p).cwd = some ip then 1 else 0) =
      cwds k ip + if (g (k.proc p)).cwd = some ip then 1 else 0 := by
  have h := sum_change (fun q => if (k.proc q).cwd = some ip then 1 else 0)
    (fun q => if ((k.setProc p g).proc q).cwd = some ip then 1 else 0) p fun q hq => by
      simp only [Kernel.setProc, update_of_ne hq]
  simp only [Kernel.setProc, update_self] at h
  simp only [cwds, Kernel.setProc]
  exact h

/-! ### The counts -/

/-- Every file has as many references as there are handles on it: `c` outside the call that
runs, and the ones in `F`. So has every cached inode: the open files, `d`, and those in `T`. -/
structure Refs (c : FilePtr → Nat) (d : Ptr → Nat) (k : Kernel) (F : List FilePtr) (T : List Ptr) :
    Prop where
  file : ∀ f, (k.ftable f).ref = c f + F.count f
  inode : Hold (fun ip => files k ip + d ip) k.fs T
  closed : ∀ f, (k.ftable f).ref = 0 → (k.ftable f).type = .FD_NONE

/-- The references are counted, and so are the pages of pipes. -/
structure Counts (c : FilePtr → Nat) (d : Ptr → Nat) (k : Kernel) (F : List FilePtr) (T : List Ptr) :
    Prop extends Refs c d k F T where
  pipes : Pipes k.ends k.pipe k.pages

variable {c c' : FilePtr → Nat} {d d' : Ptr → Nat} {k k' : Kernel} {F F' : List FilePtr}
  {T T' : List Ptr} {f : FilePtr}

theorem Counts.move (h : Counts c d k F T) (hc : ∀ f, c f + F.count f = c' f + F'.count f)
    (hd : ∀ ip, d ip + T.count ip = d' ip + T'.count ip) : Counts c' d' k F' T' where
  file f := (h.file f).trans (hc f)
  inode := h.inode.move fun ip => by have := hd ip; omega
  closed := h.closed
  pipes := h.pipes

theorem Counts.swap (h : Counts c d k (f :: g :: F) T) : Counts c d k (g :: f :: F) T :=
  h.move (fun q => by rw [(List.Perm.swap f g F).count_eq q]) fun _ => rfl

/-- One file changes; `hT` is for the inode it is open on. -/
theorem Refs.setFile (h : Refs c d k F T)
    (href : (g (k.ftable f)).ref = c f + F'.count f) (hF : ∀ q, q ≠ f → F'.count q = F.count q)
    (hT : ∀ ip, T.count ip + (if (k.ftable f).Names ip then 1 else 0) =
      T'.count ip + if (g (k.ftable f)).Names ip then 1 else 0)
    (hcl : (g (k.ftable f)).ref = 0 → (g (k.ftable f)).type = .FD_NONE) :
    Refs c d (k.setFile f g) F' T' := by
  refine ⟨fun q => ?_, h.inode.move fun ip => ?_, fun q => ?_⟩
  · by_cases hq : q = f
    · subst hq
      simp only [Kernel.setFile, update_self]
      exact href
    · simp only [Kernel.setFile, update_of_ne hq, hF q hq]
      exact h.file q
  · have := files_setFile k f g ip
    have := hT ip
    omega
  · by_cases hq : q = f
    · subst hq
      simp only [Kernel.setFile, update_self]
      exact hcl
    · simp only [Kernel.setFile, update_of_ne hq]
      exact h.closed q

theorem ends_setFile (k : Kernel) (f : FilePtr) (g : File → File) :
    (k.setFile f g).ends = update k.ends f (g (k.ftable f)).pipeEnd := by
  funext q
  by_cases hq : q = f
  · subst hq
    simp only [Kernel.ends, Kernel.setFile, update_self]
  · simp only [Kernel.ends, Kernel.setFile, update_of_ne hq]

/-- One file changes that is not a pipe's, or not in what makes it an end of one. -/
theorem Counts.setFile (h : Counts c d k F T)
    (href : (g (k.ftable f)).ref = c f + F'.count f) (hF : ∀ q, q ≠ f → F'.count q = F.count q)
    (hT : ∀ ip, T.count ip + (if (k.ftable f).Names ip then 1 else 0) =
      T'.count ip + if (g (k.ftable f)).Names ip then 1 else 0)
    (hcl : (g (k.ftable f)).ref = 0 → (g (k.ftable f)).type = .FD_NONE)
    (hend : (g (k.ftable f)).pipeEnd = (k.ftable f).pipeEnd) :
    Counts c d (k.setFile f g) F' T' where
  toRefs := h.toRefs.setFile href hF hT hcl
  pipes := by
    rw [ends_setFile, hend]
    show Pipes (update k.ends f (k.ends f)) k.pipe k.pages
    rw [update_eq_self]
    exact h.pipes

theorem Counts.setRef (h : Counts c d k F T) (hr : 0 < (k.ftable f).ref)
    (hg : g (k.ftable f) = {k.ftable f with ref := n}) (hn : n = c f + F'.count f) (hpos : 0 < n)
    (hF : ∀ q, q ≠ f → F'.count q = F.count q) : Counts c d (k.setFile f g) F' T := by
  refine h.setFile (by rw [hg]; exact hn) hF (fun ip => ?_) ?_ (by rw [hg]; rfl)
  · have : (g (k.ftable f)).Names ip ↔ (k.ftable f).Names ip := by
      rw [hg]
      exact and_congr_left fun _ => iff_of_true hpos hr
    simp only [this]
  · rw [hg]
    exact fun h0 => absurd h0 (Nat.ne_of_gt hpos)

/-! ### `file.c` -/

theorem fs_runs {α : Type} {x : M α} {Q : α → State → Prop} {E : Halt → Prop} (h : Runs x k.fs Q E) :
    Runs (fs x) k (fun a k' => Q a k'.fs ∧ k' = {k with fs := k'.fs}) E := by
  cases hx : x k.fs with
  | ok r =>
    obtain ⟨a, s⟩ := r
    have hfs : fs x k = .ok (a, {k with fs := s}) := by simp only [fs, hx]
    exact Runs.of_eq_ok hfs ⟨h.of_ok hx, rfl⟩
  | error e => exact Runs.of_eq_error (by simp only [fs, hx]) (h.of_error hx)

theorem Counts.fs {α : Type} {x : M α} {U : α → List Ptr} (h : Counts c d k F T)
    (hx : Runs x k.fs (fun a s => Hold (fun ip => files k ip + d ip) s (U a)) fun _ => True) :
    Runs (Kern.fs x) k (fun a k' => Counts c d k' F (U a) ∧ k' = {k with fs := k'.fs}) fun _ => True :=
  (fs_runs hx).post fun a k' hk => by
    obtain ⟨hi, hk⟩ := hk
    refine ⟨?_, hk⟩
    rw [hk]
    exact ⟨⟨h.file, hi, h.closed⟩, h.pipes⟩

theorem filealloc_runs : Runs filealloc k (fun r k' => match r with
    | none => k' = k ∧ ∀ f, (k.ftable f).ref ≠ 0
    | some f => (k.ftable f).ref = 0 ∧ k' = k.setFile f fun r => {r with ref := 1}) E := by
  refine Runs.bind_get ?_
  match hf : (List.finRange NFILE).find? fun f => (k.ftable f).ref == 0 with
  | some f =>
    have h0 := List.find?_some hf
    exact Runs.bind_ok rfl (Runs.pure ⟨beq_iff_eq.mp h0, rfl⟩)
  | none =>
    refine Runs.pure ⟨rfl, fun f h0 => ?_⟩
    exact List.find?_eq_none.mp hf f (mem_finRange f) (beq_iff_eq.mpr h0)

theorem Counts.filealloc (h : Counts c d k F T) (hr : (k.ftable f).ref = 0) :
    Counts c d (k.setFile f fun r => {r with ref := 1}) (f :: F) T := by
  have hnone := h.closed f hr
  have hzero := h.file f
  refine h.setFile ?_ (fun q hq => count_cons_of_ne (Ne.symm hq)) (fun ip => ?_) (by simp) rfl
  · show 1 = _
    rw [count_cons_self]
    omega
  · simp only [File.Names, hnone, reduceCtorEq, false_and, and_false]

theorem filedup_runs (h : Counts c d k F T) :
    Runs (filedup f) k (fun _ k' => Counts c d k' (f :: F) T ∧ k'.proc = k.proc) fun _ => True := by
  have hr := h.file f
  refine Runs.bind_get (Runs.ite (fun _ => Runs.throw trivial) fun h0 => Runs.modify ⟨?_, rfl⟩)
  refine h.setRef (n := (k.ftable f).ref + 1) (Nat.pos_of_ne_zero fun h1 => h0 (by omega)) rfl ?_ (Nat.succ_pos _) fun q hq =>
    count_cons_of_ne (Ne.symm hq)
  rw [count_cons_self]
  omega

variable (sb : Superblock)

/-- The last reference to a file goes: the file is free, and what it was open on is left to
`release`. -/
theorem Refs.last (h : Refs c d k (f :: F) T) (hr : (k.ftable f).ref = 1) :
    Refs c d (k.setFile f fun r => {r with ref := 0, type := .FD_NONE}) F
      (if (k.ftable f).type = .FD_INODE then (k.ftable f).ip :: T else T) := by
  have hfile := h.file f
  rw [count_cons_self] at hfile
  refine h.setFile (show 0 = _ by omega) (fun q hq => (count_cons_of_ne (Ne.symm hq)).symm)
    (fun ip => ?_) fun _ => rfl
  by_cases ht : (k.ftable f).type = .FD_INODE
  · rw [if_pos ht, count_cons]
    by_cases hip : (k.ftable f).ip = ip
    · simp [File.Names, ht, hip, hr]
    · simp [File.Names, ht, hip, hr]
  · rw [if_neg ht]
    simp [File.Names, ht]

/-- `pipeclose`, of the end a file was that is closed already. -/
theorem pipeclose_runs (h : Refs c d k F T) (hp : Pipes E k.pipe k.pages) (hf : E f = some (a, w))
    (hk : k.ends = update E f none) :
    Runs (pipeclose a w) k (fun _ k' => Counts c d k' F T ∧ k'.proc = k.proc) fun _ => True := by
  have hclose := hp.close hf
  refine Runs.bind_get (Runs.bind_ok rfl (Runs.ite (fun hb => Runs.modify ⟨?_, rfl⟩) fun hb => Runs.pure ⟨?_, rfl⟩))
  · rw [if_pos hb, ← hk] at hclose
    exact ⟨⟨h.file, h.inode, h.closed⟩, hclose⟩
  · rw [if_neg hb, ← hk] at hclose
    exact ⟨⟨h.file, h.inode, h.closed⟩, hclose⟩

theorem fileclose_runs (h : Counts c d k (f :: F) T) :
    Runs (fileclose sb f) k (fun _ k' => Counts c d k' F T ∧ k'.proc = k.proc) fun _ => True := by
  have hfile := h.file f
  rw [count_cons_self] at hfile
  refine Runs.bind_get (Runs.ite (fun _ => Runs.throw trivial) fun _ => Runs.ite (fun hr => ?_) fun hr => ?_)
  · refine Runs.modify ⟨?_, rfl⟩
    exact h.setRef (n := (k.ftable f).ref - 1) (by omega) rfl (by omega) hr fun q hq =>
      (count_cons_of_ne (Ne.symm hq)).symm
  have hrefs := h.toRefs.last (by omega)
  have hends := ends_setFile k f fun r => {r with ref := 0, type := .FD_NONE}
  refine Runs.bind_ok rfl ?_
  -- A file that is no pipe's leaves the ends of pipes as they are.
  have hplain (hp : (k.ftable f).type ≠ .FD_PIPE) :
      Counts c d (k.setFile f fun r => {r with ref := 0, type := .FD_NONE}) F
        (if (k.ftable f).type = .FD_INODE then (k.ftable f).ip :: T else T) := by
    have hnone : k.ends f = none := by rw [Kernel.ends, File.pipeEnd, if_neg hp]
    refine ⟨hrefs, ?_⟩
    rw [hends]
    show Pipes (update k.ends f none) k.pipe k.pages
    rw [← hnone, update_eq_self]
    exact h.pipes
  match ht : (k.ftable f).type with
  | .FD_NONE =>
    rw [ht, if_neg (by simp)] at hplain
    rw [release, ht]
    exact Runs.pure ⟨hplain (by simp), rfl⟩
  | .FD_PIPE =>
    rw [ht, if_neg (by simp)] at hrefs
    rw [release, ht]
    exact pipeclose_runs hrefs h.pipes (by rw [Kernel.ends, File.pipeEnd, ht, if_pos rfl]) hends
  | .FD_INODE =>
    rw [ht, if_pos rfl] at hplain
    have hcounts := hplain (by simp)
    rw [release, ht]
    refine (hcounts.fs (U := fun _ => T) ?_).post fun _ k' hk => ⟨hk.1, by rw [hk.2]; rfl⟩
    refine (hcounts.inode.leaves leaves_begin_op).bind fun _ _ h => (h.iput sb).bind fun _ _ h => ?_
    exact h.leaves leaves_end_op

/-! ### `pipe.c` -/

theorem Refs.toPipe (h : Refs c d k F T) (hr : (k.ftable f).ref ≠ 0)
    (ht : (k.ftable f).type = .FD_NONE) (hg : (g (k.ftable f)).type = .FD_PIPE)
    (hgr : (g (k.ftable f)).ref = (k.ftable f).ref) : Refs c d (k.setFile f g) F T := by
  refine h.setFile (hgr.trans (h.file f)) (fun _ _ => rfl) (fun ip => ?_) fun h0 => absurd (hgr ▸ h0) hr
  rw [if_neg (by simp [File.Names, ht]), if_neg (by simp [File.Names, hg])]

/-- The two files of a new pipe: both were in use, and open on nothing. -/
theorem Counts.pipeEnds (h : Counts c d k F T) (h01 : f0 ≠ f1)
    (hr0 : (k.ftable f0).ref ≠ 0) (hr1 : (k.ftable f1).ref ≠ 0) (ht0 : (k.ftable f0).type = .FD_NONE)
    (ht1 : (k.ftable f1).type = .FD_NONE) (ha : k.pages.count (.kalloc a) = k.pages.count (.kfree a)) :
    Counts c d (pipeEnds f0 f1 a k) F T := by
  have hf1 (g : File → File) : (k.setFile f0 g).ftable f1 = k.ftable f1 := update_of_ne (Ne.symm h01) ..
  have hrefs : Refs c d (Kern.pipeEnds f0 f1 a k) F T := by
    have h0 := h.toRefs.toPipe (g := File.piped a false) hr0 ht0 rfl rfl
    have h1 := h0.toPipe (f := f1) (g := File.piped a true) (by rw [hf1]; exact hr1)
      (by rw [hf1]; exact ht1) rfl rfl
    exact ⟨h1.file, h1.inode, h1.closed⟩
  have hends : (Kern.pipeEnds f0 f1 a k).ends =
      update (update k.ends f0 (some (a, false))) f1 (some (a, true)) := by
    refine (ends_setFile (k.setFile f0 (File.piped a false)) f1 (File.piped a true)).trans ?_
    rw [ends_setFile]
    rfl
  refine ⟨hrefs, ?_⟩
  rw [hends]
  refine h.pipes.make h01 ?_ ?_ (h.pipes.fresh ha)
  · rw [Kernel.ends, File.pipeEnd, ht0, if_neg (by simp)]
  · rw [Kernel.ends, File.pipeEnd, ht1, if_neg (by simp)]

theorem pipealloc_runs (h : Counts c d k F T)
    (hpage : k.pages.count (.kalloc page) = k.pages.count (.kfree page)) :
    Runs (pipealloc sb page) k (fun r k' => k'.proc = k.proc ∧
      match r with
      | none => Counts c d k' F T
      | some (f0, f1) => Counts c d k' (f0 :: f1 :: F) T) fun _ => True := by
  refine filealloc_runs.bind fun r k₁ h₁ => ?_
  match r with
  | none => exact Runs.pure ⟨by rw [h₁.1], by rw [h₁.1]; exact h⟩
  | some f0 =>
    obtain ⟨hr0, rfl⟩ := h₁
    have hc0 := h.filealloc hr0
    have h0 : (k.setFile f0 fun r => {r with ref := 1}).ftable f0 = {k.ftable f0 with ref := 1} :=
      update_self ..
    refine filealloc_runs.bind fun r k₂ h₂ => ?_
    match r with
    | none =>
      rw [h₂.1]
      exact (fileclose_runs sb hc0).bind fun _ k' hk => Runs.pure ⟨hk.2, hk.1⟩
    | some f1 =>
      obtain ⟨hr1, rfl⟩ := h₂
      have hc1 := hc0.filealloc hr1
      refine Runs.ite (fun _ => ?_) fun _ => ?_
      · refine (fileclose_runs sb hc1.swap).bind fun _ k₃ h₃ => ?_
        exact (fileclose_runs sb h₃.1).bind fun _ k' hk => Runs.pure ⟨hk.2.trans h₃.2, hk.1⟩
      · have h01 : f0 ≠ f1 := by
          rintro rfl
          rw [h0] at hr1
          exact absurd hr1 Nat.one_ne_zero
        have ht1 := hc0.closed f1 hr1
        have h1 : ((k.setFile f0 fun r => {r with ref := 1}).setFile f1 fun r => {r with ref := 1}).ftable f1 =
            {(k.setFile f0 fun r => {r with ref := 1}).ftable f1 with ref := 1} := update_self ..
        have h0' : ((k.setFile f0 fun r => {r with ref := 1}).setFile f1 fun r => {r with ref := 1}).ftable f0 =
            {k.ftable f0 with ref := 1} := (update_of_ne h01 ..).trans h0
        refine Runs.bind_ok rfl (Runs.pure ⟨rfl, (hc1.pipeEnds h01 ?_ ?_ ?_ ?_ hpage).swap⟩)
        · rw [h0']
          exact Nat.one_ne_zero
        · rw [h1]
          exact Nat.one_ne_zero
        · rw [h0']
          exact h.closed f0 hr0
        · rw [h1]
          exact ht1

/-! ### Descriptors -/

theorem argfd_runs :
    Runs (argfd p fd) k (fun r k' => k' = k ∧ ∀ x ∈ r, (k.proc p).ofile x.1 = some x.2) E := by
  refine Runs.bind_get ?_
  cases fd with
  | none => exact Runs.pure ⟨rfl, nofun⟩
  | some fd =>
    by_cases hfd : fd.toInt < 0 ∨ NOFILE ≤ fd.toInt
    · simp only [dif_pos hfd]
      exact Runs.pure ⟨rfl, nofun⟩
    · simp only [dif_neg hfd]
      refine Runs.pure ⟨rfl, fun x hx => ?_⟩
      obtain ⟨f, hf, rfl⟩ := Option.map_eq_some_iff.mp hx
      exact hf

theorem fdalloc_runs : Runs (fdalloc p f) k (fun r k' => match r with
    | none => k' = k ∧ ∀ fd, (k.proc p).ofile fd ≠ none
    | some fd => (k.proc p).ofile fd = none ∧ k' = k.setFd p fd (some f)) E := by
  refine Runs.bind_get ?_
  match hf : (List.finRange NOFILE).find? fun fd => ((k.proc p).ofile fd).isNone with
  | some fd =>
    have h0 := List.find?_some hf
    exact Runs.bind_ok rfl (Runs.pure ⟨Option.isNone_iff_eq_none.mp h0, rfl⟩)
  | none =>
    refine Runs.pure ⟨rfl, fun fd h0 => ?_⟩
    exact List.find?_eq_none.mp hf fd (mem_finRange fd) (Option.isNone_iff_eq_none.mpr h0)

/-- The counts of the kernel between calls, and within one: the handles outside the call are
the descriptors and the current directories. -/
abbrev Counted (k : Kernel) (F : List FilePtr) (T : List Ptr) : Prop := Counts (slots k) (cwds k) k F T

variable {p : Slot} {fd : Fd}

theorem cwds_setFd (k : Kernel) (p : Slot) (fd : Fd) (v : Option FilePtr) : cwds (k.setFd p fd v) = cwds k := by
  refine cwds_congr fun q => ?_
  by_cases hq : q = p
  · subst hq
    simp only [Kernel.setFd, Kernel.setProc, update_self]
  · simp only [Kernel.setFd, Kernel.setProc, update_of_ne hq]

theorem Counts.of_proc (h : Counts c d k F T) : Counts c d {k with proc := g} F T :=
  ⟨⟨h.file, h.inode, h.closed⟩, h.pipes⟩

theorem Counts.store (h : Counts (slots k) d k' (f :: F) T) (hfd : (k.proc p).ofile fd = none) :
    Counts (slots (k.setFd p fd (some f))) d k' F T := by
  refine h.move (fun q => ?_) fun ip => rfl
  have := slots_setFd k p fd (some f) q
  rw [hfd, if_neg (by simp)] at this
  rw [count_cons]
  simp only [Option.some.injEq, beq_iff_eq] at this ⊢
  omega

theorem Counts.take (h : Counts (slots k) d k' F T) (hfd : (k.proc p).ofile fd = some f) :
    Counts (slots (k.setFd p fd none)) d k' (f :: F) T := by
  refine h.move (fun q => ?_) fun ip => rfl
  have := slots_setFd k p fd none q
  rw [hfd, if_neg (c := none = some q) (by simp)] at this
  rw [count_cons]
  simp only [Option.some.injEq, beq_iff_eq] at this ⊢
  omega

theorem Counts.storeCwd (h : Counts c (cwds k) k' F (ip :: T))
    (hcwd : (k.proc p).cwd = none) (hg : (g (k.proc p)).cwd = some ip) :
    Counts c (cwds (k.setProc p g)) k' F T := by
  refine h.move (fun q => rfl) fun q => ?_
  have := cwds_setProc k p g q
  rw [hcwd, hg, if_neg (c := none = some q) (by simp)] at this
  rw [count_cons]
  simp only [Option.some.injEq, beq_iff_eq] at this ⊢
  omega

theorem Counts.takeCwd (h : Counts c (cwds k) k' F T)
    (hcwd : (k.proc p).cwd = some ip) (hg : (g (k.proc p)).cwd = none) :
    Counts c (cwds (k.setProc p g)) k' F (ip :: T) := by
  refine h.move (fun q => rfl) fun q => ?_
  have := cwds_setProc k p g q
  rw [hcwd, hg, if_neg (c := none = some q) (by simp)] at this
  rw [count_cons]
  simp only [Option.some.injEq, beq_iff_eq] at this ⊢
  omega

theorem Counts.rebase (h : Counts (slots k) (cwds k) k₁ F T)
    (hf : ∀ q, (k'.proc q).ofile = (k.proc q).ofile) (hc : ∀ q, (k'.proc q).cwd = (k.proc q).cwd) :
    Counts (slots k') (cwds k') k₁ F T := by
  rw [slots_congr hf, cwds_congr hc]
  exact h

end Xv6.Kern
