import Xv6.Kern.Balance
import Xv6.Fs.Settle
import Xv6.Fs.ExecProofs

/-! What `sys_open` and `sys_chdir` do to the file system.

Their specifications are those of the file system below, with what they do to the tables of
files and descriptors. -/
namespace Xv6.Kern
open Lib Fs

variable {sb : Superblock} {k k' : Kernel} {s s' : State} {p : Slot} {cwd : Ptr} {c : Nat}

theorem fs_bind {α β : Type} {x : M α} {f : α → K β} {Q : α → State → Prop} {P : β → Kernel → Prop}
    {E : Halt → Prop} (hx : Runs x k.fs Q E) (hf : ∀ a s, Q a s → Runs (f a) {k with fs := s} P E) :
    Runs (Kern.fs x >>= f) k P E :=
  (fs_runs hx).bind fun a k' ⟨hq, hk⟩ => by
    rw [hk]
    exact hf a _ hq

/-! ### The inode to open -/

/-- The path names something new in a directory that is there. -/
def NewName (sb : Superblock) (s : State) (c : Nat) (path : List Byte) (d : Nat) (nm : Name) : Prop :=
  resolve sb.ninodes (nodes sb s) (counts s) true c path = .found d nm ∧
    find (nodes sb s d).data nm = none

/-- `sys_open` has made inode `i`. -/
def OpenNew (sb : Superblock) (s : State) (c : Nat) (path : List Byte) (omode : BitVec 32)
    (N' : Nat → Node) (i : Nat) : Prop :=
  omode &&& O_CREATE ≠ 0 ∧ ∃ d k nm, NewName sb s c path d nm ∧ Created sb (nodes sb s) N' d k i nm T_FILE

/-- The call of `sys_open` makes no inode. -/
def OpenOld (sb : Superblock) (s : State) (c : Nat) (path : List Byte) (omode : BitVec 32) : Prop :=
  omode &&& O_CREATE ≠ 0 → ∀ d nm, ¬ NewName sb s c path d nm

/-- What `open_inode` does: it answers nothing, or an inode, locked. -/
def InodePost (sb : Superblock) (s : State) (c : Nat) (path : List Byte) (omode : BitVec 32)
    (r : Option Ptr) (s' : State) : Prop :=
  match r with
  | none => During sb s s' (nodes sb s) [] [] ∧ OpenOld sb s c path omode
  | some ip => ∃ i N', Points s' ip i ∧ During sb s s' N' [i] [i] ∧ (N' i).type ≠ 0 ∧
      ((N' i).nlink = 0 → 0 < (refs s i).count) ∧
      ((N' = nodes sb s ∧ OpenOld sb s c path omode) ∨ OpenNew sb s c path omode N' i)

theorem open_inode_runs (Ly : Layout sb) (hS : Sound sb s) (hc : Points s cwd c) (path : List Byte)
    (omode : BitVec 32) :
    Runs (open_inode sb cwd path omode) s (InodePost sb s c path omode) (CallStop (nodes sb s)) := by
  refine Runs.ite (fun hcr => ?_) fun hcr => ?_
  · refine (create_runs Ly hS hc path (by decide) 0 0).post fun r t ht => ?_
    match r with
    | none => exact ⟨ht.1, fun _ d nm hn => ht.2 d nm hn.1 hn.2⟩
    | some ip =>
      obtain ⟨d, l, i, nm, hp, hres, ⟨hf, hd, -, h2⟩ | ⟨hf, N', hd, hnew⟩⟩ := ht
      · have h0 : (nodes sb s i).type ≠ 0 := by rw [h2]; decide
        refine ⟨i, _, hp, hd, h0, hS.kept h0, .inl ⟨rfl, fun _ d' nm' hn => ?_⟩⟩
        have he := hres.symm.trans hn.1
        rw [Walk.found.injEq] at he
        rw [NewName, ← he.1, ← he.2, hf] at hn
        cases hn.2
      · refine ⟨i, N', hp, hd, by rw [hnew.typed]; decide, fun h0 => ?_, .inr ⟨hcr, d, l, nm, ⟨hres, hf⟩, hnew⟩⟩
        rw [hnew.nlink] at h0
        exact absurd h0 (by decide)
  · have hold : OpenOld sb s c path omode := fun h => absurd h hcr
    refine Runs.bind ((namei_runs Ly hS.steady_self hc (hS.tree.live_type .root) path).stops
      fun e he => hS.walkStop hc he) fun r t ⟨x, ⟨_, ht⟩, hr⟩ => ?_
    cases hw : resolve sb.ninodes (nodes sb s) (counts s) false c path with
    | missing =>
      rw [hw] at ht
      rw [hr, ht.1]
      exact Runs.pure ⟨ht.2, hold⟩
    | broken | full =>
      rw [hw] at ht
      exact ht.elim
    | found i last =>
      rw [hw] at ht
      obtain ⟨ip, nm, hx, -, hdt, hpt⟩ := ht
      rw [hr, hx]
      refine Runs.bind ((hdt.ilock Ly hpt).stops fun e he => ?_) fun _ u ⟨hdu, _, hsu, hi, h0⟩ => bind_inode ?_
      · obtain ⟨-, he⟩ | ⟨rfl, he⟩ := he
        · cases he
        · refine ⟨by decide, fun _ hcl => ?_⟩
          exact (resolve_closed hcl (hS.tree.live_type .root) (hS.held c hc.count_pos)).2 i last hw he
      have hpu := hsu.points ip i hpt
      refine Runs.ite (fun _ => ?_) fun _ => Runs.pure ⟨i, _, hpu, hdu, h0, hS.kept h0, .inl ⟨rfl, hold⟩⟩
      exact Runs.bind (hdu.iunlockput hpu hi fun hl => .inl (hS.kept h0 hl)) fun _ w ⟨hw, _, _⟩ =>
        Runs.pure ⟨hw, hold⟩

theorem InodePost.rebase (h : During sb s s₁ (nodes sb s) [] []) (hc : counts s₁ = counts s)
    (hi : InodePost sb s₁ c path omode r s') : InodePost sb s c path omode r s' := by
  have hname : ∀ d nm, NewName sb s₁ c path d nm ↔ NewName sb s c path d nm := fun d nm => by
    rw [NewName, NewName, h.nodes, hc]
  match r with
  | none =>
    rw [InodePost, h.nodes] at hi
    exact ⟨h.rebase hi.1, fun hcr d nm hn => hi.2 hcr d nm ((hname d nm).mpr hn)⟩
  | some ip =>
    obtain ⟨i, N', hp, hd, h0, hk, hi⟩ := hi
    refine ⟨i, N', hp, h.rebase hd, h0, fun hl => ?_, ?_⟩
    · have := hk hl
      rw [h.count] at this
      simpa using this
    · obtain ⟨hn, ho⟩ | ⟨hcr, d, l, nm, hn, hnew⟩ := hi
      · rw [h.nodes] at hn
        exact .inl ⟨hn, fun hcr d nm hn => ho hcr d nm ((hname d nm).mpr hn)⟩
      · rw [h.nodes] at hnew
        exact .inr ⟨hcr, d, l, nm, (hname d nm).mp hn, hnew⟩

/-! ### `sys_open` -/

/-- There is no file or no descriptor left for the process. -/
def Full (k : Kernel) (p : Slot) : Prop :=
  (∀ f, (k.ftable f).ref ≠ 0) ∨ ∀ fd, (k.proc p).ofile fd ≠ none

/-- What `sys_open` does: it fails and leaves all inodes as they were, or it fails for want of
a file or a descriptor after it has made an inode, or it answers a descriptor. -/
inductive OpenPost (sb : Superblock) (k : Kernel) (p : Slot) (c : Nat) (path : List Byte)
    (omode : BitVec 32) (r : Int) (k' : Kernel) : Prop
  | failed (hr : r = -1) (hproc : k'.proc = k.proc) (old : OpenOld sb k.fs c path omode)
      (hd : During sb k.fs k'.fs (nodes sb k.fs) [] [])
  | made (hr : r = -1) (hproc : k'.proc = k.proc) (full : Full k p) {i : Nat} {N' : Nat → Node}
      (new : OpenNew sb k.fs c path omode N' i) (hd : During sb k.fs k'.fs N' [] [])
  | opened (hr : 0 ≤ r) {i : Nat} {N' : Nat → Node} (h0 : (N' i).type ≠ 0)
      (inode : (N' = nodes sb k.fs ∧ OpenOld sb k.fs c path omode) ∨ OpenNew sb k.fs c path omode N' i)
      (hd : During sb k.fs k'.fs N' [i] [])

theorem fileclose_fresh (hr : (k.ftable f).ref = 1) (ht : (k.ftable f).type = .FD_NONE) :
    Runs (fileclose sb f) k (fun _ k' => k'.fs = k.fs ∧ k'.proc = k.proc) E := by
  refine Runs.bind_get (Runs.ite (fun h => ?_) fun _ => Runs.ite (fun h => ?_) fun _ => Runs.bind_ok rfl ?_)
  · omega
  · omega
  · rw [release, ht]
    exact Runs.pure ⟨rfl, rfl⟩

/-- `sys_open` gives the inode up when there is no file or no descriptor. -/
theorem open_bad_post (k₀ : Kernel)
    (hp : Points k.fs ip i) (hproc : k.proc = k₀.proc) (hfull : Full k₀ p)
    (hd : During sb k₀.fs k.fs N' [i] [i]) (hk : (N' i).nlink = 0 → 0 < (refs k₀.fs i).count)
    (hi : (N' = nodes sb k₀.fs ∧ OpenOld sb k₀.fs c path omode) ∨ OpenNew sb k₀.fs c path omode N' i)
    :
    Runs (open_bad sb ip) k (OpenPost sb k₀ p c path omode) E := by
  refine fs_bind (Q := fun _ s' => During sb k₀.fs s' N' [] []) ?_ fun _ s' hs => Runs.pure ?_
  · exact Runs.bind (hd.iunlockput hp List.not_mem_nil fun h0 => .inl (hk h0)) fun _ _ h =>
      h.1.end_op.post fun _ _ h => h.1
  · obtain ⟨rfl, ho⟩ | hi := hi
    · exact .failed rfl hproc ho hs
    · exact .made rfl hproc hfull hi hs

theorem sys_open_post (Ly : Layout sb) (hS : Sound sb k.fs) (hc : Points k.fs cwd c)
    (hclosed : ∀ f, (k.ftable f).ref = 0 → (k.ftable f).type = .FD_NONE) (path : List Byte)
    (omode : BitVec 32) :
    Runs (sys_open sb p cwd (some (path, omode))) k (OpenPost sb k p c path omode)
      (CallStop (nodes sb k.fs)) := by
  refine fs_bind (hS.begin_op.stops fun e he => ?_) fun _ s₁ ⟨hS₁, hd₁, hn₁, hc₁, hk₁, _⟩ => ?_
  · rw [he.1]
    exact ⟨by decide, nofun⟩
  have hopen := open_inode_runs Ly hS₁ (hk₁ cwd c hc) path omode
  rw [hn₁] at hopen
  refine fs_bind (hopen.post fun r s h => h.rebase hd₁ hc₁) fun r s₂ h₂ => ?_
  match r with
  | none =>
    refine fs_bind (Q := fun _ s' => During sb k.fs s' (nodes sb k.fs) [] []) ?_ fun _ s' hs => Runs.pure ?_
    · exact h₂.1.end_op.post fun _ _ h => h.1
    · exact .failed rfl rfl h₂.2 hs
  | some ip =>
    obtain ⟨i, N', hp, hd, h0, hk, hi⟩ := h₂
    refine filealloc_runs.bind fun r k₃ h₃ => ?_
    match r with
    | none =>
      obtain ⟨rfl, hnone⟩ := h₃
      exact open_bad_post (k := {k with fs := s₂}) k hp rfl (.inl hnone) hd hk hi
    | some f =>
      obtain ⟨hr, rfl⟩ := h₃
      refine fdalloc_runs.bind fun r k₄ h₄ => ?_
      match r with
      | none =>
        obtain ⟨rfl, hnone⟩ := h₄
        refine (fileclose_fresh ?_ ?_).bind fun _ k₅ h₅ => ?_
        · simp only [Kernel.setFile, Function.update_self]
        · simp only [Kernel.setFile, Function.update_self]
          exact hclosed f hr
        · refine open_bad_post k ?_ h₅.2 (.inr hnone) ?_ hk hi
          · rw [h₅.1]
            exact hp
          · rw [h₅.1]
            exact hd
      | some fd =>
        obtain ⟨-, rfl⟩ := h₄
        refine fs_bind (Q := fun _ s' => During sb k.fs s' N' [i] []) ?_ fun _ s' hs =>
          Runs.bind_ok rfl (Runs.pure (.opened (Int.natCast_nonneg _) h0 hi hs))
        exact Runs.bind (hd.iunlock hp List.not_mem_nil) fun _ _ h => h.1.end_op.post fun _ _ h => h.1

/-! ### `sys_chdir` -/

/-- What `sys_chdir` does: it fails and leaves all inodes as they were, or the process has
another current directory and the old one has been given up. -/
inductive ChdirPost (sb : Superblock) (k : Kernel) (r : Int) (k' : Kernel) : Prop
  | failed (hr : r = -1) (hproc : k'.proc = k.proc) (hd : During sb k.fs k'.fs (nodes sb k.fs) [] [])
  | moved (hr : r = 0) (hd : SoundFrom sb (nodes sb k.fs) k'.fs)

theorem sys_chdir_post (Ly : Layout sb) (hS : Sound sb k.fs) (hc : Points k.fs cwd c)
    (path : Option (List Byte)) :
    Runs (sys_chdir sb p cwd path) k (ChdirPost sb k) (CallStop (nodes sb k.fs)) := by
  refine fs_bind (hS.begin_op.stops fun e he => ?_) fun _ s₁ ⟨hS₁, hd₁, hn₁, hc₁, hk₁, _⟩ => ?_
  · rw [he.1]
    exact ⟨by decide, nofun⟩
  have hfail : ∀ {s}, During sb s₁ s (nodes sb k.fs) [] [] →
      Runs (do Kern.fs Fs.end_op; pure (-1) : K Int) {k with fs := s} (ChdirPost sb k) (CallStop (nodes sb k.fs)) :=
    fun hs => fs_bind hs.end_op fun _ _ h => Runs.pure (.failed rfl rfl (hd₁.rebase h.1))
  match path with
  | none =>
    rw [← hn₁] at hd₁
    exact hfail (hn₁ ▸ hS₁.start)
  | some path =>
    have hc' := hk₁ cwd c hc
    have hlook := namei_runs Ly hS₁.steady_self hc' (hS₁.tree.live_type .root) path
    rw [hn₁, hc₁] at hlook
    refine fs_bind (hlook.stops fun e he => hS.walkStop hc he) fun r t ⟨x, ⟨_, ht⟩, hr⟩ => ?_
    cases hw : resolve sb.ninodes (nodes sb k.fs) (counts k.fs) false c path with
    | missing =>
      rw [hw] at ht
      rw [hr, ht.1]
      exact hfail ht.2
    | broken | full =>
      rw [hw] at ht
      exact ht.elim
    | found i last =>
      rw [hw] at ht
      obtain ⟨ip, nm, hx, -, hdt, hpt⟩ := ht
      rw [hr, hx]
      refine fs_bind ((hdt.ilock Ly hpt).stops fun e he => ?_) fun _ u ⟨hdu, _, hsu, hi, h0⟩ => ?_
      · obtain ⟨-, he⟩ | ⟨rfl, he⟩ := he
        · cases he
        · refine ⟨by decide, fun _ hcl => ?_⟩
          exact (resolve_closed hcl (hS.tree.live_type .root) (hS.held c hc.count_pos)).2 i last hw he
      have hpu := hsu.points ip i hpt
      refine fs_bind (Q := fun _ s => s = u) (Runs.bind_get (Runs.pure rfl)) fun _ _ hu => ?_
      rw [hu]
      refine Runs.ite (fun _ => ?_) fun _ => ?_
      · refine fs_bind (hdu.iunlockput hpu hi fun hl => .inl ?_) fun _ _ h => hfail h.1
        have := hS₁.kept (i := i)
        rw [hn₁] at this
        exact this h0 hl
      · refine fs_bind (hdu.iunlock hpu hi) fun _ v ⟨hdv, _, hsv⟩ => ?_
        -- the call holds no lock, and then gives up a reference it did not take
        have hSv : Sound sb v := hS₁.of_during (hn₁.symm ▸ hdv) fun j hj => by
          rw [List.mem_singleton.mp hj, hn₁]
          exact h0
        have hcv : Points v cwd c := hdv.keeps cwd c hc'
        refine fs_bind (((hSv.from_eq hdv.nodes).iput Ly hcv).stops fun e he => he.callStop) fun _ w hw => ?_
        exact fs_bind hw.end_op fun _ _ h => Runs.bind_ok rfl (Runs.pure (.moved rfl h))

end Xv6.Kern
