import Xv6.Fs.Sound

/-! What `sys_unlink` does: it removes one name, or nothing. -/
namespace Xv6.Fs
open Lib Function List

variable {sb : Superblock} {s₀ s s' : State} {N : Nat → Node} {dp ip cwd : Ptr} {d i k c : Nat}
variable {nm : List Byte}

theorem name_dot : name dot = dot := by decide

theorem name_dotdot : name dotdot = dotdot := by decide

theorem isDot_iff_namecmp : IsDot (name nm) ↔ namecmp nm dot = 0 ∨ namecmp nm dotdot = 0 := by
  rw [namecmp_eq_zero, namecmp_eq_zero, name_dot, name_dotdot]
  exact Iff.rfl

theorem unlink_bad_runs (h : During sb s₀ s N [d] [d]) (hp : Points s dp d)
    (hk : (N d).nlink = 0 → 0 < (refs s₀ d).count) :
    Runs (unlink_bad sb dp) s (fun r s' => r = -1 ∧ During sb s₀ s' N [] []) E :=
  Runs.bind (h.iunlockput hp not_mem_nil fun h0 => .inl (hk h0)) fun _ _ ⟨ht, _, _⟩ =>
    Runs.bind ht.end_op fun _ _ ⟨hu, _⟩ => Runs.pure ⟨rfl, hu⟩

/-- The inodes after a name is removed, before the inode may be freed. -/
def unlinked (N : Nat → Node) (d i : Nat) (data : List Byte) : Nat → Node :=
  let Nd : Nat → Node := update N d
    {N d with data := data, nlink := if (N i).type = T_DIR then (N d).nlink - 1 else (N d).nlink}
  update Nd i {N i with nlink := (N i).nlink - 1}

theorem toNat_sub_one {x : BitVec 16} (h : x ≠ 0) : x.toNat = (x - 1).toNat + 1 := by
  have := toNat_ne_zero.mpr h
  rw [BitVec.toNat_sub_of_le]
  · simp
    omega
  · rw [BitVec.le_def]
    simp
    omega

theorem removes_unlinked {data : List Byte} (t : Tree N) (hl : Live N d) (hn : Names N d k i nm)
    (hdot : ¬ IsDot nm) (he : IsDir N i → Empty (N i).data)
    (hput : PutEntry (N d).data data k ⟨0, []⟩) : Removes N (unlinked N d i data) d k i nm := by
  have hne := t.not_in_self hl hn hdot
  have hi : Live N i := .entry hl hn hdot
  have hself : unlinked N d i data i = {N i with nlink := (N i).nlink - 1} := update_self ..
  have hdir : unlinked N d i data d = {N d with
      data := data, nlink := if (N i).type = T_DIR then (N d).nlink - 1 else (N d).nlink} := by
    rw [unlinked]
    simp only
    rw [update_of_ne hne.symm, update_self]
  refine ⟨hl, hn, hdot, he, by rw [hdir]; exact hput, by rw [hdir], fun hd => ?_, fun hd => ?_,
    by rw [hself], ?_, fun j hjd hji => ?_⟩
  · rw [hdir]
    simp only
    rw [if_pos (show (N i).type = T_DIR from hd)]
    exact toNat_sub_one ((t.live_iff (isDir_ne_zero hn.1)).mp hl)
  · rw [hdir]
    simp only
    rw [if_neg (show ¬ (N i).type = T_DIR from hd)]
  · rw [hself]
    exact toNat_sub_one ((t.live_iff (t.live_type hi)).mp hi)
  · rw [unlinked]
    simp only
    rw [update_of_ne hji, update_of_ne hjd]

theorem read_zeros : Entry.read (List.replicate DIRENT 0) = ⟨0, []⟩ := by decide

/-- What `sys_unlink` leaves when it has removed the name `nm` of inode `i`. -/
def Unlinked (sb : Superblock) (s₀ : State) (N : Nat → Node) (d k i : Nat) (nm : Name) (s' : State) :
    Prop :=
  ∃ N₁, Removes N N₁ d k i nm ∧
    ((During sb s₀ s' N₁ [] [] ∧ (¬ Live N₁ i → (refs s' i).valid = true)) ∨
      ((refs s₀ i).count = 0 ∧ ∃ N₂, Frees N₁ N₂ i ∧ During sb s₀ s' N₂ [] []))

/-- The end of `sys_unlink` once the entry is empty: the link counts go down. -/
theorem unlink_links_runs (Ly : Layout sb) (hS : Sound sb s₀) (hN : N = nodes sb s₀)
    (hr : Removes N (unlinked N d i data) d k i nm)
    (h : During sb s₀ s (update N d {N d with data := data}) [i, d] [i, d])
    (hdp : Points s dp d) (hip : Points s ip i) :
    Runs (do
      (if (N i).type = T_DIR then do
        setDinode dp fun d => {d with nlink := d.nlink - 1}
        iupdate sb dp
      else pure ())
      iunlockput sb dp
      setDinode ip fun d => {d with nlink := d.nlink - 1}
      iupdate sb ip
      iunlockput sb ip
      end_op
      pure 0) s (fun r s' => r = (0 : Int) ∧ Unlinked sb s₀ N d k i nm s') Calm := by
  have ht : Tree N := hN ▸ hS.tree
  have hne := hr.ne ht
  have ht' := hr.tree ht
  let Nd : Nat → Node := update N d
    {N d with data := data, nlink := if (N i).type = T_DIR then (N d).nlink - 1 else (N d).nlink}
  have hlast : update Nd i ((Nd i).setFields id id (· - 1)) = unlinked N d i data := by
    have : Nd i = N i := update_of_ne hne ..
    rw [this]
    rfl
  -- the directory
  refine Runs.bind (R := fun _ t => During sb s₀ t Nd [i, d] [i, d] ∧ Stays s t)
    (Runs.ite (fun hdir => ?_) fun hdir => ?_) fun _ t ⟨hdt, hst⟩ => ?_
  · refine ((h.setFields Ly hdp (by simp) id id (· - 1)).mono (fun _ t hdt => ?_) fun _ he => he.calm)
    rw [update_self, update_idem] at hdt
    have : Nd = update N d ({N d with data := data}.setFields id id (· - 1)) := by
      show update N d _ = _
      rw [if_pos hdir]
      rfl
    rw [this]
    exact hdt
  · have : Nd = update N d {N d with data := data} := by
      show update N d _ = _
      rw [if_neg hdir]
    rw [this]
    exact Runs.pure ⟨h, ⟨fun _ _ h => h, fun _ h => h, fun _ => Nat.le_refl _⟩⟩
  -- the directory still has links
  have hnd : (Nd d).nlink ≠ 0 := by
    have hd' : unlinked N d i data d = Nd d := update_of_ne hne.symm ..
    rw [← hd']
    exact (ht'.live_iff (by rw [hr.type_eq]; exact ht.live_type hr.live)).mp
      (hr.live_keep ht hr.live hne.symm)
  refine Runs.bind (hdt.swap_refs.swap_locks.iunlockput (hst.points dp d hdp) (by simpa using hne.symm)
    fun h0 => absurd h0 hnd) fun _ u ⟨hdu, hsu, _⟩ => ?_
  have hpu : Points u ip i := hsu.points ip i (hst.points ip i hip) fun he => absurd he hne
  -- the inode
  refine Runs.assoc (Runs.bind ((hdu.setFields Ly hpu (mem_cons_self ..) id id (· - 1)).stops
    fun _ he => he.calm) fun _ w ⟨hdw, hsw⟩ => ?_)
  rw [hlast] at hdw
  have hpw := hsw.points ip i hpu
  have hi0 : (unlinked N d i data i).type ≠ 0 := by
    rw [hr.type_eq]
    exact ht.target d k i nm hr.live hr.named
  by_cases hfree : (unlinked N d i data i).nlink = 0 ∧ (refs s₀ i).count = 0
  · refine Runs.bind ((hdw.iunlockput_last Ly hpw not_mem_nil hfree.1 hfree.2
      not_mem_nil).stops fun _ he => he.calm) fun _ x ⟨hdx, _⟩ => ?_
    refine Runs.bind hdx.end_op fun _ y ⟨hdy, _⟩ => Runs.pure ⟨rfl, _, hr, .inr ⟨hfree.2, _, ?_, hdy⟩⟩
    exact ⟨fun hl => (ht'.live_iff hi0).mp hl hfree.1, update_self ..,
      fun j hj => update_of_ne hj ..⟩
  · have hkeep : (unlinked N d i data i).nlink = 0 → 0 < (refs s₀ i).count := fun h0 =>
      Nat.pos_of_ne_zero fun hc => hfree ⟨h0, hc⟩
    refine Runs.bind (hdw.iunlockput hpw not_mem_nil fun h0 => .inl (hkeep h0))
      fun _ x ⟨hdx, hsx, _⟩ => ?_
    refine Runs.bind hdx.end_op fun _ y ⟨hdy, hsy⟩ => Runs.pure ⟨rfl, _, hr, .inl ⟨hdy, fun hl => ?_⟩⟩
    -- it was read in when it was locked, and is still in use
    have hpos := hkeep (not_not.mp fun hn => hl ((ht'.live_iff hi0).mpr hn))
    refine hsy.valid i (hsx.valid i (hdw.held i (mem_cons_self ..)) fun _ => ?_)
    rw [hdw.count, count_singleton_self]
    omega

/-- `sys_unlink` after the entry has been found. -/
theorem unlink_found_runs (Ly : Layout sb) (hS : Sound sb s₀) (hN : N = nodes sb s₀)
    (hn : Names N d k i (name nm)) (hdot : ¬ IsDot (name nm)) (h : During sb s₀ s N [i, d] [d])
    (hdp : Points s dp d) (hip : Points s ip i) :
    Runs (do
      ilock sb ip
      let i ← inode ip
      if i.d.nlink.toInt < 1 then panic .nlink
      else do
        let empty ← (if i.d.type = T_DIR then isdirempty sb ip else pure true)
        if empty = false then do
          iunlockput sb ip
          unlink_bad sb dp
        else do
          let r ← writei sb dp (List.replicate DIRENT 0) (DIRENT * k)
          if r ≠ some DIRENT then panic .unlinkWritei
          else do
            (if i.d.type = T_DIR then do
              setDinode dp fun d => {d with nlink := d.nlink - 1}
              iupdate sb dp
            else pure ())
            iunlockput sb dp
            setDinode ip fun d => {d with nlink := d.nlink - 1}
            iupdate sb ip
            iunlockput sb ip
            end_op
            pure 0) s
      (fun r s' => (r = -1 ∧ During sb s₀ s' N [] []) ∨
        (r = 0 ∧ Unlinked sb s₀ N d k i (name nm) s')) Calm := by
  have ht : Tree N := hN ▸ hS.tree
  have hl : Live N d := by
    by_contra hl
    exact hdot (ht.removed d k i _ hl hn)
  have hne := ht.not_in_self hl hn hdot
  have hi0 := ht.target d k i _ hl hn
  have hil : Live N i := .entry hl hn hdot
  refine Runs.bind ((h.ilock Ly hip).stops fun e he => ?_) fun _ t ⟨hdt, _, hst, _, _⟩ => ?_
  · rcases he with ⟨_, hc⟩ | ⟨_, hc⟩
    · exact absurd (mem_singleton.mp hc) hne
    · exact absurd hc hi0
  have hpi := hst.points ip i hip
  have hpd := hst.points dp d hdp
  have htype : (t.icache ip).d.type = (N i).type := by
    rw [hdt.good.type_eq hpi (hdt.held i (mem_cons_self ..)), hdt.nodes]
  refine bind_inode ?_
  refine Runs.ite (fun _ => Runs.throw (calm_panic (by decide))) fun _ => ?_
  rw [htype]
  refine Runs.bind (R := fun b u => u = t ∧ (b = true → IsDir N i → Empty (N i).data))
    (Runs.ite (fun hdir => ?_) fun hdir => ?_) fun b u ⟨hu, hempty⟩ => ?_
  · refine (isdirempty_runs Ly (hdt.lockedDir hpi (mem_cons_self ..) hdir
      (ht.aligned i hdir))).post fun b u ⟨hu, hb⟩ => ⟨hu, fun h _ => hb h⟩
  · exact Runs.pure ⟨rfl, fun _ h => absurd h hdir⟩
  rw [hu]
  refine Runs.ite (fun _ => ?_) fun hb => ?_
  · -- a directory that is not empty
    refine Runs.bind (hdt.iunlockput hpi (by simpa using hne) fun h0 =>
      absurd h0 ((ht.live_iff hi0).mp hil)) fun _ w ⟨hw, hsw, _⟩ => ?_
    refine (unlink_bad_runs hw (hsw.points dp d hpd fun he => absurd he.symm hne) fun h0 => ?_).post
      fun _ _ h => .inl h
    exact absurd h0 ((ht.live_iff (isDir_ne_zero hn.1)).mp hl)
  · have hb : b = true := by simpa using hb
    have hld := hdt.lockedDir hpd (by simp) hn.1 (ht.aligned d hn.1)
    refine Runs.bind (hdt.writeEntry Ly hld (by decide) (Nat.le_of_lt (lt_of_dirent? hn.2.1)))
      fun r w ⟨hok, _⟩ => ?_
    refine Runs.ite (fun _ => Runs.throw (calm_panic (by decide))) fun hr => ?_
    obtain ⟨data, hput, hdw, hsw⟩ := hok (not_not.mp hr)
    rw [read_zeros] at hput
    exact (unlink_links_runs Ly hS hN (removes_unlinked ht hl hn hdot (hempty hb) hput) hdw
      (hsw.points dp d hpd) (hsw.points ip i hpi)).post fun _ _ h => .inr h

/-- What `sys_unlink` does: it answers `-1` and leaves all inodes as they were, or it
removes the name it was given. -/
def UnlinkPost (sb : Superblock) (s : State) (c : Nat) (path : Option (List Byte)) (r : Int)
    (s' : State) : Prop :=
  (r = -1 ∧ During sb s s' (nodes sb s) [] []) ∨
  (r = 0 ∧ ∃ p d k i nm, path = some p ∧
    resolve sb.ninodes (nodes sb s) (counts s) true c p = .found d nm ∧
    Unlinked sb s (nodes sb s) d k i nm s')

theorem Unlinked.rebase (h : During sb s s₁ N [] []) (hu : Unlinked sb s₁ N d k i nm s') :
    Unlinked sb s N d k i nm s' := by
  obtain ⟨N₁, hr, ⟨h1, h2⟩ | ⟨h1, N₂, h2, h3⟩⟩ := hu
  · exact ⟨N₁, hr, .inl ⟨h.rebase h1, h2⟩⟩
  · have := h.count i
    rw [h1, count_nil] at this
    exact ⟨N₁, hr, .inr ⟨by omega, N₂, h2, h.rebase h3⟩⟩

theorem sys_unlink_runs (Ly : Layout sb) (hS : Sound sb s) (hc : Points s cwd c)
    (path : Option (List Byte)) :
    Runs (sys_unlink sb cwd path) s (UnlinkPost sb s c path) (CallStop (nodes sb s)) := by
  cases path with
  | none => exact Runs.pure (.inl ⟨rfl, hS.start⟩)
  | some p =>
    refine Runs.bind (hS.begin_op.stops fun e he => ?_) fun _ s₁ ⟨hS₁, hd₁, hn₁, hc₁, hk₁, _⟩ => ?_
    · rw [he.1]
      exact ⟨by decide, fun h => by cases h⟩
    have hc' := hk₁ cwd c hc
    have hlook := namex_runs Ly hS₁.steady_self hc' (hS₁.tree.live_type .root) p true
    rw [hn₁, hc₁] at hlook
    refine Runs.bind (hlook.stops fun e he => hS.walkStop hc he) fun r t ⟨_, ht⟩ => ?_
    cases hw : resolve sb.ninodes (nodes sb s) (counts s) true c p with
    | missing =>
      rw [hw] at ht
      rw [ht.1]
      exact Runs.bind ht.2.end_op fun _ u ⟨hu, _⟩ => Runs.pure (.inl ⟨rfl, hd₁.rebase hu⟩)
    | broken | full =>
      rw [hw] at ht
      exact ht.elim
    | found d last =>
      rw [hw] at ht
      obtain ⟨dp, nm, hr, hnm, hdt, hpt⟩ := ht
      have hdir := resolve_parent_isDir hw
      have hd0 := isDir_ne_zero hdir
      have hkd : (nodes sb s d).nlink = 0 → 0 < (refs s₁ d).count := fun h0 => by
        have := hS₁.kept (i := d)
        rw [hn₁] at this
        exact this hd0 h0
      rw [hr]
      refine Runs.bind ((hdt.ilock Ly hpt).stops fun e he => ?_) fun _ u ⟨hdu, _, hsu, _, _⟩ => ?_
      · rcases he with ⟨_, hc⟩ | ⟨_, hc⟩
        · cases hc
        · exact absurd hc hd0
      have hpu := hsu.points dp d hpt
      have hbad : Runs (unlink_bad sb dp) u (UnlinkPost sb s c (some p)) (CallStop (nodes sb s)) :=
        (unlink_bad_runs hdu hpu hkd).post fun _ _ h => .inl ⟨h.1, hd₁.rebase h.2⟩
      refine Runs.ite (fun _ => hbad) fun hdot => ?_
      rw [← isDot_iff_namecmp] at hdot
      have hld := hdu.lockedDir hpu (mem_cons_self ..) hdir (hS.tree.aligned d hdir)
      refine Runs.bind ((dirlookup_runs Ly hdu hld fun k i m hh => hS.range d k i m ⟨hdir, hh⟩).stops
        fun e he => he.calm.callStop) fun r w hw' => ?_
      cases hf : find (nodes sb s d).data (name nm) with
      | none =>
        rw [hf] at hw'
        obtain ⟨hr', hwu⟩ : r = none ∧ w = u := hw'
        rw [hr', hwu]
        exact hbad
      | some x =>
        obtain ⟨k, i⟩ := x
        rw [hf] at hw'
        obtain ⟨ip, hr', hdw, _, hsw, hpw, _⟩ := hw'
        rw [hr']
        refine (unlink_found_runs Ly hS₁ hn₁.symm ⟨hdir, holds_of_find hf⟩ hdot hdw
          (hsw.points dp d hpu) hpw).mono (fun r x hx => ?_) fun e he => he.callStop
        rcases hx with ⟨hr, hx⟩ | ⟨hr, hx⟩
        · exact .inl ⟨hr, hd₁.rebase hx⟩
        · rw [hnm] at hx
          exact .inr ⟨hr, p, d, k, i, last, rfl, hw, hx.rebase hd₁⟩

end Xv6.Fs
