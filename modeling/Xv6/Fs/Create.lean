import Xv6.Fs.Unlink

/-! What `create` does: it finds a file, or it adds a new one, or a new directory. -/
namespace Xv6.Fs
open Lib Function

variable {sb : Superblock} {s₀ s s' : State} {N : Nat → Node} {dp ip cwd : Ptr} {d i k c : Nat}
variable {nm : List Byte} {T L : List Nat}

/-! ### The entries of a new directory -/

/-- The contents of a new directory `i` in directory `d`. -/
def Dots (i d : Nat) (data : List Byte) : Prop :=
  data.length % DIRENT = 0 ∧ ∀ l, dirent? data l =
    if l = 0 then some ⟨i, dot⟩ else if l = 1 then some ⟨d, dotdot⟩ else none

theorem dirent?_nil (l : Nat) : dirent? [] l = none := by
  rw [dirent?_eq_none]
  exact Nat.zero_le _

theorem find_eq_none_of_entries (h : ∀ l e, dirent? data l = some e → e.name ≠ m) :
    find data m = none :=
  find_eq_none.mpr fun l _ hh => h l _ hh.1 rfl

theorem find_nil (m : Name) : find [] m = none :=
  find_eq_none_of_entries fun l e he => by
    rw [dirent?_nil] at he
    cases he

/-- `.` is put into an empty directory, and then `..`. -/
theorem dots_of_puts (hi : i ≠ 0) (hv : Vacant [] k)
    (hp : PutEntry [] data k ⟨i, dot⟩) (hv' : Vacant data l) (hp' : PutEntry data data' l ⟨d, dotdot⟩) :
    Dots i d data' := by
  have hk : k = 0 := Nat.le_zero.mp hv.1
  subst hk
  have hone : nentries data ≤ 1 := by
    rw [← dirent?_eq_none, hp.other (by decide), dirent?_nil]
  have hl : l = 1 := by
    have h0 : l ≠ 0 := by
      rintro rfl
      exact hi (hv'.2 _ hp.self)
    have := hv'.1
    omega
  subst hl
  refine ⟨hp'.aligned, fun j => ?_⟩
  by_cases h0 : j = 0
  · rw [if_pos h0, h0, hp'.other (by decide), hp.self]
  · rw [if_neg h0]
    by_cases h1 : j = 1
    · rw [if_pos h1, h1, hp'.self]
    · rw [if_neg h1, hp'.other h1, hp.other h0, dirent?_nil]

theorem dots_runs (Ly : Layout sb) (h : During sb s₀ s N T L) (hp : Points s ip i) (hiL : i ∈ L)
    (ht : (N i).type = T_DIR) (hd : (N i).data = []) (hi0 : i ≠ 0) (hi : i < sb.ninodes)
    (hdn : d < sb.ninodes) :
    Runs (do
      let r ← dirlink sb ip dot i
      if r < 0 then panic .createDots
      else do
        let r ← dirlink sb ip dotdot d
        if r < 0 then panic .createDots else pure ()) s
      (fun _ s' => ∃ data, Dots i d data ∧
        During sb s₀ s' (update N i {N i with data := data}) T L ∧ Stays s s') Calm := by
  have hw : ∀ {j}, j < sb.ninodes → j < 2 ^ 16 := fun h => h.trans_le Ly.ninodes
  have hld : LockedDir sb s N ip i := h.lockedDir hp hiL ht (by rw [hd]; rfl)
  refine Runs.bind (dirlink_runs Ly h hld (fun k j m hh => ?_) (by rw [hd]; exact find_nil _) (hw hi))
    fun r t hdot => ?_
  · rw [hd, Holds, dirent?_nil] at hh
    cases hh.1
  obtain ⟨hr, k, data, hv, hput, hdt, hst⟩ := hdot
  rw [hr]
  refine Runs.ite (fun h => absurd h (by decide)) fun _ => ?_
  rw [hd] at hv hput
  rw [name_dot] at hput
  have hk : k = 0 := Nat.le_zero.mp hv.1
  have hself : update N i {N i with data := data} i = {N i with data := data} :=
    update_self ..
  have hent : ∀ l e, dirent? data l = some e → e = ⟨i, dot⟩ := fun l e he => by
    rw [hput.entries, dirent?_nil] at he
    split at he
    · exact (Option.some.inj he).symm
    · cases he
  have hldt : LockedDir sb t (update N i {N i with data := data}) ip i :=
    hdt.lockedDir (hst.points ip i hp) hiL (by rw [hself]; exact ht) (by rw [hself]; exact hput.aligned)
  refine Runs.bind (dirlink_runs Ly hdt hldt (fun l j m hh => ?_) ?_ (hw hdn))
    fun r u hdotdot => ?_
  · rw [hself] at hh
    have := hent l _ hh.1
    rw [Entry.mk.injEq] at this
    rw [this.1]
    exact hi
  · rw [hself, name_dotdot]
    refine find_eq_none_of_entries fun l e he => ?_
    rw [hent l e he]
    exact (by decide : dot ≠ dotdot)
  obtain ⟨hr, l, data', hv', hput', hdu, hsu⟩ := hdotdot
  rw [hself] at hv' hput'
  rw [name_dotdot] at hput'
  rw [hr]
  refine Runs.ite (fun h => absurd h (by decide)) fun _ => Runs.pure ⟨data', ?_, ?_, hst.trans hsu⟩
  · exact dots_of_puts hi0 hv hput hv' hput'
  · rw [hself, update_idem] at hdu
    exact hdu

theorem Tree.not_isDot (t : Tree N) (hd : IsDir N d) (h : find (N d).data m = none) :
    ¬ IsDot m := by
  rintro (rfl | rfl)
  · exact find_eq_none.mp h 0 d (t.self d hd).2
  · obtain ⟨p, hp⟩ := t.up d hd
    exact find_eq_none.mp h 1 p hp.2

/-! ### A new inode -/

/-- The inodes after `create` has made inode `i` in directory `d`: it has contents `idata`,
the directory has contents `data`. -/
def created (N : Nat → Node) (d i : Nat) (type major minor : BitVec 16) (idata data : List Byte) :
    Nat → Node :=
  let Ni : Nat → Node := update N i ⟨type, major, minor, 1, idata⟩
  update Ni d
    {N d with data := data, nlink := if type = T_DIR then (N d).nlink + 1 else (N d).nlink}

theorem created_dir (N : Nat → Node) (d i : Nat) (type major minor : BitVec 16)
    (idata data : List Byte) : created N d i type major minor idata data d = {N d with
      data := data, nlink := if type = T_DIR then (N d).nlink + 1 else (N d).nlink} :=
  update_self ..

/-- What `create` leaves when it has made inode `i`, with the name `nm` in directory `d`. -/
structure Created (sb : Superblock) (N N' : Nat → Node) (d k i : Nat) (nm : Name) (type : BitVec 16) :
    Prop where
  inum : i < sb.ninodes
  free : (N i).type = 0
  typed : (N' i).type = type
  nlink : (N' i).nlink = 1
  adds : Live N d → type ≠ T_DIR → Adds N N' d k i nm
  makes : Live N d → type = T_DIR → Makes N N' d k i nm

theorem toNat_add_one {x : BitVec 16} (h : x.toNat < 2 ^ 16 - 1) : (x + 1).toNat = x.toNat + 1 := by
  rw [BitVec.toNat_add]
  exact Nat.mod_eq_of_lt (by simpa using by omega)

theorem created_created
    (hi : i < sb.ninodes) (hi0 : i ≠ 0) (hfree : (N i).type = 0) (hlink : (N i).nlink = 0)
    (htype : type ≠ 0) (hdir : IsDir N d) (hnone : find (N d).data nm = none) (hdot : ¬ IsDot nm)
    (hv : Vacant (N d).data k) (hput : PutEntry (N d).data data k ⟨i, nm⟩)
    (hdots : type = T_DIR → Dots i d idata) (hle : (N d).nlink.toNat < 2 ^ 16 - 1) :
    Created sb N (created N d i type major minor idata data) d k i nm type := by
  have hne : i ≠ d := fun he => isDir_ne_zero hdir (he ▸ hfree)
  have hself : created N d i type major minor idata data i = ⟨type, major, minor, 1, idata⟩ := by
    rw [created]
    simp only
    rw [update_of_ne hne, update_self]
  have hd := created_dir N d i type major minor idata data
  have hother : ∀ j, j ≠ d → j ≠ i → created N d i type major minor idata data j = N j :=
    fun j hjd hji => by
      rw [created]
      simp only
      rw [update_of_ne hjd, update_of_ne hji]
  have hnew : ∀ l j, ¬ Names N d l j nm := fun l j hn => find_eq_none.mp hnone l j hn.2
  refine ⟨hi, hfree, by rw [hself], by rw [hself], fun hl ht => ?_, fun hl ht => ?_⟩
  · refine ⟨hl, hdir, hnew, hdot, hv, hi0, by rw [hself]; exact htype, by rw [hself]; exact ht,
      fun h => isDir_ne_zero h hfree, fun _ => hlink, by rw [hself, hlink]; rfl, by rw [hd]; exact hput,
      ?_, hother⟩
    rw [hd, if_neg ht]
  · obtain ⟨hal, hent⟩ := hdots ht
    refine ⟨hl, hdir, hnew, hdot, hv, hi0, hfree, by rw [IsDir, hself]; exact ht, by rw [hself],
      by rw [hself]; exact hal, by rw [hself]; exact hent, by rw [hd]; exact hput, by rw [hd], ?_,
      hother⟩
    rw [hd]
    simp only
    rw [if_pos ht]
    exact toNat_add_one hle

/-- `create` when the name is new. -/
theorem create_new_runs (Ly : Layout sb) (hS : Sound sb s₀) (hN : N = nodes sb s₀) (hdir : IsDir N d)
    (hnone : find (N d).data (name nm) = none) (h : During sb s₀ s N [d] [d]) (hdp : Points s dp d)
    (htype : type ≠ 0) (major minor : BitVec 16) :
    Runs (do
      let d ← inode dp
      let ip ← ialloc sb d.dev type
      ilock sb ip
      setDinode ip fun d => {d with major := major, minor := minor, nlink := 1}
      iupdate sb ip
      let i ← inode ip
      (if type = T_DIR then do
        setDinode dp fun d => {d with nlink := d.nlink + 1}
        iupdate sb dp
        let r ← dirlink sb ip dot i.inum
        if r < 0 then panic .createDots
        else do
          let r ← dirlink sb ip dotdot d.inum
          if r < 0 then panic .createDots else pure ()
      else pure ())
      let r ← dirlink sb dp nm i.inum
      if r < 0 then panic .createDirlink
      else do
        iunlockput sb dp
        pure (some ip)) s
      (fun r s' => ∃ ip i k N', r = some ip ∧ Points s' ip i ∧ During sb s₀ s' N' [i] [i] ∧
        Created sb N N' d k i (name nm) type) Calm := by
  have ht : Tree N := hN ▸ hS.tree
  have hrange : ∀ k i nm, Holds (N d).data k i nm → i < sb.ninodes := fun k i nm hh =>
    hS.range d k i nm (hN ▸ ⟨hdir, hh⟩)
  have hdn : d < sb.ninodes := by
    have := hS.range d 0 d dot
    rw [← hN] at this
    exact this (ht.self d hdir)
  have hle : (N d).nlink.toNat < 2 ^ 16 - 1 := by
    have := hS.nlink_le Ly d
    rw [← hN] at this
    omega
  refine bind_inode ?_
  rw [h.good.dev_eq hdp]
  refine Runs.bind (h.ialloc Ly htype) fun ip t ⟨i, h1, hi, hfree, hdt, hst, hpt⟩ => ?_
  have hne : i ≠ d := fun he => isDir_ne_zero hdir (he ▸ hfree)
  refine Runs.bind ((hdt.ilock Ly hpt).stops fun e he => ?_) fun _ u ⟨hdu, _, hsu, _, _⟩ => ?_
  · rcases he with ⟨_, hc⟩ | ⟨_, hc⟩
    · exact absurd (List.mem_singleton.mp hc) hne
    · rw [update_self] at hc
      exact absurd hc htype
  have hpu := hsu.points ip i hpt
  refine Runs.assoc (Runs.bind ((hdu.setFields Ly hpu (List.mem_cons_self ..) (fun _ => major)
    (fun _ => minor) fun _ => 1).stops fun _ he => he.calm) fun _ w ⟨hdw, hsw⟩ => ?_)
  have hfresh : (Node.fresh type).setFields (fun _ => major) (fun _ => minor) (fun _ => 1) =
      ⟨type, major, minor, 1, []⟩ := rfl
  rw [update_self, update_idem, hfresh] at hdw
  have hpw := hsw.points ip i hpu
  have hdpw := hsw.points dp d (hsu.points dp d (hst.points dp d hdp))
  refine bind_inode ?_
  rw [hpw.2, hdp.2]
  -- the dots
  let Nl : List Byte → Nat → Node := fun idata =>
    update (update N i ⟨type, major, minor, 1, idata⟩) d
      {N d with nlink := if type = T_DIR then (N d).nlink + 1 else (N d).nlink}
  have hNd : ∀ idata, Nl idata d = {N d with
      nlink := if type = T_DIR then (N d).nlink + 1 else (N d).nlink} := fun _ =>
    update_self ..
  refine Runs.bind (R := fun _ x => ∃ idata, (type = T_DIR → Dots i d idata) ∧
    During sb s₀ x (Nl idata) [i, d] [i, d] ∧ Stays w x) (Runs.ite (fun htd => ?_) fun htd => ?_)
    fun _ x ⟨idata, hdots, hdx, hsx⟩ => ?_
  · refine Runs.assoc (Runs.bind ((hdw.setFields Ly hdpw (by simp) id id (· + 1)).stops
      fun _ he => he.calm) fun _ x ⟨hdx, hsx⟩ => ?_)
    rw [update_of_ne hne.symm] at hdx
    have hxi : update (update N i ⟨type, major, minor, 1, []⟩) d
        ((N d).setFields id id (· + 1)) i = ⟨type, major, minor, 1, []⟩ := by
      rw [update_of_ne hne, update_self]
    refine (dots_runs Ly hdx (hsx.points ip i hpw) (List.mem_cons_self ..) ?_ ?_ (by omega) hi
      hdn).post fun _ y ⟨idata, hdots, hdy, hsy⟩ => ⟨idata, fun _ => hdots, ?_, hsx.trans hsy⟩
    · exact (congrArg Node.type hxi).trans htd
    · exact congrArg Node.data hxi
    · have hNl : Nl idata = update (update (update N i
          ⟨type, major, minor, 1, []⟩) d ((N d).setFields id id (· + 1))) i
          ⟨type, major, minor, 1, idata⟩ := by
        rw [update_comm hne.symm, update_idem]
        show update _ d _ = _
        rw [if_pos htd]
        rfl
      simp only [hxi] at hdy
      rw [hNl]
      exact hdy
  · refine Runs.pure ⟨[], fun h => absurd h htd, ?_, ⟨fun _ _ h => h, fun _ h => h, fun _ => Nat.le_refl _⟩⟩
    have hNl : Nl [] = update N i ⟨type, major, minor, 1, []⟩ := by
      show update _ d _ = _
      rw [if_neg htd]
      have : N d = update N i ⟨type, major, minor, 1, []⟩ d :=
        (update_of_ne hne.symm ..).symm
      rw [this, update_eq_self]
    rw [hNl]
    exact hdw
  -- the name
  have hdpx := hsx.points dp d hdpw
  have hlx : LockedDir sb x (Nl idata) dp d := hdx.lockedDir hdpx (by simp)
    ((congrArg Node.type (hNd idata)).trans hdir)
    (by rw [hNd]; exact ht.aligned d hdir)
  refine Runs.bind (dirlink_runs Ly hdx hlx (by rw [hNd]; exact hrange) (by rw [hNd]; exact hnone)
    (hi.trans_le Ly.ninodes)) fun r y ⟨hr, k, data, hv, hput, hdy, hsy⟩ => ?_
  rw [hr]
  refine Runs.ite (fun h => absurd h (by decide)) fun _ => ?_
  rw [hNd] at hv hput hdy
  have hfin : update (Nl idata) d {N d with
      nlink := if type = T_DIR then (N d).nlink + 1 else (N d).nlink, data := data} =
      created N d i type major minor idata data := update_idem ..
  rw [hfin] at hdy
  have hcr : Created sb N (created N d i type major minor idata data) d k i (name nm) type := by
    have hfree' : (N i).nlink = 0 := by
      rw [hN] at hfree ⊢
      exact free_nlink sb s₀ hfree
    exact created_created hi (by omega) hfree hfree' htype hdir hnone
      (ht.not_isDot hdir hnone) hv hput hdots hle
  have hlink : (created N d i type major minor idata data d).nlink =
      if type = T_DIR then (N d).nlink + 1 else (N d).nlink := by
    rw [created_dir]
  have hpy := hsy.points ip i (hsx.points ip i hpw)
  refine Runs.bind (hdy.swap_refs.swap_locks.iunlockput (hsy.points dp d hdpx)
    (by simpa using hne.symm) fun h0 => .inl ?_) fun _ z ⟨hdz, hsz, _⟩ => Runs.pure ?_
  · rw [hlink] at h0
    have hkept : (N d).nlink = 0 → 0 < (refs s₀ d).count := fun h => by
      rw [hN] at h hdir
      exact hS.kept (isDir_ne_zero hdir) h
    split at h0
    · have := toNat_add_one hle
      rw [h0] at this
      exact absurd this (Nat.succ_ne_zero _).symm
    · exact hkept h0
  · exact ⟨ip, i, k, _, rfl, hsz.points ip i hpy fun he => absurd he hne, hdz, hcr⟩

/-! ### `create` -/

/-- What `create` does: it answers nothing and leaves all inodes as they were, which is not so
for a new name in a directory, or it answers a file that is there, or it makes one. -/
def CreatePost (sb : Superblock) (s : State) (c : Nat) (path : List Byte) (type : BitVec 16)
    (r : Option Ptr) (s' : State) : Prop :=
  match r with
  | none => During sb s s' (nodes sb s) [] [] ∧ ∀ d nm,
      resolve sb.ninodes (nodes sb s) (counts s) true c path = .found d nm →
        find (nodes sb s d).data nm ≠ none
  | some ip => ∃ d k i nm, Points s' ip i ∧
      resolve sb.ninodes (nodes sb s) (counts s) true c path = .found d nm ∧
      ((find (nodes sb s d).data nm = some (k, i) ∧ During sb s s' (nodes sb s) [i] [i] ∧
          type = T_FILE ∧ (nodes sb s i).type = T_FILE) ∨
        (find (nodes sb s d).data nm = none ∧ ∃ N', During sb s s' N' [i] [i] ∧
          Created sb (nodes sb s) N' d k i nm type))

/-- `create` when the name is taken. -/
theorem create_old_runs (Ly : Layout sb) (hS : Sound sb s₀) (hN : N = nodes sb s₀) (hdir : IsDir N d)
    (h : During sb s₀ s N [i, d] [d]) (hdp : Points s dp d) (hip : Points s ip i)
    (hn : ∃ k nm, Names N d k i nm) (type : BitVec 16) :
    Runs (do
      iunlockput sb dp
      ilock sb ip
      let i ← inode ip
      if type = T_FILE ∧ i.d.type = T_FILE then pure (some ip)
      else do
        iunlockput sb ip
        pure none) s
      (fun r s' => (r = none ∧ During sb s₀ s' N [] []) ∨
        (r = some ip ∧ Points s' ip i ∧ During sb s₀ s' N [i] [i] ∧ type = T_FILE ∧
          (N i).type = T_FILE)) (CallStop N) := by
  have hkept : ∀ j, (N j).type ≠ 0 → (N j).nlink = 0 → 0 < (refs s₀ j).count := fun j h0 hl => by
    rw [hN] at h0 hl
    exact hS.kept h0 hl
  refine Runs.bind (h.swap_refs.iunlockput hdp List.not_mem_nil fun h0 =>
    .inl (hkept d (isDir_ne_zero hdir) h0)) fun _ t ⟨hdt, hst, _⟩ => ?_
  have hpt : Points t ip i := hst.points ip i hip fun he => by
    rw [h.count, he, List.count_cons_self, List.count_singleton_self]
    omega
  refine Runs.bind ((hdt.ilock Ly hpt).stops fun e he => ?_) fun _ u ⟨hdu, _, hsu, _, hi0⟩ => ?_
  · rcases he with ⟨_, hc⟩ | ⟨rfl, hc⟩
    · cases hc
    · obtain ⟨k, nm, hn⟩ := hn
      exact ⟨by decide, fun _ hcl => hcl d k i nm hn hc⟩
  have hpu := hsu.points ip i hpt
  refine bind_inode ?_
  rw [hdu.good.type_eq hpu (hdu.held i (List.mem_cons_self ..)), hdu.nodes]
  refine Runs.ite (fun hf => Runs.pure (.inr ⟨rfl, hpu, hdu, hf.1, hf.2⟩)) fun _ => ?_
  exact Runs.bind (hdu.iunlockput hpu List.not_mem_nil fun h0 => .inl (hkept i hi0 h0))
    fun _ w ⟨hdw, _, _⟩ => Runs.pure (.inl ⟨rfl, hdw⟩)

theorem create_runs (Ly : Layout sb) (hS : Sound sb s) (hc : Points s cwd c) (path : List Byte)
    (htype : type ≠ 0) (major minor : BitVec 16) :
    Runs (create sb cwd path type major minor) s (CreatePost sb s c path type)
      (CallStop (nodes sb s)) := by
  refine Runs.bind ((namex_runs Ly hS.steady_self hc (hS.tree.live_type .root) path true).stops
    fun e he => hS.walkStop hc he) fun r t ⟨_, ht⟩ => ?_
  cases hw : resolve sb.ninodes (nodes sb s) (counts s) true c path with
  | missing =>
    rw [hw] at ht
    rw [ht.1]
    exact Runs.pure ⟨ht.2, fun d nm h => by rw [hw] at h; cases h⟩
  | broken | full =>
    rw [hw] at ht
    exact ht.elim
  | found d last =>
    rw [hw] at ht
    obtain ⟨dp, nm, hr, hnm, hdt, hpt⟩ := ht
    have hdir := resolve_parent_isDir hw
    rw [hr]
    refine Runs.bind ((hdt.ilock Ly hpt).stops fun e he => ?_) fun _ u ⟨hdu, _, hsu, _, _⟩ => ?_
    · rcases he with ⟨_, hc⟩ | ⟨_, hc⟩
      · cases hc
      · exact absurd hc (isDir_ne_zero hdir)
    have hpu := hsu.points dp d hpt
    have hld := hdu.lockedDir hpu (List.mem_cons_self ..) hdir (hS.tree.aligned d hdir)
    refine Runs.bind ((dirlookup_runs Ly hdu hld fun k i m hh => hS.range d k i m ⟨hdir, hh⟩).stops
      fun e he => he.calm.callStop) fun r w hw' => ?_
    cases hf : find (nodes sb s d).data (name nm) with
    | none =>
      rw [hf] at hw'
      obtain ⟨hr', hwu⟩ : r = none ∧ w = u := hw'
      rw [hr', hwu]
      refine (create_new_runs Ly hS rfl hdir hf hdu hpu htype major minor).mono (fun r x hx => ?_)
        fun e he => he.callStop
      obtain ⟨ip, i, k, N', rfl, hp, hd, hcr⟩ := hx
      rw [hnm] at hcr hf
      exact ⟨d, k, i, last, hp, hw, .inr ⟨hf, N', hd, hcr⟩⟩
    | some x =>
      obtain ⟨k, i⟩ := x
      rw [hf] at hw'
      obtain ⟨ip, hr', hdw, _, hsw, hpw, _⟩ := hw'
      rw [hr']
      refine (create_old_runs Ly hS rfl hdir hdw (hsw.points dp d hpu) hpw
        ⟨k, name nm, hdir, holds_of_find hf⟩ type).post fun r x hx => ?_
      rw [hnm] at hf
      rcases hx with ⟨rfl, hd⟩ | ⟨rfl, hp, hd, h1, h2⟩
      · refine ⟨hd, fun d' nm' h' => ?_⟩
        rw [hw, Walk.found.injEq] at h'
        rw [← h'.1, ← h'.2, hf]
        exact nofun
      · exact ⟨d, k, i, last, hp, hw, .inl ⟨hf, hd, h1, h2⟩⟩

/-! ### `sys_mkdir` and `sys_mknod` -/

/-- What `sys_mkdir` and `sys_mknod` do when they are given a path. -/
def MknodePost (sb : Superblock) (s : State) (c : Nat) (path : List Byte) (type : BitVec 16) (r : Int)
    (s' : State) : Prop :=
  (r = -1 ∧ During sb s s' (nodes sb s) [] []) ∨
  (r = 0 ∧ ∃ d k i nm N', resolve sb.ninodes (nodes sb s) (counts s) true c path = .found d nm ∧
    find (nodes sb s d).data nm = none ∧ Created sb (nodes sb s) N' d k i nm type ∧
    During sb s s' N' [] [])

theorem mknode_runs (Ly : Layout sb) (hS : Sound sb s) (hc : Points s cwd c) (path : List Byte)
    (htype : type ≠ 0) (hfile : type ≠ T_FILE) (major minor : BitVec 16) :
    Runs (mknode sb cwd path type major minor) s (MknodePost sb s c path type)
      (CallStop (nodes sb s)) := by
  refine Runs.bind (create_runs Ly hS hc path htype major minor) fun r t ht => ?_
  cases r with
  | none => exact Runs.bind ht.1.end_op fun _ u ⟨hu, _⟩ => Runs.pure (.inl ⟨rfl, hu⟩)
  | some ip =>
    obtain ⟨d, k, i, nm, hp, hres, ⟨_, _, h1, _⟩ | ⟨hf, N', hd, hcr⟩⟩ := ht
    · exact absurd h1 hfile
    · refine Runs.bind (hd.iunlockput hp List.not_mem_nil fun h0 => ?_) fun _ u ⟨hu, _, _⟩ =>
        Runs.bind hu.end_op fun _ w ⟨hw, _⟩ => Runs.pure (.inr ⟨rfl, d, k, i, nm, N', hres, hf, hcr, hw⟩)
      rw [hcr.nlink] at h0
      exact absurd h0 (by decide)

theorem MknodePost.rebase (h : During sb s s₁ (nodes sb s) [] []) (hc : counts s₁ = counts s)
    (hm : MknodePost sb s₁ c path type r s') : MknodePost sb s c path type r s' := by
  rw [MknodePost, h.nodes, hc] at hm
  rcases hm with ⟨h1, h2⟩ | ⟨h1, d, k, i, nm, N', h2, h3, h4, h5⟩
  · exact .inl ⟨h1, h.rebase h2⟩
  · exact .inr ⟨h1, d, k, i, nm, N', h2, h3, h4, h.rebase h5⟩

theorem begin_mknode_runs (Ly : Layout sb) (hS : Sound sb s) (hc : Points s cwd c)
    (path : List Byte) (htype : type ≠ 0) (hfile : type ≠ T_FILE)
    (major minor : BitVec 16) :
    Runs (do begin_op; mknode sb cwd path type major minor) s (MknodePost sb s c path type)
      (CallStop (nodes sb s)) := by
  refine Runs.bind (hS.begin_op.stops fun e he => ?_) fun _ s₁ ⟨hS₁, hd₁, hn₁, hc₁, hk₁, _⟩ => ?_
  · rw [he.1]
    exact ⟨by decide, fun h => by cases h⟩
  have := mknode_runs Ly hS₁ (hk₁ cwd c hc) path htype hfile major minor
  rw [hn₁] at this
  exact this.post fun r s' h => h.rebase hd₁ hc₁

theorem begin_end_runs (hS : Sound sb s) :
    Runs (do begin_op; end_op; pure (-1)) s
      (fun r s' => r = (-1 : Int) ∧ During sb s s' (nodes sb s) [] []) (CallStop (nodes sb s)) := by
  refine Runs.bind (hS.begin_op.stops fun e he => ?_) fun _ s₁ ⟨_, hd₁, _⟩ => ?_
  · rw [he.1]
    exact ⟨by decide, fun h => by cases h⟩
  · exact Runs.bind hd₁.end_op fun _ t ⟨ht, _⟩ => Runs.pure ⟨rfl, ht⟩

/-- What `sys_mkdir` and `sys_mknod` do: `path` is the path they were given, if any. -/
def MakePost (sb : Superblock) (s : State) (c : Nat) (path : Option (List Byte)) (type : BitVec 16)
    (r : Int) (s' : State) : Prop :=
  match path with
  | none => r = -1 ∧ During sb s s' (nodes sb s) [] []
  | some p => MknodePost sb s c p type r s'

theorem sys_mkdir_runs (Ly : Layout sb) (hS : Sound sb s) (hc : Points s cwd c)
    (path : Option (List Byte)) :
    Runs (sys_mkdir sb cwd path) s (MakePost sb s c path T_DIR) (CallStop (nodes sb s)) := by
  cases path with
  | none => exact begin_end_runs hS
  | some p => exact begin_mknode_runs Ly hS hc p (by decide) (by decide) 0 0

theorem sys_mknod_runs (Ly : Layout sb) (hS : Sound sb s) (hc : Points s cwd c)
    (args : Option (List Byte × BitVec 32 × BitVec 32)) :
    Runs (sys_mknod sb cwd args) s (MakePost sb s c (args.map Prod.fst) T_DEV)
      (CallStop (nodes sb s)) := by
  cases args with
  | none => exact begin_end_runs hS
  | some x =>
    obtain ⟨p, major, minor⟩ := x
    exact begin_mknode_runs Ly hS hc p (by decide) (by decide) _ _

end Xv6.Fs
