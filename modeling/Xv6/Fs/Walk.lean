import Xv6.Fs.During
import Xv6.Fs.Names

/-! Looking up names and paths.

`walk` is what `namex` finds, as a function of the inodes: it follows the names from
directory to directory. `namex_runs` says that `namex` answers as `walk` does, and ends
with the references it began with and one to the inode it answers. -/
namespace Xv6.Fs
open Lib List

variable {sb : Superblock} {s₀ s s' : State} {N : Nat → Node} {T L : List Nat}
variable {dp ip : Ptr} {d i k : Nat} {nm : List Byte}

theorem Good.length_le (hg : Good sb s) (i : Nat) : (nodes sb s i).data.length ≤ MAXFILE * BSIZE := by
  rw [nodes, node]
  split
  · exact Nat.zero_le _
  · rename_i h0
    rw [length_content]
    exact hg.solid.size i h0

/-- A directory that the call has locked. -/
structure LockedDir (sb : Superblock) (s : State) (N : Nat → Node) (dp : Ptr) (d : Nat) : Prop where
  good : Good sb s
  nodes : nodes sb s = N
  points : Points s dp d
  valid : (refs s d).valid = true
  type : (N d).type = T_DIR
  aligned : (N d).data.length % DIRENT = 0

namespace LockedDir

theorem type_eq (h : LockedDir sb s N dp d) : (s.icache dp).d.type = T_DIR := by
  rw [h.good.type_eq h.points h.valid, h.nodes, h.type]

theorem size_eq (h : LockedDir sb s N dp d) : (s.icache dp).d.size.toNat = (N d).data.length := by
  rw [h.good.size_eq h.points h.valid, h.nodes]

/-- The loops over entries end at the last one. -/
theorem size_le_iff (h : LockedDir sb s N dp d) :
    (s.icache dp).d.size.toNat ≤ DIRENT * k ↔ nentries (N d).data ≤ k := by
  have := h.aligned
  rw [h.size_eq, nentries]
  simp only [DIRENT, DIRSIZ] at *
  omega

theorem fuel (h : LockedDir sb s N dp d) :
    nentries (N d).data - k < (s.icache dp).d.size.toNat / DIRENT + 1 := by
  rw [h.size_eq]
  exact Nat.lt_succ_of_le (Nat.sub_le _ _)

theorem readDirent (Ly : Layout sb) (h : LockedDir sb s N dp d) (hk : k < nentries (N d).data) :
    Runs (Fs.readDirent sb dp (DIRENT * k) p) s (fun de t => de = deAt (N d).data k ∧ t = s) E := by
  have hv : (s.icache dp).valid = true := by rw [h.good.valid_eq h.points, h.valid]
  have hlen := h.good.length_le d
  rw [h.nodes] at hlen
  have hle : DIRENT * k + DIRENT ≤ (N d).data.length := by
    rw [nentries] at hk
    simp only [DIRENT, DIRSIZ] at *
    omega
  have hoff : DIRENT * k + DIRENT < 2 ^ 32 := by
    simp only [MAXFILE, NDIRECT, NINDIRECT, BSIZE, DIRENT, DIRSIZ] at *
    omega
  refine Runs.bind (readi_node_runs Ly h.good h.points hv (by rw [h.nodes, h.type]; decide)
    (by omega) (by decide)) fun r t hread => ?_
  obtain ⟨hr, ht⟩ := hread
  rw [h.nodes, if_neg (by omega)] at hr
  rw [hr, ht]
  exact Runs.ite (fun hne => absurd (length_deAt hk) hne) fun _ => Runs.pure ⟨rfl, rfl⟩

end LockedDir

theorem During.lockedDir (h : During sb s₀ s N T L) (hp : Points s dp d) (hd : d ∈ L)
    (ht : (N d).type = T_DIR) (ha : (N d).data.length % DIRENT = 0) : LockedDir sb s N dp d :=
  ⟨h.good, h.nodes, hp, h.held d hd, ht, ha⟩

/-! ### `dirlookup` -/

/-- What `dirlookup` answers, when the entry looked for is `found`. -/
def Looked (sb : Superblock) (s₀ s : State) (N : Nat → Node) (T L : List Nat)
    (found : Option (Nat × Nat)) (r : Option (Ptr × Nat)) (s' : State) : Prop :=
  match found with
  | none => r = none ∧ s' = s
  | some (k, i) => ∃ ip, r = some (ip, DIRENT * k) ∧ During sb s₀ s' N (i :: T) L ∧ Quiet s s' ∧
      Stays s s' ∧ Points s' ip i ∧ ¬ CacheFull s i

/-- Why `dirlookup` stops. -/
def LookStop (s : State) (found : Option (Nat × Nat)) (e : Halt) : Prop :=
  e = .panic .iget ∧ ∃ x, found = some x ∧ CacheFull s x.2

theorem dirlookup_from_runs (Ly : Layout sb) (h : During sb s₀ s N T L) (hd : LockedDir sb s N dp d)
    (hin : ∀ k i nm, Holds (N d).data k i nm → i < sb.ninodes)
    (hf : nentries (N d).data - k < fuel) :
    Runs (dirlookup_from sb dp nm fuel (DIRENT * k)) s
      (Looked sb s₀ s N T L
        ((List.range' k (nentries (N d).data - k)).findSome? (hit (N d).data (name nm))))
      (LookStop s
        ((List.range' k (nentries (N d).data - k)).findSome? (hit (N d).data (name nm)))) := by
  induction fuel generalizing k with
  | zero => exact absurd hf (Nat.not_lt_zero _)
  | succ fuel ih =>
    refine bind_inode (Runs.ite (fun hle => ?_) fun hlt => ?_)
    · rw [hd.size_le_iff] at hle
      rw [Nat.sub_eq_zero_of_le hle]
      exact Runs.pure ⟨rfl, rfl⟩
    · rw [hd.size_le_iff, Nat.not_le] at hlt
      refine Runs.bind (hd.readDirent Ly hlt) fun de t ⟨hde, ht⟩ => ?_
      rw [hde, ht]
      have hrange : List.range' k (nentries (N d).data - k) =
          k :: List.range' (k + 1) (nentries (N d).data - (k + 1)) := by
        rw [show nentries (N d).data - k = nentries (N d).data - (k + 1) + 1 by omega,
          List.range'_succ]
      have hent := dirent?_of_lt hlt
      have hnext : DIRENT * k + DIRENT = DIRENT * (k + 1) := by rw [Nat.mul_succ]
      rw [hrange, List.findSome?_cons]
      by_cases hhit : (deInum (deAt (N d).data k)).toNat ≠ 0 ∧ name (deName (deAt (N d).data k)) = name nm
      · have hh : Holds (N d).data k (deInum (deAt (N d).data k)).toNat (name nm) :=
          ⟨by rw [hent, Entry.read, hhit.2], hhit.1⟩
        have hhit' : hit (N d).data (name nm) k = some (k, (deInum (deAt (N d).data k)).toNat) :=
          hit_eq_some.mpr ⟨hh, rfl⟩
        rw [if_neg (toNat_ne_zero.mp hhit.1), if_pos ((namecmp_eq_zero _ _).mpr hhit.2.symm), hhit',
          hd.good.dev_eq hd.points]
        refine Runs.bind ((h.iget (hin k _ _ hh)).stops fun e he => ⟨he.1, _, rfl, he.2⟩)
          fun ip u hu => Runs.pure ⟨ip, rfl, hu⟩
      · have hmiss : hit (N d).data (name nm) k = none := by
          rw [hit, hent]
          exact if_neg hhit
        rw [hmiss, hnext]
        have hrest := ih (k := k + 1) (by omega)
        by_cases hz : deInum (deAt (N d).data k) = 0
        · rw [if_pos hz]
          exact hrest
        · rw [if_neg hz, if_neg fun hc => hhit ⟨toNat_ne_zero.mpr hz, ((namecmp_eq_zero _ _).mp hc).symm⟩]
          exact hrest

theorem dirlookup_runs (Ly : Layout sb) (h : During sb s₀ s N T L) (hd : LockedDir sb s N dp d)
    (hin : ∀ k i nm, Holds (N d).data k i nm → i < sb.ninodes) :
    Runs (dirlookup sb dp nm) s (Looked sb s₀ s N T L (find (N d).data (name nm)))
      (LookStop s (find (N d).data (name nm))) := by
  refine bind_inode ?_
  rw [if_neg (not_not.mpr hd.type_eq), find, range_eq_range']
  exact dirlookup_from_runs (k := 0) Ly h hd hin hd.fuel

/-! ### The room in the cache -/

/-- The references to each inode. -/
def counts (s : State) : Nat → Nat := fun j => (refs s j).count

/-- Another inode does not fit in the cache when inode `j` has `c j` references, and
inode `i` has none. -/
def noRoom (n : Nat) (c : Nat → Nat) (i : Nat) : Bool :=
  c i = 0 && NINODE ≤ ((Finset.range n).filter fun j => 0 < c j).card

theorem cacheFull_iff (hg : Good sb s) :
    CacheFull s i ↔ noRoom sb.ninodes (counts s) i = true := by
  have himage : ((Finset.univ : Finset Ptr).filter fun q => 0 < (s.icache q).ref).image
      (fun q => (s.icache q).inum) =
      (Finset.range sb.ninodes).filter fun j => 0 < counts s j := by
    ext j
    rw [Finset.mem_image, Finset.mem_filter, Finset.mem_range, counts, ← hg.points_iff]
    constructor
    · rintro ⟨q, hq, rfl⟩
      have hq := (Finset.mem_filter.mp hq).2
      exact ⟨(hg.inum q hq).2, q, hq, rfl⟩
    · rintro ⟨_, q, hq, hj⟩
      exact ⟨q, Finset.mem_filter.mpr ⟨Finset.mem_univ q, hq⟩, hj⟩
  have hcard : ((Finset.range sb.ninodes).filter fun j => 0 < counts s j).card =
      ((Finset.univ : Finset Ptr).filter fun q => 0 < (s.icache q).ref).card := by
    rw [← himage]
    refine Finset.card_image_of_injOn fun p hp q hq he => hg.once p q ?_ ?_ he
    · exact (Finset.mem_filter.mp hp).2
    · exact (Finset.mem_filter.mp hq).2
  rw [CacheFull, noRoom, Bool.and_eq_true, decide_eq_true_eq, decide_eq_true_eq, hcard, and_comm]
  refine and_congr_right fun _ => ⟨fun h => ?_, fun h q => ?_⟩
  · rw [Finset.filter_true_of_mem fun q _ => h q, Finset.card_univ, Fintype.card_fin]
  · have := Finset.eq_univ_of_card _ (Nat.le_antisymm (Finset.card_le_univ _)
      (by rw [Fintype.card_fin]; exact h))
    have hq : q ∈ (Finset.univ : Finset Ptr).filter fun q => 0 < (s.icache q).ref := by
      rw [this]
      exact Finset.mem_univ q
    exact (Finset.mem_filter.mp hq).2

/-! ### `namex` -/

/-- How a path lookup ends. -/
inductive Walk where
  /-- At inode `i`; `last` is the last name taken from the path. -/
  | found (i : Nat) (last : Name)
  | missing
  /-- At an inode that is not allocated. -/
  | broken
  /-- For want of room in the inode cache. -/
  | full
deriving DecidableEq

/-- One more reference to inode `d`. -/
def plus (c : Nat → Nat) (d : Nat) : Nat → Nat := Function.update c d (c d + 1)

/-- Follow names from inode `d` on, or, for a parent, all of them but the last. -/
def walk (n : Nat) (N : Nat → Node) (c : Nat → Nat) (parent : Bool) : Nat → Name → List Name → Walk
  | d, last, [] => if parent then .missing else .found d last
  | d, _, nm :: rest =>
    if (N d).type = 0 then .broken
    else if (N d).type ≠ T_DIR then .missing
    else if parent = true ∧ rest = [] then .found d nm
    else
      match find (N d).data nm with
      | none => .missing
      | some (_, i) => if noRoom n (plus c d) i then .full else walk n N c parent i nm rest

/-- Follow a path, in a process whose current directory is inode `cwd`. -/
def resolve (n : Nat) (N : Nat → Node) (c : Nat → Nat) (parent : Bool) (cwd : Nat)
    (path : List Byte) : Walk :=
  let names := elems (path.length + 1) path
  if char path = slash then
    if noRoom n c ROOTINO then .full else walk n N c parent ROOTINO [] names
  else walk n N c parent cwd [] names

/-- What a lookup needs of the state it starts from. -/
structure Steady (sb : Superblock) (s : State) (N : Nat → Node) : Prop where
  good : Good sb s
  nodes : nodes sb s = N
  unlocked : ∀ i, (refs s i).locked = false
  /-- An inode without links is there because it is in use. -/
  kept : ∀ i, (N i).type ≠ 0 → (N i).nlink = 0 → 0 < (refs s i).count
  aligned : ∀ d, (N d).type = T_DIR → (N d).data.length % DIRENT = 0
  range : ∀ d k i nm, (N d).type = T_DIR → Holds (N d).data k i nm → i < sb.ninodes

/-- What `namex` answers, when the path leads to `w`. -/
def Walked (sb : Superblock) (s₀ : State) (N : Nat → Node) (w : Walk)
    (r : Option (Ptr × List Byte)) (s' : State) : Prop :=
  Quiet s₀ s' ∧
  match w with
  | .found i last => ∃ ip nm, r = some (ip, nm) ∧ name nm = last ∧ During sb s₀ s' N [i] [] ∧
      Points s' ip i
  | .missing => r = none ∧ During sb s₀ s' N [] []
  | _ => False

/-- Why `namex` stops. -/
def WalkStop (w : Walk) (e : Halt) : Prop :=
  (e = .panic .noType ∧ w = .broken) ∨ (e = .panic .iget ∧ w = .full)

theorem During.counts_eq (h : During sb s₀ s N [d] L) : counts s = plus (counts s₀) d := by
  funext j
  rw [counts, h.count, plus]
  by_cases hj : j = d
  · rw [hj, Function.update_self, count_singleton_self]
    rfl
  · rw [Function.update_of_ne hj, count_singleton, if_neg (by simpa using Ne.symm hj)]
    rfl

theorem elems_eq_nil (hf : path.length < fuel) :
    elems fuel path = [] ↔ skipelem path = none := by
  cases fuel with
  | zero => exact absurd hf (Nat.not_lt_zero _)
  | succ fuel =>
    rw [elems]
    split
    · rename_i h
      exact iff_of_true rfl h
    · rename_i h
      refine iff_of_false (fun h => by cases h) fun h' => ?_
      rw [h] at h'
      cases h'

theorem namex_from_runs (Ly : Layout sb) (St : Steady sb s₀ N)
    (hf : path.length < fuel) (h : During sb s₀ s N [d] []) (hq : Quiet s₀ s)
    (hp : Points s ip d)
    (hstart : parent = true → skipelem path = none → (N d).nlink = 0 → 0 < (refs s₀ d).count) :
    Runs (namex_from sb parent fuel ip path nm) s
      (Walked sb s₀ N (walk sb.ninodes N (counts s₀) parent d (name nm) (elems fuel path)))
      (WalkStop (walk sb.ninodes N (counts s₀) parent d (name nm) (elems fuel path))) := by
  induction fuel generalizing s ip d nm path with
  | zero => exact absurd hf (Nat.not_lt_zero _)
  | succ fuel ih =>
    rw [namex_from, elems]
    cases hs : skipelem path with
    | none =>
      rw [walk]
      cases parent with
      | true =>
        refine Runs.bind (h.iput hp (not_mem_nil) fun h0 => .inl (hstart rfl hs h0))
          fun _ t ⟨ht, _, hqt⟩ => Runs.pure ⟨hq.trans hqt, rfl, ht⟩
      | false => exact Runs.pure ⟨hq, ip, nm, rfl, rfl, h, hp⟩
    | some x =>
      obtain ⟨elem, rest⟩ := x
      have hrest : rest.length < fuel := Nat.lt_of_lt_of_le (length_skipelem hs) (Nat.le_of_lt_succ hf)
      have hlast : char rest = 0 ↔ elems fuel rest = [] := by
        rw [char_skipelem hs, elems_eq_nil hrest]
      rw [walk]
      refine Runs.bind ((h.ilock Ly hp).stops fun e he => ?_) fun _ t ⟨ht, hqt, hst, _, h0⟩ => ?_
      · rcases he with ⟨_, he⟩ | ⟨he, h0⟩
        · cases he
        · rw [if_pos h0]
          exact .inl ⟨he, rfl⟩
      · rw [if_neg h0]
        have hpt := hst.points ip d hp
        have hvt := ht.held d (mem_cons_self ..)
        have hkd : (N d).nlink = 0 → 0 < (refs s₀ d).count ∨ d ∈ ([] : List Nat) := fun hz =>
          .inl (St.kept d h0 hz)
        have htype : (t.icache ip).d.type = (N d).type := by
          rw [ht.good.type_eq hpt hvt, ht.nodes]
        -- drop the directory and give up
        have hdrop : ∀ {α : Type} {a : α} {E : Halt → Prop} {Q : α → State → Prop},
            (∀ u, During sb s₀ u N [] [] → Quiet s₀ u → Q a u) →
            Runs (do iunlockput sb ip; pure a) t Q E := fun hQ =>
          Runs.bind (ht.iunlockput hpt not_mem_nil hkd) fun _ u ⟨hu, _, hqu⟩ =>
            Runs.pure (hQ u hu ((hq.trans hqt).trans hqu))
        refine bind_inode ?_
        rw [htype]
        by_cases hdir : (N d).type = T_DIR
        · rw [if_neg (not_not.mpr hdir), if_neg (not_not.mpr hdir)]
          by_cases hpar : parent = true ∧ char rest = 0
          · rw [if_pos hpar, if_pos ⟨hpar.1, hlast.mp hpar.2⟩]
            exact Runs.bind (ht.iunlock hpt not_mem_nil) fun _ u ⟨hu, hqu, hsu⟩ =>
              Runs.pure ⟨(hq.trans hqt).trans hqu, ip, elem, rfl, rfl, hu, hsu.points ip d hpt⟩
          · rw [if_neg hpar, if_neg fun hc => hpar ⟨hc.1, hlast.mpr hc.2⟩]
            have hld := ht.lockedDir hpt (mem_cons_self ..) hdir (St.aligned d hdir)
            have hfull : ∀ i, CacheFull t i ↔ noRoom sb.ninodes (plus (counts s₀) d) i = true :=
              fun i => by
                rw [cacheFull_iff ht.good, ← ht.counts_eq]
            refine Runs.bind ((dirlookup_runs Ly ht hld fun k i nm => St.range d k i nm hdir).stops
              fun e ⟨he, ⟨k, i⟩, hx, hfx⟩ => ?_) fun r u hu => ?_
            · have hno : noRoom sb.ninodes (plus (counts s₀) d) i = true := (hfull i).mp hfx
              simp only [hx, hno]
              exact .inr ⟨he, rfl⟩
            · cases hfind : find (N d).data (name elem) with
              | none =>
                rw [hfind] at hu
                obtain ⟨hr, hut⟩ : r = none ∧ u = t := hu
                rw [hr, hut]
                exact hdrop fun u hu hqu => ⟨hqu, rfl, hu⟩
              | some x =>
                obtain ⟨k, i⟩ := x
                rw [hfind] at hu
                obtain ⟨next, hr, hdu, hqu, hsu, hpu, hroom⟩ := hu
                have hno : ¬ noRoom sb.ninodes (plus (counts s₀) d) i = true := fun hc =>
                  hroom ((hfull i).mpr hc)
                rw [hr]
                simp only [hno]
                have hpd := hsu.points ip d hpt
                refine Runs.bind (hdu.swap_refs.iunlockput hpd not_mem_nil fun hz =>
                  (hkd hz).imp_right fun h => absurd h not_mem_nil) fun _ w ⟨hw, hsw, hqw⟩ => ?_
                refine ih hrest hw (((hq.trans hqt).trans hqu).trans hqw)
                  (hsw.points next i hpu fun he => ?_) fun hpt hsk =>
                    absurd ⟨hpt, (char_skipelem hs).mpr hsk⟩ hpar
                rw [hdu.count, he, count_cons_self, count_singleton_self]
                omega
        · rw [if_pos hdir, if_pos hdir]
          exact hdrop fun u hu hqu => ⟨hqu, rfl, hu⟩

theorem Steady.start (St : Steady sb s N) : During sb s s N [] [] := by
  rw [← St.nodes]
  exact During.refl St.good
    (fun i => iff_of_false (fun h => by rw [St.unlocked] at h; cases h) not_mem_nil)
    fun i hi => absurd hi not_mem_nil

theorem namex_runs (Ly : Layout sb) (St : Steady sb s N) (hc : Points s cwd c)
    (hroot : (N ROOTINO).type ≠ 0) (path : List Byte) (parent : Bool) :
    Runs (namex sb cwd path parent) s
      (Walked sb s N (resolve sb.ninodes N (counts s) parent c path))
      (WalkStop (resolve sb.ninodes N (counts s) parent c path)) := by
  have hd := St.start
  have hf : path.length < path.length + 1 := Nat.lt_succ_self _
  rw [namex, resolve]
  by_cases hs : char path = slash
  · simp only [if_pos hs]
    refine Runs.bind ((hd.iget Ly.root).stops fun e he => ?_) fun ip t ⟨ht, hq, _, hp, hroom⟩ => ?_
    · rw [if_pos ((cacheFull_iff St.good).mp he.2)]
      exact .inr ⟨he.1, rfl⟩
    · rw [if_neg fun h => hroom ((cacheFull_iff St.good).mpr h)]
      exact namex_from_runs Ly St hf ht hq hp fun _ _ => St.kept ROOTINO hroot
  · simp only [if_neg hs]
    refine Runs.bind (hd.idup hc) fun ip t ⟨he, ht, hq, hst⟩ => ?_
    rw [he]
    exact namex_from_runs Ly St hf ht hq (hst.points cwd c hc) fun _ _ _ => hc.count_pos

theorem namei_runs (Ly : Layout sb) (St : Steady sb s N) (hc : Points s cwd c)
    (hroot : (N ROOTINO).type ≠ 0) (path : List Byte) :
    Runs (namei sb cwd path) s
      (fun r s' => ∃ x, Walked sb s N (resolve sb.ninodes N (counts s) false c path) x s' ∧
        r = x.map Prod.fst)
      (WalkStop (resolve sb.ninodes N (counts s) false c path)) :=
  Runs.bind (namex_runs Ly St hc hroot path false) fun x _ hx => Runs.pure ⟨x, hx, rfl⟩

end Xv6.Fs
