import Xv6.Fs.Link

/-! Between calls: what a call that is done leaves of the name space.

A call enters at most one name or removes at most one, and after that inodes that are not
live may be freed. A call that gives up a reference may free the inode it named. -/
namespace Xv6.Fs
open Lib Function

variable {sb : Superblock} {s s' t : State} {N N' : Nat → Node} {T : List Nat}
variable {ip cwd : Ptr} {c d i j k : Nat} {nm : Name}

/-! ### Inodes are freed -/

/-- Inodes that are not live are freed, one after the other. -/
def Swept : (Nat → Node) → (Nat → Node) → Prop := Relation.ReflTransGen fun N N' => ∃ i, Frees N N' i

theorem Swept.of_frees (h : Frees N N' i) : Swept N N' := .single ⟨i, h⟩

theorem Swept.keeps {P : (Nat → Node) → Prop} (h : Swept N N') (hN : P N)
    (hP : ∀ M M' i, Frees M M' i → P M → P M') : P N' := by
  induction h with
  | refl => exact hN
  | tail _ hs ih =>
    obtain ⟨i, hs⟩ := hs
    exact hP _ _ i hs ih

theorem Swept.eq_of_type (h : Swept N N') (hj : (N' j).type ≠ 0) : N' j = N j := by
  refine h.keeps (P := fun M => (M j).type ≠ 0 → M j = N j) (fun _ => rfl) (fun M M' i hf ih h0 => ?_) hj
  have hi : j ≠ i := fun he => h0 (by rw [he, hf.free]; rfl)
  rw [hf.other j hi] at h0 ⊢
  exact ih h0

/-! ### A reference is given up -/

/-- The sound states whose inodes are those of `N`, but for some that have been freed. -/
def SoundFrom (sb : Superblock) (N : Nat → Node) (s : State) : Prop := Sound sb s ∧ Swept N (nodes sb s)

theorem Sound.from_self (h : Sound sb s) : SoundFrom sb (nodes sb s) s := ⟨h, .refl⟩

theorem Sound.from_eq (h : Sound sb s) (hn : nodes sb s = N) : SoundFrom sb N s := hn ▸ h.from_self

/-- `iput` by a process that had the reference. -/
theorem Sound.iput (Ly : Layout sb) (h : Sound sb s) (hp : Points s ip i) :
    Runs (Fs.iput sb ip) s
      (fun _ s' => Sound sb s' ∧ (nodes sb s' = nodes sb s ∨ Frees (nodes sb s) (nodes sb s') i))
      Calm := by
  by_cases hk : Doomed sb s i
  · -- the last reference to an inode without links
    refine (iput_free_runs Ly h.good hp (h.unlocked i) hk).mono
      (fun _ s' ⟨hg, _, _, hn, hr, _⟩ => ?_) fun _ he => he.calm
    have h0 : (nodes sb s i).type ≠ 0 := h.held i hp.count_pos
    have hf : Frees (nodes sb s) (nodes sb s') i :=
      ⟨fun hl => (h.tree.live_iff h0).mp hl hk.2.1, by rw [hn, update_self],
        fun j hj => by rw [hn, update_of_ne hj]⟩
    have hrefs : ∀ j, j ≠ i → refs s' j = refs s j := fun j hj => by rw [hr, update_of_ne hj]
    have hself : refs s' i = .none := by rw [hr, update_self]
    refine ⟨⟨hg, hf.tree h.tree, fun d k j nm hn => h.range d k j nm (hf.names_iff.mp hn).1, fun j => ?_,
      fun j hj hl => ?_, fun j hj => ?_⟩, .inr hf⟩
    · by_cases hji : j = i
      · rw [hji, hself]
        rfl
      · rw [hrefs j hji]
        exact h.unlocked j
    · have hji : j ≠ i := fun he => hj (by rw [he, hf.free]; rfl)
      rw [hf.other j hji] at hj
      rw [hrefs j hji]
      exact h.orphan j hj fun hlive => hl (hf.live_iff.mpr hlive)
    · have hji : j ≠ i := fun he => by
        rw [he, hself] at hj
        exact absurd hj (Nat.lt_irrefl 0)
      rw [hrefs j hji] at hj
      rw [hf.other j hji]
      exact h.held j hj
  · refine (iput_keep_runs h.good hp (h.unlocked i) hk).post fun _ s' ⟨hg, hq, _, hr⟩ => ?_
    have hrefs : ∀ j, j ≠ i → refs s' j = refs s j := fun j hj => by rw [hr, update_of_ne hj]
    have hself : refs s' i = (refs s i).dec := by rw [hr, update_self]
    refine ⟨⟨hg, by rw [hq.nodes]; exact h.tree, by rw [hq.nodes]; exact h.range, fun j => ?_,
      fun j hj hl => ?_, fun j hj => ?_⟩, .inl hq.nodes⟩
    · by_cases hji : j = i
      · rw [hji, hself, Ref.dec]
        split
        · rfl
        · exact h.unlocked i
      · rw [hrefs j hji]
        exact h.unlocked j
    · rw [hq.nodes] at hj hl
      have hv := h.orphan j hj hl
      by_cases hji : j = i
      · -- another reference is left
        rw [hji] at hv hj hl ⊢
        have h1 : (refs s i).count ≠ 1 := fun h1 =>
          hk ⟨hv, not_not.mp fun h0 => hl ((h.tree.live_iff hj).mpr h0), h1⟩
        rw [hself, Ref.dec, if_neg h1]
        exact hv
      · rw [hrefs j hji]
        exact hv
    · rw [hq.nodes]
      by_cases hji : j = i
      · rw [hji]
        exact h.held i hp.count_pos
      · rw [hrefs j hji] at hj
        exact h.held j hj

theorem SoundFrom.iput (Ly : Layout sb) (h : SoundFrom sb N s) (hp : Points s ip i) :
    Runs (Fs.iput sb ip) s (fun _ s' => SoundFrom sb N s') Calm := by
  refine (h.1.iput Ly hp).post fun _ s' ⟨hs, hn⟩ => ⟨hs, ?_⟩
  obtain hn | hn := hn
  · rw [hn]
    exact h.2
  · exact h.2.tail ⟨i, hn⟩

theorem SoundFrom.of_icache (h : SoundFrom sb N s) (hd : s'.disk = s.disk) (hi : s'.icache = s.icache) :
    SoundFrom sb N s' := by
  refine ⟨h.1.of_icache hd hi, ?_⟩
  rw [show nodes sb s' = nodes sb s by rw [nodes, nodes, hd]]
  exact h.2

theorem SoundFrom.begin_op (h : SoundFrom sb N s) :
    Runs Fs.begin_op s
      (fun _ s' => SoundFrom sb N s' ∧ s' = {s with outstanding := s.outstanding + 1}) Calm := by
  refine Runs.bind_get (Runs.ite (fun _ => Runs.throw ⟨nofun, nofun⟩) fun _ => ?_)
  exact Runs.modify ⟨h.of_icache rfl rfl, rfl⟩

theorem SoundFrom.end_op (h : SoundFrom sb N s) :
    Runs Fs.end_op s (fun _ s' => SoundFrom sb N s') E :=
  Runs.modify (h.of_icache rfl rfl)

theorem SoundFrom.release (Ly : Layout sb) (h : SoundFrom sb N s) (hp : 0 < (s.icache ip).ref) :
    Runs (do Fs.begin_op; Fs.iput sb ip; Fs.end_op) s (fun _ s' => SoundFrom sb N s') Calm := by
  refine Runs.bind h.begin_op fun _ t ⟨ht, he⟩ => ?_
  have hpt : Points t ip (s.icache ip).inum := by
    rw [he]
    exact ⟨hp, rfl⟩
  exact Runs.bind (ht.iput Ly hpt) fun _ u hu => hu.end_op

/-! ### A name is entered or removed -/

/-- `nm` has become a name of inode `i` in directory `d`. -/
structure Entered (N N' : Nat → Node) (d i : Nat) (nm : Name) : Prop where
  edit : ∃ k, Adds N N' d k i nm ∨ Makes N N' d k i nm
  fields : (N i).type ≠ 0 → N' i = {N i with nlink := (N' i).nlink}

theorem Created.entered (h : Created sb N N' d k i nm type) (hl : Live N d) :
    Entered N N' d i nm := by
  refine ⟨⟨k, ?_⟩, fun h0 => absurd h.free h0⟩
  by_cases ht : type = T_DIR
  · exact .inr (h.makes hl ht)
  · exact .inl (h.adds hl ht)

theorem Linked.entered (h : Linked N N' d k i nm) (hl : Live N d) : Entered N N' d i nm :=
  ⟨⟨k, .inl (h.adds hl)⟩, fun _ => h.fields⟩

namespace Entered
variable (h : Entered N N' d i nm)
include h

theorem tree (t : Tree N) : Tree N' := by
  obtain ⟨k, h | h⟩ := h.edit
  · exact h.tree t
  · exact h.tree t

theorem live_iff : Live N' j ↔ Live N j ∨ j = i := by
  obtain ⟨k, h | h⟩ := h.edit
  · exact h.live_iff
  · exact h.live_iff

theorem live : Live N d := by
  obtain ⟨k, h | h⟩ := h.edit
  · exact h.live
  · exact h.live

theorem dir : IsDir N d := by
  obtain ⟨k, h | h⟩ := h.edit
  · exact h.dir
  · exact h.dir

theorem type_ne_zero (h0 : (N j).type ≠ 0) : (N' j).type ≠ 0 := by
  obtain ⟨k, h | h⟩ := h.edit
  · exact h.type_ne_zero h0
  · by_cases hd : j = d
    · rw [hd, h.dirFields]
      exact isDir_ne_zero h.dir
    · by_cases hi : j = i
      · rw [hi]
        exact isDir_ne_zero h.type
      · rw [h.other j hd hi]
        exact h0

theorem type_of (h0 : (N' j).type ≠ 0) (hi : j ≠ i) : (N j).type ≠ 0 := by
  obtain ⟨k, h | h⟩ := h.edit
  · by_cases hd : j = d
    · rw [hd]
      exact isDir_ne_zero h.dir
    · rwa [h.other j hd hi] at h0
  · by_cases hd : j = d
    · rw [hd]
      exact isDir_ne_zero h.dir
    · rwa [h.other j hd hi] at h0

theorem range (hi : i < n) (hd : d < n) (hr : ∀ x l y m, Names N x l y m → y < n)
    (hn : Names N' x l y m) : y < n := by
  obtain ⟨k, h | h⟩ := h.edit
  · obtain hn | ⟨-, -, rfl, -⟩ := h.names_iff.mp hn
    · exact hr _ _ _ _ hn
    · exact hi
  · by_cases hx : x = i
    · subst hx
      obtain ⟨-, rfl, -⟩ | ⟨-, rfl, -⟩ := h.names_self.mp hn
      · exact hi
      · exact hd
    · obtain hn | ⟨-, -, rfl, -⟩ := (h.names_other hx).mp hn
      · exact hr _ _ _ _ hn
      · exact hi

end Entered

theorem Sound.enter (h : Sound sb s) (hd : During sb s t N' T []) (he : Entered (nodes sb s) N' d i nm)
    (hi : i < sb.ninodes) (hT : ∀ j ∈ T, j = i ∨ (nodes sb s j).type ≠ 0) : Sound sb t := by
  have hlive : Live N' i := he.live_iff.mpr (.inr rfl)
  have ht := he.tree h.tree
  refine h.finish hd (fun j hj => ?_) ht (fun x l y m hn => ?_) (fun j hj hl => .inr ?_) fun j hj h0 => ?_
  · obtain rfl | hj := hT j hj
    · exact ht.live_type hlive
    · exact he.type_ne_zero hj
  · exact he.range hi (h.range d 0 d dot (h.tree.self d he.dir)) h.range hn
  · have hji : j ≠ i := fun hc => hl (hc ▸ hlive)
    exact ⟨he.type_of hj hji, fun hc => hl (he.live_iff.mpr (.inl hc))⟩
  · exact absurd h0 (he.type_ne_zero hj)

theorem Sound.remove (h : Sound sb s) (hu : Unlinked sb s (nodes sb s) d k i nm t) :
    Sound sb t ∧ ∃ N₁, Removes (nodes sb s) N₁ d k i nm ∧ Swept N₁ (nodes sb t) := by
  obtain ⟨N₁, hr, hu⟩ := hu
  have hnames : ∀ x l y m, Names N₁ x l y m → y < sb.ninodes := fun x l y m hn =>
    h.range x l y m (hr.names_iff.mp hn).1
  have hlive : ∀ {j}, j ≠ i → ¬ Live N₁ j → ¬ Live (nodes sb s) j := fun hji hl hc =>
    hl (hr.live_keep h.tree hc hji)
  obtain ⟨hd, hv⟩ | ⟨hcount, N₂, hf, hd⟩ := hu
  · refine ⟨h.finish hd nofun (hr.tree h.tree) hnames (fun j hj hl => ?_) fun j hj h0 => ?_, N₁, hr, ?_⟩
    · by_cases hji : j = i
      · exact .inl (hji ▸ hv (hji ▸ hl))
      · rw [hr.type_eq] at hj
        exact .inr ⟨hj, hlive hji hl⟩
    · rw [hr.type_eq] at h0
      exact absurd h0 hj
    · rw [hd.nodes]
      exact .refl
  · refine ⟨h.finish hd nofun (hf.tree (hr.tree h.tree)) (fun x l y m hn => ?_) (fun j hj hl => .inr ?_)
      fun j hj h0 => ?_, N₁, hr, ?_⟩
    · exact hnames x l y m (hf.names_iff.mp hn).1
    · have hji : j ≠ i := fun he => hj (by rw [he, hf.free]; rfl)
      rw [hf.other j hji, hr.type_eq] at hj
      exact ⟨hj, hlive hji fun hc => hl (hf.live_iff.mpr hc)⟩
    · by_cases hji : j = i
      · rw [hji]
        exact hcount
      · rw [hf.other j hji, hr.type_eq] at h0
        exact absurd h0 hj
    · rw [hd.nodes]
      exact .of_frees hf

end Xv6.Fs
