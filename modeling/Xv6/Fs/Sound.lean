import Xv6.Fs.Tree

/-! The file system between calls.

`Sound` is what holds when no call is in progress: the name space is a tree, nothing is
locked, and an inode that is allocated but not live is in use and has been read in, so
that it is freed when its last reference is dropped. -/
namespace Xv6.Fs
open Lib

variable {sb : Superblock} {s s' t : State} {N : Nat → Node} {T L : List Nat} {ip : Ptr} {d i k : Nat}

structure Sound (sb : Superblock) (s : State) : Prop where
  good : Good sb s
  tree : Tree (nodes sb s)
  range : ∀ d k i nm, Names (nodes sb s) d k i nm → i < sb.ninodes
  unlocked : ∀ i, (refs s i).locked = false
  orphan : ∀ i, (nodes sb s i).type ≠ 0 → ¬ Live (nodes sb s) i → (refs s i).valid = true
  held : ∀ i, 0 < (refs s i).count → (nodes sb s i).type ≠ 0

/-- Every entry of every directory names an allocated inode. -/
def Closed (N : Nat → Node) : Prop := ∀ d k i nm, Names N d k i nm → (N i).type ≠ 0

theorem free_nlink (sb : Superblock) (s : State) (h : (nodes sb s i).type = 0) :
    (nodes sb s i).nlink = 0 := by
  have h0 := node_type_zero.mp h
  rw [nodes, node, if_pos h0]
  rfl

/-! ### Link counts are small -/

/-- Each entry of a directory has a place of its own on the disk, so that there are not
more of them than the disk has room for. -/
theorem Good.links_le (hg : Good sb s) (i : Nat) : (links (nodes sb s) i).encard ≤ 32 * sb.size := by
  let v := view sb s.disk
  have hblock : ∀ x ∈ links (nodes sb s) i, fblock v x.1 (x.2 / 32) ≠ 0 := fun x ⟨_, nm, hn, _⟩ => by
    have h0 : (v.tab x.1).type ≠ 0 := fun h0 => isDir_ne_zero hn.1 (node_type_zero.mpr h0)
    have hlen : (nodes sb s x.1).data.length = (v.tab x.1).size.toNat := by
      rw [nodes, node, if_neg h0]
      exact length_content _ _
    have hlt := lt_of_dirent? hn.2.1
    rw [nentries, hlen] at hlt
    have hpos : DIRENT * x.2 / BSIZE = x.2 / 32 := by
      simp only [DIRENT, DIRSIZ, BSIZE]
      omega
    rw [← hpos]
    refine hg.solid.holes x.1 _ h0 ?_
    show DIRENT * x.2 < (v.tab x.1).size.toNat
    simp only [DIRENT, DIRSIZ] at hlt ⊢
    omega
  let f : Nat × Nat → Nat := fun x => fblock v x.1 (x.2 / 32) * 32 + x.2 % 32
  have hmaps : Set.MapsTo f (links (nodes sb s) i) (Finset.range (32 * sb.size)) := fun x hx => by
    have := (hg.owned.owner.inside _ (hblock x hx)).2
    rw [Finset.mem_coe, Finset.mem_range]
    show fblock v x.1 (x.2 / 32) * 32 + x.2 % 32 < 32 * sb.size
    have hb : fblock v x.1 (x.2 / 32) < sb.size := this
    omega
  have hinj : Set.InjOn f (links (nodes sb s) i) := fun x hx y hy he => by
    have he : fblock v x.1 (x.2 / 32) * 32 + x.2 % 32 = fblock v y.1 (y.2 / 32) * 32 + y.2 % 32 := he
    have hb : fblock v x.1 (x.2 / 32) = fblock v y.1 (y.2 / 32) := by omega
    have hp := hg.owned.owner.once (x.1, slot (x.2 / 32)) (y.1, slot (y.2 / 32)) (hblock x hx) hb
    rw [Prod.mk.injEq] at hp
    have hs := slot_inj hp.2
    exact Prod.ext hp.1 (by omega)
  have := Set.encard_le_encard_of_injOn hmaps hinj
  rw [Set.encard_coe_eq_coe_finsetCard, Finset.card_range] at this
  exact_mod_cast this

/-- A link count does not overflow. -/
theorem Sound.nlink_le (Ly : Layout sb) (h : Sound sb s) (i : Nat) :
    (nodes sb s i).nlink.toNat ≤ 32000 := by
  by_cases h0 : (nodes sb s i).type = 0
  · rw [free_nlink sb s h0]
    exact Nat.zero_le _
  · have hle := h.good.links_le i
    rw [h.tree.links i h0] at hle
    have hle : (nodes sb s i).nlink.toNat ≤ 32 * sb.size := by exact_mod_cast hle
    have := Ly.size
    simp only [FSSIZE] at this
    omega

/-! ### The start and the end of a call -/

theorem refs_of_icache (h : s'.icache = s.icache) : refs s' = refs s := by
  funext i
  exact refs_congr (fun q => by rw [Points, Points, h]) fun q _ => by rw [h]

theorem Good.of_icache (hg : Good sb s) (hd : s'.disk = s.disk) (hi : s'.icache = s.icache) :
    Good sb s' := by
  refine ⟨?_, ?_, ?_, ?_, ?_, ?_⟩
  all_goals first | rw [hd] | skip
  all_goals first | rw [hi] | skip
  · exact hg.owned
  · exact hg.solid
  · exact hg.sync
  · exact hg.inum
  · exact hg.once
  · exact hg.idle

namespace During
variable {s₀ : State}

theorem of_icache (h : During sb s₀ s N T L) (hd : s'.disk = s.disk) (hi : s'.icache = s.icache) :
    During sb s₀ s' N T L ∧ Stays s s' := by
  have hr := refs_of_icache hi
  have hk : Keeps s s' := fun q j hq => by rwa [Points, hi]
  refine ⟨⟨h.good.of_icache hd hi, ?_, fun i => by rw [hr]; exact h.count i,
    fun i => by rw [hr]; exact h.locked i, fun i => by rw [hr]; exact h.valid i,
    fun i => by rw [hr]; exact h.held i, h.keeps.trans hk⟩, hk, fun i => by rw [hr]; exact fun h => h,
    fun i => by rw [hr]⟩
  rw [← h.nodes, Fs.nodes, Fs.nodes, hd]

theorem rebase (h : During sb s₀ s₁ N₁ [] []) (h' : During sb s₁ s N T L) :
    During sb s₀ s N T L := by
  have := h.trans h'
  rwa [List.append_nil] at this

theorem begin_op (h : During sb s₀ s N T L) :
    Runs Fs.begin_op s
      (fun _ s' => During sb s₀ s' N T L ∧ Stays s s' ∧ s' = {s with outstanding := s.outstanding + 1})
      (fun e => e = .asleep ∧ LOGSIZE < s.lh.length + (s.outstanding + 1) * MAXOPBLOCKS) := by
  refine Runs.bind_get (Runs.ite (fun hf => Runs.throw ⟨rfl, hf⟩) fun _ => ?_)
  have hst : During sb s₀ {s with outstanding := s.outstanding + 1} N T L ∧
      Stays s {s with outstanding := s.outstanding + 1} := h.of_icache rfl rfl
  exact Runs.modify ⟨hst.1, hst.2, rfl⟩

theorem end_op (h : During sb s₀ s N T L) :
    Runs Fs.end_op s (fun _ s' => During sb s₀ s' N T L ∧ Stays s s') E :=
  Runs.modify (h.of_icache rfl rfl)

end During

namespace Sound

theorem start (h : Sound sb s) : During sb s s (nodes sb s) [] [] :=
  During.refl h.good (fun i => iff_of_false (fun hl => by rw [h.unlocked] at hl; cases hl)
    List.not_mem_nil) fun i hi => absurd hi List.not_mem_nil

theorem kept (h : Sound sb s) (h0 : (nodes sb s i).type ≠ 0) (hl : (nodes sb s i).nlink = 0) :
    0 < (refs s i).count :=
  count_pos_of_valid (h.orphan i h0 fun hlive => (h.tree.live_iff h0).mp hlive hl)

/-- A call that holds no locks can look up paths. -/
theorem steady (h : Sound sb s) (hd : During sb s t N T []) (hN : ∀ i, (N i).type = (nodes sb s i).type)
    (hdata : ∀ i, (N i).data = (nodes sb s i).data)
    (hlink : ∀ i, i ∉ T → (N i).nlink = (nodes sb s i).nlink) : Steady sb t N where
  good := hd.good
  nodes := hd.nodes
  unlocked i := hd.unlocked List.not_mem_nil
  kept i h0 hl := by
    rw [hd.count]
    by_cases hi : i ∈ T
    · have := List.count_pos_iff.mpr hi
      omega
    · rw [hN] at h0
      rw [hlink i hi] at hl
      have := h.kept h0 hl
      omega
  aligned d hd' := by
    rw [hdata]
    exact h.tree.aligned d (by rw [IsDir, ← hN]; exact hd')
  range d k i nm hd' hh := by
    rw [hdata] at hh
    exact h.range d k i nm ⟨by rw [IsDir, ← hN]; exact hd', hh⟩

theorem steady_self (h : Sound sb s) : Steady sb s (nodes sb s) :=
  h.steady h.start (fun _ => rfl) (fun _ => rfl) fun _ _ => rfl

/-- A call holds no lock, and nothing that is allocated has been lost. -/
theorem finish (h : Sound sb s) (hd : During sb s t N T []) (hT : ∀ i ∈ T, (N i).type ≠ 0) (ht : Tree N)
    (hrange : ∀ d k i nm, Names N d k i nm → i < sb.ninodes)
    (horphan : ∀ i, (N i).type ≠ 0 → ¬ Live N i →
      (refs t i).valid = true ∨ ((nodes sb s i).type ≠ 0 ∧ ¬ Live (nodes sb s) i))
    (hheld : ∀ i, (nodes sb s i).type ≠ 0 → (N i).type = 0 → (refs s i).count = 0) : Sound sb t where
  good := hd.good
  tree := by rw [hd.nodes]; exact ht
  range := by rw [hd.nodes]; exact hrange
  unlocked i := hd.unlocked List.not_mem_nil
  orphan i h0 hl := by
    rw [hd.nodes] at h0 hl
    exact (horphan i h0 hl).elim (fun h => h) fun ⟨h1, h2⟩ => hd.valid i (h.orphan i h1 h2)
  held i hc := by
    rw [hd.nodes]
    by_cases hi : i ∈ T
    · exact hT i hi
    · rw [hd.count, List.count_eq_zero_of_not_mem hi, Nat.add_zero] at hc
      intro h0
      have := hheld i (h.held i hc) h0
      omega

theorem of_during (h : Sound sb s) (hd : During sb s t (nodes sb s) T [])
    (hT : ∀ i ∈ T, (nodes sb s i).type ≠ 0) : Sound sb t :=
  h.finish hd hT h.tree h.range (fun _ h0 hl => .inr ⟨h0, hl⟩) fun _ h0 h => absurd h h0

end Sound

theorem Sound.of_icache (h : Sound sb s) (hd : s'.disk = s.disk) (hi : s'.icache = s.icache) :
    Sound sb s' := by
  have hr := refs_of_icache hi
  have hn : nodes sb s' = nodes sb s := by rw [nodes, nodes, hd]
  exact ⟨h.good.of_icache hd hi, by rw [hn]; exact h.tree, by rw [hn]; exact h.range,
    by rw [hr]; exact h.unlocked, by rw [hn, hr]; exact h.orphan, by rw [hn, hr]; exact h.held⟩

theorem Sound.begin_op (h : Sound sb s) :
    Runs Fs.begin_op s
      (fun _ t => Sound sb t ∧ During sb s t (nodes sb s) [] [] ∧ nodes sb t = nodes sb s ∧
        counts t = counts s ∧ Keeps s t ∧ t = {s with outstanding := s.outstanding + 1})
      (fun e => e = .asleep ∧ LOGSIZE < s.lh.length + (s.outstanding + 1) * MAXOPBLOCKS) := by
  refine h.start.begin_op.post fun _ t ⟨hd, hst, ht⟩ => ?_
  have hi : t.icache = s.icache := by rw [ht]
  refine ⟨h.of_icache (by rw [ht]) hi, hd, hd.nodes, ?_, hst.points, ht⟩
  funext j
  rw [counts, refs_of_icache hi]
  rfl

/-! ### Paths -/

section Paths
variable {n c : Nat} {cs : Nat → Nat} {parent : Bool} {nm last : Name} {names : List Name}
variable {path : List Byte}

theorem walk_parent_isDir (h : walk n N cs true d last names = .found i nm) : IsDir N i := by
  induction names generalizing d last with
  | nil => cases h
  | cons m rest ih =>
    rw [walk] at h
    split at h
    · cases h
    · split at h
      · cases h
      · rename_i hd
        split at h
        · cases h
          exact not_not.mp hd
        · split at h
          · cases h
          · split at h
            · cases h
            · exact ih h

theorem resolve_parent_isDir (h : resolve n N cs true c path = .found i nm) : IsDir N i := by
  rw [resolve] at h
  split at h
  · split at h
    · cases h
    · exact walk_parent_isDir h
  · exact walk_parent_isDir h

/-- A path leads to what entries lead to. -/
theorem walk_found {P : Nat → Prop} (hP : ∀ d k i nm, P d → Names N d k i nm → P i) (hd : P d)
    (h : walk n N cs parent d last names = .found i nm) : P i := by
  induction names generalizing d last with
  | nil =>
    rw [walk] at h
    split at h
    · cases h
    · cases h
      exact hd
  | cons m rest ih =>
    rw [walk] at h
    split at h
    · cases h
    · split at h
      · cases h
      · rename_i hdir
        split at h
        · cases h
          exact hd
        · split at h
          · cases h
          · rename_i k i hf
            split at h
            · cases h
            · exact ih (hP d k i m hd ⟨not_not.mp hdir, holds_of_find hf⟩) h

theorem resolve_found {P : Nat → Prop} (hP : ∀ d k i nm, P d → Names N d k i nm → P i) (hr : P ROOTINO)
    (hc : char path ≠ slash → P c) (h : resolve n N cs parent c path = .found i nm) : P i := by
  rw [resolve] at h
  split at h
  · split at h
    · cases h
    · exact walk_found hP hr h
  · rename_i hslash
    exact walk_found hP (hc hslash) h

/-- Where every entry names an allocated inode, paths lead to allocated inodes. -/
theorem walk_closed (hc : Closed N) (hd : (N d).type ≠ 0) :
    walk n N cs parent d last names ≠ .broken ∧
      ∀ i nm, walk n N cs parent d last names = .found i nm → (N i).type ≠ 0 := by
  induction names generalizing d last with
  | nil =>
    rw [walk]
    split
    · exact ⟨by decide, fun i nm h => by cases h⟩
    · refine ⟨fun h => (by cases h), fun i nm h => ?_⟩
      cases h
      exact hd
  | cons m rest ih =>
    rw [walk, if_neg hd]
    split
    · exact ⟨by decide, fun i nm h => by cases h⟩
    · rename_i hdir
      split
      · refine ⟨fun h => (by cases h), fun i nm h => ?_⟩
        cases h
        exact hd
      · split
        · exact ⟨by decide, fun i nm h => by cases h⟩
        · rename_i k i hf
          split
          · exact ⟨by decide, fun i nm h => by cases h⟩
          · exact ih (hc d k i m ⟨not_not.mp hdir, holds_of_find hf⟩)

theorem resolve_closed (hc : Closed N) (hr : (N ROOTINO).type ≠ 0) (hcwd : (N c).type ≠ 0) :
    resolve n N cs parent c path ≠ .broken ∧
      ∀ i nm, resolve n N cs parent c path = .found i nm → (N i).type ≠ 0 := by
  rw [resolve]
  split
  · split
    · exact ⟨by decide, fun i nm h => by cases h⟩
    · exact walk_closed hc hr
  · exact walk_closed hc hcwd

end Paths

/-- Why a call stops: never for a lock it holds itself, and for a free inode only when
some entry names one. -/
def CallStop (N : Nat → Node) (e : Halt) : Prop :=
  e ≠ .deadlock ∧ (e = .panic .noType → ¬ Closed N)

theorem Calm.callStop (h : Calm e) : CallStop N e := ⟨h.1, fun he => absurd he h.2⟩

theorem Sound.walkStop (h : Sound sb s) (hc : Points s cwd c)
    (he : WalkStop (resolve n (nodes sb s) cs parent c path) e) : CallStop (nodes sb s) e := by
  rcases he with ⟨rfl, hb⟩ | ⟨rfl, _⟩
  · refine ⟨by decide, fun _ hcl => ?_⟩
    exact (resolve_closed hcl (h.tree.live_type .root) (h.held c hc.count_pos)).1 hb
  · exact Calm.callStop (calm_panic (by decide))

end Xv6.Fs
