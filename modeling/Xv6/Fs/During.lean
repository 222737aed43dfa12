import Xv6.Fs.Files

/-! A file system call in progress.

`During sb s₀ s N T L` says that a call that began in `s₀` has come to `s`: the inodes
are now `N`, and the call holds the references `T` and the locks `L` beyond the references
that were there when it began, all of which are still there. Every function that only
takes references for itself has a specification of this form with its own start as
`s₀`, and `During.trans` puts the specifications together. -/
namespace Xv6.Fs
open Lib Function List

variable {sb : Superblock} {s₀ s s' : State} {N N' : Nat → Node} {T T' L L' : List Nat}
variable {ip : Ptr} {i j : Nat}

structure During (sb : Superblock) (s₀ s : State) (N : Nat → Node) (T L : List Nat) : Prop where
  good : Good sb s
  nodes : nodes sb s = N
  count : ∀ i, (refs s i).count = (refs s₀ i).count + T.count i
  locked : ∀ i, (refs s i).locked = true ↔ i ∈ L
  valid : ∀ i, (refs s₀ i).valid = true → (refs s i).valid = true
  held : ∀ i ∈ L, (refs s i).valid = true
  keeps : Keeps s₀ s

/-- References stay, and what is read in. -/
structure Stays (s s' : State) : Prop where
  points : Keeps s s'
  valid : ∀ j, (refs s j).valid = true → (refs s' j).valid = true
  count : ∀ j, (refs s j).count ≤ (refs s' j).count

/-- The same, but for one reference to inode `i`. -/
structure StaysBut (i : Nat) (s s' : State) : Prop where
  points : KeepsBut i s s'
  valid : ∀ j, (refs s j).valid = true → (j = i → 1 < (refs s i).count) → (refs s' j).valid = true

theorem Stays.trans (h : Stays s t) (h' : Stays t s') : Stays s s' :=
  ⟨h.points.trans h'.points, fun j hv => h'.valid j (h.valid j hv),
    fun j => (h.count j).trans (h'.count j)⟩

theorem Stays.but (h : Stays s t) (h' : StaysBut i t s') : StaysBut i s s' where
  points q j hq hj := h'.points q j (h.points q j hq) fun he => (hj he).trans_le (h.count i)
  valid j hv hj := h'.valid j (h.valid j hv) fun he => (hj he).trans_le (h.count i)

/-! ### Reading an inode -/

theorem refs_cases (s : State) (i : Nat) :
    (∃ q, Points s q i ∧ refs s i = (s.icache q).known) ∨
      ((∀ q, ¬ Points s q i) ∧ refs s i = .none) := by
  by_cases h : ∃ q, Points s q i
  · refine .inl ?_
    rw [refs]
    cases hf : (List.finRange NINODE).find? fun ip => decide (Points s ip i) with
    | some q => exact ⟨q, by simpa using List.find?_some hf, rfl⟩
    | none =>
      obtain ⟨q, hq⟩ := h
      have := List.find?_eq_none.mp hf q (mem_finRange q)
      simp [hq] at this
  · have hn : ∀ q, ¬ Points s q i := fun q hq => h ⟨q, hq⟩
    exact .inr ⟨hn, refs_eq_none hn⟩

theorem Points.count_pos (hp : Points s ip i) : 0 < (refs s i).count := by
  rcases refs_cases s i with ⟨q, hq, hr⟩ | ⟨hn, _⟩
  · rw [hr]
    exact hq.1
  · exact absurd hp (hn ip)

theorem count_pos_of_valid (hv : (refs s i).valid = true) : 0 < (refs s i).count := by
  rcases refs_cases s i with ⟨q, hq, hr⟩ | ⟨_, hr⟩
  · rw [hr]
    exact hq.1
  · rw [hr] at hv
    cases hv

namespace Good

theorem type_eq (hg : Good sb s) (hp : Points s ip i) (hv : (refs s i).valid = true) :
    (s.icache ip).d.type = (nodes sb s i).type := by
  rw [hg.node_eq hp (by rw [hg.valid_eq hp, hv])]

theorem type_of_valid (hg : Good sb s) (hv : (refs s i).valid = true) :
    (Fs.nodes sb s i).type ≠ 0 := by
  rcases refs_cases s i with ⟨q, hq, _⟩ | ⟨_, hr⟩
  · rw [← hg.type_eq hq hv]
    exact (hg.sync q hq.1 (by rw [hg.valid_eq hq, hv])).2
  · rw [hr] at hv
    cases hv

theorem size_eq (hg : Good sb s) (hp : Points s ip i) (hv : (refs s i).valid = true) :
    (s.icache ip).d.size.toNat = (nodes sb s i).data.length := by
  have hv' : (s.icache ip).valid = true := by rw [hg.valid_eq hp, hv]
  have hsync := (hg.sync ip hp.1 hv').1
  rw [hp.2] at hsync
  rw [hg.node_eq hp hv', length_content, ← hsync]

theorem dev_eq (hg : Good sb s) (hp : Points s ip i) : (s.icache ip).dev = ROOTDEV :=
  (hg.inum ip hp.1).1

end Good

theorem Stays.of_update (hr : refs s' = update (refs s) i r) (hk : Keeps s s')
    (hc : (refs s i).count ≤ r.count) (hv : (refs s i).valid = true → r.valid = true) : Stays s s' := by
  refine ⟨hk, fun j hj => ?_, fun j => ?_⟩ <;> rw [hr] <;> by_cases he : j = i
  · rw [he, update_self]
    exact hv (he ▸ hj)
  · rw [update_of_ne he]
    exact hj
  · rw [he, update_self]
    exact hc
  · rw [update_of_ne he]

/-! ### Composition -/

namespace During

theorem stays (h : During sb s s' N T L) : Stays s s' :=
  ⟨h.keeps, h.valid, fun j => by rw [h.count]; omega⟩

theorem refl (hg : Good sb s) (hl : ∀ i, (refs s i).locked = true ↔ i ∈ L)
    (hh : ∀ i ∈ L, (refs s i).valid = true) : During sb s s (Fs.nodes sb s) [] L :=
  ⟨hg, rfl, fun i => by rw [count_nil, Nat.add_zero], hl, fun _ h => h, hh, fun _ _ h => h⟩

theorem start (h : During sb s₀ s N T L) : During sb s s N [] L := by
  rw [← h.nodes]
  exact refl h.good h.locked h.held

theorem trans (h : During sb s₀ s N T L) (h' : During sb s s' N' T' L') :
    During sb s₀ s' N' (T' ++ T) L' where
  good := h'.good
  nodes := h'.nodes
  count i := by
    rw [h'.count, h.count, count_append]
    omega
  locked := h'.locked
  valid i hv := h'.valid i (h.valid i hv)
  held := h'.held
  keeps := h.keeps.trans h'.keeps

theorem perm (h : During sb s₀ s N T L) (hT : ∀ i, T'.count i = T.count i)
    (hL : ∀ i, i ∈ L' ↔ i ∈ L) : During sb s₀ s N T' L' :=
  ⟨h.good, h.nodes, fun i => by rw [h.count, hT], fun i => by rw [h.locked, hL], h.valid,
    fun i hi => h.held i ((hL i).mp hi), h.keeps⟩

theorem swap_refs (h : During sb s₀ s N (i :: j :: T) L) : During sb s₀ s N (j :: i :: T) L :=
  h.perm (fun l => (List.Perm.swap i j T).count_eq l) fun _ => Iff.rfl

theorem swap_locks (h : During sb s₀ s N T (i :: j :: L)) : During sb s₀ s N T (j :: i :: L) :=
  h.perm (fun _ => rfl) fun _ => (List.Perm.swap i j L).mem_iff

theorem unlocked (h : During sb s₀ s N T L) (hi : i ∉ L) : (refs s i).locked = false := by
  cases hl : (refs s i).locked with
  | false => rfl
  | true => exact absurd ((h.locked i).mp hl) hi

/-! ### References -/

theorem of_update (h : During sb s₀ s N T L) (hg : Good sb s') (hn : Fs.nodes sb s' = N')
    (hr : refs s' = update (refs s) i r) (hk : Keeps s₀ s')
    (hc : r.count = (refs s₀ i).count + T'.count i) (hT : ∀ j, j ≠ i → T'.count j = T.count j)
    (hl : r.locked = true ↔ i ∈ L') (hL : ∀ j, j ≠ i → (j ∈ L' ↔ j ∈ L))
    (hv : (refs s₀ i).valid = true → r.valid = true) (hh : i ∈ L' → r.valid = true) :
    During sb s₀ s' N' T' L' := by
  have hself : refs s' i = r := by rw [hr, update_self]
  have hother : ∀ j, j ≠ i → refs s' j = refs s j := fun j hj => by rw [hr, update_of_ne hj]
  refine ⟨hg, hn, fun j => ?_, fun j => ?_, fun j hvj => ?_, fun j hj => ?_, hk⟩ <;>
    by_cases he : j = i
  · rw [he, hself, hc]
  · rw [hother j he, h.count, hT j he]
  · rw [he, hself, hl]
  · rw [hother j he, h.locked, hL j he]
  · rw [he] at hvj ⊢
    rw [hself]
    exact hv hvj
  · rw [hother j he]
    exact h.valid j hvj
  · rw [he] at hj ⊢
    rw [hself]
    exact hh hj
  · rw [hother j he]
    exact h.held j ((hL j he).mp hj)

theorem of_inc (h : During sb s₀ s N T L) (hg : Good sb s') (hq : Quiet s s') (hk : Keeps s s')
    (hr : refs s' = update (refs s) i (refs s i).inc) :
    During sb s₀ s' N (i :: T) L :=
  h.of_update hg (hq.nodes.trans h.nodes) hr (h.keeps.trans hk)
    (by rw [Ref.inc, h.count, count_cons_self, Nat.add_assoc])
    (fun _ hj => count_cons_of_ne (Ne.symm hj)) (h.locked i) (fun _ _ => Iff.rfl) (h.valid i)
    (h.held i)

theorem iget (h : During sb s₀ s N T L) (hi : i < sb.ninodes) :
    Runs (Fs.iget ROOTDEV i) s
      (fun ip s' => During sb s₀ s' N (i :: T) L ∧ Quiet s s' ∧ Stays s s' ∧ Points s' ip i ∧
        ¬ CacheFull s i)
      (fun e => e = .panic .iget ∧ CacheFull s i) :=
  (iget_runs h.good hi).post fun _ _ ⟨hg, hq, hk, hp, hroom, hr⟩ =>
    ⟨h.of_inc hg hq hk hr, hq, .of_update hr hk (Nat.le_succ _) fun h => h, hp, hroom⟩

theorem idup (h : During sb s₀ s N T L) (hp : Points s ip i) :
    Runs (Fs.idup ip) s
      (fun q s' => q = ip ∧ During sb s₀ s' N (i :: T) L ∧ Quiet s s' ∧ Stays s s') E :=
  (idup_runs h.good hp).post fun _ _ ⟨he, hg, hq, hk, hr⟩ =>
    ⟨he, h.of_inc hg hq hk hr, hq, .of_update hr hk (Nat.le_succ _) fun h => h⟩

/-- Dropping a reference of the call's own leaves those it began with. -/
theorem of_dec (h : During sb s₀ s N (i :: T) L) (hi : i ∉ L) (hg : Good sb s')
    (hn : Fs.nodes sb s' = N') (hk : KeepsBut i s s')
    (hr : refs s' = update (refs s) i (refs s i).dec) :
    During sb s₀ s' N' T L ∧ StaysBut i s s' := by
  have hci : (refs s i).count = (refs s₀ i).count + (T.count i + 1) := by
    rw [h.count, count_cons_self]
  have hbase : ∀ j, 0 < (refs s₀ j).count → j = i → 1 < (refs s i).count := fun j hj he => by
    rw [he] at hj
    omega
  have hmany : 1 < (refs s i).count → (refs s i).dec = {refs s i with count := (refs s i).count - 1} :=
    fun h1 => if_neg (Nat.ne_of_gt h1)
  refine ⟨h.of_update hg hn hr (fun q j hq => hk q j (h.keeps q j hq) (hbase j hq.count_pos)) ?_
    (fun _ hj => (count_cons_of_ne (Ne.symm hj)).symm) ?_ (fun _ _ => Iff.rfl) (fun hv => ?_)
    fun hL => absurd hL hi, hk, fun j hv hj => ?_⟩
  · rw [Ref.dec]
    split
    · show 0 = _
      omega
    · show (refs s i).count - 1 = _
      omega
  · have := h.unlocked hi
    rw [Ref.dec]
    split
    · exact iff_of_false (fun h => by cases h) hi
    · exact iff_of_false (fun h => by rw [this] at h; cases h) hi
  · rw [hmany (hbase i (count_pos_of_valid hv) rfl)]
    exact h.valid i hv
  · rw [hr]
    by_cases he : j = i
    · rw [he, update_self, hmany (hj he)]
      rw [he] at hv
      exact hv
    · rw [update_of_ne he]
      exact hv

/-- `iput` when the inode has links, or other references, or has not been read in. -/
theorem iput_keep (h : During sb s₀ s N (i :: T) L) (hp : Points s ip i) (hi : i ∉ L)
    (hk : (refs s i).valid = true → (N i).nlink = 0 → 0 < (refs s₀ i).count ∨ i ∈ T) :
    Runs (Fs.iput sb ip) s
      (fun _ s' => During sb s₀ s' N T L ∧ StaysBut i s s' ∧ Quiet s s') E := by
  refine (iput_keep_runs h.good hp (h.unlocked hi) fun ⟨hv, h0, h1⟩ => ?_).post
    fun _ s' ⟨hg, hq, hb, hr⟩ => ?_
  · rw [h.nodes] at h0
    rw [h.count, count_cons_self] at h1
    rcases hk hv h0 with hpos | hmem
    · omega
    · have := count_pos_iff.mpr hmem
      omega
  · obtain ⟨h1, h2⟩ := h.of_dec hi hg (by rw [hq.nodes, h.nodes]) hb hr
    exact ⟨h1, h2, hq⟩

theorem iput (h : During sb s₀ s N (i :: T) L) (hp : Points s ip i) (hi : i ∉ L)
    (hk : (N i).nlink = 0 → 0 < (refs s₀ i).count ∨ i ∈ T) :
    Runs (Fs.iput sb ip) s
      (fun _ s' => During sb s₀ s' N T L ∧ StaysBut i s s' ∧ Quiet s s') E :=
  h.iput_keep hp hi fun _ => hk

/-- `iput` of the last reference to an inode without links. -/
theorem iput_last (L' : Layout sb) (h : During sb s₀ s N (i :: T) L) (hp : Points s ip i) (hi : i ∉ L)
    (hv : (refs s i).valid = true) (h0 : (N i).nlink = 0) (hc : (refs s₀ i).count = 0) (hT : i ∉ T) :
    Runs (Fs.iput sb ip) s
      (fun _ s' => During sb s₀ s' (update N i .free) T L ∧ StaysBut i s s')
      (LogStop sb s (NDIRECT + NINDIRECT + 2)) := by
  have hone : (refs s i).count = 1 := by
    rw [h.count, count_cons_self, hc, count_eq_zero_of_not_mem hT]
  refine (iput_free_runs L' h.good hp (h.unlocked hi) ⟨hv, by rw [h.nodes]; exact h0, hone⟩).post
    fun _ s' ⟨hg, _, hb, hn, hr, _⟩ => ?_
  refine h.of_dec hi hg (by rw [hn, h.nodes]) hb ?_
  rw [hr, Ref.dec, if_pos hone]

/-! ### Locks -/

theorem ilock (L' : Layout sb) (h : During sb s₀ s N T L) (hp : Points s ip i) :
    Runs (Fs.ilock sb ip) s
      (fun _ s' => During sb s₀ s' N T (i :: L) ∧ Quiet s s' ∧ Stays s s' ∧ i ∉ L ∧ (N i).type ≠ 0)
      (fun e => (e = .deadlock ∧ i ∈ L) ∨ (e = .panic .noType ∧ (N i).type = 0)) := by
  refine (ilock_runs L' h.good hp).mono (fun _ s' ⟨hg, hq, hk, ht, hfree, hr⟩ => ?_) fun e he => ?_
  · have hi : i ∉ L := fun hi => by
      rw [(h.locked i).mpr hi] at hfree
      cases hfree
    refine ⟨h.of_update hg (hq.nodes.trans h.nodes) hr (h.keeps.trans hk) (h.count i) (fun _ _ => rfl)
      (iff_of_true rfl (mem_cons_self ..)) (fun j hj => ?_) (fun _ => rfl) fun _ => rfl,
      hq, .of_update hr hk (Nat.le_refl _) fun _ => rfl, hi, by rw [← h.nodes]; exact ht⟩
    rw [mem_cons, or_iff_right hj]
  · rw [h.locked, h.nodes] at he
    exact he

theorem iunlock (h : During sb s₀ s N T (i :: L)) (hp : Points s ip i) (hi : i ∉ L) :
    Runs (Fs.iunlock ip) s
      (fun _ s' => During sb s₀ s' N T L ∧ Quiet s s' ∧ Stays s s') E := by
  refine (iunlock_runs h.good hp ((h.locked i).mpr (mem_cons_self ..))).post
    fun _ s' ⟨hg, hq, hk, hr⟩ => ⟨?_, hq, .of_update hr hk (Nat.le_refl _) fun h => h⟩
  refine h.of_update hg (hq.nodes.trans h.nodes) hr (h.keeps.trans hk) (h.count i) (fun _ _ => rfl)
    (iff_of_false (fun h => by cases h) hi) (fun j hj => ?_) (h.valid i) fun hL => absurd hL hi
  rw [mem_cons, or_iff_right hj]

theorem iunlockput (h : During sb s₀ s N (i :: T) (i :: L)) (hp : Points s ip i)
    (hi : i ∉ L) (hk : (N i).nlink = 0 → 0 < (refs s₀ i).count ∨ i ∈ T) :
    Runs (Fs.iunlockput sb ip) s
      (fun _ s' => During sb s₀ s' N T L ∧ StaysBut i s s' ∧ Quiet s s') E := by
  refine Runs.bind (h.iunlock hp hi) fun _ t ⟨ht, hqt, hst⟩ => ?_
  exact (ht.iput (hst.points ip i hp) hi hk).post fun _ u ⟨hu, hsu, hqu⟩ =>
    ⟨hu, hst.but hsu, hqt.trans hqu⟩

theorem iunlockput_last (L' : Layout sb) (h : During sb s₀ s N (i :: T) (i :: L))
    (hp : Points s ip i) (hi : i ∉ L) (h0 : (N i).nlink = 0) (hc : (refs s₀ i).count = 0) (hT : i ∉ T) :
    Runs (Fs.iunlockput sb ip) s
      (fun _ s' => During sb s₀ s' (update N i .free) T L ∧ StaysBut i s s')
      (LogStop sb s (NDIRECT + NINDIRECT + 2)) := by
  refine Runs.bind (h.iunlock hp hi) fun _ t ⟨ht, hqt, hst⟩ => ?_
  have hv : (refs t i).valid = true := hst.valid i (h.held i (mem_cons_self ..))
  refine (ht.iput_last L' (hst.points ip i hp) hi hv h0 hc hT).mono
    (fun _ u ⟨hu, hsu⟩ => ⟨hu, hst.but hsu⟩) fun e he => ?_
  have := hqt.logged.logStop he
  rwa [Nat.zero_add] at this

end During

end Xv6.Fs
