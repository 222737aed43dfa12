import Xv6.Fs.InodeProofs

/-! What `itrunc` does: every block of the file is freed, once.

The loops clear bits of the free map while the pointers are still in place, so
the invariant of both loops counts pointers: `Freed` lists those whose blocks are
free already. -/
namespace Xv6.Fs
open Lib Function List

variable {sb : Superblock} {s s' : State} {ip : Ptr} {i k : Nat} {v w : View} {ks : List Nat}

/-- `w` is `v` with the blocks of the pointers `ks` of inode `i` marked free. -/
structure Freed (v w : View) (i : Nat) (ks : List Nat) : Prop where
  tab : w.tab = v.tab
  data : w.data = v.data
  used : ∀ b, w.used b = true ↔
    v.used b = true ∧ ∀ k ∈ ks, ptr v (i, k) ≠ 0 → ptr v (i, k) ≠ b

theorem Freed.skip (h : Freed v w i ks) (h0 : ptr v (i, k) = 0) : Freed v w i (ks ++ [k]) := by
  refine ⟨h.tab, h.data, fun b => ?_⟩
  rw [h.used]
  refine and_congr_right fun _ => ⟨fun hall l hl hz => ?_, fun hall l hl => ?_⟩
  · rcases mem_append.mp hl with hl | hl
    · exact hall l hl hz
    · rw [mem_singleton.mp hl] at hz
      exact absurd h0 hz
  · exact hall l (mem_append_left _ hl)

theorem bfree_ptr_runs (L : Layout sb) (ho : Owned sb v) (h : Freed v (view sb s.disk) i ks)
    (hk : k ∉ ks) (h0 : ptr v (i, k) ≠ 0) :
    Runs (bfree sb ROOTDEV (ptr v (i, k))) s
      (fun _ s' => Stored 1 s s' ∧ Freed v (view sb s'.disk) i (ks ++ [k])) (LogStop sb s 0) := by
  have hdata := ho.owner.inside _ h0
  have hused : (view sb s.disk).used (ptr v (i, k)) = true := by
    rw [h.used]
    refine ⟨(ho.owner.marked _ hdata).mpr ⟨_, rfl⟩, fun l hl hz he => ?_⟩
    have hlk : l = k := (Prod.ext_iff.mp (ho.owner.once (i, l) (i, k) hz he)).2
    exact hk (by rw [← hlk]; exact hl)
  refine (bfree_runs L s hdata.2 hused).post fun _ t ⟨ht, hv⟩ => ⟨ht, ?_⟩
  refine ⟨by rw [hv]; exact h.tab, by rw [hv]; exact h.data, fun b => ?_⟩
  rw [hv, View.setUsed_used]
  by_cases hb : b = ptr v (i, k)
  · rw [hb, update_self]
    refine iff_of_false (by decide) fun ⟨_, hall⟩ => ?_
    exact hall k (mem_append_right _ (mem_singleton_self k)) h0 rfl
  · rw [update_of_ne hb, h.used]
    refine and_congr_right fun _ => ⟨fun hall l hl hz => ?_, fun hall l hl => ?_⟩
    · rcases mem_append.mp hl with hl | hl
      · exact hall l hl hz
      · rw [mem_singleton.mp hl]
        exact Ne.symm hb
    · exact hall l (mem_append_left _ hl)

/-- The inode when the direct addresses `done` have been cleared. -/
def cleared (d : Dinode) (done : List (Fin NDIRECT)) : Dinode :=
  {d with addrs := fun a => if a ∈ done.map Fin.castSucc then 0 else d.addrs a}

theorem cleared_nil (d : Dinode) : cleared d [] = d := by
  simp [cleared]

theorem cleared_snoc (d : Dinode) (done : List (Fin NDIRECT)) (a : Fin NDIRECT) :
    (cleared d done).setAddr a.castSucc 0 = cleared d (done ++ [a]) := by
  simp only [cleared, Dinode.setAddr, Dinode.mk.injEq, true_and]
  funext b
  by_cases hb : b = a.castSucc
  · simp [hb]
  · rw [update_of_ne hb]
    simp [hb]

theorem cleared_skip (d : Dinode) (done : List (Fin NDIRECT)) (a : Fin NDIRECT)
    (h : d.addrs a.castSucc = 0) : cleared d (done ++ [a]) = cleared d done := by
  simp only [cleared, Dinode.mk.injEq, true_and]
  funext b
  by_cases hb : b = a.castSucc
  · simp [hb, h]
  · simp [hb]

/-- The state of `itrunc` when the pointers `ks` have been freed: `d` is the inode in memory. -/
structure Truncating (v : View) (sb : Superblock) (ip : Ptr) (s : State) (ks : List Nat) (d : Dinode)
    (t : State) : Prop where
  freed : Freed v (view sb t.disk) (s.icache ip).inum ks
  icache : t.icache = update s.icache ip {s.icache ip with d := d}
  console : t.console = s.console
  outstanding : t.outstanding = s.outstanding
  lh : t.lh.length ≤ s.lh.length + ks.length

namespace Truncating
variable {d : Dinode} {t u : State}

theorem self (h : Truncating v sb ip s ks d t) : t.icache ip = {s.icache ip with d := d} := by
  rw [h.icache, update_self]

theorem skip (h : Truncating v sb ip s ks d t) (h0 : ptr v ((s.icache ip).inum, k) = 0) :
    Truncating v sb ip s (ks ++ [k]) d t :=
  ⟨h.freed.skip h0, h.icache, h.console, h.outstanding, by
    have := h.lh
    rw [length_append, length_singleton]
    omega⟩

theorem bfree_runs (L : Layout sb) (ho : Owned sb v) (h : Truncating v sb ip s ks d t) (hk : k ∉ ks)
    (ha : ptr v ((s.icache ip).inum, k) = a) (h0 : a ≠ 0) :
    Runs (bfree sb ROOTDEV a) t (fun _ => Truncating v sb ip s (ks ++ [k]) d)
      (LogStop sb s ks.length) := by
  subst ha
  refine (bfree_ptr_runs L ho h.freed hk h0).mono (fun _ u ⟨hu, hf⟩ => ?_) fun e he =>
    he.before h.lh h.outstanding
  refine ⟨hf, hu.icache.trans h.icache, hu.console.trans h.console,
    hu.outstanding.trans h.outstanding, ?_⟩
  have := hu.lh
  have := h.lh
  rw [length_append, length_singleton]
  omega

theorem setDinode (h : Truncating v sb ip s ks d t) (f : Dinode → Dinode) :
    Truncating v sb ip s ks (f d) (t.upd ip fun i => {i with d := f i.d}) :=
  ⟨h.freed, by rw [State.upd_icache, h.self, h.icache, update_idem], h.console,
    h.outstanding, h.lh⟩

end Truncating

/-! ### The loops -/

section Loops
variable (L : Layout sb) (hr : Ready sb s ip) (hm : mem sb s ip = view sb s.disk)
  (ho : Owned sb (view sb s.disk))
include L hr hm ho

theorem itrunc_direct_runs :
    Runs (itrunc_direct sb ip) s
      (fun _ => Truncating (view sb s.disk) sb ip s ((List.finRange NDIRECT).map Fin.val)
        (cleared (s.icache ip).d (List.finRange NDIRECT)))
      (LogStop sb s NDIRECT) := by
  have hptr : ∀ k : Fin NDIRECT, ptr (view sb s.disk) ((s.icache ip).inum, k) =
      ((s.icache ip).d.addrs k.castSucc).toNat := fun k => by
    rw [← hm, ptr_mem hr]
    exact dptr_direct _ _ k.castSucc
  refine Runs.forM (fun done => Truncating (view sb s.disk) sb ip s (done.map Fin.val)
    (cleared (s.icache ip).d done)) (fun done k rest t hl ht => ?_) ?_
  · have hnd : (done ++ k :: rest).Nodup := by rw [← hl]; exact nodup_finRange _
    have hk : k ∉ done := fun hk => (nodup_append.mp hnd).2.2 k hk k mem_cons_self rfl
    have hkv : (k : Nat) ∉ done.map Fin.val := fun h => by
      obtain ⟨k', hk', he⟩ := mem_map.mp h
      exact hk (by rw [← Fin.ext he]; exact hk')
    have haddr : (cleared (s.icache ip).d done).addrs k.castSucc = (s.icache ip).d.addrs k.castSucc :=
      if_neg fun h => by
        obtain ⟨k', hk', he⟩ := mem_map.mp h
        exact hk (by rw [← Fin.castSucc_injective _ he]; exact hk')
    have hlen : done.length < NDIRECT := by
      have := congrArg List.length hl
      simp at this
      omega
    refine bind_inode ?_
    rw [ht.self]
    simp only [hr.dev, haddr, map_append, map_cons, map_nil]
    refine Runs.ite (fun hne => ?_) fun hz => ?_
    · refine Runs.bind ((ht.bfree_runs L ho hkv (hptr k) (toNat_ne_zero.mpr hne)).stops fun e he =>
        he.mono (by simp; omega)) fun _ u hu => Runs.modify ?_
      rw [← cleared_snoc]
      exact hu.setDinode fun d => d.setAddr k.castSucc 0
    · have hz : (s.icache ip).d.addrs k.castSucc = 0 := not_not.mp hz
      rw [cleared_skip _ _ _ hz]
      exact Runs.pure (ht.skip (by rw [hptr, hz]; rfl))
  · refine ⟨⟨rfl, rfl, fun b => ?_⟩, ?_, rfl, rfl, by simp⟩
    · simp
    · rw [cleared_nil, update_eq_self]

theorem itrunc_entries_runs
    (ha : ptr (view sb s.disk) ((s.icache ip).inum, INDIRECT) = a) (ha0 : a ≠ 0)
    (ht : Truncating (view sb s.disk) sb ip s ks d t) (hks : ∀ k ∈ ks, k < NDIRECT) :
    Runs (itrunc_entries sb ROOTDEV a) t
      (fun _ => Truncating (view sb s.disk) sb ip s
        (ks ++ (List.range NINDIRECT).map (NDIRECT + 1 + ·)) d)
      (LogStop sb s (ks.length + NINDIRECT)) := by
  have hda : IsData sb a := by
    rw [← ha]
    exact ho.owner.inside _ (by rw [ha]; exact ha0)
  refine Runs.forM (fun done => Truncating (view sb s.disk) sb ip s
    (ks ++ done.map (NDIRECT + 1 + ·)) d) (fun done j rest u hl hu => ?_) (by simpa using ht)
  have hnd : (done ++ j :: rest).Nodup := by rw [← hl]; exact nodup_range
  have hjd : j ∉ done := fun h => (nodup_append.mp hnd).2.2 j h j mem_cons_self rfl
  have hj : j < NINDIRECT := mem_range.mp (by rw [hl]; simp)
  have hk : NDIRECT + 1 + j ∉ ks ++ done.map (NDIRECT + 1 + ·) := fun h => by
    rcases mem_append.mp h with h | h
    · have := hks _ h
      omega
    · obtain ⟨j', hj', he⟩ := mem_map.mp h
      exact hjd (by rw [← Nat.add_left_cancel he]; exact hj')
  have hlen : done.length < NINDIRECT := by
    have := congrArg List.length hl
    simp only [length_range, length_append, length_cons] at this
    omega
  -- the entries are read from the live buffer, which the loop does not change
  have hentry : ((u.disk a).word32 (4 * j)).toNat =
      ptr (view sb s.disk) ((s.icache ip).inum, NDIRECT + 1 + j) := by
    have hbuf : u.disk a = s.disk a := by
      rw [← view_data_eq u.disk hda, hu.freed.data, view_data_eq s.disk hda]
    have := ptr_mem_entry hr hj hda ha0 (by rw [hm]; exact ha)
    rw [hbuf, ← this, hm]
  refine Runs.bind_get ?_
  rw [map_append, ← append_assoc]
  refine Runs.ite (fun hne => ?_) fun hz => ?_
  · refine (hu.bfree_runs L ho hk hentry.symm (toNat_ne_zero.mpr hne)).stops fun e he => he.mono ?_
    rw [length_append, length_map]
    omega
  · refine Runs.pure (hu.skip ?_)
    rw [← hentry, not_not.mp hz]
    rfl

end Loops

theorem cleared_last (d : Dinode) (done : List (Fin NDIRECT)) :
    (cleared d done).addrs (Fin.last NDIRECT) = d.addrs (Fin.last NDIRECT) :=
  if_neg fun h => by
    obtain ⟨k, _, he⟩ := mem_map.mp h
    exact absurd he (Fin.castSucc_lt_last k).ne

/-- When all direct addresses and the indirect one are clear, so are all. -/
theorem cleared_all (d : Dinode) :
    (cleared d (List.finRange NDIRECT)).setAddr (Fin.last NDIRECT) 0 = {d with addrs := fun _ => 0} := by
  simp only [cleared, Dinode.setAddr, Dinode.mk.injEq, true_and]
  funext b
  induction b using Fin.lastCases with
  | last => rw [update_self]
  | cast b =>
    rw [update_of_ne (Fin.castSucc_lt_last b).ne]
    exact if_pos (mem_map_of_mem (mem_finRange b))

theorem setAddr_eq_self (d : Dinode) {k : Fin (NDIRECT + 1)} {b : BitVec 32} (h : d.addrs k = b) :
    d.setAddr k b = d := by
  rw [Dinode.setAddr, ← h, update_eq_self]

theorem dptr_no_indirect (h : d.addrs (Fin.last NDIRECT) = 0)
    (hk : ¬ k < NDIRECT) : dptr v d k = 0 := by
  by_cases hlt : k < NDIRECT + 1
  · have hke : k = NDIRECT := by omega
    subst hke
    rw [show dptr v d NDIRECT = _ from dptr_indirect v d, h]
    rfl
  · rw [dptr, dif_neg hlt, if_pos h]

theorem mem_direct : k ∈ (List.finRange NDIRECT).map Fin.val ↔ k < NDIRECT := by
  simp only [mem_map, mem_finRange, true_and]
  exact ⟨fun ⟨a, ha⟩ => by rw [← ha]; exact a.isLt, fun h => ⟨⟨k, h⟩, rfl⟩⟩

theorem mem_pointers : k ∈ (List.finRange NDIRECT).map Fin.val ++
    (List.range NINDIRECT).map (NDIRECT + 1 + ·) ++ [INDIRECT] ↔ k < NDIRECT + 1 + NINDIRECT := by
  rw [mem_append, mem_append, mem_direct, mem_singleton, mem_map]
  constructor
  · rintro ((h | ⟨j, hj, rfl⟩) | rfl)
    · omega
    · have := mem_range.mp hj
      omega
    · decide
  · intro h
    by_cases h1 : k < NDIRECT
    · exact .inl (.inl h1)
    · by_cases h2 : k = NDIRECT
      · exact .inr h2
      · exact .inl (.inr ⟨k - (NDIRECT + 1), mem_range.mpr (by omega), by omega⟩)

/-- No pointer is left that has not been freed. -/
def AllFreed (v : View) (i : Nat) (ks : List Nat) : Prop := ∀ k, k ∉ ks → ptr v (i, k) = 0

/-- `itrunc` of a file with an indirect block, after its direct blocks. -/
theorem itrunc_indirect_runs (L : Layout sb) (hr : Ready sb s ip) (hm : mem sb s ip = view sb s.disk)
    (ho : Owned sb (view sb s.disk))
    (ha : ptr (view sb s.disk) ((s.icache ip).inum, INDIRECT) = a) (ha0 : a ≠ 0)
    (ht : Truncating (view sb s.disk) sb ip s ((List.finRange NDIRECT).map Fin.val)
      (cleared (s.icache ip).d (List.finRange NDIRECT)) t) :
    Runs (do
        let _ ← bread ROOTDEV a
        itrunc_entries sb ROOTDEV a
        bfree sb ROOTDEV a
        setDinode ip fun d => d.setAddr (Fin.last NDIRECT) 0) t
      (fun _ => Truncating (view sb s.disk) sb ip s ((List.finRange NDIRECT).map Fin.val ++
        (List.range NINDIRECT).map (NDIRECT + 1 + ·) ++ [INDIRECT])
        {(s.icache ip).d with addrs := fun _ => 0})
      (LogStop sb s (NDIRECT + NINDIRECT)) := by
  have hda : IsData sb a := by
    rw [← ha]
    exact ho.owner.inside _ (by rw [ha]; exact ha0)
  have hnot : INDIRECT ∉ (List.finRange NDIRECT).map Fin.val ++
      (List.range NINDIRECT).map (NDIRECT + 1 + ·) := fun h => by
    rcases mem_append.mp h with h | h
    · exact absurd (mem_direct.mp h) (Nat.lt_irrefl _)
    · obtain ⟨j, _, hj⟩ := mem_map.mp h
      simp only [INDIRECT] at hj
      omega
  refine Runs.bind_ok (bread_ok t (L.lt_fssize hda.2)) ?_
  refine Runs.bind ((itrunc_entries_runs L hr hm ho ha ha0 ht fun k => mem_direct.mp).stops
    fun e he => he.mono (by simp)) fun _ u hu => ?_
  refine Runs.bind ((hu.bfree_runs L ho hnot ha ha0).stops fun e he => he.mono (by simp))
    fun _ w hw => Runs.modify ?_
  rw [← cleared_all]
  exact hw.setDinode fun d => d.setAddr (Fin.last NDIRECT) 0

/-! ### `itrunc` -/

/-- An inode without blocks. -/
def emptied (d : Dinode) : Dinode := {d with addrs := fun _ => 0, size := 0}

theorem dptr_emptied (d : Dinode) (k : Nat) : dptr v (emptied d) k = 0 := by
  unfold dptr emptied
  split
  · rfl
  · rw [if_pos rfl]

section Emptied
variable {d : Dinode} (hf : Freed v w i ks) (ha : AllFreed v i ks) (ho : Owned sb v)
  (h0 : d.type ≠ 0)
include hf

theorem ptr_emptied_other (hj : j ≠ i) (k : Nat) :
    ptr (w.setTab i (emptied d)) (j, k) = ptr v (j, k) := by
  rw [ptr_setTab_other hj, ptr, ptr, hf.tab]
  by_cases hz : (v.tab j).type = 0
  · rw [if_pos hz, if_pos hz]
  · rw [if_neg hz, if_neg hz]
    exact dptr_congr rfl (fun _ => by rw [hf.data]) k

include ha ho h0

theorem owned_emptied (L : Layout sb) : Owned sb (w.setTab i (emptied d)) := by
  refine ⟨fun b hb => ?_, ?_⟩
  · show w.used b = true
    rw [hf.used]
    refine ⟨ho.metadata b hb, fun k _ hz he => ?_⟩
    have := (ho.owner.inside _ hz).1
    omega
  · refine ho.owner.release (not_isData_zero L) (fun x => x.1 = i) (fun x hx => ?_)
      (fun x hx => ptr_emptied_other hf hx x.2) fun b hb => ?_
    · obtain ⟨j, k⟩ := x
      have hj : j = i := hx
      rw [hj, ptr_setTab_self (by exact h0), dptr_emptied]
    · rw [View.setTab_used, hf.used]
      refine and_congr_right fun _ => ⟨fun hall x hx he => ?_, fun hall k _ _ he => hall (i, k) rfl he⟩
      obtain ⟨j, k⟩ := x
      have hj : j = i := hx
      rw [hj] at he
      have hne : ptr v (i, k) ≠ 0 := fun hz => not_isData_zero L (by rw [← hz, he]; exact hb)
      by_cases hk : k ∈ ks
      · exact hall k hk hne he
      · exact hne (ha k hk)

end Emptied

/-- The other files are as before, and this one is empty. -/
theorem node_emptied (hf : Freed v w i ks) (hd : v.tab i = d) (h0 : d.type ≠ 0) :
    node (w.setTab i (emptied d)) = update (node v) i {node v i with data := []} := by
  funext j
  by_cases hj : j = i
  · subst hj
    have h0' : (emptied d).type ≠ 0 := h0
    rw [update_self, node, node, View.setTab_tab, update_self, if_neg h0', hd,
      if_neg h0, content, View.setTab_tab, update_self]
    rfl
  · have htab : (w.setTab i (emptied d)).tab j = v.tab j := by
      rw [View.setTab_tab, update_of_ne hj, hf.tab]
    rw [update_of_ne hj, node, node, htab]
    by_cases hz : (v.tab j).type = 0
    · rw [if_pos hz, if_pos hz]
    · rw [if_neg hz, if_neg hz, content, content, htab]
      congr 1
      refine map_congr_left fun pos _ => ?_
      rw [fbyte, fbyte, fblock, fblock, ptr_emptied_other hf hj, View.setTab_data, hf.data]

theorem solid_emptied (hf : Freed v w i ks) (hs : Solid v) :
    Solid (w.setTab i (emptied d)) := by
  refine ⟨fun j pos hz hpos => ?_, fun j hz => ?_⟩
  · by_cases hj : j = i
    · rw [hj, View.setTab_tab, update_self] at hpos
      exact absurd hpos (Nat.not_lt_zero _)
    · rw [View.setTab_tab, update_of_ne hj, hf.tab] at hz hpos
      rw [fblock, ptr_emptied_other hf hj]
      exact hs.holes j pos hz hpos
  · by_cases hj : j = i
    · rw [hj, View.setTab_tab, update_self]
      exact Nat.zero_le _
    · rw [View.setTab_tab, update_of_ne hj, hf.tab] at hz ⊢
      exact hs.size j hz

theorem trim_emptied (hf : Freed v w i ks) (h : Trim v) (h0 : d.type ≠ 0) :
    Trim (w.setTab i (emptied d)) := by
  refine h.of (fun j k hk => .inr ?_) fun j hz => .inl ?_
  · by_cases hj : j = i
    · rw [hj, ptr_setTab_self (by exact h0), dptr_emptied] at hk
      exact absurd rfl hk
    · rw [ptr_emptied_other hf hj] at hk
      rw [View.setTab_tab, update_of_ne hj, hf.tab]
      exact ⟨hk, le_rfl⟩
  · have hj : j ≠ i := by
      rintro rfl
      rw [View.setTab_tab, update_self] at hz
      exact h0 hz
    rw [View.setTab_tab, update_of_ne hj, hf.tab]

/-- `itrunc` empties the file and frees its blocks. -/
theorem itrunc_runs (L : Layout sb) (hg : Good sb s) (hp : Points s ip i)
    (hv : (s.icache ip).valid = true) :
    Runs (itrunc sb ip) s
      (fun _ s' => Good sb s' ∧ Same (NDIRECT + NINDIRECT + 2) s s' ∧
        nodes sb s' = update (nodes sb s) i {nodes sb s i with data := []} ∧
        (s'.icache ip).d = emptied (s.icache ip).d ∧ Trims sb s s')
      (LogStop sb s (NDIRECT + NINDIRECT + 1)) := by
  obtain ⟨href, rfl⟩ := hp
  obtain ⟨hsync, h0⟩ := hg.sync ip href hv
  have hm := hg.mem_eq href hv
  have hr := hg.ready href hv
  have hptr : ∀ k, ptr (view sb s.disk) ((s.icache ip).inum, k) =
      dptr (view sb s.disk) (s.icache ip).d k := fun k => by rw [← ptr_mem hr, hm]
  refine Runs.bind ((itrunc_direct_runs L hr hm hg.owned).stops fun e he => he.mono (by omega))
    fun _ t ht => bind_inode ?_
  rw [ht.self]
  simp only [cleared_last, hr.dev]
  -- either way all pointers have been freed
  refine Runs.bind (R := fun _ u => ∃ ks, ks.length ≤ NDIRECT + NINDIRECT + 1 ∧
    AllFreed (view sb s.disk) (s.icache ip).inum ks ∧
    Truncating (view sb s.disk) sb ip s ks {(s.icache ip).d with addrs := fun _ => 0} u)
    (Runs.ite (fun hne => ?_) fun hz => ?_) fun _ u hu => ?_
  · have ha := hptr INDIRECT
    rw [dptr_indirect] at ha
    refine (itrunc_indirect_runs L hr hm hg.owned ha (toNat_ne_zero.mpr hne) ht).mono
      (fun _ u hu => ⟨_, by simp; omega, fun k hk => ?_, hu⟩) fun e he => he.mono (by omega)
    rw [mem_pointers] at hk
    rw [hptr, dptr, dif_neg (by omega), if_neg hne, if_neg hk]
  · have hz : (s.icache ip).d.addrs (Fin.last NDIRECT) = 0 := not_not.mp hz
    refine Runs.pure ⟨(List.finRange NDIRECT).map Fin.val, by simp; omega, fun k hk => ?_, ?_⟩
    · rw [hptr]
      exact dptr_no_indirect hz fun h => hk (mem_direct.mpr h)
    · rw [← cleared_all, setAddr_eq_self _ ((cleared_last _ _).trans hz)]
      exact ht
  · obtain ⟨ks, hlen, hall, hu⟩ := hu
    -- the size, and the store of the inode
    have hw := hu.setDinode fun d => {d with size := 0}
    refine bind_setDinode ?_
    generalize (u.upd ip fun i => {i with d := {i.d with size := 0}}) = w at hw
    have hwi : w.icache ip = {s.icache ip with d := emptied (s.icache ip).d} := hw.self
    refine (iupdate_runs L w (by rw [hwi]; exact hr.dev) (by rw [hwi]; exact hr.inum)).mono
      (fun _ x hstored => ?_) fun e he => (he.before hw.lh hw.outstanding).mono hlen
    obtain ⟨hx, hxv⟩ := hstored
    rw [hwi] at hxv
    have hsame : Same (NDIRECT + NINDIRECT + 2) s x := by
      refine ⟨fun q => ?_, hx.console.trans hw.console, hx.outstanding.trans hw.outstanding, ?_⟩
      · rw [hx.icache, hw.icache, update_apply]
        split
        · rename_i hq
          rw [hq]
        · rfl
      · have := hx.lh
        have := hw.lh
        omega
    have hxd : (x.icache ip).d = emptied (s.icache ip).d := by rw [hx.icache, hwi]
    refine ⟨hg.rebuild hsame ?_ ?_ fun q hq hvq => ?_, hsame, ?_, hxd, fun htrim => ?_⟩
    · rw [hxv]
      exact owned_emptied hw.freed hall hg.owned h0 L
    · rw [hxv]
      exact solid_emptied hw.freed hg.solid
    · rw [hxv]
      by_cases hqp : q = ip
      · rw [hqp, hxd, View.setTab_tab, update_self]
        exact ⟨rfl, h0⟩
      · have hne : (s.icache q).inum ≠ (s.icache ip).inum := fun he => hqp (hg.once q ip hq href he)
        rw [hx.icache, hw.icache, update_of_ne hqp, View.setTab_tab,
          update_of_ne hne, hw.freed.tab]
        exact hg.sync q hq hvq
    · rw [nodes, hxv, node_emptied hw.freed hsync.symm h0]
      rfl
    · rw [hxv]
      exact trim_emptied hw.freed htrim h0

end Xv6.Fs
