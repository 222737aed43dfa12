import Xv6.Fs.BlockProofs

/-! What `bmap`, `readi` and `writei` do to a file.

While a file is written its inode is ahead of the disk: `bmap` sets addresses in
the in-memory copy, and only the `iupdate` at the end of `writei` stores them. So
the specifications are about `mem`, the view with that copy in place. -/
namespace Xv6.Fs
open Lib Function List

/-- The view, with the in-memory copy of inode `ip` in place of the one on disk. -/
def mem (sb : Superblock) (s : State) (ip : Ptr) : View :=
  (view sb s.disk).setTab (s.icache ip).inum (s.icache ip).d

/-- What the content functions rely on of their inode. -/
structure Ready (sb : Superblock) (s : State) (ip : Ptr) : Prop where
  dev : (s.icache ip).dev = ROOTDEV
  inum : (s.icache ip).inum < sb.ninodes
  type : (s.icache ip).d.type ≠ 0

/-- The indirect block of `ip`, or 0. -/
def indirect (s : State) (ip : Ptr) : Nat := ((s.icache ip).d.addrs (Fin.last NDIRECT)).toNat

/-- What the bitmap block and the indirect block `a` of a file can still add to the log. -/
def owes (sb : Superblock) (l : List Nat) (a : Nat) : Nat :=
  cost l (BBLOCK 0 sb) + if a = 0 then 1 else cost l a

/-- `s'` is `s` with blocks stored into that are no inodes, at most `k` more blocks
logged beside the bitmap and the indirect block, and addresses of `ip` set in memory. -/
structure Edits (sb : Superblock) (ip : Ptr) (k : Nat) (s s' : State) : Prop where
  entry : s'.icache = update s.icache ip {s.icache ip with d := (s'.icache ip).d}
  fields : (s'.icache ip).d = {(s.icache ip).d with addrs := (s'.icache ip).d.addrs}
  tab : (view sb s'.disk).tab = (view sb s.disk).tab
  console : s'.console = s.console
  outstanding : s'.outstanding = s.outstanding
  lh : s'.lh.length + owes sb s'.lh (indirect s' ip) ≤ s.lh.length + owes sb s.lh (indirect s ip) + k

variable {sb : Superblock} {ip : Ptr} {s s' s'' : State} {j k b bn lo : Nat} {S : Finset Nat}

theorem owes_le (sb : Superblock) (l : List Nat) (a : Nat) : owes sb l a ≤ 2 := by
  have h1 := cost_le l (BBLOCK 0 sb)
  have h2 := cost_le l a
  rw [owes]
  split <;> omega

theorem record_owes_le (sb : Superblock) (l : List Nat) (a b : Nat) :
    (Log.record l b).length + owes sb (Log.record l b) a ≤ l.length + owes sb l a + cost l b := by
  have h1 := cost_record_le l b (BBLOCK 0 sb)
  have h2 := cost_record_le l b a
  rw [length_record, owes, owes]
  split <;> omega

/-- The bitmap block and the indirect block are logged for what is owed. -/
theorem record_owed {a : Nat} (l : List Nat) (h : b = BBLOCK 0 sb ∨ b = a ∧ a ≠ 0) :
    (Log.record l b).length + owes sb (Log.record l b) a ≤ l.length + owes sb l a := by
  have h0 := cost_record_self l b
  have h1 := cost_record_le l b (BBLOCK 0 sb)
  have h2 := cost_record_le l b a
  rw [length_record, owes, owes]
  rcases h with rfl | ⟨rfl, ha⟩
  · split <;> omega
  · rw [if_neg ha, if_neg ha]
    omega

theorem record_indirect (sb : Superblock) (l : List Nat) (hb : b ≠ 0) :
    (Log.record l b).length + owes sb (Log.record l b) b ≤ l.length + owes sb l 0 := by
  have h0 := cost_record_self l b
  have h1 := cost_record_le l b (BBLOCK 0 sb)
  have h2 := cost_le l b
  rw [length_record, owes, owes, if_neg hb, if_pos rfl]
  omega

namespace Edits

theorem of_stored (h : Stored j s s') (ht : (view sb s'.disk).tab = (view sb s.disk).tab)
    (hlh : s'.lh.length + owes sb s'.lh (indirect s ip) ≤ s.lh.length + owes sb s.lh (indirect s ip) + k) :
    Edits sb ip k s s' where
  entry := by rw [h.icache, update_eq_self]
  fields := by rw [h.icache]
  tab := ht
  console := h.console
  outstanding := h.outstanding
  lh := by
    rw [indirect, h.icache]
    exact hlh

theorem refl (s : State) : Edits sb ip 0 s s := of_stored (Stored.refl s) rfl (Nat.le_refl _)

theorem trans (h : Edits sb ip j s s') (h' : Edits sb ip k s' s'') : Edits sb ip (j + k) s s'' where
  entry := by
    have hip : s'.icache ip = {s.icache ip with d := (s'.icache ip).d} := by
      conv_lhs => rw [h.entry]
      rw [update_self]
    conv_lhs => rw [h'.entry, h.entry, update_idem, update_self]
  fields := by rw [h'.fields, h.fields]
  tab := h'.tab.trans h.tab
  console := h'.console.trans h.console
  outstanding := h'.outstanding.trans h.outstanding
  lh := by
    have := h.lh
    have := h'.lh
    omega

theorem mono (h : Edits sb ip j s s') (hjk : j ≤ k) : Edits sb ip k s s' :=
  ⟨h.entry, h.fields, h.tab, h.console, h.outstanding, h.lh.trans (Nat.add_le_add_left hjk _)⟩

theorem logStop (h : Edits sb ip j s s') (he : LogStop sb s' (owes sb s'.lh (indirect s' ip) + k) e) :
    LogStop sb s (owes sb s.lh (indirect s ip) + (j + k)) e := by
  have hlh := h.lh
  rcases he with ⟨he, hf⟩ | ⟨he, ho⟩
  · exact .inl ⟨he, hf.imp (by omega) (by omega)⟩
  · exact .inr ⟨he, h.outstanding ▸ ho⟩

theorem self (h : Edits sb ip k s s') :
    s'.icache ip = {s.icache ip with d := (s'.icache ip).d} := by
  conv_lhs => rw [h.entry]
  rw [update_self]

theorem inum (h : Edits sb ip k s s') : (s'.icache ip).inum = (s.icache ip).inum := by
  rw [h.self]

theorem ready (h : Edits sb ip k s s') (hr : Ready sb s ip) : Ready sb s' ip where
  dev := by rw [h.self]; exact hr.dev
  inum := by rw [h.self]; exact hr.inum
  type := by rw [h.fields]; exact hr.type

end Edits

/-! ### Mapping a block -/

theorem setTab_setTab (v : View) (i : Nat) (d d' : Dinode) :
    (v.setTab i d).setTab i d' = v.setTab i d' := by
  simp only [View.setTab, update_idem]

theorem mem_tab (sb : Superblock) (s : State) (ip : Ptr) :
    (mem sb s ip).tab (s.icache ip).inum = (s.icache ip).d := update_self ..

theorem ptr_mem (hr : Ready sb s ip) (k : Nat) :
    ptr (mem sb s ip) ((s.icache ip).inum, k) = dptr (view sb s.disk) (s.icache ip).d k :=
  ptr_setTab_self hr.type

/-- A block is allocated and its number put into an address of the inode. -/
theorem balloc_setAddr_runs (L : Layout sb) (hr : Ready sb s ip) (ho : Owned sb (mem sb s ip))
    (hz : (s.icache ip).d.addrs a = 0) (ha : (a : Nat) ∈ S) :
    Runs (do
        let b ← balloc sb ROOTDEV
        setDinode ip fun d => d.setAddr a (BitVec.ofNat 32 b)
        pure b) s
      (fun b s' => (Edits sb ip (if a = Fin.last NDIRECT then 0 else 1) s s' ∧ cost s'.lh b = 0) ∧
        IsData sb b ∧ ptr (mem sb s' ip) ((s.icache ip).inum, a) = b ∧
        ∀ lo, Grows sb (s.icache ip).inum lo [] S (mem sb s ip) (mem sb s' ip))
      (fun e => LogStop sb s (owes sb s.lh (indirect s ip)) e ∨ (e = .panic .balloc ∧
        (free sb (mem sb s ip)).card < (missing (mem sb s ip) (s.icache ip).inum S).card)) := by
  refine Runs.bind ((balloc_runs L s ho.metadata).stops fun e he =>
    he.imp (fun h => h.mono (Nat.le_add_right _ _)) fun ⟨h, hf⟩ => ?stop)
    fun b t ⟨ht, hb, hu, hv, htl⟩ => Runs.bind_ok rfl (Runs.pure ?done)
  case stop =>
    refine ⟨h, (Grows.refl ho : Grows sb _ 0 [] S _ _).short ha ?_ hf⟩
    rw [ptr_mem hr, dptr_direct, hz]
    rfl
  case done =>
    -- `t` is the state after `balloc`; the address is then set in it
    have hclaims : Claims sb (mem sb s ip) ((view sb t.disk).setTab (s.icache ip).inum
        ((s.icache ip).d.setAddr a (BitVec.ofNat 32 b))) ((s.icache ip).inum, a) b := by
      have hview : (view sb t.disk).setTab (s.icache ip).inum
          ((s.icache ip).d.setAddr a (BitVec.ofNat 32 b)) = (taken (mem sb s ip) b).setTab
            (s.icache ip).inum ((s.icache ip).d.setAddr a (BitVec.ofNat 32 b)) := by
        rw [hv]
        exact (setTab_setTab _ _ _ _).symm
      rw [hview]
      by_cases hlast : a = Fin.last NDIRECT
      · subst hlast
        exact claims_indirect L ho hb hu (mem_tab sb s ip) hr.type hz
      · exact claims_direct L ho hb hu (mem_tab sb s ip) hr.type hlast hz
    have hip : (t.upd ip fun i => {i with d := i.d.setAddr a (BitVec.ofNat 32 b)}).icache ip =
        {s.icache ip with d := (s.icache ip).d.setAddr a (BitVec.ofNat 32 b)} := by
      rw [State.upd_self, ht.icache]
    have hmem : mem sb (t.upd ip fun i => {i with d := i.d.setAddr a (BitVec.ofNat 32 b)}) ip =
        (view sb t.disk).setTab (s.icache ip).inum
          ((s.icache ip).d.setAddr a (BitVec.ofNat 32 b)) := by
      rw [mem, hip, State.upd_disk]
    refine ⟨⟨⟨?_, by rw [hip]; rfl, by rw [State.upd_disk, hv]; rfl, ht.console, ht.outstanding, ?_⟩,
      ?_⟩, hb, ?_, fun lo => ?_⟩
    · rw [hip, State.upd_icache, ht.icache]
    · -- the bitmap block was owed, and so is `b` if it is the indirect block
      have hbit := record_owed (a := indirect s ip) s.lh (.inl (rfl : BBLOCK 0 sb = BBLOCK 0 sb))
      rw [State.upd_lh, htl, indirect, hip]
      split
      · rename_i hlast
        subst hlast
        have hnat : (BitVec.ofNat 32 b).toNat = b := by
          have := L.lt_fssize hb.2
          rw [BitVec.toNat_ofNat, Nat.mod_eq_of_lt (this.trans (by decide))]
        have hnew := record_indirect sb (Log.record s.lh (BBLOCK 0 sb)) (b := b) fun h0 =>
          not_isData_zero L (by rw [← h0]; exact hb)
        have hi : indirect s ip = 0 := by rw [indirect, hz]; rfl
        rw [hi] at hbit ⊢
        rw [Dinode.setAddr_self, hnat]
        omega
      · rename_i hlast
        have hnew := record_owes_le sb (Log.record s.lh (BBLOCK 0 sb)) (indirect s ip) b
        have hle := cost_le (Log.record s.lh (BBLOCK 0 sb)) b
        rw [Dinode.setAddr_other _ _ (Ne.symm hlast)]
        exact (Nat.le_trans hnew (by omega))
    · rw [State.upd_lh, htl]
      exact cost_record_self _ _
    · rw [hmem, hclaims.pointers, update_self]
    · rw [hmem]
      exact hclaims.grows L ho ha

/-- The write of file `inum` through the pointers `S` needs more blocks than are free. -/
def Short (sb : Superblock) (s : State) (ip : Ptr) (S : Finset Nat) : Prop :=
  (free sb (mem sb s ip)).card < (missing (mem sb s ip) (s.icache ip).inum S).card

theorem slot_indirect (hbn : ¬ bn < NDIRECT) : slot bn = NDIRECT + 1 + (bn - NDIRECT) := by
  rw [slot, if_neg hbn]
  omega

theorem view_data_eq (disk : Disk) (hb : IsData sb b) : (view sb disk).data b = disk b := if_pos hb

theorem ptr_mem_entry (hr : Ready sb s ip) (hj : j < NINDIRECT) (ha : IsData sb a)
    (ha0 : a ≠ 0) (hp : ptr (mem sb s ip) ((s.icache ip).inum, INDIRECT) = a) :
    ptr (mem sb s ip) ((s.icache ip).inum, NDIRECT + 1 + j) =
      ((s.disk a).word32 (4 * j)).toNat := by
  rw [ptr_mem hr, dptr_indirect] at hp
  have hlast : (s.icache ip).d.addrs (Fin.last NDIRECT) ≠ 0 :=
    toNat_ne_zero.mp (by rw [hp]; exact ha0)
  rw [ptr_mem hr, dptr_entry _ _ hj hlast, hp, view_data_eq _ ha]

/-- An entry of the indirect block `a` is given a new block. -/
theorem balloc_setEntry_runs (L : Layout sb) (hr : Ready sb s ip) (ho : Owned sb (mem sb s ip))
    (hj : j < NINDIRECT) (ha0 : a ≠ 0)
    (hp : ptr (mem sb s ip) ((s.icache ip).inum, INDIRECT) = a)
    (hz : ptr (mem sb s ip) ((s.icache ip).inum, NDIRECT + 1 + j) = 0)
    (hS : NDIRECT + 1 + j ∈ S) :
    Runs (do
        let b ← balloc sb ROOTDEV
        store a fun bp => bp.putWord32 (4 * j) (BitVec.ofNat 32 b)
        log_write sb a
        pure b) s
      (fun b s' => (Edits sb ip 1 s s' ∧ cost s'.lh b = 0) ∧ IsData sb b ∧
        ptr (mem sb s' ip) ((s.icache ip).inum, NDIRECT + 1 + j) = b ∧
        ∀ lo, Grows sb (s.icache ip).inum lo [] S (mem sb s ip) (mem sb s' ip))
      (fun e => LogStop sb s (owes sb s.lh (indirect s ip) + 1) e ∨
        (e = .panic .balloc ∧ Short sb s ip S)) := by
  have hi : indirect s ip = a := by
    rw [← hp, ptr_mem hr]
    exact (dptr_indirect _ _).symm
  have hbit := record_owed (a := a) s.lh (.inl (rfl : BBLOCK 0 sb = BBLOCK 0 sb))
  have hda : IsData sb a := by
    rw [← hp]
    exact ho.owner.inside _ (by rw [hp]; exact ha0)
  refine Runs.bind ((balloc_runs L s ho.metadata).stops fun e he => ?stop)
    fun b t ⟨ht, hb, hu, hv, htl⟩ => Runs.bind_ok rfl (Runs.bind ((log_write_runs sb _ a).stops
      fun e he => .inl (he.before ?full ht.outstanding)) fun _ u ⟨hu', hud, hul⟩ => Runs.pure ?done)
  case stop =>
    exact he.imp (fun h => h.mono (by rw [owes]; omega)) fun ⟨h, hf⟩ =>
      ⟨h, (Grows.refl ho : Grows sb _ 0 [] S _ _).short hS hz hf⟩
  all_goals
    have hnew := record_owes_le sb (Log.record s.lh (BBLOCK 0 sb)) a b
    have hle := cost_le (Log.record s.lh (BBLOCK 0 sb)) b
  case full =>
    show t.lh.length ≤ _
    rw [htl, hi]
    omega
  case done =>
    have hdisk : view sb u.disk = (taken (view sb s.disk) b).setData a
        (((taken (view sb s.disk) b).data a).putWord32 (4 * j) (BitVec.ofNat 32 b)) := by
      rw [hud]
      show view sb (update t.disk a _) = _
      rw [view_data L _ hda, ← hv, view_data_eq _ hda]
    have hic : u.icache = s.icache := hu'.icache.trans ht.icache
    have hmem : mem sb u ip = (taken (mem sb s ip) b).setData a
        (((taken (mem sb s ip) b).data a).putWord32 (4 * j) (BitVec.ofNat 32 b)) := by
      rw [mem, hic, hdisk]
      rfl
    have hclaims := claims_entry L ho hb hu hp ha0 hj hz
    rw [← hmem] at hclaims
    have hul : u.lh = Log.record (Log.record (Log.record s.lh (BBLOCK 0 sb)) b) a := by rw [hul, ← htl]
    have hst : Stored 3 s u := by
      have hlh := hu'.lh
      have := ht.lh
      refine ⟨hic, hu'.console.trans ht.console, hu'.outstanding.trans ht.outstanding, ?_⟩
      simp only at hlh
      omega
    have hown := record_owed (Log.record (Log.record s.lh (BBLOCK 0 sb)) b)
      (.inr ⟨rfl, ha0⟩ : a = BBLOCK 0 sb ∨ a = a ∧ a ≠ 0)
    refine ⟨⟨Edits.of_stored hst (by rw [hdisk]; rfl) (by rw [hul, hi]; omega), ?_⟩, hb, ?_,
      fun lo => hclaims.grows L ho hS⟩
    · have hb := cost_record_le (Log.record (Log.record s.lh (BBLOCK 0 sb)) b) a b
      rw [cost_record_self] at hb
      rw [hul]
      exact Nat.le_zero.mp hb
    · rw [hclaims.pointers, update_self]

/-- `bmap` answers the block of the file, allocating it and the indirect block if necessary. -/
theorem bmap_runs (L : Layout sb) (hr : Ready sb s ip) (ho : Owned sb (mem sb s ip))
    (hbn : bn < MAXFILE) (hS : slot bn ∈ S) (hI : NDIRECT ≤ bn → INDIRECT ∈ S) :
    Runs (bmap sb ip bn) s
      (fun b s' => Edits sb ip (1 - cost s'.lh b) s s' ∧ b ≠ 0 ∧
        fblock (mem sb s' ip) (s.icache ip).inum bn = b ∧
        ∀ lo, Grows sb (s.icache ip).inum lo [] S (mem sb s ip) (mem sb s' ip))
      (fun e => LogStop sb s (owes sb s.lh (indirect s ip) + 1) e ∨
        (e = .panic .balloc ∧ Short sb s ip S)) := by
  have hne0 : ∀ b, IsData sb b → b ≠ 0 := fun b hb h0 => not_isData_zero L (by rw [← h0]; exact hb)
  refine bind_inode ?_
  rw [hr.dev]
  by_cases hd : bn < NDIRECT
  · -- a direct block
    have hslot : slot bn = bn := if_pos hd
    have hlt : bn < NDIRECT + 1 := Nat.lt_succ_of_lt hd
    rw [dif_pos hd]
    refine Runs.ite (fun hz => ?_) fun hz => ?_
    · rw [hslot] at hS
      refine (balloc_setAddr_runs L hr ho hz hS).mono
        (fun b t h => ⟨h.1.1.mono (by rw [h.1.2]; split <;> omega), hne0 b h.2.1, ?_, h.2.2.2⟩)
        fun e he => he.imp_left fun h => h.mono (Nat.le_succ _)
      rw [fblock, hslot]
      exact h.2.2.1
    · refine Runs.pure ⟨(Edits.refl s).mono (Nat.zero_le _), toNat_ne_zero.mpr hz, ?_,
        fun lo => Grows.refl ho⟩
      rw [fblock, hslot, ptr_mem hr]
      exact dptr_direct _ _ ⟨bn, hlt⟩
  · have hj : bn - NDIRECT < NINDIRECT := by
      simp only [MAXFILE, NDIRECT] at *
      omega
    have hslot := slot_indirect hd
    have hIS := hI (Nat.not_lt.mp hd)
    rw [dif_neg hd, if_pos hj]
    -- the indirect block, allocated if necessary
    have hind : Runs (if (s.icache ip).d.addrs (Fin.last NDIRECT) = 0 then (do
          let b ← balloc sb ROOTDEV
          setDinode ip fun d => d.setAddr (Fin.last NDIRECT) (BitVec.ofNat 32 b)
          pure b)
        else pure ((s.icache ip).d.addrs (Fin.last NDIRECT)).toNat) s
        (fun a t => Edits sb ip 0 s t ∧ a ≠ 0 ∧
          ptr (mem sb t ip) ((s.icache ip).inum, INDIRECT) = a ∧
          ∀ lo, Grows sb (s.icache ip).inum lo [] S (mem sb s ip) (mem sb t ip))
        (fun e => LogStop sb s (owes sb s.lh (indirect s ip) + 1) e ∨
          (e = .panic .balloc ∧ Short sb s ip S)) := by
      refine Runs.ite (fun hz => ?_) fun hz => ?_
      · exact (balloc_setAddr_runs L hr ho hz hIS).mono
          (fun b t h => ⟨h.1.1.mono (by rw [if_pos rfl]), hne0 b h.2.1, h.2.2⟩)
          fun e he => he.imp_left fun h => h.mono (Nat.le_succ _)
      · refine Runs.pure ⟨Edits.refl s, toNat_ne_zero.mpr hz, ?_, fun lo => Grows.refl ho⟩
        rw [ptr_mem hr]
        exact dptr_indirect _ _
    refine Runs.bind hind fun a t hat => ?_
    obtain ⟨he, ha0, hp, hg⟩ := hat
    have hrt := he.ready hr
    have hot := (hg 0).owned
    have hda : IsData sb a := by
      rw [← hp]
      exact hot.owner.inside _ (by rw [hp]; exact ha0)
    rw [← he.inum] at hp
    have hentry := ptr_mem_entry hrt hj hda ha0 hp
    refine Runs.bind_ok (bread_ok t (L.lt_fssize hda.2)) (Runs.ite (fun hz => ?_) fun hz => ?_)
    · rw [hz] at hentry
      rw [hslot] at hS
      refine (balloc_setEntry_runs L hrt hot hj ha0 hp hentry hS).mono
        (fun b u hbu => ?_) fun e hstop => ?_
      · obtain ⟨⟨he', hc⟩, hb, hp', hg'⟩ := hbu
        rw [he.inum] at hp' hg'
        refine ⟨(he.trans he').mono (by rw [hc]), hne0 b hb, by rw [fblock, hslot]; exact hp', fun lo => ?_⟩
        exact (hg lo).trans (hg' lo)
      · refine hstop.imp (fun h => (he.logStop h).mono (by omega)) fun h => ⟨h.1, ?_⟩
        have hshort := h.2
        have hb := (hg 0).balance
        rw [Short, he.inum] at hshort
        rw [Short]
        omega
    · refine Runs.pure ⟨he.mono (Nat.zero_le _), toNat_ne_zero.mpr hz, ?_, hg⟩
      rw [fblock, hslot, ← he.inum]
      exact hentry

/-- A block that the file has is answered as it is. -/
theorem bmap_found (L : Layout sb) (hr : Ready sb s ip)
    (ho : Owned sb (mem sb s ip)) (hb : fblock (mem sb s ip) (s.icache ip).inum bn ≠ 0) :
    Runs (bmap sb ip bn) s
      (fun b t => b = fblock (mem sb s ip) (s.icache ip).inum bn ∧ t = s) E := by
  have hslot := hb
  rw [fblock, ptr_mem hr] at hslot
  refine bind_inode ?_
  rw [hr.dev, fblock, ptr_mem hr]
  by_cases hd : bn < NDIRECT
  · have hlt : bn < NDIRECT + 1 := Nat.lt_succ_of_lt hd
    have haddr : dptr (view sb s.disk) (s.icache ip).d (slot bn) =
        ((s.icache ip).d.addrs ⟨bn, hlt⟩).toNat := by
      rw [slot, if_pos hd]
      exact dptr_direct _ _ ⟨bn, hlt⟩
    rw [haddr] at hslot ⊢
    rw [dif_pos hd]
    exact Runs.ite (fun hz => absurd hz (toNat_ne_zero.mp hslot)) fun _ => Runs.pure ⟨rfl, rfl⟩
  · have hsl := slot_indirect hd
    have hlast : (s.icache ip).d.addrs (Fin.last NDIRECT) ≠ 0 := fun hz => hslot (by
      rw [hsl, dptr, dif_neg (by omega), if_pos hz])
    have hj : bn - NDIRECT < NINDIRECT := Nat.not_le.mp fun hle => hslot (by
      rw [hsl, dptr, dif_neg (by omega), if_neg hlast, if_neg (by omega)])
    have hda : IsData sb ((s.icache ip).d.addrs (Fin.last NDIRECT)).toNat := by
      have h := ho.owner.inside ((s.icache ip).inum, INDIRECT)
      rw [ptr_mem hr, dptr_indirect] at h
      exact h (toNat_ne_zero.mpr hlast)
    rw [hsl, dptr_entry _ _ hj hlast, view_data_eq _ hda] at hslot ⊢
    rw [dif_neg hd, if_pos hj, if_neg hlast]
    refine Runs.bind_ok rfl (Runs.bind_ok (bread_ok s (L.lt_fssize hda.2)) ?_)
    exact Runs.ite (fun hz => absurd hz (toNat_ne_zero.mp hslot)) fun _ => Runs.pure ⟨rfl, rfl⟩

/-! ### Reading -/

theorem isData_fblock (ho : Owned sb v) (hb : fblock v i bn ≠ 0) :
    IsData sb (fblock v i bn) := ho.owner.inside _ hb

theorem slice_eq (hx : v.data (fblock v i (off / BSIZE)) = x) (hm : off % BSIZE + m ≤ BSIZE) :
    x.slice (off % BSIZE) m = (List.range m).map fun k => fbyte v i (off + k) := by
  refine map_congr_left fun k hk => ?_
  have hk := mem_range.mp hk
  have hdiv : (off + k) / BSIZE = off / BSIZE := by
    simp only [BSIZE] at *
    omega
  have hmod : (off + k) % BSIZE = off % BSIZE + k := by
    simp only [BSIZE] at *
    omega
  rw [fbyte, hdiv, hx, hmod]

theorem readi_from_runs (off n : Nat) (L : Layout sb) (hr : Ready sb s ip)
    (ho : Owned sb (mem sb s ip)) (hfuel : n ≤ fuel)
    (hb : ∀ pos, off ≤ pos → pos < off + n →
      fblock (mem sb s ip) (s.icache ip).inum (pos / BSIZE) ≠ 0) :
    Runs (readi_from sb ip fuel off n) s
      (fun r t => r = (List.range n).map (fun k => fbyte (mem sb s ip) (s.icache ip).inum (off + k)) ∧
        t = s) E := by
  induction fuel generalizing off n with
  | zero =>
    have hn : n = 0 := Nat.le_zero.mp hfuel
    exact Runs.pure ⟨by rw [hn]; rfl, rfl⟩
  | succ fuel ih =>
    rw [readi_from]
    refine Runs.ite (fun hn => Runs.pure ⟨by rw [hn]; rfl, rfl⟩) fun hn => ?_
    have hbo := hb off (Nat.le_refl _) (by omega)
    have hda := isData_fblock ho hbo
    refine bind_inode
      (Runs.bind (bmap_found L hr ho hbo) fun b t hbt => ?_)
    rw [hbt.1, hbt.2, hr.dev]
    refine Runs.bind_ok (bread_ok s (L.lt_fssize hda.2)) ?_
    -- one chunk, up to the end of the block, and the rest
    generalize hm : min n (BSIZE - off % BSIZE) = m
    have hmod : off % BSIZE < BSIZE := Nat.mod_lt _ (by decide)
    have hmn : m ≤ n := by omega
    have hm0 : 0 < m := by omega
    refine Runs.bind (ih (off + m) (n - m) (by omega) fun pos h1 h2 =>
      hb pos (by omega) (by omega)) fun rest u hu => Runs.pure ⟨?_, hu.2⟩
    have hsplit : List.range n = List.range m ++ (List.range (n - m)).map (m + ·) := by
      rw [← range_add, Nat.add_sub_cancel' hmn]
    rw [slice_eq (v := mem sb s ip) (i := (s.icache ip).inum) (view_data_eq _ hda) (by omega), hu.1,
      hsplit, map_append, map_map]
    congr 1
    refine map_congr_left fun k _ => ?_
    rw [Function.comp_apply, Nat.add_assoc]

theorem take_drop_range {α : Type} (f : Nat → α) (N off n : Nat) :
    (((List.range N).map f).drop off).take n =
      (List.range (min n (N - off))).map fun k => f (off + k) := by
  refine ext_getElem (by simp) fun k _ _ => ?_
  simp

/-- `readi` answers the bytes of the contents from `off` on, and changes nothing. -/
theorem readi_runs (L : Layout sb) (hr : Ready sb s ip)
    (ho : Owned sb (mem sb s ip)) (hs : Solid (mem sb s ip)) (ht : (s.icache ip).d.type ≠ T_DEV)
    (hoff : off < 2 ^ 32) (hn : n < 2 ^ 32) :
    Runs (readi sb ip off n) s
      (fun r t => r = (if (s.icache ip).d.size.toNat < off ∨ 2 ^ 32 ≤ off + n then none
        else some (((content (mem sb s ip) (s.icache ip).inum).drop off).take n)) ∧ t = s) E := by
  have hwrap : (off + n) % 2 ^ 32 < off ↔ 2 ^ 32 ≤ off + n := by omega
  have htab := mem_tab sb s ip
  refine bind_inode ?_
  rw [if_neg ht]
  refine Runs.ite (fun hbad => Runs.pure ⟨(if_pos (hbad.imp_right hwrap.mp)).symm, rfl⟩)
    fun hgood => ?_
  rw [hwrap] at hgood
  rw [if_neg hgood]
  -- the length is cut at the end of the file
  have hlen : (if (s.icache ip).d.size.toNat < off + n then (s.icache ip).d.size.toNat - off else n) =
      min n ((s.icache ip).d.size.toNat - off) := by
    split <;> omega
  rw [hlen]
  refine Runs.bind (readi_from_runs _ _ L hr ho (Nat.le_refl _) fun pos h1 h2 => hs.holes _ pos ?_ ?_)
    fun r t hrt => Runs.pure ⟨?_, hrt.2⟩
  · rw [htab]
    exact hr.type
  · rw [htab]
    omega
  · rw [hrt.1, content, htab, take_drop_range]

/-! ### Writing -/

/-- How many blocks the bytes `[off, off + n)` are spread over. -/
def blocks (off n : Nat) : Nat := if n = 0 then 0 else (off % BSIZE + n - 1) / BSIZE + 1

/-- The pointers `S` are enough to reach the bytes `[off, off + n)`. -/
def Covers (S : Finset Nat) (off n : Nat) : Prop :=
  ∀ pos, off ≤ pos → pos < off + n →
    slot (pos / BSIZE) ∈ S ∧ (NDIRECT ≤ pos / BSIZE → INDIRECT ∈ S)

theorem Grows.short_before
    (h : Grows sb i lo src S v v') (hs : (free sb v').card < (missing v' i S).card) :
    (free sb v).card < (missing v i S).card := by
  have := h.balance
  omega

/-- One block of `writei`'s loop: the bytes are stored where `bmap` points. -/
theorem store_block_runs (L : Layout sb) (ho : Owned sb (mem sb s ip))
    (chunk : List Byte) (hb : fblock (mem sb s ip) (s.icache ip).inum (off / BSIZE) = b)
    (hb0 : b ≠ 0) (hfit : off % BSIZE + chunk.length ≤ BSIZE) :
    Runs (do store b fun bp => bp.blit (off % BSIZE) chunk; log_write sb b) s
      (fun _ s' => Edits sb ip (cost s.lh b) s s' ∧ s'.icache = s.icache ∧
        Grows sb (s.icache ip).inum off chunk S (mem sb s ip) (mem sb s' ip))
      (LogStop sb s 0) := by
  have hda : IsData sb b := by
    rw [← hb]
    exact isData_fblock ho (by rw [hb]; exact hb0)
  refine (store_log_runs sb s b _).post fun _ t ⟨ht, hd, htl⟩ => ?_
  have hv : view sb t.disk = (view sb s.disk).setData b
      (((view sb s.disk).data b).blit (off % BSIZE) chunk) := by
    rw [hd, view_data L _ hda, view_data_eq _ hda]
  have hmem : mem sb t ip = (mem sb s ip).setData b
      (((mem sb s ip).data b).blit (off % BSIZE) chunk) := by
    rw [mem, ht.icache, hv]
    rfl
  refine ⟨Edits.of_stored ht (by rw [hv]; rfl) (by rw [htl]; exact record_owes_le ..), ht.icache, ?_⟩
  rw [hmem]
  exact grows_store ho hb hb0 hfit

theorem writei_from_runs (off : Nat) (src : List Byte) (L : Layout sb) (hr : Ready sb s ip)
    (ho : Owned sb (mem sb s ip)) (hfuel : src.length ≤ fuel)
    (hmax : off + src.length ≤ MAXFILE * BSIZE) (hS : Covers S off src.length) :
    Runs (writei_from sb ip fuel off src) s
      (fun r t => r = off + src.length ∧ Edits sb ip (blocks off src.length) s t ∧
        Grows sb (s.icache ip).inum off src S (mem sb s ip) (mem sb t ip) ∧
        ((∀ pos, off ≤ pos → pos < off + src.length →
          fblock (mem sb s ip) (s.icache ip).inum (pos / BSIZE) ≠ 0) → t.icache = s.icache))
      (fun e => 0 < src.length ∧ (LogStop sb s (owes sb s.lh (indirect s ip) + blocks off src.length) e ∨
        (e = .panic .balloc ∧ Short sb s ip S))) := by
  induction fuel generalizing s off src with
  | zero =>
    have hnil : src = [] := length_eq_zero_iff.mp (Nat.le_zero.mp hfuel)
    rw [hnil]
    exact Runs.pure ⟨rfl, (Edits.refl s).mono (Nat.zero_le _), Grows.refl ho, fun _ => rfl⟩
  | succ fuel ih =>
    rw [writei_from]
    refine Runs.ite (fun hnil => ?_) fun hne => ?_
    · rw [hnil]
      exact Runs.pure ⟨rfl, (Edits.refl s).mono (Nat.zero_le _), Grows.refl ho, fun _ => rfl⟩
    have hlen : 0 < src.length := length_pos_iff.mpr hne
    have hmod : off % BSIZE < BSIZE := Nat.mod_lt _ (by decide)
    -- the chunk that fits into the block at `off`
    generalize hm : min src.length (BSIZE - off % BSIZE) = m
    have hm0 : 0 < m := by omega
    have hchunk : (src.take m).length = m := by rw [length_take]; omega
    have hrest : (src.drop m).length = src.length - m := length_drop
    have hblocks : blocks off src.length = 1 + blocks (off + m) (src.length - m) := by
      simp only [blocks, BSIZE] at *
      split <;> split <;> omega
    have hbn : off / BSIZE < MAXFILE := by
      simp only [MAXFILE, NDIRECT, NINDIRECT, BSIZE] at *
      omega
    obtain ⟨hSo, hIo⟩ := hS off (Nat.le_refl _) (by omega)
    have hbmap : Runs (bmap sb ip (off / BSIZE)) s
        (fun b t => Edits sb ip (1 - cost t.lh b) s t ∧ b ≠ 0 ∧
          fblock (mem sb t ip) (s.icache ip).inum (off / BSIZE) = b ∧
          Grows sb (s.icache ip).inum off [] S (mem sb s ip) (mem sb t ip) ∧
          (fblock (mem sb s ip) (s.icache ip).inum (off / BSIZE) ≠ 0 → t.icache = s.icache))
        (fun e => LogStop sb s (owes sb s.lh (indirect s ip) + 1) e ∨
          (e = .panic .balloc ∧ Short sb s ip S)) := by
      by_cases hz : fblock (mem sb s ip) (s.icache ip).inum (off / BSIZE) = 0
      · exact (bmap_runs L hr ho hbn hSo hIo).post fun b t ⟨he, hb0, hb, hg⟩ =>
          ⟨he, hb0, hb, hg off, fun h => absurd hz h⟩
      · refine (bmap_found L hr ho hz).post fun b t hbt => ?_
        rw [hbt.1, hbt.2]
        exact ⟨(Edits.refl s).mono (Nat.zero_le _), hz, rfl, Grows.refl ho, fun _ => rfl⟩
    refine bind_inode (Runs.bind (hbmap.stops fun e he =>
      ⟨hlen, he.imp_left fun h => h.mono (by omega)⟩) fun b t ⟨ht, hb0, hb, hgt, htic⟩ => ?_)
    have hdb : IsData sb b := by
      rw [← hb]
      exact isData_fblock hgt.owned (by rw [hb]; exact hb0)
    rw [hr.dev]
    refine Runs.bind_ok (bread_ok t (L.lt_fssize hdb.2)) ?_
    -- `store; log_write` as one step
    have hstore := store_block_runs (S := S) L hgt.owned (src.take m)
      (by rw [ht.inum]; exact hb) hb0 (by omega)
    rw [ht.inum] at hstore
    refine (?_ : Runs (do
      (do store b fun bp => bp.blit (off % BSIZE) (src.take m); log_write sb b)
      writei_from sb ip fuel (off + m) (src.drop m)) t _ _)
    have hcost := cost_le t.lh b
    refine Runs.bind (hstore.stops fun e he =>
      ⟨hlen, .inl ((ht.logStop (he.mono (Nat.zero_le (_ + 0)))).mono (by omega))⟩)
      fun _ u ⟨hu, huic, hgu⟩ => ?_
    have hsu := ht.trans hu
    have hg := hgt.trans hgu
    rw [nil_append] at hg
    have hrec := ih (off + m) (src.drop m) (hsu.ready hr) hg.owned (by omega)
      (by rw [hrest]; omega) fun pos h1 h2 => hS pos (by omega) (by rw [hrest] at h2; omega)
    rw [hsu.inum, hrest] at hrec
    refine hrec.mono (fun r w ⟨hoff, hw, hgw, hic⟩ => ⟨by omega, ?_, ?_, fun hall => ?_⟩)
      fun e he => ?_
    · exact (hsu.trans hw).mono (by omega)
    · have := hg.trans (by rw [hchunk]; exact hgw)
      rwa [take_append_drop] at this
    · -- no block is missing: the inode stays as it is all the way
      have hu' : u.icache = s.icache := huic.trans (htic (hall off (Nat.le_refl _) (by omega)))
      refine (hic fun pos h1 h2 => ?_).trans hu'
      have hz := hall pos (by omega) (by omega)
      rw [hg.put.keep _ _ hz]
      exact hz
    · refine ⟨hlen, he.2.imp (fun h => (hsu.logStop h).mono (by omega)) fun ⟨h, hshort⟩ => ⟨h, ?_⟩⟩
      rw [Short, hsu.inum] at hshort
      exact hg.short_before hshort

end Xv6.Fs
