import Xv6.Fs.Ownership

/-! The inode cache is write-through, and files have no holes.

`Exact` says that a file has just the blocks that its size asks for, and `Trim` is the
half of it that `Good` does not have. Both are kept by every call, also by reads; so a
read finds all its blocks and never changes the disk. -/
namespace Xv6.Fs
open Lib

variable {sb : Superblock} {s s' s0 : State} {ip : Ptr} {i off n : Nat}

/-! ### Exactly the blocks that are needed -/

/-- How many blocks hold `size` bytes. -/
def blockCount (size : Nat) : Nat := (size + BSIZE - 1) / BSIZE

structure Exact (v : View) : Prop where
  blocks : ∀ i bn, (v.tab i).type ≠ 0 → bn < MAXFILE →
    (fblock v i bn ≠ 0 ↔ bn < blockCount (v.tab i).size.toNat)
  indirect : ∀ i, (v.tab i).type ≠ 0 →
    ((v.tab i).addrs (Fin.last NDIRECT) ≠ 0 ↔ NDIRECT < blockCount (v.tab i).size.toNat)
  blank : ∀ i, (v.tab i).type = 0 → (v.tab i).size = 0 ∧ ∀ a, (v.tab i).addrs a = 0

theorem lt_blockCount : bn < blockCount size ↔ bn * BSIZE < size := by
  simp only [blockCount, BSIZE]
  omega

theorem exact_of_trim (hs : Solid v) (ht : Trim v) : Exact v := by
  have hblock : ∀ i bn, (v.tab i).type ≠ 0 → bn * BSIZE < (v.tab i).size.toNat → fblock v i bn ≠ 0 := by
    intro i bn h0 hbn
    have := hs.holes i (bn * BSIZE) h0 hbn
    rwa [Nat.mul_div_cancel _ (by decide)] at this
  refine ⟨fun i bn h0 _ => ?_, fun i h0 => ?_, ht.blank⟩
  · rw [lt_blockCount]
    exact ⟨fun hb => needs_slot.mp (ht.needed i _ hb), hblock i bn h0⟩
  · rw [lt_blockCount]
    constructor
    · intro ha
      have := ht.needed i INDIRECT (by rw [ptr_of_type h0, dptr_indirect]; exact toNat_ne_zero.mpr ha)
      rwa [Needs, if_pos rfl] at this
    · -- the first block behind the indirect block is there, so the indirect block is
      intro hlt ha
      refine hblock i NDIRECT h0 hlt ?_
      rw [fblock, ptr_of_type h0, slot_indirect (Nat.lt_irrefl _)]
      exact dptr_no_indirect ha (by omega)

theorem Exact.trim (hx : Exact v) : Trim v := by
  refine ⟨fun i k hk => ?_, hx.blank⟩
  have h0 : (v.tab i).type ≠ 0 := fun h => hk (if_pos h)
  by_cases hI : k = INDIRECT
  · rw [hI, ptr_of_type h0, dptr_indirect, toNat_ne_zero, hx.indirect i h0, lt_blockCount] at hk
    rw [hI, Needs, if_pos rfl]
    exact hk
  · -- the number of the file's block
    obtain ⟨bn, rfl⟩ : ∃ bn, k = slot bn := by
      by_cases hd : k < NDIRECT
      · exact ⟨k, (if_pos hd).symm⟩
      · have hI : k ≠ NDIRECT := hI
        refine ⟨k - 1, ?_⟩
        rw [slot, if_neg (by omega)]
        omega
    have hbn : bn < MAXFILE := by
      by_contra hge
      refine hk ?_
      rw [ptr_of_type h0, slot_indirect (by simp only [MAXFILE] at hge; omega), dptr, dif_neg (by omega)]
      split
      · rfl
      · exact if_neg (by simp only [MAXFILE] at hge; omega)
    rw [needs_slot, ← lt_blockCount]
    exact (hx.blocks i bn h0 hbn).mp hk

/-! ### Calls keep it -/

namespace Good

theorem trims_iput (L : Layout sb) (hg : Good sb s) (hp : Points s ip i) :
    Runs (Fs.iput sb ip) s (fun _ t => Trims sb s t) fun _ => True := by
  cases hl : (refs s i).locked with
  | true => exact Runs.of_eq_error (iput_locked (by rw [hg.locked_eq hp, hl])) trivial
  | false =>
    by_cases hk : Doomed sb s i
    · exact (iput_free_runs L hg hp hl hk).mono (fun _ _ h => h.2.2.2.2.2) fun _ _ => trivial
    · exact (iput_keep_runs hg hp hl hk).post fun _ _ h => by
        rw [Trims, h.2.1.disk]
        exact id

theorem trims_writei (L : Layout sb) (hg : Good sb s) (h : Held s ip)
    (hoff : off < 2 ^ 32) (hn : src.length < 2 ^ 32) :
    Runs (Fs.writei sb ip src off) s (fun _ t => Trims sb s t) fun _ => True := by
  obtain ⟨href, hl, hv⟩ := h
  have hp : Points s ip (s.icache ip).inum := ⟨href, rfl⟩
  by_cases ht : (nodes sb s (s.icache ip).inum).type = T_DEV
  · refine (writei_dev_runs L hg hp (by rw [← hg.locked_eq hp, hl])
      (by rw [← hg.valid_eq hp, hv]) ht).post fun _ _ h => ?_
    rw [Trims, h.2.1.disk]
    exact id
  · refine (writei_runs L hg hp hv ht hoff hn).mono (fun r t ⟨h1, h2⟩ => ?_) fun _ _ => trivial
    by_cases hr : WriteRange (nodes sb s (s.icache ip).inum).data.length off src.length
    · exact (h1 hr).2.2.2.2
    · rw [(h2 hr).2]
      exact id

theorem trims (L : Layout sb) (hg : Good sb s) {c : Call} (hc : c.Allowed sb s) :
    Runs (c.perform sb) s (fun _ t => Trims sb s t) fun _ => True := by
  have hdisk : ∀ t : State, t.disk = s.disk → Trims sb s t := fun t ht => by
    rw [Trims, ht]
    exact id
  cases c with
  | begin_op =>
    exact Runs.bind_get (Runs.ite (fun _ => Runs.throw trivial) fun _ => Runs.modify (hdisk _ rfl))
  | end_op => exact Runs.modify (hdisk _ rfl)
  | iget inum =>
    exact Runs.bind ((iget_runs hg hc).stops fun _ _ => trivial) fun _ t h =>
      Runs.pure (hdisk t h.2.1.disk)
  | ialloc type =>
    refine Runs.bind ((ialloc_runs L hg hc).stops fun _ _ => trivial) fun _ t h => Runs.pure ?_
    obtain ⟨_, _, _, _, _, _, _, _, _, _, h⟩ := h
    exact h
  | idup ip =>
    exact Runs.bind (idup_runs hg ⟨hc, rfl⟩) fun _ t h => Runs.pure (hdisk t h.2.2.1.disk)
  | ilock ip =>
    exact (ilock_runs L hg ⟨hc, rfl⟩).mono (fun _ t h => hdisk t h.2.1.disk) fun _ _ => trivial
  | iunlock ip =>
    have hp : Points s ip (s.icache ip).inum := ⟨hc, rfl⟩
    cases hl : (refs s (s.icache ip).inum).locked with
    | true => exact (iunlock_runs hg hp hl).post fun _ t h => hdisk t h.2.1.disk
    | false => exact Runs.of_eq_error (iunlock_unlocked (by rw [hg.locked_eq hp, hl])) trivial
  | iput ip => exact hg.trims_iput L ⟨hc, rfl⟩
  | writei ip src off =>
    exact Runs.bind (hg.trims_writei L hc.1 hc.2.1 hc.2.2) fun _ _ h => Runs.pure h
  | itrunc ip =>
    exact (itrunc_runs L hg ⟨hc.1, rfl⟩ hc.2.2).mono (fun _ _ h => h.2.2.2.2) fun _ _ => trivial
  | setLinks ip nlink =>
    have hp : Points s ip (s.icache ip).inum := ⟨hc.1, rfl⟩
    exact (setFields_runs L hg hp (by rw [← hg.valid_eq hp, hc.2.2]) _ _ _).mono
      (fun _ _ h => h.2.2.2) fun _ _ => trivial

end Good

/-! ### Reads -/

theorem conswait_runs (target n : Nat) (s : State) :
    Runs (conswait target n) s (fun _ t => t.icache = s.icache ∧ t.disk = s.disk) fun e => e = .asleep := by
  induction n generalizing s with
  | zero => exact Runs.pure ⟨rfl, rfl⟩
  | succ n ih =>
    refine Runs.bind_get ?_
    split
    · exact Runs.throw rfl
    · exact Runs.bind_ok rfl (Runs.pure ⟨rfl, rfl⟩)
    · rename_i c rest _
      refine Runs.ite (fun _ => Runs.bind_ok rfl (Runs.pure ?_)) fun _ => Runs.bind_ok rfl
        (Runs.ite (fun _ => Runs.pure ⟨rfl, rfl⟩) fun _ =>
          Runs.bind (ih _) fun _ t h => Runs.pure h)
      split <;> exact ⟨rfl, rfl⟩

theorem readi_dev_runs (L : Layout sb) (hg : Good sb s) (h : Held s ip)
    (ht : (nodes sb s (s.icache ip).inum).type = T_DEV) :
    Runs (readi sb ip off n) s (fun _ t => Good sb t ∧ t.disk = s.disk) fun _ => True := by
  obtain ⟨href, hl, hv⟩ := h
  have hp : Points s ip (s.icache ip).inum := ⟨href, rfl⟩
  have hl' : (refs s (s.icache ip).inum).locked = true := by rw [← hg.locked_eq hp, hl]
  rw [hg.node_eq hp hv] at ht
  refine bind_inode ?_
  rw [if_pos ht]
  refine Runs.ite (fun _ => ?_) fun _ => Runs.pure ⟨hg, rfl⟩
  refine Runs.bind (iunlock_runs hg hp hl') fun _ t ⟨hgt, hqt, hkt, _⟩ => ?_
  refine Runs.bind ((conswait_runs n n t).stops fun _ _ => trivial) fun r u ⟨hic, hdisk⟩ => ?_
  have hgu : Good sb u := by
    refine ⟨?_, ?_, ?_, ?_, ?_, ?_⟩
    · rw [hdisk]
      exact hgt.owned
    · rw [hdisk]
      exact hgt.solid
    · rw [hdisk, hic]
      exact hgt.sync
    · rw [hic]
      exact hgt.inum
    · rw [hic]
      exact hgt.once
    · rw [hic]
      exact hgt.idle
  have hpu : Points u ip (s.icache ip).inum := by
    rw [Points, hic]
    exact hkt ip _ hp
  refine Runs.bind ((ilock_runs L hgu hpu).stops fun _ _ => trivial) fun _ w hw => Runs.pure ?_
  exact ⟨hw.1, by rw [hw.2.1.disk, hdisk, hqt.disk]⟩

theorem readi_keeps_runs (L : Layout sb) (hg : Good sb s) (h : Held s ip) (hoff : off < 2 ^ 32)
    (hn : n < 2 ^ 32) :
    Runs (readi sb ip off n) s (fun _ t => Good sb t ∧ t.disk = s.disk) fun _ => True := by
  by_cases ht : (nodes sb s (s.icache ip).inum).type = T_DEV
  · exact readi_dev_runs L hg h ht
  · refine (readi_node_runs L hg ⟨h.1, rfl⟩ h.2.2 ht hoff hn).post fun _ t hts => ?_
    rw [hts.2]
    exact ⟨hg, rfl⟩

/-! ### Runs -/

/-- A call that may change an inode, or a read. -/
inductive Access where
  | call (c : Call)
  | readi (ip : Ptr) (off n : Nat)

namespace Access

def Allowed (sb : Superblock) (s : State) : Access → Prop
  | call c => c.Allowed sb s
  | readi ip off n => Held s ip ∧ off < 2 ^ 32 ∧ n < 2 ^ 32

def perform (sb : Superblock) : Access → M Unit
  | call c => c.perform sb
  | readi ip off n => do let _ ← Fs.readi sb ip off n

instance (sb : Superblock) (s : State) (a : Access) : Decidable (a.Allowed sb s) := by
  cases a <;> unfold Allowed <;> infer_instance

def step (sb : Superblock) (s : State) (a : Access) : Option State :=
  if a.Allowed sb s then
    match a.perform sb s with
    | .ok (_, s') => some s'
    | .error _ => none
  else none

theorem of_step {a : Access} (h : a.step sb s = some s') :
    a.Allowed sb s ∧ a.perform sb s = .ok ((), s') := by
  rw [step] at h
  split at h
  · rename_i ha
    split at h
    · rename_i hx
      rw [← Option.some.inj h]
      exact ⟨ha, hx⟩
    · cases h
  · cases h

end Access

theorem Good.access (L : Layout sb) (hg : Good sb s) {a : Access} (ha : a.step sb s = some s') :
    Good sb s' ∧ Trims sb s s' := by
  obtain ⟨ha, hx⟩ := Access.of_step ha
  cases a with
  | call c => exact ⟨(hg.perform L ha).of_ok hx, (hg.trims L ha).of_ok hx⟩
  | readi ip off n =>
    have hr : Runs (do let _ ← readi sb ip off n) s (fun _ t => Good sb t ∧ t.disk = s.disk)
        fun _ => True :=
      Runs.bind (readi_keeps_runs L hg ha.1 ha.2.1 ha.2.2) fun _ _ h => Runs.pure h
    obtain ⟨hg', hd⟩ := hr.of_ok hx
    refine ⟨hg', ?_⟩
    rw [Trims, hd]
    exact id

/-- **The inode cache is write-through, and files have no holes**: after every run every inode
has just the blocks that its size asks for, every inode that was read in is as on disk, and
reading maps no block that is not there and leaves the disk as it is. -/
theorem write_through (L : Layout sb) (h0 : Good sb s0) (hx : Exact (view sb s0.disk))
    {as : List Access} (hr : run (fun s a => Access.step sb s a) s0 as = some s) :
    Exact (view sb s.disk) ∧
    (∀ ip, 0 < (s.icache ip).ref → (s.icache ip).valid = true → (s.icache ip).locked = false →
      (s.icache ip).d = (view sb s.disk).tab (s.icache ip).inum) ∧
    ∀ ip off n, Held s ip → off < 2 ^ 32 → n < 2 ^ 32 →
      (∀ bn, bn < blockCount (s.icache ip).d.size.toNat →
        ∃ b, b ≠ 0 ∧ bmap sb ip bn s = .ok (b, s)) ∧
      ((s.icache ip).d.type ≠ T_DEV → ∃ r, readi sb ip off n s = .ok (r, s)) ∧
      ∀ r t, readi sb ip off n s = .ok (r, t) → t.disk = s.disk := by
  obtain ⟨hg, ht⟩ : Good sb s ∧ Trim (view sb s.disk) := by
    refine run_invariant (I := fun _ s => Good sb s ∧ Trim (view sb s.disk)) ⟨h0, hx.trim⟩
      (fun _ t a u ⟨hgt, htt⟩ hu => ?_) hr
    obtain ⟨hgu, hk⟩ := hgt.access L hu
    exact ⟨hgu, hk htt⟩
  refine ⟨exact_of_trim hg.solid ht, fun ip href hv _ => (hg.sync ip href hv).1,
    fun ip off n hh hoff hn => ⟨fun bn hbn => ?_, fun hdev => ?_, fun r t hx => ?_⟩⟩
  · obtain ⟨hsync, htype⟩ := hg.sync ip hh.1 hh.2.2
    have hmem := hg.mem_eq hh.1 hh.2.2
    have hb : fblock (view sb s.disk) (s.icache ip).inum bn ≠ 0 := by
      have := hg.solid.holes (s.icache ip).inum (bn * BSIZE) (by rw [← hsync]; exact htype)
        (by rw [← hsync]; exact lt_blockCount.mp hbn)
      rwa [Nat.mul_div_cancel _ (by decide)] at this
    obtain ⟨b, t, hok, hbt, rfl⟩ := (bmap_found L (hg.ready hh.1 hh.2.2)
      (by rw [hmem]; exact hg.owned) (by rw [hmem]; exact hb)).answers
    exact ⟨b, by rw [hbt, hmem]; exact hb, hok⟩
  · have hnode := hg.node_eq ⟨hh.1, rfl⟩ hh.2.2
    obtain ⟨r, t, hok, _, rfl⟩ := (readi_node_runs L hg ⟨hh.1, rfl⟩ hh.2.2
      (by rw [hnode]; exact hdev) hoff hn).answers
    exact ⟨r, hok⟩
  · exact ((readi_keeps_runs L hg hh hoff hn).of_ok hx).2

set_option maxRecDepth 100000 in
theorem lone_access : (run (fun s a => Access.step Mkfs.sb s a) lone
    [.call (.writei 0 [104, 105] 0), .readi 0 0 2]).isSome = true := by
  decide +kernel

/-- Two bytes written to a file, and read. -/
theorem write_through_lone : ∃ s, run (fun s a => Access.step Mkfs.sb s a) lone
      [.call (.writei 0 [104, 105] 0), .readi 0 0 2] = some s ∧ Exact (view Mkfs.sb s.disk) := by
  obtain ⟨s, hs⟩ := Option.isSome_iff_exists.mp lone_access
  have hx := exact_of_trim laid_lone.formed.solid laid_lone.formed.trim
  exact ⟨s, hs, (write_through layout_mkfs good_lone hx hs).1⟩

end Xv6.Fs
