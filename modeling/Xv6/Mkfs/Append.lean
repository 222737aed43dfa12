import Xv6.Mkfs.Image
import Xv6.Fs.Format

/-! What `iappend` does to the image.

While the image is built the free map is not written yet: the blocks in use are those below
`freeblock`. Seen so, every image on the way is well formed, also in the loop of `iappend`, where the
inode in memory is ahead of the one in the image. -/
namespace Xv6.Mkfs
open Lib Fs Function

variable {s t : Image} {i b bn off : Nat} {din : Dinode} {v w : View} {N : Nat → Node} {S : Finset Nat}

/-! ### Sectors -/

/-- The image with a sector written. -/
def Image.put (s : Image) (b : Nat) (x : Block) : Image := {s with sectors := update s.sectors b x}

/-- The image after `freeblock++`. -/
def Image.next (s : Image) : Image := {s with freeblock := s.freeblock + 1}

theorem seek_eq (h : b < 8388608) : seek b = b := by
  rw [seek, Nat.mod_eq_of_lt (by simp only [BSIZE]; omega), Nat.mul_div_cancel _ (by decide)]

theorem rsect_ok (hl : s.length = FSSIZE) (hb : b < FSSIZE) : rsect b s = .ok (s.sectors b, s) := by
  have hseek : seek b = b := seek_eq (by simp only [FSSIZE] at hb; omega)
  show (if seek b < s.length then (Pure.pure (s.sectors (seek b)) : M Block) else throw .perror) s = _
  rw [hseek, if_pos (by rw [hl]; exact hb)]
  rfl

theorem rsect_end (hl : s.length = FSSIZE) : rsect FSSIZE s = .error .perror := by
  show (if seek FSSIZE < s.length then (Pure.pure (s.sectors (seek FSSIZE)) : M Block) else throw .perror) s = _
  rw [seek_eq (by decide), if_neg (by rw [hl]; exact Nat.lt_irrefl _)]
  rfl

theorem wsect_ok (hl : s.length = FSSIZE) (hb : b < FSSIZE) (x : Block) :
    wsect b x s = .ok ((), s.put b x) := by
  have hseek : seek b = b := seek_eq (by simp only [FSSIZE] at hb; omega)
  have hmax : max s.length (b + 1) = s.length := by omega
  show Except.ok ((), {s with
    sectors := update s.sectors (seek b) x
    length := max s.length (seek b + 1)}) = _
  rw [hseek, hmax]
  rfl

/-! ### Views -/

/-- The view of an image, the blocks below `freeblock` being in use. -/
def Image.view (s : Image) : View := {Fs.view sb s.sectors with used := fun b => decide (b < s.freeblock)}

/-- The same, with inode `i` as it is in memory: `din`, and its size `off`. -/
def Image.ahead (s : Image) (i : Nat) (din : Dinode) (off : Nat) : View :=
  s.view.setTab i {din with size := BitVec.ofNat 32 off}

theorem nextblock_ok (s : Image) : nextblock s = .ok (BitVec.ofNat 32 s.freeblock, s.next) := rfl

theorem view_wsect (s : Image) (x : Block) (hb : IsData sb b) :
    (s.put b x).view = s.view.setData b x := by
  rw [Image.view, Image.put, view_data layout_mkfs x hb]
  rfl

theorem view_winode (s : Image) (d : Dinode) (hi : i < NINODES) :
    (s.put (IBLOCK i sb) (d.write (s.sectors (IBLOCK i sb)) (i % IPB))).view = s.view.setTab i d := by
  rw [Image.view, Image.put, view_inode layout_mkfs d hi]
  rfl

theorem view_nextblock (s : Image) :
    s.next.view = s.view.setUsed s.freeblock true := by
  refine View.ext rfl ?_ rfl
  funext c
  show decide (c < s.freeblock + 1) = update (fun b => decide (b < s.freeblock)) s.freeblock true c
  by_cases hc : c = s.freeblock
  · rw [hc, update_self, decide_eq_true (Nat.lt_succ_self _)]
  · rw [update_of_ne hc]
    refine decide_eq_decide.mpr ?_
    omega

theorem winode_ok (hl : s.length = FSSIZE) (hi : i < NINODES) (d : Dinode) :
    winode i d s = .ok ((), s.put (IBLOCK i sb) (d.write (s.sectors (IBLOCK i sb)) (i % IPB))) := by
  have hlt : IBLOCK i sb < FSSIZE := (layout_mkfs.iblock_not_data hi).trans (by decide)
  rw [winode, bind_of_ok (rsect_ok hl hlt), wsect_ok hl hlt]

theorem rinode_ok (hl : s.length = FSSIZE) (hi : i < NINODES) : rinode i s = .ok (s.view.tab i, s) := by
  have hlt : IBLOCK i sb < FSSIZE := (layout_mkfs.iblock_not_data hi).trans (by decide)
  have htab : s.view.tab i = Dinode.read (s.sectors (IBLOCK i sb)) (i % IPB) := if_pos hi
  rw [rinode, bind_of_ok (rsect_ok hl hlt), htab]
  rfl

/-! ### Taking the next block -/

/-- The image `s`, seen as `v`: the blocks in use are those below `freeblock`, and the others are as
they were at the start. -/
structure Tidy (s : Image) (v : View) : Prop where
  length : s.length = FSSIZE
  low : nmeta ≤ s.freeblock
  high : s.freeblock ≤ FSSIZE
  owned : Owned sb v
  used : ∀ b, v.used b = decide (b < s.freeblock)
  data : ∀ b, IsData sb b → v.data b = s.sectors b
  fresh : ∀ b, s.freeblock ≤ b → v.data b = Bytes.zero

namespace Tidy

theorem unused (h : Tidy s v) (hb : s.freeblock ≤ b) : v.used b = false := by
  rw [h.used, decide_eq_false (Nat.not_lt.mpr hb)]

theorem ptr_ne (h : Tidy s v) (hb : s.freeblock ≤ b) (x : Nat × Nat) : ptr v x ≠ b := by
  intro he
  have hb0 : b ≠ 0 := Nat.ne_of_gt (Nat.lt_of_lt_of_le (by decide) (h.low.trans hb))
  have hd : IsData sb b := he ▸ h.owned.owner.inside x (by rw [he]; exact hb0)
  exact h.owned.owner.unmarked hd (h.unused hb) x he

theorem claim (h : Tidy s v) (hc : Claims sb v w x s.freeblock) (hl : t.length = s.length)
    (hf : t.freeblock = s.freeblock + 1) (hd : ∀ b, IsData sb b → w.data b = t.sectors b) : Tidy t w where
  length := hl.trans h.length
  low := by
    have := h.low
    omega
  high := by
    have hlt : s.freeblock < FSSIZE := hc.data_block.2
    omega
  owned := hc.owned layout_mkfs h.owned
  used b := by
    rw [hc.used, hf]
    by_cases hb : b = s.freeblock
    · rw [hb, update_self, decide_eq_true (Nat.lt_succ_self _)]
    · rw [update_of_ne hb, h.used]
      refine decide_eq_decide.mpr ?_
      omega
  data := hd
  fresh b hb := by
    rw [hc.data b (by omega) fun j => h.ptr_ne (by omega) _]
    exact h.fresh b (by omega)

end Tidy

/-- `freeblock++` into an address of the inode. -/
theorem claims_address (h : Tidy s (s.ahead i din off)) (hU : s.freeblock < FSSIZE)
    (h0 : din.type ≠ 0) (hz : din.addrs a = 0) :
    Claims sb (s.ahead i din off) (s.next.ahead i (din.setAddr a (BitVec.ofNat 32 s.freeblock)) off)
      (i, a) s.freeblock := by
  have htab : (s.ahead i din off).tab i = {din with size := BitVec.ofNat 32 off} := update_self ..
  have hview : s.next.ahead i (din.setAddr a (BitVec.ofNat 32 s.freeblock)) off =
      (taken (s.ahead i din off) s.freeblock).setTab i
        (Dinode.setAddr {din with size := BitVec.ofNat 32 off} a (BitVec.ofNat 32 s.freeblock)) := by
    rw [Image.ahead, view_nextblock]
    refine View.ext (update_idem ..).symm rfl ?_
    show s.view.data = update (s.ahead i din off).data s.freeblock Bytes.zero
    rw [← h.fresh _ (Nat.le_refl _), update_eq_self]
    rfl
  have hb : IsData sb s.freeblock := ⟨h.low, hU⟩
  have hu := h.unused (Nat.le_refl _)
  rw [hview]
  by_cases hlast : a = Fin.last NDIRECT
  · subst hlast
    exact claims_indirect layout_mkfs h.owned hb hu htab h0 hz
  · exact claims_direct layout_mkfs h.owned hb hu htab h0 hlast hz

/-- `freeblock++` into an entry of the indirect block `a`. -/
theorem claims_word (h : Tidy s (s.ahead i din off)) (hU : s.freeblock < FSSIZE)
    (ha : ptr (s.ahead i din off) (i, INDIRECT) = a) (ha0 : a ≠ 0) (hj : j < NINDIRECT)
    (hz : ptr (s.ahead i din off) (i, NDIRECT + 1 + j) = 0) :
    Claims sb (s.ahead i din off)
      ((s.next.put a ((s.sectors a).putWord32 (4 * j) (BitVec.ofNat 32 s.freeblock))).ahead i din off)
      (i, NDIRECT + 1 + j) s.freeblock := by
  have hda : IsData sb a := ha ▸ h.owned.owner.inside _ (by rw [ha]; exact ha0)
  have hne : a ≠ s.freeblock := fun he => h.ptr_ne (Nat.le_refl _) _ (ha.trans he)
  have hsect : (taken (s.ahead i din off) s.freeblock).data a = s.sectors a :=
    (update_of_ne hne ..).trans (h.data a hda)
  have hview : (s.next.put a ((s.sectors a).putWord32 (4 * j) (BitVec.ofNat 32 s.freeblock))).ahead i din off =
      (taken (s.ahead i din off) s.freeblock).setData a
        (((taken (s.ahead i din off) s.freeblock).data a).putWord32 (4 * j) (BitVec.ofNat 32 s.freeblock)) := by
    rw [hsect, Image.ahead, view_wsect _ _ hda, view_nextblock]
    refine View.ext rfl rfl ?_
    show _ = update (update (s.ahead i din off).data s.freeblock Bytes.zero) a _
    rw [← h.fresh _ (Nat.le_refl _), update_eq_self]
    rfl
  rw [hview]
  exact claims_entry layout_mkfs h.owned ⟨h.low, hU⟩ (h.unused (Nat.le_refl _)) ha ha0 hj hz

/-! ### The block at the end of the file -/

theorem ptr_ahead (h0 : din.type ≠ 0) (k : Nat) : ptr (s.ahead i din off) (i, k) = dptr s.view din k :=
  ptr_setTab_self h0

theorem ptr_ahead_indirect (h0 : din.type ≠ 0) :
    ptr (s.ahead i din off) (i, INDIRECT) = (din.addrs (Fin.last NDIRECT)).toNat := ptr_ahead h0 _

theorem isData_indirect (h : Tidy s (s.ahead i din off)) (h0 : din.type ≠ 0)
    (hlast : din.addrs (Fin.last NDIRECT) ≠ 0) : IsData sb (din.addrs (Fin.last NDIRECT)).toNat := by
  rw [← ptr_ahead_indirect h0]
  refine h.owned.owner.inside _ ?_
  rw [ptr_ahead_indirect h0]
  exact toNat_ne_zero.mpr hlast

theorem ptr_ahead_entry (h : Tidy s (s.ahead i din off)) (h0 : din.type ≠ 0)
    (hlast : din.addrs (Fin.last NDIRECT) ≠ 0) (hbn : bn < MAXFILE) (hd : ¬ bn < NDIRECT) :
    fblock (s.ahead i din off) i bn =
      ((s.sectors (din.addrs (Fin.last NDIRECT)).toNat).word32 (4 * (bn - NDIRECT))).toNat := by
  have hj : bn - NDIRECT < NINDIRECT := by
    simp only [MAXFILE, NDIRECT] at *
    omega
  rw [fblock, slot_indirect hd, ptr_ahead h0, dptr_entry _ _ hj hlast]
  congr 2
  exact view_data_eq _ (isData_indirect h h0 hlast)

/-- How many blocks are to be allocated for block `bn` of file `i`. -/
def lacks (v : View) (i bn : Nat) : Nat :=
  (if fblock v i bn = 0 then 1 else 0) + (if NDIRECT ≤ bn ∧ ptr v (i, INDIRECT) = 0 then 1 else 0)

/-- The inode in memory is given blocks for the pointers `S`. -/
structure Maps (S : Finset Nat) (i off : Nat) (s : Image) (din : Dinode) (t : Image) (din' : Dinode) : Prop where
  tidy : Tidy t (t.ahead i din' off)
  fields : din' = {din with addrs := din'.addrs}
  tab : t.view.tab = s.view.tab
  grows : Grows sb i off [] S (s.ahead i din off) (t.ahead i din' off)

theorem Maps.refl (h : Tidy s (s.ahead i din off)) : Maps S i off s din s din :=
  ⟨h, rfl, rfl, Grows.refl h.owned⟩

theorem Maps.trans (h : Maps S i off s din t din')
    (h' : Maps S i off t din' u din'') : Maps S i off s din u din'' :=
  ⟨h'.tidy, by rw [h'.fields, h.fields], h'.tab.trans h.tab, h.grows.trans h'.grows⟩

theorem maps_address (h : Tidy s (s.ahead i din off)) (hU : s.freeblock < FSSIZE)
    (h0 : din.type ≠ 0) (hz : din.addrs a = 0) (hS : (a : Nat) ∈ S) :
    Maps S i off s din s.next (din.setAddr a (BitVec.ofNat 32 s.freeblock)) :=
  have hc := claims_address h hU h0 hz
  ⟨h.claim hc rfl rfl fun _ hb => if_pos hb, rfl, rfl, hc.grows layout_mkfs h.owned hS⟩

theorem toNat_freeblock (h : s.freeblock ≤ FSSIZE) : (BitVec.ofNat 32 s.freeblock).toNat = s.freeblock := by
  rw [BitVec.toNat_ofNat]
  refine Nat.mod_eq_of_lt ?_
  simp only [FSSIZE] at h
  omega

/-- The image is too small for block `bn` of the file. -/
def Full (s : Image) (v : View) (i bn : Nat) : Prop := FSSIZE < s.freeblock + lacks v i bn

/-- `iappend` has the block, or the one it has taken is past the end of the image. -/
def BlockFound (S : Finset Nat) (i off bn : Nat) (s : Image) (din : Dinode) (r : Dinode × Nat) (t : Image) : Prop :=
  (Maps S i off s din t r.1 ∧ r.2 ≠ 0 ∧ fblock (t.ahead i r.1 off) i bn = r.2 ∧
    t.freeblock = s.freeblock + lacks (s.ahead i din off) i bn) ∨
  (Full s (s.ahead i din off) i bn ∧ t.length = FSSIZE ∧ r.2 = FSSIZE)

section Block
variable (h : Tidy s (s.ahead i din off)) (h0 : din.type ≠ 0)
include h h0

theorem direct_runs (hd : bn < NDIRECT) (hS : slot bn ∈ S) :
    Runs (iappend_block din bn) s (BlockFound S i off bn s din) fun _ => Full s (s.ahead i din off) i bn := by
  have hslot : slot bn = bn := if_pos hd
  have hblock : fblock (s.ahead i din off) i bn = (din.addrs ⟨bn, Nat.lt_succ_of_lt hd⟩).toNat := by
    rw [fblock, hslot, ptr_ahead h0]
    exact dptr_direct _ _ ⟨bn, Nat.lt_succ_of_lt hd⟩
  have hlacks : lacks (s.ahead i din off) i bn = if fblock (s.ahead i din off) i bn = 0 then 1 else 0 := by
    have hno : ¬ (NDIRECT ≤ bn ∧ ptr (s.ahead i din off) (i, INDIRECT) = 0) := fun h => Nat.not_lt.mpr h.1 hd
    rw [lacks, if_neg hno, Nat.add_zero]
  rw [hblock] at hlacks
  rw [iappend_block, dif_pos hd]
  refine Runs.ite (fun hz => Runs.bind_ok (nextblock_ok s) (Runs.pure ?_)) fun hz => Runs.pure (.inl ?_)
  · rw [hz] at hlacks
    rw [BlockFound, Full, hlacks, toNat_freeblock h.high]
    by_cases hU : s.freeblock < FSSIZE
    · rw [hslot] at hS
      refine .inl ⟨maps_address h hU h0 hz hS, ?_, ?_, rfl⟩
      · exact fun he => not_isData_zero layout_mkfs (he ▸ ⟨h.low, hU⟩)
      · rw [fblock, hslot, (claims_address h hU h0 hz).pointers]
        exact update_self ..
    · exact .inr ⟨Nat.lt_succ_of_le (Nat.not_lt.mp hU), h.length, Nat.le_antisymm h.high (Nat.not_lt.mp hU)⟩
  · have hne := toNat_ne_zero.mpr hz
    rw [if_neg hne] at hlacks
    exact ⟨Maps.refl h, hne, hblock, by rw [hlacks]; rfl⟩

/-- The indirect block, allocated if there is none. -/
theorem indirect_address_runs (hd : ¬ bn < NDIRECT) (hI : INDIRECT ∈ S) :
    Runs (if din.addrs (Fin.last NDIRECT) = 0 then (do
        let b ← nextblock
        pure (din.setAddr (Fin.last NDIRECT) b))
      else pure din) s
      (fun d t => (Maps S i off s din t d ∧ d.addrs (Fin.last NDIRECT) ≠ 0 ∧
          fblock (t.ahead i d off) i bn = fblock (s.ahead i din off) i bn ∧
          t.freeblock + (if fblock (s.ahead i din off) i bn = 0 then 1 else 0) =
            s.freeblock + lacks (s.ahead i din off) i bn) ∨
        (Full s (s.ahead i din off) i bn ∧ t.length = FSSIZE ∧ (d.addrs (Fin.last NDIRECT)).toNat = FSSIZE))
      fun _ => False := by
  have hlacks : lacks (s.ahead i din off) i bn = (if fblock (s.ahead i din off) i bn = 0 then 1 else 0) +
      if din.addrs (Fin.last NDIRECT) = 0 then 1 else 0 := by
    rw [lacks, ptr_ahead_indirect h0]
    congr 1
    refine if_congr ?_ rfl rfl
    rw [and_iff_right (Nat.not_lt.mp hd), ← not_iff_not]
    exact toNat_ne_zero
  refine Runs.ite (fun hz => Runs.bind_ok (nextblock_ok s) (Runs.pure ?_)) fun hz => Runs.pure (.inl ?_)
  · rw [if_pos hz] at hlacks
    by_cases hU : s.freeblock < FSSIZE
    · have hc := claims_address h hU h0 hz
      refine .inl ⟨maps_address h hU h0 hz hI, ?_, ?_, ?_⟩
      · rw [Dinode.setAddr_self, ← toNat_ne_zero, toNat_freeblock h.high]
        exact fun he => not_isData_zero layout_mkfs (he ▸ hc.data_block)
      · rw [fblock, hc.pointers]
        exact update_of_ne (fun he => slot_ne_indirect _ (Prod.ext_iff.mp he).2) ..
      · show s.freeblock + 1 + _ = _
        rw [hlacks]
        omega
    · refine .inr ⟨?_, h.length, ?_⟩
      · rw [Full, hlacks]
        omega
      · rw [Dinode.setAddr_self, toNat_freeblock h.high]
        exact Nat.le_antisymm h.high (Nat.not_lt.mp hU)
  · rw [if_neg hz, Nat.add_zero] at hlacks
    exact ⟨Maps.refl h, hz, rfl, by rw [hlacks]⟩

theorem indirect_runs (hbn : bn < MAXFILE) (hd : ¬ bn < NDIRECT) (hS : slot bn ∈ S) (hI : INDIRECT ∈ S) :
    Runs (iappend_block din bn) s (BlockFound S i off bn s din) fun _ => Full s (s.ahead i din off) i bn := by
  have hj : bn - NDIRECT < NINDIRECT := by
    simp only [MAXFILE, NDIRECT] at *
    omega
  rw [iappend_block, dif_neg hd]
  refine Runs.bind ((indirect_address_runs h h0 hd hI).stops fun _ he => he.elim) fun d t hdt => ?_
  rcases hdt with ⟨hm, hlast, hblock, hcount⟩ | ⟨hfull, hl, hlast⟩
  case inr =>
    rw [hlast]
    exact Runs.bind (R := fun _ _ => False) (Runs.of_eq_error (rsect_end hl) hfull) fun _ _ h => h.elim
  have hd0 : d.type ≠ 0 := by rw [hm.fields]; exact h0
  have hda := isData_indirect hm.tidy hd0 hlast
  have hentry := ptr_ahead_entry hm.tidy hd0 hlast hbn hd
  have hind : ptr (t.ahead i d off) (i, INDIRECT) = _ := ptr_ahead_indirect hd0
  refine Runs.bind_ok (rsect_ok hm.tidy.length hda.2) (Runs.ite (fun hz => ?_) fun hz => Runs.pure (.inl ?_))
  · rw [hz] at hentry
    have hone : (if fblock (s.ahead i din off) i bn = 0 then 1 else 0) = 1 := if_pos (hblock ▸ hentry)
    rw [hone] at hcount
    have hl : t.next.length = FSSIZE := hm.tidy.length
    refine Runs.bind_ok (nextblock_ok t) (Runs.bind_ok (wsect_ok hl hda.2 _) (Runs.pure ?_))
    rw [BlockFound, Full, ← hcount, toNat_freeblock hm.tidy.high]
    by_cases hU : t.freeblock < FSSIZE
    · rw [fblock, slot_indirect hd] at hentry
      have hc := claims_word hm.tidy hU hind (toNat_ne_zero.mpr hlast) hj hentry
      rw [← slot_indirect hd] at hc
      have htidy := hm.tidy.claim (t := t.next.put _ _) hc rfl rfl fun _ hb => if_pos hb
      refine .inl ⟨hm.trans ⟨htidy, rfl, by rw [view_wsect t.next _ hda]; rfl,
        hc.grows layout_mkfs hm.tidy.owned hS⟩, ?_, ?_, rfl⟩
      · exact fun he => not_isData_zero layout_mkfs (he ▸ hc.data_block)
      · rw [fblock, hc.pointers]
        exact update_self ..
    · exact .inr ⟨Nat.lt_succ_of_le (Nat.not_lt.mp hU), hm.tidy.length,
        Nat.le_antisymm hm.tidy.high (Nat.not_lt.mp hU)⟩
  · have hne := toNat_ne_zero.mpr hz
    have hzero : (if fblock (s.ahead i din off) i bn = 0 then 1 else 0) = 0 :=
      if_neg (by rw [← hblock, hentry]; exact hne)
    rw [hzero] at hcount
    exact ⟨hm, hne, hentry, hcount⟩

theorem iappend_block_runs (hbn : bn < MAXFILE) (hS : slot bn ∈ S) (hI : NDIRECT ≤ bn → INDIRECT ∈ S) :
    Runs (iappend_block din bn) s (BlockFound S i off bn s din) fun _ => Full s (s.ahead i din off) i bn := by
  by_cases hd : bn < NDIRECT
  · exact direct_runs h h0 hd hS
  · exact indirect_runs h h0 hbn hd hS (hI (Nat.not_lt.mp hd))

end Block

/-! ### The loop -/

/-- How many blocks a file of `size` bytes takes, its indirect block included. -/
def blocksFor (size : Nat) : Nat := (size + BSIZE - 1) / BSIZE + if NDIRECT * BSIZE < size then 1 else 0

theorem blocksFor_mono (h : m ≤ n) : blocksFor m ≤ blocksFor n := by
  have hdiv : (m + BSIZE - 1) / BSIZE ≤ (n + BSIZE - 1) / BSIZE := Nat.div_le_div_right (by omega)
  rw [blocksFor, blocksFor]
  split <;> split <;> omega

/-- The image `s`, seen as `v`, is well formed and holds the inodes `N`. -/
structure Built (s : Image) (v : View) (N : Nat → Node) : Prop where
  tidy : Tidy s v
  formed : Formed sb v
  node : node v = N

/-- A file with a block past the direct ones has an indirect block. -/
theorem indirect_of_fblock (hb : fblock v i bn ≠ 0) (hd : ¬ bn < NDIRECT) : ptr v (i, INDIRECT) ≠ 0 := by
  have h0 : (v.tab i).type ≠ 0 := fun h => hb (if_pos h)
  rw [fblock, slot_indirect hd, ptr_of_type h0, dptr, dif_neg (by omega)] at hb
  rw [ptr_of_type h0, dptr_indirect, toNat_ne_zero]
  exact fun hz => hb (if_pos hz)

/-- What the next bytes of a file take is what the file then takes more. -/
theorem lacks_add_blocksFor (h : Formed sb v) (h0 : (v.tab i).type ≠ 0)
    (hsize : (v.tab i).size.toNat = off) (hn : 0 < n) (hfit : off % BSIZE + n ≤ BSIZE) :
    lacks v i (off / BSIZE) + blocksFor off = blocksFor (off + n) := by
  have hblock : fblock v i (off / BSIZE) = 0 ↔ off % BSIZE = 0 := by
    refine ⟨fun hz => by_contra fun hne => ?_, fun hz => by_contra fun hne => ?_⟩
    · have hpos : 0 < off := Nat.pos_of_ne_zero fun h => hne (by rw [h]; rfl)
      have hdiv : (off - 1) / BSIZE = off / BSIZE := by
        simp only [BSIZE] at *
        omega
      exact h.solid.holes i (off - 1) h0 (by omega) (by rw [hdiv]; exact hz)
    · have hneed := h.trim.needed i _ hne
      rw [hsize, needs_slot] at hneed
      simp only [BSIZE] at *
      omega
  have hindirect : NDIRECT ≤ off / BSIZE ∧ ptr v (i, INDIRECT) = 0 ↔ off = NDIRECT * BSIZE := by
    refine ⟨fun ⟨hle, hz⟩ => ?_, fun he => ⟨by rw [he]; decide, by_contra fun hne => ?_⟩⟩
    · have hge : NDIRECT * BSIZE ≤ off := (Nat.le_div_iff_mul_le (by decide)).mp hle
      refine Nat.le_antisymm (Nat.not_lt.mp fun hlt => ?_) hge
      have hb := h.solid.holes i (NDIRECT * BSIZE) h0 (by omega)
      rw [Nat.mul_div_cancel _ (by decide)] at hb
      exact indirect_of_fblock hb (Nat.lt_irrefl _) hz
    · have hneed := h.trim.needed i _ hne
      rw [hsize, Needs, if_pos rfl] at hneed
      omega
  rw [lacks, if_congr hblock rfl rfl, if_congr hindirect rfl rfl, blocksFor, blocksFor]
  simp only [BSIZE, NDIRECT] at *
  split <;> split <;> split <;> split <;> omega

/-- The file `i` is longer by `src`, stored at its end, once the inode has the new size. -/
theorem formed_append (h : Formed sb v) (h0 : (v.tab i).type ≠ 0)
    (hsize : (v.tab i).size.toNat = off) (hg : Grows sb i off src (pointers off src.length) v w)
    (hother : ∀ j, j ≠ i → w.tab j = v.tab j) (hfields : w.tab i = {v.tab i with addrs := (w.tab i).addrs})
    (hmax : off + src.length ≤ MAXFILE * BSIZE) :
    Formed sb (w.setTab i {w.tab i with size := BitVec.ofNat 32 (off + src.length)}) ∧
      node (w.setTab i {w.tab i with size := BitVec.ofNat 32 (off + src.length)}) =
        update (node v) i {node v i with data := (node v i).data ++ src} := by
  have h0w : (w.tab i).type ≠ 0 := by rw [hfields]; exact h0
  have hptr : ptr (w.setTab i {w.tab i with size := BitVec.ofNat 32 (off + src.length)}) = ptr w :=
    ptr_setTab_fields h0w h0w rfl
  have hput : Put v (w.setTab i {w.tab i with size := BitVec.ofNat 32 (off + src.length)}) i off src :=
    hg.put.congr hptr rfl
  have htab : PutTab v (w.setTab i {w.tab i with size := BitVec.ofNat 32 (off + src.length)}) i off src.length := by
    refine ⟨fun j hj => ?_, ?_, ?_⟩
    · rw [View.setTab_tab, update_of_ne hj, hother j hj]
    · rw [View.setTab_tab, update_self, hfields]
    · rw [View.setTab_tab, update_self, hsize, BitVec.toNat_ofNat, Nat.mod_eq_of_lt]
      · omega
      · simp only [MAXFILE, NDIRECT, NINDIRECT, BSIZE] at hmax
        omega
  have hoff : off ≤ (v.tab i).size.toNat := Nat.le_of_eq hsize.symm
  refine ⟨⟨owned_retab hptr hg.owned, solid_put hput htab h.solid hmax h0 hoff, ?_⟩, ?_⟩
  · exact trim_put htab h0 (by rw [hptr]; exact hg.only) h.trim
  · have hdata : (node v i).data.length = off := by
      rw [node, if_neg h0, length_content, hsize]
    rw [node_put hput htab h.solid h0 hoff, Node.write, splice, ← hdata, List.take_length,
      List.drop_eq_nil_of_le (Nat.le_add_right _ _), List.append_nil]

/-- The image does not have room for the bytes that a file of `off` bytes is to grow by. -/
def NoRoom (s : Image) (off n : Nat) : Prop :=
  FSSIZE + blocksFor off < s.freeblock + blocksFor (off + n) ∨ MAXFILE * BSIZE < off + n

/-- The inodes, with bytes appended to file `i`. -/
def append (N : Nat → Node) (i : Nat) (p : List Byte) : Nat → Node :=
  update N i {N i with data := (N i).data ++ p}

theorem append_append (N : Nat → Node) (i : Nat) (p q : List Byte) :
    append (append N i p) i q = append N i (p ++ q) := by
  simp only [append, update_idem, update_self, List.append_assoc]

theorem append_nil (N : Nat → Node) (i : Nat) : append N i [] = N := by
  rw [append, List.append_nil]
  exact update_eq_self ..

theorem assert_runs {α : Type} {c : Prop} [Decidable c] {f : Unit → M α} {Q : α → Image → Prop} {E : Exit → Prop}
    (hf : c → Runs (f ()) s Q E) (he : ¬ c → E .assertion) : Runs (assert c >>= f) s Q E := by
  by_cases hc : c
  · have hok : assert c s = .ok ((), s) := by
      rw [assert, if_pos hc]
      rfl
    exact Runs.bind_ok hok (hf hc)
  · have herr : assert c s = .error .assertion := by
      rw [assert, if_neg hc]
      rfl
    exact Runs.of_eq_error (bind_of_error herr) (he hc)

theorem size_ahead (hoff : off ≤ MAXFILE * BSIZE) : ((s.ahead i din off).tab i).size.toNat = off := by
  rw [Image.ahead, View.setTab_tab, update_self, BitVec.toNat_ofNat]
  refine Nat.mod_eq_of_lt ?_
  simp only [MAXFILE, NDIRECT, NINDIRECT, BSIZE] at hoff
  omega

theorem type_ahead : ((s.ahead i din off).tab i).type = din.type := by
  rw [Image.ahead, View.setTab_tab, update_self]

/-- The bytes are stored in the block that was found, and the size goes up. -/
theorem Maps.store (h : Built s (s.ahead i din off) N) (h0 : din.type ≠ 0)
    (hm : Maps (pointers off p.length) i off s din t d) (hx : fblock (t.ahead i d off) i (off / BSIZE) = x)
    (hx0 : x ≠ 0) (hfit : off % BSIZE + p.length ≤ BSIZE) (hmax : off + p.length ≤ MAXFILE * BSIZE) :
    Built (t.put x ((t.sectors x).blit (off % BSIZE) p))
      ((t.put x ((t.sectors x).blit (off % BSIZE) p)).ahead i d (off + p.length)) (append N i p) := by
  have hda : IsData sb x := hx ▸ isData_fblock hm.tidy.owned (by rw [hx]; exact hx0)
  have hdata : (t.ahead i d off).data x = t.sectors x := hm.tidy.data x hda
  have hg := hm.grows.trans (grows_store hm.tidy.owned hx hx0 hfit)
  rw [List.nil_append, hdata] at hg
  have hview : (t.put x ((t.sectors x).blit (off % BSIZE) p)).ahead i d (off + p.length) =
      ((t.ahead i d off).setData x ((t.sectors x).blit (off % BSIZE) p)).setTab i
        {(t.ahead i d off).tab i with size := BitVec.ofNat 32 (off + p.length)} := by
    rw [Image.ahead, Image.ahead, view_wsect _ _ hda, View.setTab_tab, update_self]
    exact (setTab_setTab (t.view.setData x _) i _ _).symm
  have hother : ∀ j, j ≠ i → (t.ahead i d off).tab j = (s.ahead i din off).tab j := fun j hj => by
    rw [Image.ahead, Image.ahead, View.setTab_tab, View.setTab_tab, hm.tab, update_of_ne hj,
      update_of_ne hj]
  have hfields : (t.ahead i d off).tab i =
      {(s.ahead i din off).tab i with addrs := ((t.ahead i d off).tab i).addrs} := by
    rw [Image.ahead, Image.ahead, View.setTab_tab, View.setTab_tab, update_self, update_self,
      hm.fields]
  obtain ⟨hf, hn⟩ := formed_append h.formed (by rw [type_ahead]; exact h0) (size_ahead (by omega)) hg hother
    hfields hmax
  rw [hview]
  refine ⟨⟨hm.tidy.length, hm.tidy.low, hm.tidy.high, hf.owned, hm.tidy.used, ?_, fun b hb => ?_⟩, hf, ?_⟩
  · rw [← hview]
    exact fun b hb => if_pos hb
  · have hne : b ≠ x := fun he => hm.tidy.ptr_ne hb (i, slot (off / BSIZE)) (hx.trans he.symm)
    exact (update_of_ne hne ..).trans (hm.tidy.fresh b hb)
  · rw [append, ← h.node]
    exact hn

/-- The loop appends the bytes, or the program ends because there is no room for them. -/
theorem iappend_from_runs (p : List Byte) (h : Built s (s.ahead i din off) N) (h0 : din.type ≠ 0)
    (hoff : off ≤ MAXFILE * BSIZE) (hfuel : p.length ≤ fuel) :
    Runs (iappend_from fuel din off p) s
      (fun r t => r.2 = off + p.length ∧ Built t (t.ahead i r.1 r.2) (append N i p) ∧
        t.freeblock + blocksFor off = s.freeblock + blocksFor (off + p.length))
      fun _ => NoRoom s off p.length := by
  induction fuel generalizing s din off p N with
  | zero =>
    have hnil : p = [] := List.length_eq_zero_iff.mp (Nat.le_zero.mp hfuel)
    rw [hnil, append_nil]
    exact Runs.pure ⟨rfl, h, rfl⟩
  | succ fuel ih =>
    rw [iappend_from]
    refine Runs.ite (fun hnil => ?_) fun hne => ?_
    · rw [hnil, append_nil]
      exact Runs.pure ⟨rfl, h, rfl⟩
    have hlen : 0 < p.length := List.length_pos_iff.mpr hne
    refine assert_runs (fun hbn => ?_) fun hbn => .inr ?_
    case refine_2 =>
      have hle : MAXFILE * BSIZE ≤ off := (Nat.le_div_iff_mul_le (by decide)).mp (Nat.not_lt.mp hbn)
      omega
    -- the bytes that fit into the block at `off`
    have hroom : (off / BSIZE + 1) * BSIZE - off = BSIZE - off % BSIZE := by
      simp only [BSIZE]
      omega
    have hpos : off - off / BSIZE * BSIZE = off % BSIZE := by
      simp only [BSIZE]
      omega
    rw [hroom, hpos]
    generalize hm : min p.length (BSIZE - off % BSIZE) = m
    have hmod : off % BSIZE < BSIZE := Nat.mod_lt _ (by decide)
    have htake : (p.take m).length = m := by
      rw [List.length_take]
      omega
    have hdrop : (p.drop m).length = p.length - m := List.length_drop
    have hfit : off % BSIZE + m ≤ BSIZE := by omega
    have hmax : off + m ≤ MAXFILE * BSIZE := by
      simp only [BSIZE] at *
      omega
    have hlacks := lacks_add_blocksFor (n := m) h.formed (by rw [type_ahead]; exact h0) (size_ahead hoff) (by omega) hfit
    have hgrow : blocksFor (off + m) ≤ blocksFor (off + p.length) := blocksFor_mono (by omega)
    have hfull : Full s (s.ahead i din off) i (off / BSIZE) → NoRoom s off p.length := fun hf => .inl (by
      rw [Full] at hf
      omega)
    obtain ⟨hS, hI⟩ := covers_pointers off m off (Nat.le_refl _) (by omega)
    refine Runs.bind ((iappend_block_runs h.tidy h0 hbn hS hI).stops fun _ => hfull) fun r t hr => ?_
    rcases hr with ⟨hmaps, hx0, hx, hcount⟩ | ⟨hf, hl, hx⟩
    case inr =>
      show Runs (rsect r.2 >>= _) t _ _
      rw [hx]
      exact Runs.of_eq_error (bind_of_error (rsect_end hl)) (hfull hf)
    have hda : IsData sb r.2 := hx ▸ isData_fblock hmaps.tidy.owned (by rw [hx]; exact hx0)
    refine Runs.bind_ok (rsect_ok hmaps.tidy.length hda.2) (Runs.bind_ok (wsect_ok hmaps.tidy.length hda.2 _) ?_)
    rw [← htake] at hmaps hfit hmax
    have hb := hmaps.store h h0 hx hx0 hfit hmax
    rw [htake] at hb hmaps hmax
    have hcount' : (t.put r.2 ((t.sectors r.2).blit (off % BSIZE) (p.take m))).freeblock + blocksFor off =
        s.freeblock + blocksFor (off + m) := by
      show t.freeblock + _ = _
      omega
    have hrest : off + m + (p.length - m) = off + p.length := by omega
    have hd0 : r.1.type ≠ 0 := by rw [hmaps.fields]; exact h0
    refine (ih (p.drop m) hb hd0 hmax (by omega)).mono (fun r' u hu => ?_) fun _ hno => ?_
    · rw [append_append, List.take_append_drop, hdrop, hrest] at hu
      exact ⟨hu.1, hu.2.1, by omega⟩
    · rw [NoRoom, hdrop, hrest] at hno
      exact hno.imp_left (by omega)

theorem winode_runs (h : Built s (s.view.setTab i d) N) (hi : i < NINODES) :
    Runs (winode i d) s
      (fun _ t => Built t t.view N ∧ t.freeblock = s.freeblock ∧ t.freeinode = s.freeinode) E := by
  refine Runs.of_eq_ok (winode_ok h.tidy.length hi d) ⟨?_, rfl, rfl⟩
  have hview := view_winode s d hi
  refine ⟨⟨h.tidy.length, h.tidy.low, h.tidy.high, ?_, fun _ => rfl, fun _ hb => if_pos hb, ?_⟩, ?_, ?_⟩
  all_goals rw [hview]
  · exact h.tidy.owned
  · exact h.tidy.fresh
  · exact h.formed
  · exact h.node

/-- `iappend` appends the bytes to the file. -/
theorem iappend_runs (p : List Byte) (h : Built s s.view N) (hi : i < NINODES) (h0 : (N i).type ≠ 0) :
    Runs (iappend i p) s
      (fun _ t => Built t t.view (append N i p) ∧
        t.freeblock + blocksFor (N i).data.length = s.freeblock + blocksFor ((N i).data.length + p.length))
      fun _ => NoRoom s (N i).data.length p.length := by
  have h0v : (s.view.tab i).type ≠ 0 := fun hz => h0 (by rw [← h.node]; exact node_type_zero.mpr hz)
  have hsize : (N i).data.length = (s.view.tab i).size.toNat := by
    rw [← h.node, node, if_neg h0v, length_content]
  have hahead : s.ahead i (s.view.tab i) (s.view.tab i).size.toNat = s.view := by
    rw [Image.ahead, BitVec.ofNat_toNat, BitVec.setWidth_eq]
    simp only [View.setTab, update_eq_self]
  rw [hsize]
  refine Runs.bind_ok (rinode_ok h.tidy.length hi) (Runs.bind
    (iappend_from_runs p (by rw [hahead]; exact h) h0v (h.formed.solid.size i h0v) (Nat.le_refl _)) fun r t hr => ?_)
  obtain ⟨hr2, hb, hcount⟩ := hr
  refine (winode_runs hb hi).post fun _ u hu => ?_
  rw [hu.2.1]
  exact ⟨hu.1, hcount⟩

end Xv6.Mkfs
