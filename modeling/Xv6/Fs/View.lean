import Xv6.Fs.Layout

/-! The file system's view of a disk: the inode table, the free map, the data blocks.

A store into an inode block, a bitmap block or a data block changes one entry of
one of the three and nothing else; everything above reasons about views. -/
namespace Xv6.Fs
open Lib Function

@[ext] structure View where
  tab : Nat → Dinode
  used : Nat → Bool
  data : Nat → Block

namespace View

def setTab (v : View) (i : Nat) (d : Dinode) : View := {v with tab := update v.tab i d}

def setUsed (v : View) (b : Nat) (u : Bool) : View := {v with used := update v.used b u}

def setData (v : View) (b : Nat) (x : Block) : View := {v with data := update v.data b x}

@[simp] theorem setTab_tab (v : View) (i : Nat) (d : Dinode) :
    (v.setTab i d).tab = update v.tab i d := rfl

@[simp] theorem setTab_used (v : View) (i : Nat) (d : Dinode) : (v.setTab i d).used = v.used := rfl

@[simp] theorem setTab_data (v : View) (i : Nat) (d : Dinode) : (v.setTab i d).data = v.data := rfl

@[simp] theorem setUsed_tab (v : View) (b : Nat) (u : Bool) : (v.setUsed b u).tab = v.tab := rfl

@[simp] theorem setUsed_used (v : View) (b : Nat) (u : Bool) :
    (v.setUsed b u).used = update v.used b u := rfl

@[simp] theorem setUsed_data (v : View) (b : Nat) (u : Bool) : (v.setUsed b u).data = v.data := rfl

@[simp] theorem setData_tab (v : View) (b : Nat) (x : Block) : (v.setData b x).tab = v.tab := rfl

@[simp] theorem setData_used (v : View) (b : Nat) (x : Block) : (v.setData b x).used = v.used := rfl

@[simp] theorem setData_data (v : View) (b : Nat) (x : Block) :
    (v.setData b x).data = update v.data b x := rfl

end View

/-- Is `b` a data block? -/
def IsData (sb : Superblock) (b : Nat) : Prop := nmeta sb ≤ b ∧ b < sb.size

instance (sb : Superblock) (b : Nat) : Decidable (IsData sb b) :=
  inferInstanceAs (Decidable (_ ∧ _))

def view (sb : Superblock) (disk : Disk) : View where
  tab i := if i < sb.ninodes then Dinode.read (disk (IBLOCK i sb)) (i % IPB) else .zero
  used b := decide (b < sb.size) && (disk (BBLOCK b sb)).bit (b % BPB)
  data b := if IsData sb b then disk b else Bytes.zero

variable {sb : Superblock} (L : Layout sb)
include L

namespace Layout

theorem iblock_lt (hi : i < sb.ninodes) : IBLOCK i sb < sb.bmapstart := by
  have := L.bmapstart
  have hle : i / IPB ≤ sb.ninodes / IPB := Nat.div_le_div_right (Nat.le_of_lt hi)
  rw [IBLOCK]
  omega

theorem bblock (hb : b < sb.size) : BBLOCK b sb = sb.bmapstart := by
  have := L.size
  have hz : b / BPB = 0 := Nat.div_eq_of_lt (by simp only [FSSIZE, BPB, BSIZE] at *; omega)
  rw [BBLOCK, hz, Nat.zero_add]

theorem bit_index (hb : b < sb.size) : b % BPB = b := by
  have := L.size
  exact Nat.mod_eq_of_lt (by simp only [FSSIZE, BPB, BSIZE] at *; omega)

theorem iblock_not_data (hi : i < sb.ninodes) : IBLOCK i sb < nmeta sb :=
  (L.iblock_lt hi).trans L.data

theorem iblock_ne_bmap (hi : i < sb.ninodes) : IBLOCK i sb ≠ sb.bmapstart :=
  Nat.ne_of_lt (L.iblock_lt hi)

end Layout

/-! ### Stores -/

theorem view_data (x : Block) (hb : IsData sb b) :
    view sb (update disk b x) = (view sb disk).setData b x := by
  ext1
  · funext i
    simp only [view, View.setData]
    by_cases hi : i < sb.ninodes
    · have hne : IBLOCK i sb ≠ b := Nat.ne_of_lt ((L.iblock_not_data hi).trans_le hb.1)
      rw [if_pos hi, if_pos hi, update_of_ne hne]
    · rw [if_neg hi, if_neg hi]
  · funext c
    simp only [view, View.setData]
    by_cases hc : c < sb.size
    · have hne : BBLOCK c sb ≠ b := by
        rw [L.bblock hc]
        exact Nat.ne_of_lt (L.data.trans_le hb.1)
      rw [update_of_ne hne]
    · simp [hc]
  · funext c
    simp only [view, View.setData]
    by_cases hc : c = b
    · subst hc
      rw [update_self, update_self, if_pos hb]
    · rw [update_of_ne hc, update_of_ne hc]

theorem view_inode (d : Dinode) (hi : i < sb.ninodes) :
    view sb (update disk (IBLOCK i sb) (d.write (disk (IBLOCK i sb)) (i % IPB))) =
      (view sb disk).setTab i d := by
  ext1
  · funext j
    simp only [view, View.setTab]
    by_cases hij : j = i
    · subst hij
      rw [if_pos hi, update_self, update_self]
      exact Dinode.read_write _ _ _ (Nat.mod_lt _ (by decide))
    · rw [update_of_ne hij]
      by_cases hj : j < sb.ninodes
      · rw [if_pos hj, if_pos hj]
        by_cases hb : IBLOCK j sb = IBLOCK i sb
        · rw [hb, update_self]
          refine Dinode.read_write_other _ _ _ _ fun hm => hij ?_
          rw [IBLOCK, IBLOCK, Nat.add_right_cancel_iff] at hb
          rw [← Nat.div_add_mod j IPB, ← Nat.div_add_mod i IPB, hb, hm]
        · rw [update_of_ne hb]
      · rw [if_neg hj, if_neg hj]
  · funext c
    simp only [view, View.setTab]
    by_cases hc : c < sb.size
    · rw [L.bblock hc, update_of_ne (L.iblock_ne_bmap hi).symm]
    · simp [hc]
  · funext c
    simp only [view, View.setTab]
    by_cases hc : IsData sb c
    · rw [if_pos hc, if_pos hc, update_of_ne
        (Nat.ne_of_gt ((L.iblock_not_data hi).trans_le hc.1))]
    · rw [if_neg hc, if_neg hc]

theorem view_bit (hb : b < sb.size)
    (hx : ∀ c, x.bit c = if c = b then v else (disk (BBLOCK b sb)).bit c) :
    view sb (update disk (BBLOCK b sb) x) = (view sb disk).setUsed b v := by
  rw [L.bblock hb] at hx ⊢
  ext1
  · funext j
    simp only [view, View.setUsed]
    by_cases hj : j < sb.ninodes
    · rw [if_pos hj, if_pos hj, update_of_ne (L.iblock_ne_bmap hj)]
    · rw [if_neg hj, if_neg hj]
  · funext c
    simp only [view, View.setUsed]
    by_cases hc : c < sb.size
    · rw [L.bblock hc, update_self, L.bit_index hc, hx, update_apply, L.bblock hc,
        L.bit_index hc]
      by_cases he : c = b <;> simp [he, hc, hb]
    · have hcb : c ≠ b := fun he => hc (by rw [he]; exact hb)
      rw [update_of_ne hcb]
      simp [hc]
  · funext c
    simp only [view, View.setUsed]
    by_cases hc : IsData sb c
    · rw [if_pos hc, if_pos hc, update_of_ne (Nat.ne_of_gt (L.data.trans_le hc.1))]
    · rw [if_neg hc, if_neg hc]

theorem view_setBit (disk : Disk) (hb : b < sb.size) :
    view sb (update disk (BBLOCK b sb) ((disk (BBLOCK b sb)).setBit (b % BPB))) =
      (view sb disk).setUsed b true := by
  refine view_bit L hb fun c => ?_
  have hlt : b % BPB < 8 * BSIZE := Nat.mod_lt _ (by decide)
  rw [Bytes.bit_setBit _ _ _ hlt, L.bit_index hb]
  by_cases hc : c = b
  · simp [hc]
  · simp [hc, Ne.symm hc]

theorem view_clearBit (disk : Disk) (hb : b < sb.size) :
    view sb (update disk (BBLOCK b sb) ((disk (BBLOCK b sb)).clearBit (b % BPB))) =
      (view sb disk).setUsed b false := by
  refine view_bit L hb fun c => ?_
  have hlt : b % BPB < 8 * BSIZE := Nat.mod_lt _ (by decide)
  rw [Bytes.bit_clearBit _ _ _ hlt, L.bit_index hb]
  by_cases hc : c = b
  · simp [hc]
  · simp [hc, Ne.symm hc]

end Xv6.Fs
