import Xv6.Lib.Owner
import Xv6.Fs.View
import Mathlib.Data.Finset.Card

/-! Block ownership, seen on a view.

An inode's pointers are numbered: 0 to 11 are its direct addresses, 12 its
indirect address, and from 13 on the entries of its indirect block. `Owned` says
that the free map and the pointers of all allocated inodes agree. The lemmas
below say what one store does to the pointers: at most one of them changes. -/
namespace Xv6.Fs
open Lib Function

/-- The number of the indirect address. -/
abbrev INDIRECT : Nat := NDIRECT

/-- Pointer `k` of an inode. -/
def dptr (v : View) (d : Dinode) (k : Nat) : Nat :=
  if h : k < NDIRECT + 1 then (d.addrs ⟨k, h⟩).toNat
  else if d.addrs (Fin.last NDIRECT) = 0 then 0
  else if k < NDIRECT + 1 + NINDIRECT then
    ((v.data (d.addrs (Fin.last NDIRECT)).toNat).word32 (4 * (k - (NDIRECT + 1)))).toNat
  else 0

/-- Pointer `x.2` of inode `x.1`; a free inode has none. -/
def ptr (v : View) (x : Nat × Nat) : Nat :=
  if (v.tab x.1).type = 0 then 0 else dptr v (v.tab x.1) x.2

/-- The free map marks the metadata, and the data blocks that have a pointer to
them; and no block has two. -/
structure Owned (sb : Superblock) (v : View) : Prop where
  metadata : ∀ b, b < nmeta sb → v.used b = true
  owner : Owner (IsData sb) v.used (ptr v)

/-- The free blocks. -/
def free (sb : Superblock) (v : View) : Finset Nat :=
  (Finset.range sb.size).filter fun b => v.used b = false

/-- Those of the pointers `S` of inode `i` that are not set. -/
def missing (v : View) (i : Nat) (S : Finset Nat) : Finset Nat :=
  S.filter fun k => ptr v (i, k) = 0

/-! ### Pointers -/

theorem dptr_indirect (v : View) (d : Dinode) :
    dptr v d INDIRECT = (d.addrs (Fin.last NDIRECT)).toNat := rfl

theorem dptr_direct (v : View) (d : Dinode) (k : Fin (NDIRECT + 1)) :
    dptr v d k = (d.addrs k).toNat := dif_pos k.isLt

theorem dptr_entry (v : View) (d : Dinode) (hj : j < NINDIRECT)
    (h : d.addrs (Fin.last NDIRECT) ≠ 0) :
    dptr v d (NDIRECT + 1 + j) =
      ((v.data (d.addrs (Fin.last NDIRECT)).toNat).word32 (4 * j)).toNat := by
  rw [dptr, dif_neg (by omega), if_neg h, if_pos (by omega), Nat.add_sub_cancel_left]

theorem dptr_congr (ha : d'.addrs = d.addrs) (hd : d.addrs (Fin.last NDIRECT) ≠ 0 →
      v'.data (d.addrs (Fin.last NDIRECT)).toNat = v.data (d.addrs (Fin.last NDIRECT)).toNat)
    (k : Nat) : dptr v' d' k = dptr v d k := by
  unfold dptr
  rw [ha]
  by_cases hk : k < NDIRECT + 1
  · rw [dif_pos hk, dif_pos hk]
  · rw [dif_neg hk, dif_neg hk]
    by_cases hz : d.addrs (Fin.last NDIRECT) = 0
    · rw [if_pos hz, if_pos hz]
    · rw [if_neg hz, if_neg hz, hd hz]

theorem ptr_of_type (h : (v.tab i).type ≠ 0) :
    ptr v (i, k) = dptr v (v.tab i) k := if_neg h

theorem toNat_ne_zero {w : Nat} {x : BitVec w} : x.toNat ≠ 0 ↔ x ≠ 0 := by
  rw [Ne, Ne, ← BitVec.toNat_inj]
  rfl

theorem ptr_congr (ht : ∀ i, ((v'.tab i).type = 0 ↔ (v.tab i).type = 0))
    (ha : ∀ i, (v.tab i).type ≠ 0 → (v'.tab i).addrs = (v.tab i).addrs)
    (hd : ∀ i, ptr v (i, INDIRECT) ≠ 0 →
      v'.data (ptr v (i, INDIRECT)) = v.data (ptr v (i, INDIRECT))) :
    ptr v' = ptr v := by
  funext ⟨i, k⟩
  by_cases h0 : (v.tab i).type = 0
  · rw [ptr, ptr, if_pos h0, if_pos ((ht i).mpr h0)]
  · have h0' : (v'.tab i).type ≠ 0 := fun h => h0 ((ht i).mp h)
    rw [ptr_of_type h0, ptr_of_type h0']
    refine dptr_congr (ha i h0) (fun hz => ?_) k
    have := hd i
    rw [ptr_of_type h0, dptr_indirect] at this
    exact this (toNat_ne_zero.mpr hz)

/-! ### What a store does to the pointers -/

theorem ptr_setTab_self (h0 : d.type ≠ 0) :
    ptr (v.setTab i d) (i, k) = dptr v d k := by
  rw [ptr, View.setTab_tab, update_self, if_neg h0]
  rfl

theorem ptr_setTab_other (hj : j ≠ i) :
    ptr (v.setTab i d) (j, k) = ptr v (j, k) := by
  rw [ptr, View.setTab_tab, update_of_ne hj]
  rfl

theorem ptr_setDirect (hd : v.tab i = d)
    (h0 : d.type ≠ 0) (hk : k ≠ Fin.last NDIRECT) (hb : b < 2 ^ 32) :
    ptr (v.setTab i (d.setAddr k (BitVec.ofNat 32 b))) =
      update (ptr v) (i, k) b := by
  funext ⟨j, l⟩
  by_cases hj : j = i
  · subst hj
    rw [ptr_setTab_self (by exact h0)]
    by_cases hl : l = k
    · subst hl
      rw [update_self, dptr_direct, Dinode.setAddr_self,
        BitVec.toNat_ofNat, Nat.mod_eq_of_lt hb]
    · have hne : (j, l) ≠ (j, (k : Nat)) := fun he => hl (Prod.ext_iff.mp he).2
      rw [update_of_ne hne, ptr_of_type (by rw [hd]; exact h0), hd]
      unfold dptr
      by_cases hl13 : l < NDIRECT + 1
      · have hlk : (⟨l, hl13⟩ : Fin (NDIRECT + 1)) ≠ k := fun he => hl (by rw [← he])
        rw [dif_pos hl13, dif_pos hl13, Dinode.setAddr_other _ _ hlk]
      · rw [dif_neg hl13, dif_neg hl13, Dinode.setAddr_other _ _ hk.symm]
  · have hne : (j, l) ≠ (i, (k : Nat)) := fun he => hj (Prod.ext_iff.mp he).1
    rw [update_of_ne hne, ptr_setTab_other hj]

theorem ptr_setIndirect (hd : v.tab i = d) (h0 : d.type ≠ 0)
    (hz : d.addrs (Fin.last NDIRECT) = 0) (hb : b < 2 ^ 32) (hdata : v.data b = Bytes.zero) :
    ptr (v.setTab i (d.setAddr (Fin.last NDIRECT) (BitVec.ofNat 32 b))) =
      update (ptr v) (i, INDIRECT) b := by
  have hnat : (BitVec.ofNat 32 b).toNat = b := by rw [BitVec.toNat_ofNat, Nat.mod_eq_of_lt hb]
  funext ⟨j, l⟩
  by_cases hj : j = i
  · subst hj
    rw [ptr_setTab_self (by exact h0)]
    by_cases hl : l = INDIRECT
    · subst hl
      rw [update_self, dptr_indirect, Dinode.setAddr_self, hnat]
    · have hne : (j, l) ≠ (j, INDIRECT) := fun he => hl (Prod.ext_iff.mp he).2
      rw [update_of_ne hne, ptr_of_type (by rw [hd]; exact h0), hd]
      unfold dptr
      by_cases hl13 : l < NDIRECT + 1
      · have hlk : (⟨l, hl13⟩ : Fin (NDIRECT + 1)) ≠ Fin.last NDIRECT := fun he =>
          hl (congrArg Fin.val he)
        rw [dif_pos hl13, dif_pos hl13, Dinode.setAddr_other _ _ hlk]
      · rw [dif_neg hl13, dif_neg hl13, if_pos hz]
        simp only [Dinode.setAddr_self, hnat, hdata, Bytes.word32_zero]
        split
        · rfl
        · split <;> rfl
  · have hne : (j, l) ≠ (i, INDIRECT) := fun he => hj (Prod.ext_iff.mp he).1
    rw [update_of_ne hne, ptr_setTab_other hj]

theorem ptr_setEntry (ha : ptr v (i, INDIRECT) = a) (ha0 : a ≠ 0)
    (honce : ∀ i', ptr v (i', INDIRECT) = a → i' = i) (hj : j < NINDIRECT) (hb : b < 2 ^ 32) :
    ptr (v.setData a ((v.data a).putWord32 (4 * j) (BitVec.ofNat 32 b))) =
      update (ptr v) (i, NDIRECT + 1 + j) b := by
  have hj128 : j < 128 := hj
  funext ⟨i', k⟩
  by_cases h0 : (v.tab i').type = 0
  · have hne : (i', k) ≠ (i, NDIRECT + 1 + j) := fun he => ha0 (by
      rw [← ha, ← show i' = i from (Prod.ext_iff.mp he).1]
      exact if_pos h0)
    rw [update_of_ne hne, ptr, ptr, View.setData_tab, if_pos h0, if_pos h0]
  by_cases hi : i' = i
  · subst hi
    rw [ptr_of_type h0, dptr_indirect] at ha
    have hlast : (v.tab i').addrs (Fin.last NDIRECT) ≠ 0 :=
      toNat_ne_zero.mp (by rw [ha]; exact ha0)
    rw [ptr_of_type (by exact h0), View.setData_tab]
    by_cases hk : k = NDIRECT + 1 + j
    · subst hk
      rw [update_self, dptr_entry _ _ hj hlast, ha, View.setData_data, update_self,
        Bytes.word32_putWord32 _ _ _ (by simp only [BSIZE]; omega), BitVec.toNat_ofNat,
        Nat.mod_eq_of_lt hb]
    · have hne : (i', k) ≠ (i', NDIRECT + 1 + j) := fun he => hk (Prod.ext_iff.mp he).2
      rw [update_of_ne hne, ptr_of_type h0]
      unfold dptr
      by_cases hk13 : k < NDIRECT + 1
      · rw [dif_pos hk13, dif_pos hk13]
      · rw [dif_neg hk13, dif_neg hk13, if_neg hlast, if_neg hlast]
        simp only [ha, View.setData_data, update_self]
        rw [Bytes.putWord32, Bytes.word32_put_other _ _ _ _ _ (by omega)]
  · have hne : (i', k) ≠ (i, NDIRECT + 1 + j) := fun he => hi (Prod.ext_iff.mp he).1
    rw [update_of_ne hne, ptr_of_type h0, ptr_of_type (by exact h0), View.setData_tab]
    refine dptr_congr rfl (fun _ => update_of_ne (fun he => hi (honce i' ?_)) _ _) k
    rw [ptr_of_type h0, dptr_indirect, he]

end Xv6.Fs
