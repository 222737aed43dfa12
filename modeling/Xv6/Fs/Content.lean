import Xv6.Fs.Owned
import Mathlib.Data.List.GetD

/-! File contents, seen on a view.

A file is its bytes below its size. `Grows` is what a part of `writei` does:
blocks may be allocated, bytes of one file are overwritten, and nothing else
shows in any file. It composes, so that the loop's specification is the
composition of its iterations. -/
namespace Xv6.Fs
open Lib Function

/-- The number of the pointer to block `bn` of a file. -/
def slot (bn : Nat) : Nat := if bn < NDIRECT then bn else bn + 1

/-- Block `bn` of file `i`, zero when there is none. -/
def fblock (v : View) (i bn : Nat) : Nat := ptr v (i, slot bn)

/-- Byte `pos` of file `i`. -/
def fbyte (v : View) (i pos : Nat) : Byte := (v.data (fblock v i (pos / BSIZE))).get (pos % BSIZE)

/-- The contents of file `i`. -/
def content (v : View) (i : Nat) : List Byte :=
  (List.range (v.tab i).size.toNat).map (fbyte v i)

/-- No inode has a hole below its size, and none is larger than a file can be. -/
structure Solid (v : View) : Prop where
  holes : ∀ i pos, (v.tab i).type ≠ 0 → pos < (v.tab i).size.toNat → fblock v i (pos / BSIZE) ≠ 0
  size : ∀ i, (v.tab i).type ≠ 0 → (v.tab i).size.toNat ≤ MAXFILE * BSIZE

/-- A file of `size` bytes needs its pointer `k`. -/
def Needs (size k : Nat) : Prop :=
  if k = INDIRECT then NDIRECT * BSIZE < size
  else (if k < NDIRECT then k else k - 1) * BSIZE < size

/-- No inode has more pointers than it needs, and free inodes are blank. -/
structure Trim (v : View) : Prop where
  needed : ∀ i k, ptr v (i, k) ≠ 0 → Needs (v.tab i).size.toNat k
  blank : ∀ i, (v.tab i).type = 0 → (v.tab i).size = 0 ∧ ∀ a, (v.tab i).addrs a = 0

theorem slot_ne_indirect (bn : Nat) : slot bn ≠ INDIRECT := by
  rw [slot, INDIRECT]
  split <;> omega

theorem slot_inj (h : slot a = slot b) : a = b := by
  rw [slot, slot] at h
  split at h <;> split at h <;> omega

theorem needs_slot : Needs size (slot bn) ↔ bn * BSIZE < size := by
  rw [Needs, if_neg (slot_ne_indirect bn), slot]
  by_cases h : bn < NDIRECT
  · rw [if_pos h, if_pos h]
  · rw [if_neg h, if_neg (by omega), Nat.add_sub_cancel]

/-- Files keep their pointers and do not shrink, and new pointers are needed. -/
theorem Trim.of (h : Trim v) (hp : ∀ i k, ptr w (i, k) ≠ 0 → Needs (w.tab i).size.toNat k ∨
      (ptr v (i, k) ≠ 0 ∧ (v.tab i).size.toNat ≤ (w.tab i).size.toNat))
    (hb : ∀ i, (w.tab i).type = 0 → w.tab i = v.tab i ∨
      ((w.tab i).size = 0 ∧ ∀ a, (w.tab i).addrs a = 0)) : Trim w := by
  refine ⟨fun i k hk => ?_, fun i h0 => ?_⟩
  · rcases hp i k hk with hn | ⟨hk, hle⟩
    · exact hn
    · have hn := h.needed i k hk
      simp only [Needs] at hn ⊢
      split at hn
      · rename_i he
        rw [if_pos he]
        omega
      · rename_i he
        rw [if_neg he]
        omega
  · rcases hb i h0 with he | he
    · rw [he] at h0 ⊢
      exact h.blank i h0
    · exact he

/-! ### Storing bytes -/

/-- `v'` is `v` with `src` stored in file `i` at `lo`. -/
structure Put (v v' : View) (i lo : Nat) (src : List Byte) : Prop where
  keep : ∀ j bn, fblock v j bn ≠ 0 → fblock v' j bn = fblock v j bn
  room : ∀ pos, lo ≤ pos → pos < lo + src.length → fblock v' i (pos / BSIZE) ≠ 0
  inside : ∀ pos, lo ≤ pos → pos < lo + src.length → fbyte v' i pos = src.getD (pos - lo) 0
  outside : ∀ j pos, fblock v j (pos / BSIZE) ≠ 0 →
    (j = i → pos < lo ∨ lo + src.length ≤ pos) → fbyte v' j pos = fbyte v j pos

theorem Put.refl (v : View) (i lo : Nat) : Put v v i lo [] where
  keep _ _ _ := rfl
  room _ h1 h2 := absurd h2 (Nat.not_lt.mpr h1)
  inside _ h1 h2 := absurd h2 (Nat.not_lt.mpr h1)
  outside _ _ _ _ := rfl

theorem Put.trans (h : Put v v' i lo src)
    (h' : Put v' v'' i (lo + src.length) rest) : Put v v'' i lo (src ++ rest) := by
  have hkeep : ∀ j bn, fblock v j bn ≠ 0 → fblock v' j bn ≠ 0 := fun j bn hb => by
    rw [h.keep j bn hb]
    exact hb
  refine ⟨fun j bn hb => ?_, fun pos h1 h2 => ?_, fun pos h1 h2 => ?_, fun j pos hb hout => ?_⟩
  · rw [h'.keep j bn (hkeep j bn hb), h.keep j bn hb]
  · rw [List.length_append] at h2
    by_cases hp : pos < lo + src.length
    · have hroom := h.room pos h1 hp
      rw [h'.keep i _ hroom]
      exact hroom
    · exact h'.room pos (by omega) (by omega)
  · rw [List.length_append] at h2
    by_cases hp : pos < lo + src.length
    · rw [h'.outside i pos (h.room pos h1 hp) fun _ => .inl hp, h.inside pos h1 hp,
        List.getD_append _ _ _ _ (by omega)]
    · rw [h'.inside pos (by omega) (by omega), List.getD_append_right _ _ _ _ (by omega)]
      congr 1
      omega
  · rw [List.length_append] at hout
    rw [h'.outside j pos (hkeep j _ hb) fun hj => (hout hj).imp (by omega) (by omega),
      h.outside j pos hb fun hj => (hout hj).imp_right (by omega)]

/-! ### Claiming a block -/

/-- The free block `b` is given to the pointer `x`, which was not set. -/
structure Claims (sb : Superblock) (v v' : View) (x : Nat × Nat) (b : Nat) : Prop where
  data_block : IsData sb b
  unused : v.used b = false
  unset : ptr v x = 0
  pointers : ptr v' = update (ptr v) x b
  used : v'.used = update v.used b true
  data : ∀ c, c ≠ b → (∀ i, ptr v (i, INDIRECT) ≠ c) → v'.data c = v.data c

variable {sb : Superblock} {v v' v'' : View} {i lo b : Nat} {src rest : List Byte} {S : Finset Nat}

theorem not_isData_zero (L : Layout sb) : ¬ IsData sb 0 := fun h => by
  have := L.data
  have := h.1
  omega

namespace Claims
variable {x : Nat × Nat}

theorem owned (L : Layout sb) (h : Claims sb v v' x b) (ho : Owned sb v) : Owned sb v' := by
  refine ⟨fun c hc => ?_, ?_⟩
  · have hne : c ≠ b := fun he => by
      have := h.data_block.1
      omega
    rw [h.used, update_of_ne hne]
    exact ho.metadata c hc
  · rw [h.pointers, h.used]
    exact ho.owner.claim h.unset h.data_block (not_isData_zero L) h.unused

theorem put (h : Claims sb v v' x b) (ho : Owned sb v) : Put v v' i lo [] := by
  have hkeep : ∀ j bn, fblock v j bn ≠ 0 → fblock v' j bn = fblock v j bn := fun j bn hb => by
    have hne : (j, slot bn) ≠ x := fun he => hb (by rw [fblock, he]; exact h.unset)
    rw [fblock, h.pointers, update_of_ne hne]
    rfl
  refine ⟨hkeep, fun pos h1 h2 => absurd h2 (Nat.not_lt.mpr h1),
    fun pos h1 h2 => absurd h2 (Nat.not_lt.mpr h1), fun j pos hb _ => ?_⟩
  have hdata : v'.data (fblock v j (pos / BSIZE)) = v.data (fblock v j (pos / BSIZE)) :=
    h.data _ (ho.owner.unmarked h.data_block h.unused _) fun j' he => ?_
  · rw [fbyte, fbyte, hkeep j _ hb, hdata]
  have := ho.owner.once (j, slot (pos / BSIZE)) (j', INDIRECT) hb he.symm
  exact slot_ne_indirect _ (Prod.ext_iff.mp this).2

theorem free_eq (h : Claims sb v v' x b) : free sb v' = (free sb v).erase b := by
  ext c
  rw [free, free, Finset.mem_erase, Finset.mem_filter, Finset.mem_filter, h.used]
  by_cases hc : c = b
  · simp [hc]
  · simp [hc]

theorem missing_eq (L : Layout sb) (h : Claims sb v v' (i, k) b) :
    missing v' i S = (missing v i S).erase k := by
  have hb0 : b ≠ 0 := fun he => not_isData_zero L (by rw [← he]; exact h.data_block)
  ext l
  rw [missing, missing, Finset.mem_erase, Finset.mem_filter, Finset.mem_filter, h.pointers]
  by_cases hl : l = k
  · subst hl
    simp [hb0]
  · simp [hl]

theorem mem_free (h : Claims sb v v' x b) : b ∈ free sb v := by
  rw [free, Finset.mem_filter, Finset.mem_range]
  exact ⟨h.data_block.2, h.unused⟩

end Claims

/-! ### Growing a file -/

/-- `src` is stored in file `i` at `lo`, with blocks for the pointers `S` allocated
on the way: as many blocks leave the free map as pointers of `S` become set. -/
structure Grows (sb : Superblock) (i lo : Nat) (src : List Byte) (S : Finset Nat) (v v' : View) :
    Prop where
  owned : Owned sb v'
  put : Put v v' i lo src
  balance : (free sb v).card + (missing v' i S).card = (free sb v').card + (missing v i S).card
  only : ∀ j k, ptr v' (j, k) ≠ ptr v (j, k) → j = i ∧ k ∈ S

namespace Grows

theorem refl (h : Owned sb v) : Grows sb i lo [] S v v :=
  ⟨h, Put.refl v i lo, rfl, fun _ _ h => absurd rfl h⟩

theorem trans (h : Grows sb i lo src S v v') (h' : Grows sb i (lo + src.length) rest S v' v'') :
    Grows sb i lo (src ++ rest) S v v'' := by
  refine ⟨h'.owned, h.put.trans h'.put, ?_, fun j k hne => ?_⟩
  · have h1 := h.balance
    have h2 := h'.balance
    omega
  · by_cases hk : ptr v'' (j, k) = ptr v' (j, k)
    · exact h.only j k (by rw [← hk]; exact hne)
    · exact h'.only j k hk

/-- When the free map is empty and a pointer of `S` is still to be set, there were
too few free blocks at the start. -/
theorem short (h : Grows sb i lo src S v v') (hk : k ∈ S) (h0 : ptr v' (i, k) = 0)
    (hfree : free sb v' = ∅) : (free sb v).card < (missing v i S).card := by
  have hb := h.balance
  have hpos : 0 < (missing v' i S).card :=
    Finset.card_pos.mpr ⟨k, Finset.mem_filter.mpr ⟨hk, h0⟩⟩
  rw [hfree, Finset.card_empty] at hb
  omega

end Grows

theorem Claims.grows (L : Layout sb) (h : Claims sb v v' (i, k) b) (ho : Owned sb v)
    (hk : k ∈ S) : Grows sb i lo [] S v v' := by
  refine ⟨h.owned L ho, h.put ho, ?_, fun j l hne => ?_⟩
  · have hm : k ∈ missing v i S := Finset.mem_filter.mpr ⟨hk, h.unset⟩
    have h1 := Finset.card_erase_add_one h.mem_free
    have h2 := Finset.card_erase_add_one hm
    rw [← h.free_eq] at h1
    rw [← h.missing_eq L] at h2
    omega
  · rw [h.pointers, update_apply] at hne
    split at hne
    · rename_i he
      cases he
      exact ⟨rfl, hk⟩
    · exact absurd rfl hne

/-! ### The stores of `bmap` and `writei` -/

/-- The view after `balloc` has taken block `b`. -/
def taken (v : View) (b : Nat) : View := (v.setUsed b true).setData b Bytes.zero

section Stores
variable {d : Dinode} {k : Fin (NDIRECT + 1)}

theorem IsData.lt_word (L : Layout sb) (hb : IsData sb b) : b < 2 ^ 32 := by
  have h1 := hb.2
  have h2 := L.size
  simp only [FSSIZE] at h2
  omega

theorem ptr_taken (ho : Owned sb v) (hb : IsData sb b) (hu : v.used b = false) :
    ptr (taken v b) = ptr v :=
  ptr_congr (fun _ => Iff.rfl) (fun _ _ => rfl) fun _ _ =>
    update_of_ne (ho.owner.unmarked hb hu _) _ _

theorem claims_direct (L : Layout sb) (ho : Owned sb v) (hb : IsData sb b) (hu : v.used b = false)
    (hd : v.tab i = d) (h0 : d.type ≠ 0) (hk : k ≠ Fin.last NDIRECT) (hz : d.addrs k = 0) :
    Claims sb v ((taken v b).setTab i (d.setAddr k (BitVec.ofNat 32 b))) (i, k) b where
  data_block := hb
  unused := hu
  unset := by
    rw [ptr_of_type (by rw [hd]; exact h0), hd, dptr_direct, hz]
    rfl
  pointers := by
    rw [ptr_setDirect (v := taken v b) hd h0 hk (hb.lt_word L), ptr_taken ho hb hu]
  used := rfl
  data _ hc _ := update_of_ne hc _ _

theorem claims_indirect (L : Layout sb) (ho : Owned sb v) (hb : IsData sb b)
    (hu : v.used b = false) (hd : v.tab i = d) (h0 : d.type ≠ 0)
    (hz : d.addrs (Fin.last NDIRECT) = 0) :
    Claims sb v ((taken v b).setTab i (d.setAddr (Fin.last NDIRECT) (BitVec.ofNat 32 b)))
      (i, INDIRECT) b where
  data_block := hb
  unused := hu
  unset := by
    rw [ptr_of_type (by rw [hd]; exact h0), hd, dptr_indirect, hz]
    rfl
  pointers := by
    rw [ptr_setIndirect (v := taken v b) hd h0 hz (hb.lt_word L) (update_self ..),
      ptr_taken ho hb hu]
  used := rfl
  data _ hc _ := update_of_ne hc _ _

theorem claims_entry (L : Layout sb) (ho : Owned sb v) (hb : IsData sb b)
    (hu : v.used b = false) (ha : ptr v (i, INDIRECT) = a) (ha0 : a ≠ 0) (hj : j < NINDIRECT)
    (hz : ptr v (i, NDIRECT + 1 + j) = 0) :
    Claims sb v ((taken v b).setData a
      (((taken v b).data a).putWord32 (4 * j) (BitVec.ofNat 32 b))) (i, NDIRECT + 1 + j) b where
  data_block := hb
  unused := hu
  unset := hz
  pointers := by
    have hp := ptr_taken ho hb hu
    rw [ptr_setEntry (v := taken v b) (i := i) (by rw [hp]; exact ha) ha0 (fun i' hi' => ?_) hj
      (hb.lt_word L), hp]
    rw [hp] at hi'
    exact (Prod.ext_iff.mp (ho.owner.once (i', INDIRECT) (i, INDIRECT) (by rw [hi']; exact ha0)
      (by rw [hi', ha]))).1
  used := rfl
  data c hc hno := by
    have hca : c ≠ a := fun he => hno i (by rw [he]; exact ha)
    rw [View.setData_data, update_of_ne hca]
    exact update_of_ne hc _ _

/-- Bytes are stored into a block of the file. -/
theorem grows_store (ho : Owned sb v) (hb : fblock v i (lo / BSIZE) = b) (hb0 : b ≠ 0)
    (hfit : lo % BSIZE + src.length ≤ BSIZE) :
    Grows sb i lo src S v (v.setData b ((v.data b).blit (lo % BSIZE) src)) := by
  have hp : ptr (v.setData b ((v.data b).blit (lo % BSIZE) src)) = ptr v := by
    refine ptr_congr (fun _ => Iff.rfl) (fun _ _ => rfl) fun j hj => update_of_ne ?_ _ _
    intro he
    have := ho.owner.once (j, INDIRECT) (i, slot (lo / BSIZE)) hj (by rw [he]; exact hb.symm)
    exact slot_ne_indirect _ (Prod.ext_iff.mp this).2.symm
  have hf : ∀ j bn, fblock (v.setData b ((v.data b).blit (lo % BSIZE) src)) j bn = fblock v j bn :=
    fun j bn => by rw [fblock, hp]; rfl
  -- a position in the range is in the same block
  have hin : ∀ pos, lo ≤ pos → pos < lo + src.length → pos / BSIZE = lo / BSIZE ∧
      pos % BSIZE = lo % BSIZE + (pos - lo) := fun pos h1 h2 => by
    simp only [BSIZE] at hfit ⊢
    omega
  have hbyte : ∀ j pos, fbyte (v.setData b ((v.data b).blit (lo % BSIZE) src)) j pos =
      ((if fblock v j (pos / BSIZE) = b then (v.data b).blit (lo % BSIZE) src
        else v.data (fblock v j (pos / BSIZE)))).get (pos % BSIZE) := fun j pos => by
    rw [fbyte, hf, View.setData_data, update_apply]
  refine ⟨⟨ho.metadata, by rw [hp]; exact ho.owner⟩, ⟨fun j bn _ => hf j bn, ?_, ?_, ?_⟩, ?_,
    fun j k hne => absurd (by rw [hp]) hne⟩
  · intro pos h1 h2
    rw [hf, (hin pos h1 h2).1, hb]
    exact hb0
  · intro pos h1 h2
    obtain ⟨hdiv, hmod⟩ := hin pos h1 h2
    rw [hbyte, hdiv, if_pos hb, Bytes.get_blit _ _ _ _ hfit, if_pos (by omega), hmod,
      Nat.add_sub_cancel_left]
  · intro j pos hj hout
    rw [hbyte]
    by_cases he : fblock v j (pos / BSIZE) = b
    · -- the block is of this file only, and the position is outside the range
      have hji := ho.owner.once (j, slot (pos / BSIZE)) (i, slot (lo / BSIZE)) hj (he.trans hb.symm)
      have hdiv := slot_inj (Prod.ext_iff.mp hji).2
      have hout := hout (Prod.ext_iff.mp hji).1
      rw [if_pos he, Bytes.get_blit _ _ _ _ hfit, if_neg, fbyte, he]
      simp only [BSIZE] at hdiv ⊢
      omega
    · rw [if_neg he]
      rfl
  · rw [missing, missing, hp]
    rfl

end Stores

end Xv6.Fs
