import Mathlib.Algebra.Order.Ring.Nat
import Mathlib.Data.Fin.Basic
import Mathlib.Logic.Function.Basic

/-! Byte regions of a fixed size, and the fields laid out in them.

A `Bytes n` is `n` bytes. Offsets are plain numbers: a read past the end gives
zero and a write past the end does nothing, so the layout lemmas ask only that a
field lies inside the region. Fields are little endian words of two or four
bytes (`word16`, `word32`), runs of bytes (`slice`, `blit`) and single bits
(`bit`). Every field has two laws: what was written is read back, and a write
elsewhere does not show. -/
namespace Xv6.Lib

abbrev Byte := BitVec 8

def Bytes (n : Nat) := Fin n → Byte

namespace Bytes
variable {n : Nat}

/-- The byte at an offset, zero past the end. -/
def get (b : Bytes n) (i : Nat) : Byte := if h : i < n then b ⟨i, h⟩ else 0

def ofFn (f : Nat → Byte) : Bytes n := fun i => f i

def zero : Bytes n := ofFn fun _ => 0

@[simp] theorem get_ofFn (f : Nat → Byte) (i : Nat) :
    (ofFn f : Bytes n).get i = if i < n then f i else 0 := by
  simp [get, ofFn]

@[simp] theorem get_zero (i : Nat) : (zero : Bytes n).get i = 0 := by
  simp [zero]

theorem get_of_le (b : Bytes n) {i : Nat} (h : n ≤ i) : b.get i = 0 := by
  simp [get, Nat.not_lt.mpr h]

/-! ### Runs of bytes -/

/-- `len` bytes from offset `off`. -/
def slice (b : Bytes n) (off len : Nat) : List Byte :=
  (List.range len).map fun k => b.get (off + k)

/-- The region with `src` copied in at offset `off`. -/
def blit (b : Bytes n) (off : Nat) (src : List Byte) : Bytes n :=
  ofFn fun i => if off ≤ i ∧ i < off + src.length then src.getD (i - off) 0 else b.get i

theorem get_blit (b : Bytes n) (off : Nat) (src : List Byte) (i : Nat)
    (h : off + src.length ≤ n) :
    (b.blit off src).get i =
      if off ≤ i ∧ i < off + src.length then src.getD (i - off) 0 else b.get i := by
  rw [blit, get_ofFn]
  by_cases hi : i < n
  · rw [if_pos hi]
  · rw [if_neg hi, if_neg (by omega), get_of_le b (by omega)]

@[simp] theorem length_slice (b : Bytes n) (off len : Nat) : (b.slice off len).length = len := by
  simp [slice]

/-! ### Words -/

def word16 (b : Bytes n) (off : Nat) : BitVec 16 := b.get (off + 1) ++ b.get off

def word32 (b : Bytes n) (off : Nat) : BitVec 32 :=
  (b.get (off + 3) ++ b.get (off + 2)) ++ (b.get (off + 1) ++ b.get off)

/-- The region with the low `len` bytes of `v` stored at offset `off`. -/
def put {w : Nat} (b : Bytes n) (off len : Nat) (v : BitVec w) : Bytes n :=
  ofFn fun i => if off ≤ i ∧ i < off + len then v.extractLsb' (8 * (i - off)) 8 else b.get i

def putWord16 (b : Bytes n) (off : Nat) (v : BitVec 16) : Bytes n := b.put off 2 v

def putWord32 (b : Bytes n) (off : Nat) (v : BitVec 32) : Bytes n := b.put off 4 v

theorem get_put {w : Nat} (b : Bytes n) (off len : Nat) (v : BitVec w) (i : Nat)
    (h : off + len ≤ n) :
    (b.put off len v).get i =
      if off ≤ i ∧ i < off + len then v.extractLsb' (8 * (i - off)) 8 else b.get i := by
  rw [put, get_ofFn]
  by_cases hi : i < n
  · rw [if_pos hi]
  · rw [if_neg hi, if_neg (by omega), get_of_le b (by omega)]

/-- A word depends only on its own bytes. -/
theorem word16_congr {m : Nat} {a : Bytes n} {b : Bytes m} {i j : Nat}
    (h : ∀ k, k < 2 → a.get (i + k) = b.get (j + k)) : a.word16 i = b.word16 j := by
  have h0 := h 0 (by decide)
  have h1 := h 1 (by decide)
  simp only [Nat.add_zero] at h0
  rw [word16, word16, h0, h1]

theorem word32_congr {m : Nat} {a : Bytes n} {b : Bytes m} {i j : Nat}
    (h : ∀ k, k < 4 → a.get (i + k) = b.get (j + k)) : a.word32 i = b.word32 j := by
  have h0 := h 0 (by decide)
  have h1 := h 1 (by decide)
  have h2 := h 2 (by decide)
  have h3 := h 3 (by decide)
  simp only [Nat.add_zero] at h0
  rw [word32, word32, h0, h1, h2, h3]

theorem append_extract16 (v : BitVec 16) :
    v.extractLsb' 8 8 ++ v.extractLsb' 0 8 = v := by
  apply BitVec.eq_of_getLsbD_eq
  intro i hi
  simp only [BitVec.getLsbD_append, BitVec.getLsbD_extractLsb']
  by_cases h : i < 8
  · simp [h]
  · have h8 : i - 8 < 8 := by omega
    have hi8 : 8 + (i - 8) = i := by omega
    simp [h, h8, hi8]

private theorem append_extract32 (v : BitVec 32) :
    (v.extractLsb' 24 8 ++ v.extractLsb' 16 8) ++ (v.extractLsb' 8 8 ++ v.extractLsb' 0 8) = v := by
  apply BitVec.eq_of_getLsbD_eq
  intro i hi
  simp only [BitVec.getLsbD_append, BitVec.getLsbD_extractLsb']
  by_cases h1 : i < 8
  · have : i < 8 + 8 := by omega
    simp [h1, this]
  · by_cases h2 : i < 16
    · have hb : i - 8 < 8 := by omega
      have hi8 : 8 + (i - 8) = i := by omega
      simp [h1, h2, hb, hi8]
    · by_cases h3 : i < 24
      · have hb : i - 16 < 8 := by omega
        have hi8 : 16 + (i - 16) = i := by omega
        simp [h2, hb, hi8]
      · have hb : ¬ i - 16 < 8 := by omega
        have hc : i - 16 - 8 < 8 := by omega
        have hi8 : 24 + (i - 16 - 8) = i := by omega
        simp [h2, hb, hc, hi8]

@[simp] theorem word16_putWord16 (b : Bytes n) (off : Nat) (v : BitVec 16) (h : off + 2 ≤ n) :
    (b.putWord16 off v).word16 off = v := by
  rw [word16, putWord16, get_put _ _ _ _ _ h, get_put _ _ _ _ _ h,
    if_pos ⟨by omega, by omega⟩, if_pos ⟨by omega, by omega⟩, Nat.add_sub_cancel_left, Nat.sub_self]
  exact append_extract16 v

/-- A word is given by its bytes. -/
theorem word32_of_get {b : Bytes n} {off : Nat} {v : BitVec 32}
    (h : ∀ k, k < 4 → b.get (off + k) = v.extractLsb' (8 * k) 8) : b.word32 off = v := by
  have h0 := h 0 (by decide)
  have h1 := h 1 (by decide)
  have h2 := h 2 (by decide)
  have h3 := h 3 (by decide)
  rw [Nat.add_zero] at h0
  rw [word32, h0, h1, h2, h3]
  exact append_extract32 v

@[simp] theorem word32_putWord32 (b : Bytes n) (off : Nat) (v : BitVec 32) (h : off + 4 ≤ n) :
    (b.putWord32 off v).word32 off = v := by
  refine word32_of_get fun k hk => ?_
  rw [putWord32, get_put _ _ _ _ _ h, if_pos (by omega), Nat.add_sub_cancel_left]

/-- A write elsewhere does not show in a byte. -/
theorem get_put_other {w : Nat} (b : Bytes n) (off len : Nat) (v : BitVec w) (i : Nat)
    (h : i < off ∨ off + len ≤ i) : (b.put off len v).get i = b.get i := by
  rw [put, get_ofFn]
  by_cases hi : i < n
  · rw [if_pos hi, if_neg (by omega)]
  · rw [if_neg hi, get_of_le b (by omega)]

theorem word16_put_other {w : Nat} (b : Bytes n) (off len i : Nat) (v : BitVec w)
    (h : i + 2 ≤ off ∨ off + len ≤ i) : (b.put off len v).word16 i = b.word16 i :=
  word16_congr fun k hk => get_put_other b off len v (i + k) (by omega)

theorem word32_put_other {w : Nat} (b : Bytes n) (off len i : Nat) (v : BitVec w)
    (h : i + 4 ≤ off ∨ off + len ≤ i) : (b.put off len v).word32 i = b.word32 i :=
  word32_congr fun k hk => get_put_other b off len v (i + k) (by omega)

@[simp] theorem word32_zero (off : Nat) : (zero : Bytes n).word32 off = 0 := by
  simp [word32]

/-! ### Bits -/

def bit (b : Bytes n) (i : Nat) : Bool := (b.get (i / 8)).getLsbD (i % 8)

/-- The region with bit `i` or-ed in, as `data[i/8] |= 1 << (i % 8)` does. -/
def setBit (b : Bytes n) (i : Nat) : Bytes n :=
  ofFn fun k => if k = i / 8 then b.get k ||| (1#8 <<< (i % 8)) else b.get k

/-- The region with bit `i` masked out, as `data[i/8] &= ~(1 << (i % 8))` does. -/
def clearBit (b : Bytes n) (i : Nat) : Bytes n :=
  ofFn fun k => if k = i / 8 then b.get k &&& ~~~(1#8 <<< (i % 8)) else b.get k

theorem getLsbD_one_shift (i j : Nat) (hj : j < 8) :
    (1#8 <<< i).getLsbD j = decide (i = j) := by
  rw [BitVec.getLsbD_shiftLeft, BitVec.getLsbD_one]
  by_cases h : i = j
  · simp [h, hj]
  · by_cases hlt : j < i
    · simp [h, hlt]
    · have : j - i ≠ 0 := by omega
      simp [h, this]

theorem bit_setBit (b : Bytes n) (i j : Nat) (hi : i < 8 * n) :
    (b.setBit i).bit j = (decide (i = j) || b.bit j) := by
  have hj : j % 8 < 8 := Nat.mod_lt _ (by decide)
  rw [bit, setBit, get_ofFn]
  by_cases hq : j / 8 = i / 8
  · rw [if_pos (by omega), if_pos hq, BitVec.getLsbD_or, getLsbD_one_shift _ _ hj, bit, hq,
      Bool.or_comm]
    congr 1
    exact decide_eq_decide.mpr ⟨fun h => by omega, fun h => by omega⟩
  · have hne : i ≠ j := fun h => hq (by rw [h])
    rw [if_neg hq]
    by_cases hn : j / 8 < n
    · simp [hn, hne, bit]
    · simp [hn, hne, bit, get_of_le b (Nat.not_lt.mp hn)]

theorem bit_clearBit (b : Bytes n) (i j : Nat) (hi : i < 8 * n) :
    (b.clearBit i).bit j = (!decide (i = j) && b.bit j) := by
  have hj : j % 8 < 8 := Nat.mod_lt _ (by decide)
  rw [bit, clearBit, get_ofFn]
  by_cases hq : j / 8 = i / 8
  · have hdec : decide (i % 8 = j % 8) = decide (i = j) :=
      decide_eq_decide.mpr ⟨fun h => by omega, fun h => by omega⟩
    rw [if_pos (by omega), if_pos hq, BitVec.getLsbD_and, BitVec.getLsbD_not,
      getLsbD_one_shift _ _ hj, bit, hq, hdec, Bool.and_comm]
    simp [hj]
  · have hne : i ≠ j := fun h => hq (by rw [h])
    rw [if_neg hq]
    by_cases hn : j / 8 < n
    · simp [hn, hne, bit]
    · simp [hn, hne, bit, get_of_le b (Nat.not_lt.mp hn)]

@[simp] theorem bit_zero (i : Nat) : (zero : Bytes n).bit i = false := by
  simp [bit]

end Bytes

end Xv6.Lib
