import Mathlib.Algebra.Order.Ring.Nat
import Mathlib.Logic.Function.Basic

/-! Rings: a queue in an array of fixed size, between two counters that are never reset.

The counters are words of `w` bits and wrap around; the cell of a count is its remainder
by the capacity. As long as the capacity divides `2 ^ w`, and the counters are at most the
capacity apart, the ring is the list of the cells between them: a push appends and a pop
takes the head, whether or not a counter wraps. -/
namespace Xv6.Lib
open Function List

/-- An array of `cap` cells, of which those from `nread` to `nwrite` are in use. -/
structure Ring (α : Type) (cap w : Nat) where
  data : Nat → α
  nread : BitVec w
  nwrite : BitVec w

namespace Ring
variable {α : Type} {cap w : Nat}

def push (r : Ring α cap w) (a : α) : Ring α cap w :=
  {r with data := update r.data (r.nwrite.toNat % cap) a, nwrite := r.nwrite + 1#w}

/-- The cell read next. -/
def head (r : Ring α cap w) : α := r.data (r.nread.toNat % cap)

def pop (r : Ring α cap w) : Ring α cap w := {r with nread := r.nread + 1#w}

/-- The last push is taken back. -/
def erase (r : Ring α cap w) : Ring α cap w := {r with nwrite := r.nwrite - 1#w}

/-- The cell pushed last. -/
def last (r : Ring α cap w) : α := r.data ((r.nwrite - 1#w).toNat % cap)

/-- How many cells are in use. -/
def size (r : Ring α cap w) : Nat := (r.nwrite - r.nread).toNat

/-- The cells in use, the one read next first. -/
def contents (r : Ring α cap w) : List α :=
  (List.range r.size).map fun k => r.data ((r.nread.toNat + k) % cap)

@[simp] theorem length_contents (r : Ring α cap w) : r.contents.length = r.size := by
  rw [contents, length_map, length_range]

/-! ### The counters -/

theorem size_eq_zero (r : Ring α cap w) : r.size = 0 ↔ r.nread = r.nwrite := by
  constructor
  · intro h
    have h0 : r.nwrite - r.nread = 0#w := BitVec.eq_of_toNat_eq h
    rw [BitVec.sub_eq_iff_eq_add, BitVec.zero_add] at h0
    exact h0.symm
  · intro h
    rw [size, h, BitVec.sub_self]
    rfl

theorem contents_eq_nil (r : Ring α cap w) : r.contents = [] ↔ r.nread = r.nwrite := by
  rw [← length_eq_zero_iff, length_contents, size_eq_zero]

theorem size_eq_cap (hw : cap < 2 ^ w) (r : Ring α cap w) :
    r.size = cap ↔ r.nwrite = r.nread + BitVec.ofNat w cap := by
  rw [BitVec.add_comm, ← BitVec.sub_eq_iff_eq_add]
  constructor
  · intro h
    refine BitVec.eq_of_toNat_eq ?_
    rw [BitVec.toNat_ofNat, Nat.mod_eq_of_lt hw]
    exact h
  · intro h
    rw [size, h, BitVec.toNat_ofNat, Nat.mod_eq_of_lt hw]

/-- The cell written next, counted from the cell read next. -/
theorem nwrite_mod (hd : cap ∣ 2 ^ w) (r : Ring α cap w) :
    r.nwrite.toNat % cap = (r.nread.toNat + r.size) % cap := by
  have h : r.nwrite = r.nread + (r.nwrite - r.nread) := by
    rw [BitVec.add_comm, BitVec.sub_add_cancel]
  rw [h, BitVec.toNat_add, Nat.mod_mod_of_dvd _ hd]
  rfl

theorem size_push {r : Ring α cap w} {a : α} (h : r.size + 1 < 2 ^ w) : (r.push a).size = r.size + 1 := by
  have hone : 1 % 2 ^ w = 1 := Nat.mod_eq_of_lt (by omega)
  have hsub : r.nwrite + 1#w - r.nread = r.nwrite - r.nread + 1#w := by
    rw [BitVec.sub_eq_add_neg, BitVec.sub_eq_add_neg, BitVec.add_assoc, BitVec.add_comm 1#w,
      ← BitVec.add_assoc]
  show (r.nwrite + 1#w - r.nread).toNat = r.size + 1
  rw [hsub, BitVec.toNat_add, BitVec.toNat_ofNat, hone]
  exact Nat.mod_eq_of_lt h

theorem size_pop {r : Ring α cap w} (h : 0 < r.size) : r.pop.size + 1 = r.size := by
  have hlt : r.size < 2 ^ w := (r.nwrite - r.nread).isLt
  have hone : 1 % 2 ^ w = 1 := Nat.mod_eq_of_lt (by omega)
  have hle : 1#w ≤ r.nwrite - r.nread := by
    rw [BitVec.le_def, BitVec.toNat_ofNat, hone]
    exact h
  have hsub : r.nwrite - (r.nread + 1#w) = r.nwrite - r.nread - 1#w := by
    rw [BitVec.sub_eq_add_neg, BitVec.sub_eq_add_neg, BitVec.sub_eq_add_neg, BitVec.neg_add,
      BitVec.sub_eq_add_neg, BitVec.add_assoc]
  show (r.nwrite - (r.nread + 1#w)).toNat + 1 = r.size
  rw [hsub, BitVec.toNat_sub_of_le hle, BitVec.toNat_ofNat, hone]
  exact Nat.sub_add_cancel h

/-! ### The queue -/

/-- Fewer than `cap` cells apart are different cells. -/
theorem mod_ne {a k n : Nat} (hk : k < n) (hn : n < cap) : (a + k) % cap ≠ (a + n) % cap := by
  intro h
  have h0 := Nat.sub_mod_eq_zero_of_mod_eq h.symm
  rw [Nat.add_sub_add_left, Nat.mod_eq_of_lt (by omega)] at h0
  omega

theorem contents_push (hd : cap ∣ 2 ^ w) (hw : cap < 2 ^ w) {r : Ring α cap w} {a : α}
    (h : r.size < cap) : (r.push a).contents = r.contents ++ [a] := by
  rw [contents, size_push (by omega), range_succ, map_append, map_singleton, contents]
  congr 1
  · refine map_congr_left fun k hk => ?_
    show update r.data (r.nwrite.toNat % cap) a ((r.nread.toNat + k) % cap) = _
    rw [nwrite_mod hd, update_of_ne (mod_ne (mem_range.mp hk) h)]
  · show [update r.data (r.nwrite.toNat % cap) a ((r.nread.toNat + r.size) % cap)] = [a]
    rw [nwrite_mod hd, update_self]

theorem contents_pop (hd : cap ∣ 2 ^ w) {r : Ring α cap w} (h : 0 < r.size) :
    r.contents = r.head :: r.pop.contents := by
  rw [contents, contents, ← size_pop h, range_succ_eq_map, map_cons, map_map]
  congr 1
  refine map_congr_left fun k _ => ?_
  have hnext : r.pop.nread.toNat = (r.nread.toNat + 1) % 2 ^ w := by
    show (r.nread + 1#w).toNat = _
    rw [BitVec.toNat_add, BitVec.toNat_ofNat, Nat.add_mod_mod]
  show r.data ((r.nread.toNat + (k + 1)) % cap) = r.data ((r.pop.nread.toNat + k) % cap)
  rw [hnext, Nat.add_comm k 1, ← Nat.add_assoc, Nat.add_mod (_ % 2 ^ w), Nat.mod_mod_of_dvd _ hd,
    ← Nat.add_mod]

theorem push_erase (r : Ring α cap w) : r.erase.push r.last = r := by
  obtain ⟨data, nread, nwrite⟩ := r
  simp only [push, erase, last, update_eq_self, BitVec.sub_add_cancel]

theorem contents_erase (hd : cap ∣ 2 ^ w) (hw : cap < 2 ^ w) {r : Ring α cap w} (h : 0 < r.size)
    (hle : r.size ≤ cap) : r.contents = r.erase.contents ++ [r.last] := by
  have hsize : r.erase.size = r.pop.size := by
    show (r.nwrite - 1#w - r.nread).toNat = (r.nwrite - (r.nread + 1#w)).toNat
    rw [BitVec.sub_eq_add_neg, BitVec.sub_eq_add_neg, BitVec.sub_eq_add_neg, BitVec.neg_add,
      BitVec.sub_eq_add_neg, BitVec.add_assoc, BitVec.add_comm (-1#w)]
  have hpop := size_pop h
  rw [← contents_push hd hw (by omega), push_erase]

end Ring
end Xv6.Lib
