import Mathlib.Data.List.Basic
import Mathlib.Data.List.Pairwise

/-! Blocks written to a memory from the top down.

A memory is a function from addresses. `overlay` writes a block; `lay` writes one after another. When
each block ends at or below the start of the one before (`Descends`), none is overwritten, and no two
of them meet. -/
namespace Xv6.Lib

variable {α : Type}

/-! ### Places of blocks -/

/-- Each block ends at or below the one before, the first at or below `top`. -/
def Descends (top : Nat) : List (Nat × List α) → Prop
  | [] => True
  | (p, block) :: rest => p + block.length ≤ top ∧ Descends p rest

/-- Where the last block starts. -/
def foot (top : Nat) : List (Nat × List α) → Nat
  | [] => top
  | (p, _) :: rest => foot p rest

variable {top p x : Nat} {block : List α} {blocks : List (Nat × List α)}

theorem foot_append : foot top (blocks ++ [(p, block)]) = p := by
  induction blocks generalizing top with
  | nil => rfl
  | cons b rest ih => exact ih

namespace Descends

theorem foot_le (h : Descends top blocks) : foot top blocks ≤ top := by
  induction blocks generalizing top with
  | nil => exact Nat.le_refl _
  | cons b rest ih => exact Nat.le_trans (ih h.2) (Nat.le_trans (Nat.le_add_right ..) h.1)

theorem append (h : Descends top blocks) (hp : p + block.length ≤ foot top blocks) :
    Descends top (blocks ++ [(p, block)]) := by
  induction blocks generalizing top with
  | nil => exact ⟨hp, trivial⟩
  | cons b rest ih => exact ⟨h.1, ih h.2 hp⟩

/-- A block lies between the foot and the top. -/
theorem within (h : Descends top blocks) (hb : (p, block) ∈ blocks) :
    foot top blocks ≤ p ∧ p + block.length ≤ top := by
  induction blocks generalizing top with
  | nil => cases hb
  | cons b rest ih =>
    rcases List.mem_cons.mp hb with rfl | hb
    · exact ⟨foot_le h.2, h.1⟩
    · obtain ⟨hlo, hhi⟩ := ih h.2 hb
      exact ⟨hlo, Nat.le_trans hhi (Nat.le_trans (Nat.le_add_right ..) h.1)⟩

/-- The blocks do not meet. -/
theorem pairwise (h : Descends top blocks) : blocks.Pairwise fun a b => b.1 + b.2.length ≤ a.1 := by
  induction blocks generalizing top with
  | nil => exact List.Pairwise.nil
  | cons b rest ih =>
    exact List.pairwise_cons.mpr ⟨fun c hc => (within h.2 hc).2, ih h.2⟩

end Descends

/-! ### Memories -/

section Memory
variable [Inhabited α] {f : Nat → α}

/-- The memory with a block written at `p`. -/
def overlay (p : Nat) (block : List α) (f : Nat → α) (x : Nat) : α :=
  if p ≤ x ∧ x < p + block.length then block.getD (x - p) default else f x

/-- The memory with blocks written in order. -/
def lay : List (Nat × List α) → (Nat → α) → Nat → α
  | [], f => f
  | (p, block) :: rest, f => lay rest (overlay p block f)

theorem overlay_of_mem {j : Nat} (hj : j < block.length) : overlay p block f (p + j) = block.getD j default := by
  rw [overlay, if_pos (by omega), Nat.add_sub_cancel_left]

theorem overlay_of_not (h : x < p ∨ p + block.length ≤ x) : overlay p block f x = f x := if_neg (by omega)

theorem lay_append : lay (blocks ++ [(p, block)]) f = overlay p block (lay blocks f) := by
  induction blocks generalizing f with
  | nil => rfl
  | cons b rest ih => exact ih

namespace Descends

theorem lay_above (h : Descends top blocks) (hx : top ≤ x) : lay blocks f x = f x := by
  induction blocks generalizing top f with
  | nil => rfl
  | cons b rest ih =>
    have hb : b.1 ≤ x := Nat.le_trans (Nat.le_trans (Nat.le_add_right ..) h.1) hx
    exact (ih h.2 hb).trans (overlay_of_not (.inr (Nat.le_trans h.1 hx)))

theorem lay_below (h : Descends top blocks) (hx : x < foot top blocks) : lay blocks f x = f x := by
  induction blocks generalizing top f with
  | nil => rfl
  | cons b rest ih => exact (ih h.2 hx).trans (overlay_of_not (.inl (Nat.lt_of_lt_of_le hx (foot_le h.2))))

/-- What was written is there. -/
theorem lay_mem (h : Descends top blocks) (hb : (p, block) ∈ blocks) {j : Nat} (hj : j < block.length) :
    lay blocks f (p + j) = block.getD j default := by
  induction blocks generalizing top f with
  | nil => cases hb
  | cons b rest ih =>
    rcases List.mem_cons.mp hb with rfl | hb
    · exact (lay_above h.2 (Nat.le_add_right ..)).trans (overlay_of_mem hj)
    · exact ih h.2 hb

end Descends

end Memory

end Xv6.Lib
