import Mathlib.Logic.Function.Basic

/-! Ownership of numbered resources by pointers.

Pointers `p : ι → Nat` name resources, zero naming none, and `used` marks the
resources taken. `Owner` says that marks and pointers agree: every resource in
use has exactly one pointer to it. A free resource may be claimed by an empty
pointer, and all resources of a set of pointers may be released at once. -/
namespace Xv6.Lib
open Function

variable {ι : Type} {valid : Nat → Prop} {used used' : Nat → Bool} {p p' : ι → Nat}

structure Owner (valid : Nat → Prop) (used : Nat → Bool) (p : ι → Nat) : Prop where
  inside : ∀ x, p x ≠ 0 → valid (p x)
  once : ∀ x y, p x ≠ 0 → p x = p y → x = y
  marked : ∀ b, valid b → (used b = true ↔ ∃ x, p x = b)

namespace Owner

/-- A resource that is not marked has no pointer to it. -/
theorem unmarked (h : Owner valid used p) {b : Nat} (hb : valid b) (hu : used b = false) (x : ι) :
    p x ≠ b := fun hx => by
  rw [(h.marked b hb).mpr ⟨x, hx⟩] at hu
  cases hu

theorem claim [DecidableEq ι] (h : Owner valid used p) {x : ι} {b : Nat} (hx : p x = 0)
    (hb : valid b) (h0 : ¬ valid 0) (hu : used b = false) :
    Owner valid (update used b true) (update p x b) := by
  have hfresh := h.unmarked hb hu
  refine ⟨fun y hy => ?_, fun y z hy hyz => ?_, fun c hc => ?_⟩
  · by_cases hyx : y = x
    · rw [hyx, update_self]
      exact hb
    · rw [update_of_ne hyx] at hy ⊢
      exact h.inside y hy
  · by_cases hyx : y = x <;> by_cases hzx : z = x
    · rw [hyx, hzx]
    · rw [hyx, update_self, update_of_ne hzx] at hyz
      exact absurd hyz.symm (hfresh z)
    · rw [hzx, update_self, update_of_ne hyx] at hyz
      exact absurd hyz (hfresh y)
    · rw [update_of_ne hyx] at hy hyz
      rw [update_of_ne hzx] at hyz
      exact h.once y z hy hyz
  · by_cases hcb : c = b
    · rw [hcb, update_self]
      exact ⟨fun _ => ⟨x, update_self x b p⟩, fun _ => rfl⟩
    · rw [update_of_ne hcb, h.marked c hc]
      constructor
      · rintro ⟨y, hy⟩
        have hyx : y ≠ x := fun he => h0 (by rw [← hx, ← he, hy]; exact hc)
        exact ⟨y, by rw [update_of_ne hyx]; exact hy⟩
      · rintro ⟨y, hy⟩
        have hyx : y ≠ x := fun he => hcb (by rw [← hy, he, update_self])
        exact ⟨y, by rw [update_of_ne hyx] at hy; exact hy⟩

/-- The pointers of `S` are emptied, and what they named is unmarked. -/
theorem release (h : Owner valid used p) (h0 : ¬ valid 0) (S : ι → Prop)
    (hS : ∀ x, S x → p' x = 0) (hp : ∀ x, ¬ S x → p' x = p x)
    (hu : ∀ b, valid b → (used' b = true ↔ used b = true ∧ ∀ x, S x → p x ≠ b)) :
    Owner valid used' p' := by
  have hold : ∀ x, p' x ≠ 0 → ¬ S x ∧ p' x = p x := fun x hx => by
    have hn : ¬ S x := fun hs => hx (hS x hs)
    exact ⟨hn, hp x hn⟩
  refine ⟨fun x hx => ?_, fun x y hx hxy => ?_, fun b hb => ?_⟩
  · obtain ⟨_, he⟩ := hold x hx
    rw [he] at hx ⊢
    exact h.inside x hx
  · obtain ⟨_, he⟩ := hold x hx
    obtain ⟨_, he'⟩ := hold y (by rw [← hxy]; exact hx)
    exact h.once x y (by rw [← he]; exact hx) (by rw [← he, hxy, he'])
  · rw [hu b hb, h.marked b hb]
    constructor
    · rintro ⟨⟨x, hx⟩, hno⟩
      have hn : ¬ S x := fun hs => hno x hs hx
      exact ⟨x, by rw [hp x hn]; exact hx⟩
    · rintro ⟨x, hx⟩
      have hne : p' x ≠ 0 := fun he => h0 (by rw [← he, hx]; exact hb)
      obtain ⟨hn, he⟩ := hold x hne
      have hxb : p x = b := by rw [← he]; exact hx
      refine ⟨⟨x, hxb⟩, fun y hy hyb => hn ?_⟩
      have := h.once x y (by rw [← he]; exact hne) (by rw [hxb, hyb])
      rw [this]
      exact hy

end Owner

end Xv6.Lib
