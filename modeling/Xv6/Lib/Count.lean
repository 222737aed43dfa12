import Mathlib.Algebra.BigOperators.Group.Finset.Basic
import Mathlib.Algebra.BigOperators.Group.Finset.Piecewise
import Mathlib.Data.Fintype.BigOperators
import Mathlib.Algebra.Order.BigOperators.Group.Finset

/-! Sums over a finite index that change at one place. -/
namespace Xv6.Lib
open Function

variable {ι : Type} [Fintype ι] [DecidableEq ι]

/-- Two families that agree except at `p` have sums that differ by what happens at `p`. -/
theorem sum_change (g g' : ι → Nat) (p : ι) (h : ∀ q, q ≠ p → g' q = g q) :
    ∑ q, g' q + g p = ∑ q, g q + g' p := by
  have hg : g' = update g p (g' p) := by
    funext q
    by_cases hq : q = p
    · subst hq
      rw [update_self]
    · rw [update_of_ne hq, h q hq]
  have hsum := Finset.sum_update_of_mem (Finset.mem_univ p) g (g' p)
  have hsplit := Finset.sum_erase_add Finset.univ g (Finset.mem_univ p)
  rw [hg, hsum, update_self, Finset.sdiff_singleton_eq_erase]
  omega

theorem le_sum (g : ι → Nat) (p : ι) : g p ≤ ∑ q, g q := by
  have hsplit := Finset.sum_erase_add Finset.univ g (Finset.mem_univ p)
  omega

/-- A family that grows at most at `p` has a sum that grows by at most that. -/
theorem sum_le_change (g g' : ι → Nat) (p : ι) (h : ∀ q, q ≠ p → g' q ≤ g q) :
    ∑ q, g' q + g p ≤ ∑ q, g q + g' p := by
  have hle : ∑ q, g' q ≤ ∑ q, Function.update g p (g' p) q := by
    refine Finset.sum_le_sum fun q _ => ?_
    by_cases hq : q = p
    · rw [hq, Function.update_self]
    · rw [Function.update_of_ne hq]
      exact h q hq
  have hsum := sum_change g (Function.update g p (g' p)) p
    fun q hq => Function.update_of_ne hq _ _
  rw [Function.update_self] at hsum
  omega

end Xv6.Lib
