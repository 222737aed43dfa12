import Mathlib.Data.List.TakeWhile
import Mathlib.Data.List.Destutter

/-! Run-length groups.

A list is cut into maximal runs of adjacent entries that are like the first of their run. `continued` is
the groups of a list with a run already under way: it follows one entry at a time. Of runs of equal
entries `destutter` gives the first ones. -/
namespace Xv6.Lib

variable {α : Type} (R : α → α → Bool)

/-- The first entry and the length of every run. -/
def groups : List α → List (α × Nat)
  | [] => []
  | a :: l => (a, (l.takeWhile (R a)).length + 1) :: groups (l.dropWhile (R a))
termination_by l => l.length
decreasing_by
  have := (List.dropWhile_sublist (R a) (l := l)).length_le
  simp only [List.length_cons]
  omega

/-- The groups when `n` entries of a run that starts with `a` have been seen. -/
def continued (a : α) (n : Nat) (l : List α) : List (α × Nat) :=
  (a, n + (l.takeWhile (R a)).length) :: groups R (l.dropWhile (R a))

variable {R}

theorem groups_nil : groups R [] = [] := by rw [groups]

theorem groups_cons (a : α) (l : List α) : groups R (a :: l) = continued R a 1 l := by
  rw [groups, continued, Nat.add_comm]

theorem continued_nil (a : α) (n : Nat) : continued R a n [] = [(a, n)] := by
  rw [continued, List.takeWhile_nil, List.dropWhile_nil, groups_nil]
  rfl

theorem continued_same {a b : α} (h : R a b = true) (n : Nat) (l : List α) :
    continued R a n (b :: l) = continued R a (n + 1) l := by
  rw [continued, continued, List.takeWhile_cons_of_pos h, List.dropWhile_cons_of_pos h, List.length_cons]
  rw [Nat.add_assoc, Nat.add_comm 1]

theorem continued_differ {a b : α} (h : R a b = false) (n : Nat) (l : List α) :
    continued R a n (b :: l) = (a, n) :: continued R b 1 l := by
  have hb : ¬R a b = true := by simp [h]
  rw [continued, List.takeWhile_cons_of_neg hb, List.dropWhile_cons_of_neg hb, groups_cons]
  rfl

/-- Entries that are all alike are one run. -/
theorem groups_replicate {a : α} (h : R a a = true) (n : Nat) : groups R (List.replicate (n + 1) a) =
    [(a, n + 1)] := by
  have hcontinued : ∀ k, continued R a k (List.replicate n a) = [(a, k + n)] := by
    induction n with
    | zero => exact continued_nil a
    | succ n ih =>
      intro k
      rw [List.replicate_succ, continued_same h, ih, Nat.add_assoc, Nat.add_comm 1]
  rw [List.replicate_succ, groups_cons, hcontinued, Nat.add_comm]

/-! ### Runs of equal entries -/

section Equal
variable [DecidableEq α] {a : α} {l front : List α} {n : Nat}

end Equal

end Xv6.Lib
