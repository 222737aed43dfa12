import Mathlib.Data.List.Basic
import Mathlib.Data.List.Nodup
import Mathlib.Data.List.Perm.Basic

/-! Singly linked circles.

`Leads next x l y` says that from `x` the links lead through the nodes of `l` to `y`; a circle leads from a node back
to it. A change of links is seen through the last node before it: `l.getLastD x`. -/
namespace Xv6.Lib

open List

variable {α : Type}

/-- From `x` through `l` to `y`. -/
def Leads (next : α → α) : α → List α → α → Prop
  | x, [], y => next x = y
  | x, a :: l, y => next x = a ∧ Leads next a l y

variable {next next' : α → α} {x y z b : α} {l l₁ l₂ : List α}

theorem leads_append : Leads next x (l₁ ++ b :: l₂) y ↔ Leads next x l₁ b ∧ Leads next b l₂ y := by
  induction l₁ generalizing x with
  | nil => rfl
  | cons a l₁ ih => simp only [cons_append, Leads, ih, and_assoc]

/-- A way is one up to a node, and one from it. -/
theorem leads_split : Leads next x (l₁ ++ l₂) y ↔
    Leads next x l₁ (next (l₁.getLastD x)) ∧ Leads next (l₁.getLastD x) l₂ y := by
  induction l₁ generalizing x with
  | nil => exact (and_iff_right rfl).symm
  | cons a l₁ ih => simp only [cons_append, Leads, ih, getLastD_cons, and_assoc]

theorem Leads.last (h : Leads next x l y) : next (l.getLastD x) = y := by
  rw [← append_nil l, leads_split] at h
  exact h.2

/-- A circle from another node on. -/
theorem Leads.turn (h : Leads next x (l₁ ++ b :: l₂) x) : Leads next b (l₂ ++ x :: l₁) b := by
  rw [leads_append] at h ⊢
  exact h.symm

/-- The nodes after those of a circle are those of the circle. -/
theorem Leads.map (h : Leads next x l y) : (x :: l).map next = l ++ [y] := by
  induction l generalizing x with
  | nil => exact congrArg (fun z => [z]) h
  | cons a l ih => rw [map_cons, ih h.2, h.1, cons_append]

/-- No two nodes of a circle lead to the same. -/
theorem Leads.inj (h : Leads next x l x) (hnodup : (x :: l).Nodup) (hb : b ∈ x :: l) (hz : z ∈ x :: l)
    (heq : next b = next z) : b = z := by
  refine List.inj_on_of_nodup_map (f := next) ?_ hb hz heq
  rw [h.map]
  exact (perm_append_singleton x l).nodup_iff.mpr hnodup

/-- The links before the last node are unchanged. -/
theorem Leads.front (h : Leads next x (l₁ ++ l₂) y) (hnodup : (x :: l₁).Nodup)
    (hnext : ∀ z ∈ x :: l₁, z ≠ l₁.getLastD x → next' z = next z) : Leads next' x l₁ (next' (l₁.getLastD x)) := by
  induction l₁ generalizing x with
  | nil => rfl
  | cons a l₁ ih =>
    obtain ⟨hx, hnodup⟩ := nodup_cons.mp hnodup
    have hne : x ≠ (a :: l₁).getLastD x := by
      intro hc
      refine hx (hc ▸ ?_)
      rw [getLastD_cons]
      exact getLastD_mem_cons ..
    refine ⟨(hnext x (mem_cons_self ..) hne).trans h.1, ?_⟩
    rw [getLastD_cons] at hnext ⊢
    exact ih h.2 hnodup fun z hz => hnext z (mem_cons_of_mem _ hz)

/-- Another node leads where `x` does. -/
theorem Leads.relay (h : Leads next x l y) (hb : next' b = next x) (hnext : ∀ z ∈ l, next' z = next z) :
    Leads next' b l y := by
  induction l generalizing x b with
  | nil => exact hb.trans h
  | cons a l ih =>
    refine ⟨hb.trans h.1, ih h.2 (hnext a (mem_cons_self ..)) fun z hz => hnext z (mem_cons_of_mem _ hz)⟩

theorem Leads.head (h : Leads next x l y) : next x = l.headD y := by
  cases l with
  | nil => exact h
  | cons a l => exact h.1

/-- A circle from any of its nodes on. -/
theorem Leads.rotate (h : Leads next x l x) (hz : z ∈ x :: l) : ∃ l', Leads next z l' z ∧ (z :: l').Perm (x :: l) :=
    by
  rcases mem_cons.mp hz with rfl | hz
  · exact ⟨l, h, List.Perm.refl _⟩
  · obtain ⟨l₁, l₂, rfl⟩ := append_of_mem hz
    have hperm : ((z :: l₂) ++ (x :: l₁)).Perm ((x :: l₁) ++ (z :: l₂)) := perm_append_comm
    exact ⟨l₂ ++ x :: l₁, h.turn, hperm⟩

/-- On an ordered way every node but the last is followed by a larger one. -/
theorem Leads.ascends {R : α → α → Prop} (h : Leads next x l y) (hR : (x :: l).Pairwise R) (hz : z ∈ x :: l) :
    z = l.getLastD x ∨ next z ∈ l ∧ R z (next z) := by
  induction l generalizing x with
  | nil => exact .inl (mem_singleton.mp hz)
  | cons a l ih =>
    rw [getLastD_cons]
    rcases mem_cons.mp hz with rfl | hz
    · rw [h.1]
      exact .inr ⟨mem_cons_self .., (pairwise_cons.mp hR).1 a (mem_cons_self ..)⟩
    · exact (ih h.2 (pairwise_cons.mp hR).2 hz).imp id fun hnext => ⟨mem_cons_of_mem _ hnext.1, hnext.2⟩

end Xv6.Lib
