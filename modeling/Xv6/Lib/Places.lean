import Mathlib.Data.List.Nodup
import Mathlib.Data.List.Perm.Basic
import Mathlib.Logic.Function.Basic

/-! Numbered resources, each in one place.

A resource is in a slot (`held p = some x`) or in stock. `Places` says that no resource is in two
slots, in a slot and in stock, or in stock twice. It is kept when a resource is taken from stock to
an empty slot and when a slot is emptied into the stock, and neither changes which resources there
are (`Has`). -/
namespace Xv6.Lib
open Function

variable {σ : Type} {held : σ → Option Nat} {stock stock' : List Nat} {p : σ} {x y : Nat}

structure Places (held : σ → Option Nat) (stock : List Nat) : Prop where
  once : ∀ {p q x}, held p = some x → held q = some x → p = q
  nodup : stock.Nodup
  apart : ∀ {p x}, held p = some x → x ∉ stock

/-- The resource is somewhere. -/
def Has (held : σ → Option Nat) (stock : List Nat) (x : Nat) : Prop := x ∈ stock ∨ ∃ p, held p = some x

/-- Nothing is held. -/
theorem has_none : Has (fun _ : σ => none) stock x ↔ x ∈ stock := by
  refine ⟨fun h => h.resolve_right fun hc => ?_, .inl⟩
  obtain ⟨_, hp⟩ := hc
  cases hp

namespace Places

/-- What is in the slots of `S` and in stock is placed anew. -/
theorem change {held' : σ → Option Nat} {S : σ → Prop} (h : Places held stock) (hsame : ∀ q, ¬ S q → held' q = held q)
    (honce : ∀ {p q x}, S p → S q → held' p = some x → held' q = some x → p = q) (hnodup : stock'.Nodup)
    (hapart : ∀ {p x}, S p → held' p = some x → x ∉ stock')
    (hall : ∀ x, (x ∈ stock' ∨ ∃ p, S p ∧ held' p = some x) → x ∈ stock ∨ ∃ p, S p ∧ held p = some x) :
    Places held' stock' := by
  -- What was outside of `S` is not among what is placed anew.
  have hout : ∀ {q x}, ¬ S q → held' q = some x → ¬ (x ∈ stock' ∨ ∃ p, S p ∧ held' p = some x) := by
    intro q x hq hx hnew
    rw [hsame q hq] at hx
    rcases hall x hnew with hstock | ⟨p, hp, hpx⟩
    · exact h.apart hx hstock
    · exact hq (h.once hx hpx ▸ hp)
  refine ⟨fun {p q x} hp hq => ?_, hnodup, fun {p x} hp hx => ?_⟩
  · by_cases hSp : S p <;> by_cases hSq : S q
    · exact honce hSp hSq hp hq
    · exact absurd (.inr ⟨p, hSp, hp⟩) (hout hSq hq)
    · exact absurd (.inr ⟨q, hSq, hq⟩) (hout hSp hp)
    · rw [hsame p hSp] at hp
      rw [hsame q hSq] at hq
      exact h.once hp hq
  · by_cases hSp : S p
    · exact hapart hSp hp hx
    · exact hout hSp hp (.inl hx)

variable [DecidableEq σ]

theorem place (h : Places held (x :: stock)) :
    Places (update held p (some x)) stock := by
  obtain ⟨hx, hnodup⟩ := List.nodup_cons.mp h.nodup
  have hold : ∀ {q y}, q ≠ p → update held p (some x) q = some y → held q = some y ∧ y ≠ x := by
    intro q y hq hy
    rw [update_of_ne hq] at hy
    exact ⟨hy, fun hyx => h.apart hy (hyx ▸ List.mem_cons_self ..)⟩
  have hnew : ∀ {y}, update held p (some x) p = some y → y = x := by
    intro y hy
    rw [update_self] at hy
    exact (Option.some.inj hy).symm
  refine ⟨fun {q r y} hq hr => ?_, hnodup, fun {q y} hq => ?_⟩
  · by_cases hqp : q = p <;> by_cases hrp : r = p
    · rw [hqp, hrp]
    · rw [hqp] at hq
      exact absurd (hnew hq) (hold hrp hr).2
    · rw [hrp] at hr
      exact absurd (hnew hr) (hold hqp hq).2
    · exact h.once (hold hqp hq).1 (hold hrp hr).1
  · by_cases hqp : q = p
    · rw [hqp] at hq
      rw [hnew hq]
      exact hx
    · exact fun hy => h.apart (hold hqp hq).1 (List.mem_cons_of_mem _ hy)

theorem release (h : Places held stock) (hp : held p = some x) :
    Places (update held p none) (x :: stock) := by
  have hold : ∀ {q y}, update held p none q = some y → held q = some y ∧ q ≠ p := by
    intro q y hy
    by_cases hqp : q = p
    · rw [hqp, update_self] at hy
      cases hy
    · rw [update_of_ne hqp] at hy
      exact ⟨hy, hqp⟩
  refine ⟨fun hq hr => h.once (hold hq).1 (hold hr).1, List.nodup_cons.mpr ⟨h.apart hp, h.nodup⟩, ?_⟩
  intro q y hq hy
  obtain ⟨hq, hne⟩ := hold hq
  rcases List.mem_cons.mp hy with rfl | hy
  · exact hne (h.once hq hp)
  · exact h.apart hq hy

end Places

/-- Nothing is lost when the resources of some slots are placed anew. -/
theorem has_change {held' : σ → Option Nat} {S : σ → Prop} (hsame : ∀ q, ¬ S q → held' q = held q)
    (hall : ∀ x, (x ∈ stock' ∨ ∃ p, S p ∧ held' p = some x) ↔ x ∈ stock ∨ ∃ p, S p ∧ held p = some x) :
    Has held' stock' x ↔ Has held stock x := by
  have hsplit : ∀ (f : σ → Option Nat) (l : List Nat), Has f l x ↔
      (x ∈ l ∨ ∃ p, S p ∧ f p = some x) ∨ ∃ p, ¬ S p ∧ f p = some x := by
    intro f l
    constructor
    · rintro (hl | ⟨p, hp⟩)
      · exact .inl (.inl hl)
      · by_cases hS : S p
        · exact .inl (.inr ⟨p, hS, hp⟩)
        · exact .inr ⟨p, hS, hp⟩
    · rintro ((hl | ⟨p, -, hp⟩) | ⟨p, -, hp⟩)
      · exact .inl hl
      · exact .inr ⟨p, hp⟩
      · exact .inr ⟨p, hp⟩
  rw [hsplit, hsplit, hall x]
  refine or_congr Iff.rfl (exists_congr fun p => and_congr_right fun hS => ?_)
  rw [hsame p hS]

section Has
variable [DecidableEq σ]

theorem has_place (hp : held p = none) :
    Has (update held p (some x)) stock y ↔ Has held (x :: stock) y := by
  constructor
  · rintro (hy | ⟨q, hq⟩)
    · exact .inl (List.mem_cons_of_mem _ hy)
    · by_cases hqp : q = p
      · rw [hqp, update_self] at hq
        rw [← Option.some.inj hq]
        exact .inl (List.mem_cons_self ..)
      · rw [update_of_ne hqp] at hq
        exact .inr ⟨q, hq⟩
  · rintro (hy | ⟨q, hq⟩)
    · rcases List.mem_cons.mp hy with rfl | hy
      · exact .inr ⟨p, update_self ..⟩
      · exact .inl hy
    · have hqp : q ≠ p := fun he => by
        rw [he, hp] at hq
        cases hq
      exact .inr ⟨q, by rw [update_of_ne hqp]; exact hq⟩

theorem has_release (hp : held p = some x) :
    Has (update held p none) (x :: stock) y ↔ Has held stock y := by
  have hself : update (update held p none) p (some x) = held := by
    rw [update_idem, ← hp, update_eq_self]
  rw [← has_place (update_self ..), hself]

end Has

end Xv6.Lib
