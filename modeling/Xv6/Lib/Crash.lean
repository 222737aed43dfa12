import Mathlib.Logic.Function.Basic

/-! Disks that can lose power between two writes.

A procedure is seen by the disk as the list of single-cell writes it issues, in
order. A crash cuts the list anywhere; recovery is a procedure computed from the
disk alone, and may be cut and started again any number of times before it runs
to its end (`Recovers`). -/
namespace Xv6.Lib

variable {α : Type}

/-- The disk after a list of writes, in order. -/
def applyWrites (d : Nat → α) : List (Nat × α) → Nat → α
  | [] => d
  | (b, v) :: ws => applyWrites (Function.update d b v) ws

theorem applyWrites_append (d : Nat → α) (ws vs : List (Nat × α)) :
    applyWrites d (ws ++ vs) = applyWrites (applyWrites d ws) vs := by
  induction ws generalizing d with
  | nil => rfl
  | cons w ws ih => exact ih _

/-- A cell no write touches keeps its contents. -/
theorem applyWrites_other (d : Nat → α) (ws : List (Nat × α)) (b : Nat)
    (h : ∀ w ∈ ws, w.1 ≠ b) : applyWrites d ws b = d b := by
  induction ws generalizing d with
  | nil => rfl
  | cons w ws ih =>
    rw [applyWrites, ih _ fun v hv => h v (List.mem_cons_of_mem w hv),
      Function.update_of_ne (h w List.mem_cons_self).symm]

/-- A cell written once holds what was written. -/
theorem applyWrites_mem (d : Nat → α) (ws : List (Nat × α)) (b : Nat) (v : α)
    (hnd : (ws.map Prod.fst).Nodup) (h : (b, v) ∈ ws) : applyWrites d ws b = v := by
  induction ws generalizing d with
  | nil => cases h
  | cons w ws ih =>
    rw [List.map_cons, List.nodup_cons] at hnd
    rcases List.mem_cons.mp h with rfl | h
    · rw [applyWrites, applyWrites_other _ _ _ fun u hu he =>
        hnd.1 (List.mem_map.mpr ⟨u, hu, he⟩), Function.update_self]
    · exact ih _ hnd.2 h

/-- Recovery with any number of crashes: each crash keeps a prefix of the writes
and starts over from the disk it leaves, and the last run goes to its end. -/
inductive Recovers (recover : (Nat → α) → List (Nat × α)) : (Nat → α) → (Nat → α) → Prop where
  | done (d : Nat → α) : Recovers recover d (applyWrites d (recover d))
  | crash (d : Nat → α) (k : Nat) {d' : Nat → α} :
      Recovers recover (applyWrites d ((recover d).take k)) d' → Recovers recover d d'

/-- What every prefix of a recovery keeps, holds when the last one starts. -/
theorem Recovers.final {recover : (Nat → α) → List (Nat × α)} {I Final : (Nat → α) → Prop}
    (hinv : ∀ d k, I d → I (applyWrites d ((recover d).take k)))
    (hfinal : ∀ d, I d → Final (applyWrites d (recover d)))
    {d d' : Nat → α} (h : Recovers recover d d') (hd : I d) : Final d' := by
  induction h with
  | done d => exact hfinal d hd
  | crash d k _ ih => exact ih (hinv d k hd)

end Xv6.Lib
