import Mathlib.Logic.Basic

/-! Machines: states, actions, and runs.

A machine is a function from a state and an action to the next state, with no
answer when the action is not enabled. A run is a list of actions, each enabled
where it is taken. An invariant may speak of the actions taken so far: it holds
of every run once it holds at the start and every step keeps it. -/
namespace Xv6.Lib

variable {σ α : Type}

/-- The state after a list of actions, if each is enabled in turn. -/
def run (step : σ → α → Option σ) (s : σ) : List α → Option σ
  | [] => some s
  | a :: as => (step s a).bind fun s' => run step s' as

variable {step : σ → α → Option σ} {s s' : σ}

theorem run_cons {a : α} {as : List α} :
    run step s (a :: as) = some s' ↔ ∃ t, step s a = some t ∧ run step t as = some s' := by
  rw [run, Option.bind_eq_some_iff]

theorem run_append {as bs : List α} :
    run step s (as ++ bs) = some s' ↔ ∃ t, run step s as = some t ∧ run step t bs = some s' := by
  induction as generalizing s with
  | nil => simp [run]
  | cons a as ih =>
    rw [List.cons_append, run_cons]
    constructor
    · rintro ⟨t, ht, h⟩
      obtain ⟨u, hu, h⟩ := ih.mp h
      exact ⟨u, run_cons.mpr ⟨t, ht, hu⟩, h⟩
    · rintro ⟨u, hu, h⟩
      obtain ⟨t, ht, hu⟩ := run_cons.mp hu
      exact ⟨t, ht, ih.mpr ⟨u, hu, h⟩⟩

theorem run_singleton {a : α} : run step s [a] = some s' ↔ step s a = some s' := by
  rw [run_cons]
  exact ⟨fun ⟨_, ht, h⟩ => by rw [run, Option.some.injEq] at h; rw [ht, h], fun h => ⟨s', h, rfl⟩⟩

/-- A run whose end passes a test. -/
theorem run_any {q : σ → Bool} {as : List α} (h : (run step s as).any q = true) :
    ∃ s', run step s as = some s' ∧ q s' = true := by
  match hr : run step s as with
  | none =>
    rw [hr] at h
    cases h
  | some s' =>
    rw [hr] at h
    exact ⟨s', rfl, h⟩

/-- What every step keeps, a run keeps, from actions already taken on. -/
theorem run_keeps {I : List α → σ → Prop}
    (hstep : ∀ tr s a s', I tr s → step s a = some s' → I (tr ++ [a]) s')
    {tr as : List α} (h : I tr s) (hr : run step s as = some s') : I (tr ++ as) s' := by
  induction as generalizing s tr with
  | nil =>
    rw [run, Option.some.injEq] at hr
    rw [List.append_nil, ← hr]
    exact h
  | cons a as ih =>
    obtain ⟨t, ht, hr⟩ := run_cons.mp hr
    have := ih (hstep tr s a t h ht) hr
    rwa [List.append_assoc, List.singleton_append] at this

/-- What holds at the start and is kept by every step holds after every run. -/
theorem run_invariant {I : List α → σ → Prop} (hinit : I [] s)
    (hstep : ∀ tr s a s', I tr s → step s a = some s' → I (tr ++ [a]) s')
    {as : List α} (hr : run step s as = some s') : I as s' :=
  run_keeps hstep hinit hr

/-- Every step of a run meets `P`. -/
def Along (step : σ → α → Option σ) (P : σ → α → σ → Prop) (s : σ) : List α → Prop
  | [] => True
  | a :: as => ∀ s', step s a = some s' → P s a s' ∧ Along step P s' as

/-- A condition on actions alone. -/
theorem along_of_forall {P : α → Prop} {as : List α} (h : ∀ a ∈ as, P a) (s : σ) :
    Along step (fun _ a _ => P a) s as := by
  induction as generalizing s with
  | nil => trivial
  | cons a as ih =>
    exact fun t _ => ⟨h a (List.mem_cons_self ..), ih (fun b hb => h b (List.mem_cons_of_mem _ hb)) t⟩

/-- What every step that meets `P` keeps, a run whose steps all do keeps. -/
theorem Along.keeps {I : σ → Prop} {P : σ → α → σ → Prop}
    (hstep : ∀ s a s', I s → step s a = some s' → P s a s' → I s') {as : List α} (h : I s)
    (ha : Along step P s as) (hr : run step s as = some s') : I s' := by
  induction as generalizing s with
  | nil =>
    rw [run, Option.some.injEq] at hr
    exact hr ▸ h
  | cons a as ih =>
    obtain ⟨t, ht, hr⟩ := run_cons.mp hr
    obtain ⟨hp, ha⟩ := ha t ht
    exact ih (hstep s a t h ht hp) ha hr

/-- Two conditions on steps are the same along every run, when they are the same at each step
from a state with `I`, and the second one keeps `I`. -/
theorem along_congr {I : σ → Prop} {P Q : σ → α → σ → Prop}
    (hPQ : ∀ s a s', I s → step s a = some s' → (P s a s' ↔ Q s a s'))
    (hI : ∀ s a s', I s → step s a = some s' → Q s a s' → I s') (h : I s) (as : List α) :
    Along step P s as ↔ Along step Q s as := by
  induction as generalizing s with
  | nil => exact Iff.rfl
  | cons a as ih =>
    refine forall₂_congr fun s' hs => ?_
    rw [hPQ s a s' h hs]
    exact and_congr_right fun hq => ih (hI s a s' h hs hq)

/-- What related states show of every action, they show of every run. -/
theorem run_rel {τ : Type} {step' : τ → α → Option τ} {R : σ → τ → Prop}
    (hstep : ∀ s t a, R s t → Option.Rel R (step s a) (step' t a)) {t : τ} (h : R s t) (as : List α) :
    Option.Rel R (run step s as) (run step' t as) := by
  induction as generalizing s t with
  | nil => exact .some h
  | cons a as ih =>
    have ha := hstep s t a h
    rw [run, run]
    generalize step s a = x at ha ⊢
    generalize step' t a = y at ha ⊢
    cases ha with
    | none => exact .none
    | some h => exact ih h

end Xv6.Lib
