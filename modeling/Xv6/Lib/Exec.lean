import Mathlib.Logic.Basic

/-! Programs over a state that may stop, and what they guarantee.

`Exec ε σ α` is a program over states `σ` that answers an `α` or stops with a
reason in `ε`. `Runs x s Q E` says what `x` does from `s`: it answers, and `Q`
holds of the answer and the state it leaves, or it stops for a reason `E` allows.
With `E` always true this is partial correctness, with `E` always false it is
total correctness. The rules below follow the program's structure, so that a
caller uses a callee through its `Runs` lemma and never through its body. -/
namespace Xv6.Lib

abbrev Exec (ε σ : Type) := StateT σ (Except ε)

variable {ε σ α β : Type}

/-- From `s`, `x` answers with `Q`, or stops for a reason `E` allows. -/
def Runs (x : Exec ε σ α) (s : σ) (Q : α → σ → Prop) (E : ε → Prop) : Prop :=
  match x s with
  | .ok (a, s') => Q a s'
  | .error e => E e

theorem bind_of_ok {x : Exec ε σ α} {f : α → Exec ε σ β} {s s' : σ} {a : α} (hx : x s = .ok (a, s')) :
    (x >>= f) s = f a s' := by
  show (x s >>= fun p => f p.1 p.2 : Except ε (β × σ)) = _
  rw [hx]
  rfl

theorem bind_of_error {x : Exec ε σ α} {f : α → Exec ε σ β} {s : σ} {e : ε} (hx : x s = .error e) :
    (x >>= f) s = .error e := by
  show (x s >>= fun p => f p.1 p.2 : Except ε (β × σ)) = _
  rw [hx]
  rfl

/-- What `x` answers from `s`, if it does. -/
def answer (x : Exec ε σ α) (s : σ) : Option α :=
  match x s with
  | .ok (a, _) => some a
  | .error _ => none

theorem of_answer {x : Exec ε σ α} {s : σ} {a : α} (h : answer x s = some a) : ∃ s', x s = .ok (a, s') := by
  rw [answer] at h
  cases hx : x s with
  | error e =>
    rw [hx] at h
    cases h
  | ok p =>
    rw [hx] at h
    exact ⟨p.2, by rw [← Option.some.inj h]⟩

namespace Runs
variable {x : Exec ε σ α} {f : α → Exec ε σ β} {s s' : σ} {a : α} {e : ε}
variable {Q R : α → σ → Prop} {P : β → σ → Prop} {E F : ε → Prop}

/-! ### Reading a result off -/

theorem of_ok (h : Runs x s Q E) (hx : x s = .ok (a, s')) : Q a s' := by
  rw [Runs, hx] at h
  exact h

theorem of_error (h : Runs x s Q E) (hx : x s = .error e) : E e := by
  rw [Runs, hx] at h
  exact h

/-- A program that may not stop answers. -/
theorem answers (h : Runs x s Q fun _ => False) : ∃ a s', x s = .ok (a, s') ∧ Q a s' := by
  rw [Runs] at h
  match hx : x s with
  | .ok (a, s') => exact ⟨a, s', rfl, by rw [hx] at h; exact h⟩
  | .error e => rw [hx] at h; exact h.elim

theorem of_eq_ok (hx : x s = .ok (a, s')) (h : Q a s') : Runs x s Q E := by
  rw [Runs, hx]
  exact h

theorem of_eq_error (hx : x s = .error e) (h : E e) : Runs x s Q E := by
  rw [Runs, hx]
  exact h

/-! ### Structural rules -/

theorem mono (h : Runs x s Q E) (hQ : ∀ a s', Q a s' → R a s') (hE : ∀ e, E e → F e) :
    Runs x s R F := by
  rw [Runs] at h ⊢
  match hx : x s with
  | .ok (a, s') => rw [hx] at h; exact hQ a s' h
  | .error e => rw [hx] at h; exact hE e h

theorem post (h : Runs x s Q E) (hQ : ∀ a s', Q a s' → R a s') : Runs x s R E :=
  h.mono hQ fun _ he => he

theorem stops (h : Runs x s Q E) (hE : ∀ e, E e → F e) : Runs x s Q F :=
  h.mono (fun _ _ hq => hq) hE

/-- Two specifications of one program. -/
theorem and (h : Runs x s Q E) (h' : Runs x s R F) :
    Runs x s (fun a s' => Q a s' ∧ R a s') fun e => E e ∧ F e := by
  rw [Runs] at h h' ⊢
  match hx : x s with
  | .ok (a, s') => rw [hx] at h h'; exact ⟨h, h'⟩
  | .error e => rw [hx] at h h'; exact ⟨h, h'⟩

theorem always : Runs x s (fun _ _ => True) fun _ => True := by
  rw [Runs]
  match x s with
  | .ok _ => trivial
  | .error _ => trivial

/-- What a program does is a specification of it. -/
theorem self (x : Exec ε σ α) (s : σ) : Runs x s (fun a t => x s = .ok (a, t)) fun e => x s = .error e := by
  rw [Runs]
  match hx : x s with
  | .ok _ => exact rfl
  | .error _ => exact rfl

theorem pure (h : Q a s) : Runs (Pure.pure a : Exec ε σ α) s Q E := h

theorem throw (h : E e) : Runs (MonadExcept.throw e : Exec ε σ α) s Q E := h

theorem bind (h : Runs x s R E) (hf : ∀ a s', R a s' → Runs (f a) s' P E) :
    Runs (x >>= f) s P E := by
  rw [Runs] at h
  show match (x s >>= fun p => f p.1 p.2 : Except ε (β × σ)) with
    | .ok (a, s') => P a s'
    | .error e => E e
  match hx : x s with
  | .ok (a, s') => rw [hx] at h; exact hf a s' h
  | .error e => rw [hx] at h; exact h

/-- A first step whose outcome is known. -/
theorem bind_ok (hx : x s = .ok (a, s')) (hf : Runs (f a) s' P E) : Runs (x >>= f) s P E :=
  (of_eq_ok (Q := fun b t => b = a ∧ t = s') hx ⟨rfl, rfl⟩).bind fun _ _ h => by
    rw [h.1, h.2]
    exact hf

/-- A first step that reads the state. -/
theorem bind_get {f : σ → Exec ε σ β} (h : Runs (f s) s P E) : Runs (MonadState.get >>= f) s P E :=
  bind_ok rfl h

/-- Two first steps taken together. -/
theorem assoc {γ : Type} {g : β → Exec ε σ γ} {P : γ → σ → Prop}
    (h : Runs ((x >>= f) >>= g) s P E) : Runs (x >>= fun a => f a >>= g) s P E := by
  rwa [bind_assoc] at h

theorem ite {c : Prop} [Decidable c] {y : Exec ε σ α} (hx : c → Runs x s Q E)
    (hy : ¬ c → Runs y s Q E) : Runs (if c then x else y) s Q E := by
  by_cases h : c
  · rw [if_pos h]; exact hx h
  · rw [if_neg h]; exact hy h

theorem modify {g : σ → σ} {Q : PUnit → σ → Prop} (h : Q ⟨⟩ (g s)) :
    Runs (modifyGet fun s => (⟨⟩, g s) : Exec ε σ PUnit) s Q E := h

/-- A loop over a list keeps what each iteration keeps, given the elements done so far. -/
theorem forM {l : List β} {g : β → Exec ε σ PUnit} (I : List β → σ → Prop)
    (step : ∀ done b rest s, l = done ++ b :: rest → I done s →
      Runs (g b) s (fun _ => I (done ++ [b])) E) (h : I [] s) :
    Runs (l.forM g) s (fun _ => I l) E := by
  suffices key : ∀ rest done s, l = done ++ rest → I done s →
      Runs (rest.forM g) s (fun _ => I l) E from key l [] s rfl h
  intro rest
  induction rest with
  | nil =>
    intro done s hl hd
    rw [List.append_nil] at hl
    exact Runs.pure (by rw [hl]; exact hd)
  | cons b rest ih =>
    intro done s hl hd
    refine Runs.bind (step done b rest s hl hd) fun _ s' hs' => ih (done ++ [b]) s' ?_ hs'
    rw [hl, List.append_assoc, List.singleton_append]

end Runs

/-! ### Two programs that do the same -/

/-- From `s`, `y` does to the state what `x` does, and `R` holds of their answers. -/
def Alike (x : Exec ε σ α) (y : Exec ε σ β) (s : σ) (R : α → β → Prop) : Prop :=
  Runs x s (fun a t => ∃ b, y s = .ok (b, t) ∧ R a b) fun e => y s = .error e

namespace Alike
variable {γ δ : Type} {x : Exec ε σ α} {y : Exec ε σ β} {s : σ} {R : α → β → Prop} {S : γ → δ → Prop}
variable {f : α → Exec ε σ γ} {g : β → Exec ε σ δ}

theorem refl (x : Exec ε σ α) (s : σ) : Alike x x s Eq :=
  (Runs.self x s).post fun a _ h => ⟨a, h, rfl⟩

theorem pure {a : α} {b : β} (h : R a b) : Alike (Pure.pure a : Exec ε σ α) (Pure.pure b) s R :=
  Runs.pure ⟨b, rfl, h⟩

theorem bind (h : Alike x y s R) (hf : ∀ a b t, R a b → Alike (f a) (g b) t S) :
    Alike (x >>= f) (y >>= g) s S := by
  refine Runs.bind (Runs.stops h fun e he => bind_of_error he) fun a t hb => ?_
  obtain ⟨b, hy, hR⟩ := hb
  rw [bind_of_ok hy]
  exact hf a b t hR

/-- The same first step. -/
theorem step {x : Exec ε σ α} {f : α → Exec ε σ γ} {g : α → Exec ε σ δ}
    (hf : ∀ a t, Alike (f a) (g a) t S) : Alike (x >>= f) (x >>= g) s S :=
  (refl x s).bind fun a _ t hab => hab ▸ hf a t

end Alike

end Xv6.Lib
