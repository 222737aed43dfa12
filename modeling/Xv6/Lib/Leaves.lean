import Xv6.Lib.Exec

/-! Programs that leave a part of the state as it is.

`Leaves obs x` says that wherever `x` answers, what `obs` sees of the state is what it
was. It is closed under the ways programs are put together, so that it is proved along
a program's text, with one argument for each store. -/
namespace Xv6.Lib

variable {ε σ τ α β : Type}

/-- Where `x` answers, it leaves what `obs` sees as it was. -/
def Leaves (obs : σ → τ) (x : Exec ε σ α) : Prop :=
  ∀ s, Runs x s (fun _ s' => obs s' = obs s) fun _ => True

namespace Leaves
variable {obs : σ → τ} {x y : Exec ε σ α} {f : α → Exec ε σ β}

theorem pure (a : α) : Leaves obs (Pure.pure a : Exec ε σ α) := fun _ => Runs.pure rfl

theorem throw (e : ε) : Leaves obs (MonadExcept.throw e : Exec ε σ α) := fun _ => Runs.throw trivial

theorem modify {g : σ → σ} (h : ∀ s, obs (g s) = obs s) :
    Leaves obs (modifyGet fun s => (⟨⟩, g s) : Exec ε σ PUnit) := fun s => Runs.modify (h s)

theorem bind (hx : Leaves obs x) (hf : ∀ a, Leaves obs (f a)) : Leaves obs (x >>= f) := fun s =>
  (hx s).bind fun a s' h => (hf a s').post fun _ _ h' => h'.trans h

theorem bind_get {g : σ → Exec ε σ β} (hg : ∀ s, Leaves obs (g s)) :
    Leaves obs (MonadState.get >>= g) := fun s => Runs.bind_get (hg s s)

theorem ite {c : Prop} [Decidable c] (hx : c → Leaves obs x) (hy : ¬ c → Leaves obs y) :
    Leaves obs (if c then x else y) := fun s => Runs.ite (fun h => hx h s) fun h => hy h s

theorem forM {l : List β} {g : β → Exec ε σ PUnit} (hg : ∀ b, Leaves obs (g b)) :
    Leaves obs (l.forM g) := fun s =>
  Runs.forM (fun _ s' => obs s' = obs s)
    (fun _ b _ s' _ h => (hg b s').post fun _ _ h' => h'.trans h) rfl

end Leaves

end Xv6.Lib
