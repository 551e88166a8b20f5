import GmlLift.Lifting.Action

/-!
# Two runs side by side

`Action.Parallel S R x y` is a judgement on two actions, which may work on different states: from
states that `S` relates they come to states that `S` relates, and they either answer, with answers
that `R` relates, or halt for the same reason. What they report does not matter.

There is one rule for each way in which actions are composed.
-/

namespace GmlLift

/-- **The same end**: two answers that are related, or one halt. -/
inductive SameEnd {α β : Type} (R : α → β → Prop) : Except Halt α → Except Halt β → Prop
  | ok {a : α} {b : β} (h : R a b) : SameEnd R (.ok a) (.ok b)
  | error (h : Halt) : SameEnd R (.error h) (.error h)

namespace SameEnd

variable {α β γ δ : Type} {R : α → β → Prop} {r : Except Halt α} {r' : Except Halt β}

theorem cases (h : SameEnd R r r') :
    (∃ a b, r = .ok a ∧ r' = .ok b ∧ R a b) ∨ ∃ e, r = .error e ∧ r' = .error e := by
  cases h with
  | ok h => exact Or.inl ⟨_, _, rfl, rfl, h⟩
  | error e => exact Or.inr ⟨e, rfl, rfl⟩

theorem map {R' : γ → δ → Prop} (h : SameEnd R r r') {f : α → γ} {g : β → δ}
    (hfg : ∀ a b, R a b → R' (f a) (g b)) : SameEnd R' (r.map f) (r'.map g) := by
  rcases h.cases with ⟨a, b, rfl, rfl, hab⟩ | ⟨e, rfl, rfl⟩
  · exact .ok (hfg a b hab)
  · exact .error e

protected theorem refl (r : Except Halt α) : SameEnd Eq r r := by
  cases r with
  | ok a => exact .ok rfl
  | error e => exact .error e

protected theorem eq {r r' : Except Halt α} (h : SameEnd Eq r r') : r' = r := by
  rcases h.cases with ⟨a, b, rfl, rfl, rfl⟩ | ⟨e, rfl, rfl⟩ <;> rfl

end SameEnd

namespace Action

variable {σ τ α β γ δ : Type} {S : σ → τ → Prop} {R : α → β → Prop} {R' : γ → δ → Prop}

/-- **From related states the two actions go to related states, and to the same end.** -/
def Parallel (S : σ → τ → Prop) (R : α → β → Prop) (x : Action σ α) (y : Action τ β) : Prop :=
  ∀ s t, S s t → S (x s).state (y t).state ∧ SameEnd R (x s).result (y t).result

namespace Parallel

/-- An action beside itself. -/
protected theorem refl (x : Action σ α) : Parallel Eq Eq x x := by
  rintro s _ rfl
  exact ⟨rfl, .refl _⟩

protected theorem pure {a : α} {b : β} (h : R a b) : Parallel S R (pure a) (pure b) :=
  fun _ _ hst => ⟨hst, .ok h⟩

protected theorem halt (h : Halt) : Parallel S R (halt h) (halt h) :=
  fun _ _ hst => ⟨hst, .error h⟩

/-- **One action after the other**, on both sides. -/
protected theorem bind {x : Action σ α} {y : Action τ β} {f : α → Action σ γ} {g : β → Action τ δ}
    (hxy : Parallel S R x y) (hfg : ∀ a b, R a b → Parallel S R' (f a) (g b)) :
    Parallel S R' (x >>= f) (y >>= g) := by
  intro s t hst
  obtain ⟨hstate, hend⟩ := hxy s t hst
  rcases hend.cases with ⟨a, b, hx, hy, hab⟩ | ⟨e, hx, hy⟩
  · rw [bind_of_ok hx, bind_of_ok hy]
    exact hfg a b hab _ _ hstate
  · rw [bind_of_error hx, bind_of_error hy]
    exact ⟨hstate, .error e⟩

/-- What is done may depend on the states. -/
theorem state_bind {f : σ → Action σ γ} {g : τ → Action τ δ}
    (h : ∀ s t, S s t → Parallel S R' (f s) (g t)) :
    Parallel S R' (state >>= f) (state >>= g) :=
  Parallel.bind (R := S) (fun _ _ hst => ⟨hst, .ok hst⟩) h

/-- Both sides do the same first. -/
theorem same_bind {x : Action σ α} {f : α → Action σ γ} {g : α → Action σ δ}
    (h : ∀ a, Parallel Eq R' (f a) (g a)) : Parallel Eq R' (x >>= f) (x >>= g) :=
  (Parallel.refl x).bind fun a _ hab => hab ▸ h a

end Parallel

end Action

end GmlLift
