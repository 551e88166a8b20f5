import GmlLift.Lifting.Error
import GmlLift.Settings

/-!
# Actions

An action changes a state, may report lines, and either answers or halts. A halted action still
leaves its state behind, with everything done so far. The lines are an output and not a part of
the state, so no later action can depend on them.
-/

namespace GmlLift

/-- What an action leaves behind. -/
structure Outcome (σ α : Type) where
  result : Except Halt α
  state : σ
  notes : List Note

/-- A computation on a state that may halt and may report. -/
def Action (σ α : Type) : Type := σ → Outcome σ α

variable {σ τ α β : Type}

/-- Goes on after an outcome, unless it halted. -/
def Outcome.andThen (o : Outcome σ α) (f : α → Action σ β) : Outcome σ β :=
  match o.result with
  | .ok a =>
    let next := f a o.state
    { next with notes := o.notes ++ next.notes }
  | .error h => ⟨.error h, o.state, o.notes⟩

namespace Action

instance : Monad (Action σ) where
  pure a := fun s => ⟨.ok a, s, []⟩
  bind x f := fun s => Outcome.andThen (x s) f

/-- Stops for the given reason. -/
def halt (h : Halt) : Action σ α := fun s => ⟨.error h, s, []⟩

/-- Stops with an error. -/
def fail (e : LiftError) : Action σ α := halt (.error e)

/-- The state. -/
def state : Action σ σ := fun s => ⟨.ok s, s, []⟩

/-- Replaces the state. -/
def change (f : σ → σ) : Action σ Unit := fun s => ⟨.ok (), f s, []⟩

/-- Reports a line if its level is wanted. -/
def report (cfg : Settings) (level : Level) (text : σ → String) : Action σ Unit := fun s =>
  ⟨.ok (), s, if level.wantedAt cfg.verbosity then [⟨level, text s⟩] else []⟩

/-- Runs an action on a part of a larger state. -/
def onPart (get : σ → τ) (set : τ → σ → σ) (x : Action τ α) : Action σ α := fun s =>
  let o := x (get s)
  ⟨o.result, set o.state s, o.notes⟩

/-! ## How actions compute -/

@[simp] theorem pure_apply (a : α) (s : σ) : (pure a : Action σ α) s = ⟨.ok a, s, []⟩ := rfl

theorem bind_apply (x : Action σ α) (f : α → Action σ β) (s : σ) :
    (x >>= f) s = Outcome.andThen (x s) f := rfl

@[simp] theorem halt_apply (h : Halt) (s : σ) : (halt h : Action σ α) s = ⟨.error h, s, []⟩ := rfl

@[simp] theorem state_apply (s : σ) : (state : Action σ σ) s = ⟨.ok s, s, []⟩ := rfl

@[simp] theorem change_apply (f : σ → σ) (s : σ) : change f s = ⟨.ok (), f s, []⟩ := rfl

/-- An action that answers is followed by the next one, on the state that it left. -/
theorem bind_of_ok {x : Action σ α} {f : α → Action σ β} {s : σ} {a : α}
    (h : (x s).result = .ok a) :
    (x >>= f) s =
      { f a (x s).state with notes := (x s).notes ++ (f a (x s).state).notes } := by
  simp [bind_apply, Outcome.andThen, h]

/-- An action that halts is the last one. -/
theorem bind_of_error {x : Action σ α} {f : α → Action σ β} {s : σ} {e : Halt}
    (h : (x s).result = .error e) : (x >>= f) s = ⟨.error e, (x s).state, (x s).notes⟩ := by
  simp [bind_apply, Outcome.andThen, h]

theorem map_apply (f : α → β) (x : Action σ α) (s : σ) :
    (f <$> x) s = ⟨(x s).result.map f, (x s).state, (x s).notes⟩ := by
  show Outcome.andThen (x s) (fun a => pure (f a)) = _
  cases h : (x s).result <;> simp [Outcome.andThen, h, Except.map]

theorem bind_assoc_apply {γ : Type} (x : Action σ α) (f : α → Action σ β) (g : β → Action σ γ)
    (s : σ) : (x >>= f >>= g) s = (x >>= fun a => f a >>= g) s := by
  cases hx : (x s).result with
  | error e => simp [bind_apply, Outcome.andThen, hx]
  | ok a =>
    cases hf : (f a (x s).state).result <;>
      simp [bind_apply, Outcome.andThen, hx, hf, List.append_assoc]

instance : LawfulMonad (Action σ) :=
  LawfulMonad.mk' _
    (fun x => by
      funext s
      rw [map_apply]
      cases h : (x s).result <;> simp [← h, Except.map])
    (fun _ _ => rfl)
    (fun x f g => by
      funext s
      exact bind_assoc_apply x f g s)

/-- A sequence answers exactly when both of its parts do. -/
theorem result_bind_eq_ok_iff {x : Action σ α} {f : α → Action σ β} {s : σ} {b : β} :
    ((x >>= f) s).result = .ok b ↔
      ∃ a, (x s).result = .ok a ∧ (f a (x s).state).result = .ok b := by
  cases h : (x s).result with
  | ok a => simp [bind_of_ok h]
  | error e => simp [bind_of_error h]

end Action

end GmlLift
