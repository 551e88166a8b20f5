import GmlLift.Proofs.Execution.Composition
import GmlLift.Proofs.Lifting.Meets

/-!
# The faults of code

`Action.HaltsOnly P x` says that `x` halts only for reasons with the property `P`, from whatever
state it starts. It goes through every way in which actions are composed and holds of every move of
the machine, `Composed.haltsOnly`.

Result: `haltsOnly_execute`. Every error of straight-line code names one of its instructions.
-/

namespace GmlLift

namespace Action

variable {σ α β : Type} {P : Halt → Prop}

/-- **The action halts only for such a reason.** -/
structure HaltsOnly (P : Halt → Prop) (x : Action σ α) : Prop where
  meets : ∀ s, x.Meets s (fun _ _ => True) P

namespace HaltsOnly

theorem mono {x : Action σ α} {Q : Halt → Prop} (h : HaltsOnly P x) (hPQ : ∀ e, P e → Q e) :
    HaltsOnly Q x :=
  ⟨fun s => (h.meets s).mono (fun _ _ _ => trivial) hPQ⟩

protected theorem pure (a : α) : HaltsOnly (σ := σ) P (pure a) := ⟨fun _ => trivial⟩

protected theorem halt {e : Halt} (h : P e) : HaltsOnly (σ := σ) (α := α) P (halt e) :=
  ⟨fun _ => h⟩

protected theorem change (f : σ → σ) : HaltsOnly P (change f) := ⟨fun _ => trivial⟩

protected theorem bind {x : Action σ α} {f : α → Action σ β} (hx : HaltsOnly P x)
    (hf : ∀ a, HaltsOnly P (f a)) : HaltsOnly P (x >>= f) :=
  ⟨fun s => Meets.bind ((hx.meets s).imp fun a s' _ => (hf a).meets s')⟩

/-- What is done may depend on the state. -/
theorem state_bind {f : σ → Action σ β} (hf : ∀ s, HaltsOnly P (f s)) :
    HaltsOnly P (state >>= f) :=
  HaltsOnly.bind ⟨fun _ => trivial⟩ hf

theorem ite {x y : Action σ α} {p : Prop} [Decidable p] (hx : HaltsOnly P x)
    (hy : HaltsOnly P y) : HaltsOnly P (if p then x else y) := by
  by_cases hp : p
  · rw [if_pos hp]
    exact hx
  · rw [if_neg hp]
    exact hy

end HaltsOnly

end Action

namespace Machine

open GmlLift.Action

/-! ## The moves of the machine -/

section Moves

variable {P : Halt → Prop}

theorem haltsOnly_push (id : NodeId) : HaltsOnly P (push id) := .change _

theorem haltsOnly_make (kind : Kind) (children : List NodeId) : HaltsOnly P (make kind children) :=
  ⟨fun _ => trivial⟩

theorem haltsOnly_pushNew (kind : Kind) (children : List NodeId) :
    HaltsOnly P (pushNew kind children) :=
  (haltsOnly_make kind children).bind haltsOnly_push

theorem haltsOnly_edit (h : P .outOfRange) (f : Tree → Option Tree) : HaltsOnly P (edit f) := by
  refine ⟨fun m => ?_⟩
  cases hf : f m.tree with
  | some t => exact meets_edit hf trivial
  | none =>
    refine (meets_of_error ?_).mpr h
    rw [edit_of_none hf]

theorem haltsOnly_append (h : P .outOfRange) (parent child : NodeId) :
    HaltsOnly P (append parent child) := haltsOnly_edit h _

theorem haltsOnly_report (cfg : Settings) (level : Level) (text : Machine → String) :
    HaltsOnly P (report cfg level text) := ⟨fun _ => trivial⟩

theorem haltsOnly_describe (h : P .outOfRange) (h' : P .endless) (cfg : Settings) (level : Level)
    (id : NodeId) (line : String → String) : HaltsOnly P (describe cfg level id line) := by
  refine ⟨fun m => ?_⟩
  unfold Meets describe
  by_cases hw : level.wantedAt cfg.verbosity = true
  · rw [if_pos hw]
    cases m.tree.text id with
    | ok text => trivial
    | error fault =>
      cases fault with
      | missing _ => exact h
      | cyclic => exact h'
  · rw [if_neg hw]
    trivial

/-! ## What raises no error

These instructions and parts of instructions can only come upon an id that is out of range or upon
a cycle. -/

variable (h : P .outOfRange) (cfg : Settings) (container : NodeId) (position : Nat)
  (i : Instruction)

theorem haltsOnly_convert : HaltsOnly P (convert i) := by
  refine .ite (.state_bind fun m => ?_) (.pure ())
  cases m.stack.peek?.bind m.tree.booleanLiteral? with
  | none => exact .pure ()
  | some value => exact (haltsOnly_make ..).bind fun _ => .change _

include h

theorem haltsOnly_arrayIndices (h' : P .endless) (index : NodeId) :
    HaltsOnly P (arrayIndices cfg index) := by
  refine .state_bind fun m => ?_
  cases rowAndColumn? cfg m.tree index with
  | none => exact .pure _
  | some parts => exact (haltsOnly_describe h h' ..).bind fun _ => .pure _

theorem haltsOnly_assign (h' : P .endless) (target : Access) (value : NodeId) :
    HaltsOnly P (assign cfg container position target value) := by
  refine .state_bind fun m => ?_
  cases m.tree.compound? target.owner target.addressing value with
  | none => exact .halt h
  | some parts =>
    cases parts with
    | none => exact (haltsOnly_make ..).bind fun _ => haltsOnly_append h ..
    | some parts =>
      exact (haltsOnly_make ..).bind fun _ => (haltsOnly_describe h h' ..).bind fun _ =>
        haltsOnly_append h ..

theorem haltsOnly_discard : HaltsOnly P (discard cfg container position) := by
  refine .state_bind fun m => ?_
  cases m.stack.pop? with
  | none => exact haltsOnly_report ..
  | some popped => exact (HaltsOnly.change _).bind fun _ => haltsOnly_append h ..

end Moves

theorem haltsOnly_pop (position : Nat) : HaltsOnly (Halt.IsAt position) (pop position) := by
  constructor
  rintro ⟨t, ⟨items⟩⟩
  cases items with
  | nil => exact (rfl : position = position)
  | cons id rest => trivial

theorem haltsOnly_duplicate (position : Nat) (i : Instruction) :
    HaltsOnly (Halt.IsAt position) (duplicate position i) := by
  refine .ite (.state_bind fun m => .ite (.halt (rfl : position = position)) ?_)
    (.halt (rfl : position = position))
  exact (haltsOnly_edit trivial _).bind fun _ => .change _

/-- **What is composed of the moves of an instruction raises errors about that instruction.** -/
theorem Composed.haltsOnly {w : Twin} {α : Type} {hand : Hand} {x y : Action Machine α}
    {post : α → Hand} (h : Composed w hand x y post) : HaltsOnly (Halt.IsAt w.position) x := by
  induction h with
  | pure => exact .pure _
  | bind _ _ ihx ihf => exact ihx.bind ihf
  | weaken _ _ ih => exact ih
  | fail _ he => exact .halt he
  | pop => exact haltsOnly_pop w.position
  | push => exact haltsOnly_push _
  | make => exact haltsOnly_make _ _
  | place => exact (haltsOnly_make _ _).bind fun _ => haltsOnly_append trivial _ _
  | arrayIndices => exact haltsOnly_arrayIndices trivial w.cfg trivial _
  | assign => exact haltsOnly_assign trivial w.cfg w.container w.position trivial _ _
  | duplicate => exact haltsOnly_duplicate w.position w.i
  | discard => exact haltsOnly_discard trivial w.cfg w.container w.position
  | convert => exact haltsOnly_convert w.i
  | report => exact haltsOnly_report _ _ _
  | describe => exact haltsOnly_describe trivial trivial _ _ _ _

/-! ## Code -/

theorem haltsOnly_step (cfg : Settings) (container : NodeId) (behind : List Instruction)
    (i : Instruction) (ahead : List Instruction) :
    HaltsOnly (Halt.IsAt behind.length) (step cfg container behind i ahead) :=
  (composed_step_same cfg container behind i ahead).haltsOnly

theorem haltsOnly_executeFrom (cfg : Settings) (container : NodeId) :
    ∀ (ahead : List Instruction) (skip : Nat) (behind : List Instruction),
    HaltsOnly (fun h => ∃ position < behind.length + ahead.length, h.IsAt position)
      (executeFrom cfg container skip behind ahead)
  | [], _, _ => .pure ()
  | i :: ahead, skip, behind => by
    have hrest (skip : Nat) : HaltsOnly
        (fun h => ∃ position < behind.length + (i :: ahead).length, h.IsAt position)
        (executeFrom cfg container skip (i :: behind) ahead) := by
      refine (haltsOnly_executeFrom cfg container ahead skip (i :: behind)).mono ?_
      rintro e ⟨position, hlt, he⟩
      refine ⟨position, ?_, he⟩
      simp only [List.length_cons] at hlt ⊢
      omega
    cases skip with
    | succ skip => exact hrest skip
    | zero =>
      refine ((haltsOnly_step cfg container behind i ahead).mono fun e he => ?_).bind hrest
      exact ⟨behind.length, Nat.lt_add_of_pos_right (Nat.succ_pos _), he⟩

/-- **Every error of code names one of its instructions.** -/
theorem haltsOnly_execute (cfg : Settings) (code : List Instruction) (container : NodeId) :
    HaltsOnly (fun h => ∃ position < code.length, h.IsAt position)
      (execute cfg code container) := by
  have h := haltsOnly_executeFrom cfg container code 0 []
  rwa [List.length_nil, Nat.zero_add] at h

end Machine

end GmlLift
