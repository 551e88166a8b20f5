import GmlLift.Proofs.Execution.Composition
import GmlLift.Proofs.Execution.Range

/-!
# Code only adds to a tree

Whatever the machine is, and however a run of code ends, the nodes that were there before are as
they were, except for marks and for the statements that the container has got (`Tree.Extends`), and
the new nodes are expressions and simple statements. The judgement `Machine.OnlyAdds` goes through
every way in which actions are composed and holds of every move of the machine, `Composed.onlyAdds`.

Nothing is asked of the machine here: the ids on its stack and in its tree may be any. What a run
does to a machine whose ids are in range is said by `Machine.Performs`.

Result: `onlyAdds_execute`.
-/

namespace GmlLift

/-- Is this an expression or a simple statement? -/
def Kind.isSimple (kind : Kind) : Bool := kind.sort = .expression || kind.sort = .simple

namespace Tree

variable {container : NodeId} {t t' t'' : Tree}

/-- **What code may do to a tree**: statements for the container, and simple new nodes. -/
structure GrowsIn (container : NodeId) (t t' : Tree) : Prop where
  statements : ∃ statements, t.Extends container t' statements
  simple : ∀ id n, t'.get? id = some n → ¬ t.Holds id → n.kind.isSimple = true

namespace GrowsIn

protected theorem refl (container : NodeId) (t : Tree) : GrowsIn container t t where
  statements := ⟨[], .refl container t⟩
  simple _ _ hn hnew := absurd (holds_of_get? hn) hnew

protected theorem trans (h : GrowsIn container t t') (h' : GrowsIn container t' t'') :
    GrowsIn container t t'' where
  statements := by
    obtain ⟨statements, hx⟩ := h.statements
    obtain ⟨more, hx'⟩ := h'.statements
    exact ⟨_, hx.trans hx'⟩
  simple id n hn hnew := by
    by_cases hid : t'.Holds id
    · obtain ⟨n', hn'⟩ := get?_of_holds hid
      obtain ⟨more, hx'⟩ := h'.statements
      obtain ⟨n'', hn'', hkind, -⟩ := hx'.kept id n' hn'
      cases hn.symm.trans hn''
      rw [hkind]
      exact h.simple id n' hn' hnew
    · exact h'.simple id n hn hid

end GrowsIn

theorem growsIn_add (container : NodeId) (t : Tree) {kind : Kind} (children : List NodeId)
    (h : kind.isSimple = true) : GrowsIn container t (t.add kind children) where
  statements := ⟨[], extends_add container t kind children⟩
  simple id n hn hnew := by
    rcases get?_add_cases hn with hold | ⟨-, rfl⟩
    · exact absurd (holds_of_get? hold) hnew
    · exact h

/-- A change without new nodes. -/
theorem GrowsIn.of_extends {statements : List NodeId} (h : t.Extends container t' statements)
    (hsize : t'.size = t.size) : GrowsIn container t t' where
  statements := ⟨statements, h⟩
  simple id n hn hnew := by
    refine absurd (holds_of_get? hn) ?_
    unfold Holds at hnew ⊢
    rwa [hsize]

end Tree

namespace Machine

open GmlLift.Action

variable {α β : Type} {container : NodeId}

/-- **However the action ends, it only adds to the tree.** -/
structure OnlyAdds (container : NodeId) (x : Action Machine α) : Prop where
  grows : ∀ m : Machine, m.tree.GrowsIn container (x m).state.tree

namespace OnlyAdds

protected theorem pure (a : α) : OnlyAdds container (pure a) := ⟨fun m => .refl container m.tree⟩

protected theorem halt (e : Halt) : OnlyAdds (α := α) container (halt e) :=
  ⟨fun m => .refl container m.tree⟩

protected theorem bind {x : Action Machine α} {f : α → Action Machine β}
    (hx : OnlyAdds container x) (hf : ∀ a, OnlyAdds container (f a)) :
    OnlyAdds container (x >>= f) := by
  refine ⟨fun m => ?_⟩
  cases h : (x m).result with
  | ok a =>
    rw [bind_of_ok h]
    exact (hx.grows m).trans ((hf a).grows _)
  | error e =>
    rw [bind_of_error h]
    exact hx.grows m

/-- What is done may depend on the state. -/
theorem state_bind {f : Machine → Action Machine β} (hf : ∀ m, OnlyAdds container (f m)) :
    OnlyAdds container (state >>= f) :=
  .bind ⟨fun m => .refl container m.tree⟩ hf

theorem ite {x y : Action Machine α} {p : Prop} [Decidable p] (hx : OnlyAdds container x)
    (hy : OnlyAdds container y) : OnlyAdds container (if p then x else y) := by
  by_cases hp : p
  · rw [if_pos hp]
    exact hx
  · rw [if_neg hp]
    exact hy

/-- The tree is left alone. -/
theorem of_tree_eq {x : Action Machine α} (h : ∀ m, (x m).state.tree = m.tree) :
    OnlyAdds container x := by
  refine ⟨fun m => ?_⟩
  rw [h m]
  exact .refl container m.tree

end OnlyAdds

/-! ## The moves of the machine -/

theorem onlyAdds_pop (position : Nat) : OnlyAdds container (pop position) := by
  refine .of_tree_eq ?_
  rintro ⟨t, ⟨items⟩⟩
  cases items <;> rfl

theorem onlyAdds_push (id : NodeId) : OnlyAdds container (push id) := .of_tree_eq fun _ => rfl

theorem onlyAdds_make {kind : Kind} (h : kind.isSimple = true) (children : List NodeId) :
    OnlyAdds container (make kind children) :=
  ⟨fun m => Tree.growsIn_add container m.tree children h⟩

theorem onlyAdds_edit {f : Tree → Option Tree}
    (h : ∀ t t', f t = some t' → t.GrowsIn container t') : OnlyAdds container (edit f) := by
  refine ⟨fun m => ?_⟩
  cases hf : f m.tree with
  | some t =>
    rw [edit_of_some hf]
    exact h m.tree t hf
  | none =>
    rw [edit_of_none hf]
    exact .refl container m.tree

theorem onlyAdds_append (child : NodeId) : OnlyAdds container (append container child) :=
  onlyAdds_edit fun _ _ h => .of_extends (Tree.extends_appendChild h) (Tree.size_update? h)

theorem onlyAdds_report (cfg : Settings) (level : Level) (text : Machine → String) :
    OnlyAdds container (report cfg level text) := .of_tree_eq fun _ => rfl

theorem onlyAdds_describe (cfg : Settings) (level : Level) (id : NodeId) (line : String → String) :
    OnlyAdds container (describe cfg level id line) := by
  refine .of_tree_eq fun m => ?_
  unfold describe
  split
  · split <;> rfl
  · rfl

/-! ## Instructions -/

section Instructions

variable (cfg : Settings) (position : Nat) (i : Instruction)

theorem onlyAdds_arrayIndices (index : NodeId) : OnlyAdds container (arrayIndices cfg index) := by
  refine .state_bind fun m => ?_
  cases rowAndColumn? cfg m.tree index with
  | none => exact .pure _
  | some parts => exact (onlyAdds_describe ..).bind fun _ => .pure _

theorem onlyAdds_assign (target : Access) (value : NodeId) :
    OnlyAdds container (assign cfg container position target value) := by
  refine .state_bind fun m => ?_
  cases m.tree.compound? target.owner target.addressing value with
  | none => exact .halt _
  | some parts =>
    cases parts with
    | none => exact (onlyAdds_make rfl _).bind fun _ => onlyAdds_append _
    | some parts =>
      exact (onlyAdds_make rfl _).bind fun _ => (onlyAdds_describe ..).bind fun _ =>
        onlyAdds_append _

theorem growsIn_of_markAll? : ∀ {ids : List NodeId} {t t' : Tree}, markAll? t ids = some t' →
    t.GrowsIn container t'
  | [], t, _, h => by
    cases h
    exact .refl container t
  | id :: ids, t, t', h => by
    obtain ⟨t₁, ht₁, hrest⟩ := markAll?_cons h
    exact (Tree.GrowsIn.of_extends (Tree.extends_setDuplicated container ht₁)
      (Tree.size_update? ht₁)).trans (growsIn_of_markAll? hrest)

theorem onlyAdds_duplicate : OnlyAdds container (duplicate position i) := by
  refine .ite (.state_bind fun m => .ite (.halt _) ?_) (.halt _)
  exact (onlyAdds_edit fun _ _ h => growsIn_of_markAll? h).bind fun _ => .of_tree_eq fun _ => rfl

theorem onlyAdds_discard : OnlyAdds container (discard cfg container position) := by
  refine .state_bind fun m => ?_
  cases m.stack.pop? with
  | none => exact onlyAdds_report ..
  | some popped => exact (OnlyAdds.of_tree_eq fun _ => rfl).bind fun _ => onlyAdds_append _

theorem onlyAdds_convert : OnlyAdds container (convert i) := by
  refine .ite (.state_bind fun m => ?_) (.pure ())
  cases m.stack.peek?.bind m.tree.booleanLiteral? with
  | none => exact .pure ()
  | some value => exact (onlyAdds_make rfl _).bind fun _ => .of_tree_eq fun _ => rfl

end Instructions

/-- **What is composed of the moves of an instruction only adds.** -/
theorem Composed.onlyAdds {w : Twin} {hand : Hand} {x y : Action Machine α} {post : α → Hand}
    (h : Composed w hand x y post) : OnlyAdds w.container x := by
  induction h with
  | pure => exact .pure _
  | bind _ _ ihx ihf => exact ihx.bind ihf
  | weaken _ _ ih => exact ih
  | fail => exact .halt _
  | pop => exact onlyAdds_pop w.position
  | push => exact onlyAdds_push _
  | make _ _ hs => exact onlyAdds_make (by simp [Kind.isSimple, hs]) _
  | place _ _ hs =>
    exact (onlyAdds_make (by simp [Kind.isSimple, hs]) _).bind fun _ => onlyAdds_append _
  | arrayIndices => exact onlyAdds_arrayIndices w.cfg _
  | assign => exact onlyAdds_assign w.cfg w.position _ _
  | duplicate => exact onlyAdds_duplicate w.position w.i
  | discard => exact onlyAdds_discard w.cfg w.position
  | convert => exact onlyAdds_convert w.i
  | report => exact onlyAdds_report _ _ _
  | describe => exact onlyAdds_describe _ _ _ _

/-! ## Code -/

theorem onlyAdds_step (cfg : Settings) (behind : List Instruction) (i : Instruction)
    (ahead : List Instruction) : OnlyAdds container (step cfg container behind i ahead) :=
  (composed_step_same cfg container behind i ahead).onlyAdds

theorem onlyAdds_executeFrom (cfg : Settings) :
    ∀ (ahead : List Instruction) (skip : Nat) (behind : List Instruction),
    OnlyAdds container (executeFrom cfg container skip behind ahead)
  | [], _, _ => .pure ()
  | i :: ahead, skip + 1, behind => onlyAdds_executeFrom cfg ahead skip (i :: behind)
  | i :: ahead, 0, behind =>
    (onlyAdds_step cfg behind i ahead).bind fun skip =>
      onlyAdds_executeFrom cfg ahead skip (i :: behind)

/-- **Code only adds to the tree**, whatever the machine is and however the run ends. -/
theorem onlyAdds_execute (cfg : Settings) (code : List Instruction) (container : NodeId) :
    OnlyAdds container (execute cfg code container) :=
  onlyAdds_executeFrom cfg code 0 []

end Machine

end GmlLift
