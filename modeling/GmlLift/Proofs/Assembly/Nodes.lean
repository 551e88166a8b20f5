import GmlLift.Proofs.Assembly.Course
import GmlLift.Proofs.Execution.Additions

/-!
# Nodes stay

No node is ever taken out of a tree: a child may leave its parent, but it stays in the arena. This
holds of every action of which a walk is made, whatever the machine is and however the action ends
(`Machine.KeepsNodes`), and so of a walk that answers (`Walks.holds`).
-/

namespace GmlLift

open GmlLift.Action

/-- However the action ends, the state does not get smaller. -/
structure Action.Enlarges {σ α : Type} (size : σ → Nat) (x : Action σ α) : Prop where
  le : ∀ s, size s ≤ size (x s).state

namespace Action.Enlarges

variable {σ α β : Type} {size : σ → Nat}

/-- The size stays the same. -/
theorem of_eq {x : Action σ α} (h : ∀ s, size (x s).state = size s) : Enlarges size x :=
  ⟨fun s => Nat.le_of_eq (h s).symm⟩

protected theorem pure (a : α) : Enlarges size (pure a) := .of_eq fun _ => rfl

protected theorem halt (e : Halt) : Enlarges (α := α) size (halt e) := .of_eq fun _ => rfl

protected theorem bind {x : Action σ α} {f : α → Action σ β} (hx : Enlarges size x)
    (hf : ∀ a, Enlarges size (f a)) : Enlarges size (x >>= f) := by
  refine ⟨fun s => ?_⟩
  cases h : (x s).result with
  | ok a =>
    rw [bind_of_ok h]
    exact Nat.le_trans (hx.le s) ((hf a).le _)
  | error e =>
    rw [bind_of_error h]
    exact hx.le s

theorem state_bind {f : σ → Action σ β} (hf : ∀ s, Enlarges size (f s)) :
    Enlarges size (state >>= f) :=
  .bind (.of_eq fun _ => rfl) hf

theorem ite {x y : Action σ α} {p : Prop} [Decidable p] (hx : Enlarges size x)
    (hy : Enlarges size y) : Enlarges size (if p then x else y) := by
  split
  · exact hx
  · exact hy

end Action.Enlarges

namespace Machine

variable {α : Type}

/-- However the action ends, no node is taken out of the tree. -/
abbrev KeepsNodes (x : Action Machine α) : Prop := x.Enlarges fun m => m.tree.size

theorem keepsNodes_popFor (construct : String) : KeepsNodes (popFor construct) := by
  refine .of_eq ?_
  rintro ⟨t, ⟨items⟩⟩
  cases items <;> rfl

theorem keepsNodes_push (id : NodeId) : KeepsNodes (push id) := .of_eq fun _ => rfl

theorem keepsNodes_make (kind : Kind) (children : List NodeId) :
    KeepsNodes (make kind children) := by
  refine ⟨fun m => ?_⟩
  have hsize : (m.tree.add kind children).size = m.tree.size + 1 := Tree.size_add ..
  exact Nat.le_of_lt (Nat.lt_of_lt_of_eq (Nat.lt_succ_self _) hsize.symm)

theorem keepsNodes_edit {f : Tree → Option Tree} (h : ∀ t t', f t = some t' → t'.size = t.size) :
    KeepsNodes (edit f) := by
  refine .of_eq fun m => ?_
  cases hf : f m.tree with
  | some t => rw [edit_of_some hf, h m.tree t hf]
  | none => rw [edit_of_none hf]

theorem keepsNodes_append (parent child : NodeId) : KeepsNodes (append parent child) :=
  keepsNodes_edit fun _ _ h => Tree.size_update? h

theorem keepsNodes_describe (cfg : Settings) (level : Level) (id : NodeId)
    (line : String → String) : KeepsNodes (describe cfg level id line) := by
  refine .of_eq fun m => ?_
  unfold describe
  split
  · split <;> rfl
  · rfl

theorem keepsNodes_execute (cfg : Settings) (code : List Instruction) (container : NodeId) :
    KeepsNodes (execute cfg code container) := by
  refine ⟨fun m => ?_⟩
  obtain ⟨statements, hx⟩ := ((onlyAdds_execute cfg code container).grows m).statements
  exact hx.size_le

end Machine

namespace Visit

open GmlLift.Machine

variable (cfg : Settings) (v : Visit)

theorem keepsNodes_branch (branches : List FlowRef) (construct : Branching) (index : Nat) :
    KeepsNodes (branch branches construct index) := by
  unfold branch
  cases branches[index]? with
  | some ref => exact .pure ref
  | none => exact .halt _

theorem keepsNodes_addStatement (container : NodeId) (kind : Kind) :
    KeepsNodes (addStatement container kind) :=
  (keepsNodes_make kind []).bind fun _ => keepsNodes_append ..

theorem keepsNodes_enclosingLoop : KeepsNodes v.enclosingLoop := by
  unfold enclosingLoop
  cases v.loop with
  | some statement => exact .pure statement
  | none => exact .halt _

theorem keepsNodes_markContinued (statement : NodeId) : KeepsNodes (markContinued statement) := by
  refine .state_bind fun m => ?_
  split
  · exact .halt _
  · exact keepsNodes_edit fun _ _ h => Tree.size_update? h
  · exact .pure ()

theorem size_of_removeChild? {t t' : Tree} {parent child : NodeId}
    (h : (t.removeChild? parent child).map (·.2) = some t') : t'.size = t.size := by
  unfold Tree.removeChild? at h
  split at h
  · cases h
  · rw [Option.map_map] at h
    obtain ⟨t₁, ht₁, rfl⟩ := Option.map_eq_some_iff.mp h
    exact Tree.size_update? ht₁

theorem size_of_insertChild? {t t' : Tree} {parent child : NodeId} {position : Nat}
    (h : t.insertChild? parent position child = some t') : t'.size = t.size := by
  unfold Tree.insertChild? at h
  split at h
  · cases h
  · split at h
    · exact Tree.size_update? h
    · cases h

theorem keepsNodes_foldTernary (arm : OpenIf) : KeepsNodes (foldTernary cfg arm) := by
  refine .state_bind fun m => ?_
  split
  · exact .halt _
  · refine .ite ?_ (.pure ())
    refine (keepsNodes_popFor _).bind fun _ => (keepsNodes_append ..).bind fun _ => ?_
    refine .ite ?_ (.pure ())
    exact (keepsNodes_edit fun _ _ h => size_of_removeChild? h).bind fun _ =>
      (keepsNodes_push _).bind fun _ => keepsNodes_describe ..
  · exact .pure ()

theorem keepsNodes_finishBlock (role : Role) : KeepsNodes (v.finishBlock cfg role) := by
  cases role with
  | breakOut | switchDefault => exact keepsNodes_addStatement ..
  | continueOn =>
    exact (keepsNodes_addStatement ..).bind fun _ => v.keepsNodes_enclosingLoop.bind fun _ =>
      keepsNodes_markContinued _
  | loopCondition =>
    exact v.keepsNodes_enclosingLoop.bind fun _ => (keepsNodes_popFor _).bind fun _ =>
      keepsNodes_append ..
  | switchExpression =>
    exact (keepsNodes_popFor _).bind fun _ => keepsNodes_edit fun _ _ h => size_of_insertChild? h
  | switchCase =>
    exact (keepsNodes_popFor _).bind fun _ => (keepsNodes_make ..).bind fun _ =>
      keepsNodes_append ..
  | ifCondition | withExpression | repeatExpression => exact .pure ()
  | plain =>
    unfold finishBlock
    cases v.openIf with
    | some arm => exact keepsNodes_foldTernary cfg arm
    | none => exact .pure ()

theorem keepsNodes_openConditional (branches : List FlowRef) :
    KeepsNodes (v.openConditional branches) := by
  refine (keepsNodes_branch ..).bind fun _ => (keepsNodes_branch ..).bind fun _ =>
    (keepsNodes_popFor _).bind fun _ => .state_bind fun _ => (keepsNodes_make ..).bind fun _ =>
      (keepsNodes_append ..).bind fun _ => (keepsNodes_make ..).bind fun _ =>
        (keepsNodes_append ..).bind fun _ => ?_
  cases branches[2]? with
  | some falseArm =>
    exact (keepsNodes_make ..).bind fun _ => (keepsNodes_append ..).bind fun _ => .pure _
  | none => exact .pure _

theorem keepsNodes_makeLoop (kind : LoopKind) : KeepsNodes (makeLoop kind) := by
  cases kind with
  | whileLoop | forLoop | doUntilLoop => exact keepsNodes_make ..
  | repeatLoop | withLoop => exact (keepsNodes_popFor _).bind fun _ => keepsNodes_make ..

theorem keepsNodes_openBody (statement : NodeId) (branches : List FlowRef) :
    KeepsNodes (v.openBody statement branches) :=
  (keepsNodes_make ..).bind fun _ => (keepsNodes_append ..).bind fun _ =>
    (keepsNodes_append ..).bind fun _ => (keepsNodes_branch ..).bind fun _ => .pure _

theorem keepsNodes_openLoop (kind : LoopKind) (branches : List FlowRef) :
    KeepsNodes (v.openLoop kind branches) := by
  refine (keepsNodes_makeLoop kind).bind fun statement => ?_
  cases kind with
  | forLoop =>
    exact (keepsNodes_branch ..).bind fun _ => (keepsNodes_branch ..).bind fun _ =>
      (keepsNodes_make ..).bind fun _ => (keepsNodes_append ..).bind fun _ =>
        (v.keepsNodes_openBody ..).bind fun _ => .pure _
  | whileLoop | doUntilLoop | repeatLoop | withLoop =>
    exact (v.keepsNodes_openBody ..).bind fun _ => (keepsNodes_branch ..).bind fun _ => .pure _

theorem keepsNodes_openSwitch (branches : List FlowRef) : KeepsNodes (v.openSwitch branches) :=
  (keepsNodes_make ..).bind fun _ => (keepsNodes_append ..).bind fun _ => .pure _

end Visit

namespace Assembly

variable {cfg : Settings}

/-- However the action ends, no node is taken out of the tree. -/
abbrev KeepsNodes {α : Type} (x : Action Assembly α) : Prop :=
  x.Enlarges fun s => s.machine.tree.size

theorem keepsNodes_onMachine {α : Type} {x : Action Machine α} (h : Machine.KeepsNodes x) :
    KeepsNodes (onMachine x) :=
  ⟨fun s => h.le s.machine⟩

theorem keepsNodes_onFreshStack {x : Action Assembly Unit} (h : KeepsNodes x) :
    KeepsNodes (onFreshStack x) :=
  ⟨fun s => h.le { s with machine := { s.machine with stack := .empty } }⟩

theorem keepsNodes_visitBlock (v : Visit) (block : Block) (branches : List FlowRef) :
    KeepsNodes (visitBlock cfg v block branches) := by
  have hfinish : KeepsNodes (do
      onMachine (v.finishBlock cfg block.role)
      return v.goOn branches) :=
    (keepsNodes_onMachine (v.keepsNodes_finishBlock cfg block.role)).bind fun _ => .pure _
  refine (keepsNodes_onMachine (Machine.keepsNodes_execute ..)).bind fun _ => .ite ?_ hfinish
  exact .bind (.of_eq fun _ => rfl) fun _ => hfinish

theorem keepsNodes_conditionOperands {assemble : FlowRef → Action Assembly OperandStack}
    (h : ∀ node, KeepsNodes (assemble node)) :
    ∀ conditions, KeepsNodes (conditionOperands assemble conditions)
  | [] => .pure _
  | condition :: rest => by
    refine (h condition).bind fun inner => ?_
    cases inner.popFor "short-circuit condition" with
    | error e => exact .halt _
    | ok popped =>
      exact .bind (.of_eq fun _ => rfl) fun _ =>
        (keepsNodes_conditionOperands h rest).bind fun _ => .pure _

theorem keepsNodes_visit {assemble : Assembler}
    (h : ∀ container node, KeepsNodes (assemble container node)) (v : Visit) :
    KeepsNodes (visit cfg assemble v) := by
  refine .state_bind fun s => ?_
  cases s.graph.get? v.node with
  | none => exact .halt _
  | some node =>
    cases hk : node.kind with
    | block block =>
      simp only [hk]
      exact keepsNodes_visitBlock v block node.branches
    | conditional header =>
      simp only [hk]
      exact (keepsNodes_onMachine (Machine.keepsNodes_execute ..)).bind fun _ =>
        keepsNodes_onMachine (v.keepsNodes_openConditional node.branches)
    | shortCircuit op conditions =>
      simp only [hk]
      exact (keepsNodes_conditionOperands (h v.container) conditions).bind fun _ =>
        (keepsNodes_onMachine ((Machine.keepsNodes_make ..).bind fun _ =>
          Machine.keepsNodes_push _)).bind fun _ => .pure _
    | loop kind =>
      simp only [hk]
      exact keepsNodes_onMachine (v.keepsNodes_openLoop kind node.branches)
    | switch =>
      simp only [hk]
      exact keepsNodes_onMachine (v.keepsNodes_openSwitch node.branches)

/-- **A walk takes no node out of the tree.** -/
theorem keepsNodes_walk (cfg : Settings) (budget : Nat) :
    ∀ pending, KeepsNodes (walk cfg budget pending) := by
  induction budget with
  | zero =>
    intro pending
    cases pending with
    | nil => exact .pure ()
    | cons v pending => exact .halt _
  | succ budget ih =>
    intro pending
    cases pending with
    | nil => exact .pure ()
    | cons v pending =>
      rw [walk_succ_cons]
      exact (keepsNodes_visit (fun _ _ => keepsNodes_onFreshStack (ih _)) v).bind fun _ => ih _

theorem Walks.holds {budget : Nat} {pending : List Visit} {s s' : Assembly} {id : NodeId}
    (h : Walks cfg budget pending s s') (hid : s.machine.tree.Holds id) :
    s'.machine.tree.Holds id := by
  rw [← h.state]
  exact Nat.lt_of_lt_of_le hid ((keepsNodes_walk cfg budget pending).le s)

end Assembly

end GmlLift
