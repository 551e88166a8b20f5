import GmlLift.Proofs.Assembly.Budget
import GmlLift.Proofs.Execution.Echo
import GmlLift.Proofs.Flow.Pruning

/-!
# Reports do not matter to an assembly

What is done for a node and a whole walk do the same with fewer reports, unless a report asks for
the text of a node that has none. The relation is the one of single instructions (`Action.Mirrors`),
and it goes through everything of which a walk is made.

Results:
* `hushed_walk`, `hushed_fragment`: a walk within a budget, and an assembly from one node on.
-/

namespace GmlLift

variable {cfg cfg' : Settings}

/-! ## Code -/

theorem Increment.find?_of_hushes (h : cfg.Hushes cfg') (behind : List Instruction)
    (i : Instruction) (ahead : List Instruction) :
    find? cfg' behind i ahead = find? cfg behind i ahead := by
  unfold find? findPost? copiedBefore Settings.swapsInIncrement
  rw [h.isLegacy]

namespace Machine

theorem incrementAt?_of_hushes (h : cfg.Hushes cfg') (behind : List Instruction) (i : Instruction)
    (ahead : List Instruction) :
    incrementAt? cfg' behind i ahead = incrementAt? cfg behind i ahead := by
  unfold incrementAt?
  rw [Increment.find?_of_hushes h]

theorem echoes_executeFrom_hushed (h : cfg.Hushes cfg') (container : NodeId) :
    ∀ (ahead : List Instruction) (skip : Nat) (behind : List Instruction),
    Echoes cfg cfg' 0 (executeFrom cfg container skip behind ahead)
      (executeFrom cfg' container skip behind ahead)
  | [], _, _ => .pure ()
  | i :: ahead, skip + 1, behind => echoes_executeFrom_hushed h container ahead skip (i :: behind)
  | i :: ahead, 0, behind =>
    (echoes_step h container rfl (incrementAt?_of_hushes h behind i ahead)).bind fun skip =>
      echoes_executeFrom_hushed h container ahead skip (i :: behind)

theorem echoes_execute (h : cfg.Hushes cfg') (code : List Instruction) (container : NodeId) :
    Echoes cfg cfg' 0 (execute cfg code container) (execute cfg' code container) :=
  echoes_executeFrom_hushed h container code 0 []

end Machine

/-! ## Constructs -/

namespace Visit

open GmlLift.Action GmlLift.Machine

theorem echoes_branch (branches : List FlowRef) (construct : Branching) (index : Nat) :
    Echoes cfg cfg' 0 (branch branches construct index) (branch branches construct index) := by
  unfold branch
  cases branches[index]? with
  | none => exact .fail _
  | some ref => exact .pure ref

theorem echoes_foldTernary (h : cfg.Hushes cfg') (arm : OpenIf) :
    Echoes cfg cfg' 0 (foldTernary cfg arm) (foldTernary cfg' arm) := by
  refine .state_bind fun m => ?_
  cases m.tree.get? arm.statement with
  | none => exact .halt_outOfRange
  | some n =>
    obtain ⟨kind, children, duplicated⟩ := n
    cases kind with
    | conditional depth =>
      refine .ite Iff.rfl ?_ (.pure ())
      refine (echoes_popFor _).bind fun value => (echoes_append ..).bind fun _ => ?_
      refine .ite Iff.rfl ?_ (.pure ())
      exact (echoes_edit _).bind fun _ => (echoes_push _).bind fun _ => echoes_describe h ..
    | _ => exact .pure ()

theorem echoes_addStatement (container : NodeId) (kind : Kind) :
    Echoes cfg cfg' 0 (addStatement container kind) (addStatement container kind) :=
  (echoes_make ..).bind fun _ => echoes_append ..

theorem echoes_enclosingLoop (v : Visit) :
    Echoes cfg cfg' 0 v.enclosingLoop v.enclosingLoop := by
  unfold enclosingLoop
  cases v.loop with
  | none => exact .fail _
  | some statement => exact .pure statement

theorem echoes_markContinued (statement : NodeId) :
    Echoes cfg cfg' 0 (markContinued statement) (markContinued statement) := by
  refine .state_bind fun m => ?_
  cases m.tree.get? statement with
  | none => exact .halt_outOfRange
  | some n =>
    obtain ⟨kind, children, duplicated⟩ := n
    cases kind with
    | whileLoop continued => exact echoes_edit _
    | _ => exact .pure ()

theorem echoes_finishBlock (h : cfg.Hushes cfg') (v : Visit) (role : Role) :
    Echoes cfg cfg' 0 (v.finishBlock cfg role) (v.finishBlock cfg' role) := by
  cases role with
  | breakOut | switchDefault => exact echoes_addStatement ..
  | continueOn =>
    exact (echoes_addStatement ..).bind fun _ => (echoes_enclosingLoop v).bind fun _ =>
      echoes_markContinued _
  | loopCondition =>
    exact (echoes_enclosingLoop v).bind fun _ => (echoes_popFor _).bind fun _ => echoes_append ..
  | switchExpression => exact (echoes_popFor _).bind fun _ => echoes_edit _
  | switchCase =>
    exact (echoes_popFor _).bind fun _ => (echoes_make ..).bind fun _ => echoes_append ..
  | ifCondition | withExpression | repeatExpression => exact .pure ()
  | plain =>
    unfold finishBlock
    cases v.openIf with
    | none => exact .pure ()
    | some arm => exact echoes_foldTernary h arm

theorem echoes_openConditional (v : Visit) (branches : List FlowRef) :
    Echoes cfg cfg' 0 (v.openConditional branches) (v.openConditional branches) := by
  refine (echoes_branch ..).bind fun _ => (echoes_branch ..).bind fun _ =>
    (echoes_popFor _).bind fun _ => .state_bind fun _ => (echoes_make ..).bind fun _ =>
      (echoes_append ..).bind fun _ => (echoes_make ..).bind fun _ =>
        (echoes_append ..).bind fun _ => ?_
  cases branches[2]? with
  | none => exact .pure _
  | some falseArm =>
    exact (echoes_make ..).bind fun _ => (echoes_append ..).bind fun _ => .pure _

theorem echoes_makeLoop (kind : LoopKind) :
    Echoes cfg cfg' 0 (makeLoop kind) (makeLoop kind) := by
  cases kind with
  | whileLoop | forLoop | doUntilLoop => exact echoes_make ..
  | repeatLoop | withLoop => exact (echoes_popFor _).bind fun _ => echoes_make ..

theorem echoes_openBody (v : Visit) (statement : NodeId) (branches : List FlowRef) :
    Echoes cfg cfg' 0 (v.openBody statement branches) (v.openBody statement branches) :=
  (echoes_make ..).bind fun _ => (echoes_append ..).bind fun _ => (echoes_append ..).bind fun _ =>
    (echoes_branch ..).bind fun _ => .pure _

theorem echoes_openLoop (v : Visit) (kind : LoopKind) (branches : List FlowRef) :
    Echoes cfg cfg' 0 (v.openLoop kind branches) (v.openLoop kind branches) := by
  refine (echoes_makeLoop kind).bind fun statement => ?_
  have hplain : Echoes cfg cfg' 0
      (do let body ← v.openBody statement branches
          let continuation ← branch branches .loop 0
          return [body, v.goTo continuation])
      (do let body ← v.openBody statement branches
          let continuation ← branch branches .loop 0
          return [body, v.goTo continuation]) :=
    (echoes_openBody ..).bind fun _ => (echoes_branch ..).bind fun _ => .pure _
  cases kind with
  | forLoop =>
    exact (echoes_branch ..).bind fun _ => (echoes_branch ..).bind fun _ =>
      (echoes_make ..).bind fun _ => (echoes_append ..).bind fun _ =>
        (echoes_openBody ..).bind fun _ => .pure _
  | whileLoop | doUntilLoop | repeatLoop | withLoop => exact hplain

theorem echoes_openSwitch (v : Visit) (branches : List FlowRef) :
    Echoes cfg cfg' 0 (v.openSwitch branches) (v.openSwitch branches) :=
  (echoes_make ..).bind fun _ => (echoes_append ..).bind fun _ => .pure _

end Visit

/-! ## Walks -/

namespace Assembly

open GmlLift.Action GmlLift.Machine

/-- The tree of an assembly. -/
def tree (s : Assembly) : Tree := s.machine.tree

/-- The second action does the same with fewer reports. -/
abbrev Hushed (cfg cfg' : Settings) {α : Type} (x y : Action Assembly α) : Prop :=
  Mirrors Assembly.tree cfg cfg' 0 x y

variable {α : Type}

/-- What does not depend on the settings. -/
theorem hushed_refl (x : Action Assembly α) : Hushed cfg cfg' x x :=
  Mirrors.refl fun _ h _ => h.shift_zero

theorem hushed_onMachine {x y : Action Machine α} (h : Echoes cfg cfg' 0 x y) :
    Hushed cfg cfg' (onMachine x) (onMachine y) := by
  intro s
  rcases h.same s.machine with ⟨hstate, hresult⟩ | ⟨e, herror, hcut⟩
  · exact Or.inl ⟨congrArg (fun machine => { s with machine }) hstate, hresult⟩
  · exact Or.inr ⟨e, herror, hcut⟩

theorem hushed_prune (ref : FlowRef) :
    Hushed cfg cfg' (onGraph (FlowGraph.prune cfg ref)) (onGraph (FlowGraph.prune cfg' ref)) := by
  intro s
  refine Or.inl ?_
  cases hnode : s.graph.get? ref with
  | none =>
    unfold onGraph onPart
    rw [FlowGraph.prune_of_none cfg hnode, FlowGraph.prune_of_none cfg' hnode]
    exact ⟨rfl, rfl⟩
  | some node =>
    obtain ⟨hresult, hstate⟩ := FlowGraph.prune_of_get? cfg hnode
    obtain ⟨hresult', hstate'⟩ := FlowGraph.prune_of_get? cfg' hnode
    refine ⟨congrArg (Assembly.mk s.machine) (hstate'.trans hstate.symm), ?_⟩
    rw [Halt.mapError_shift_zero]
    exact hresult'.trans hresult.symm

theorem hushed_onFreshStack {x y : Action Assembly Unit} (h : Hushed cfg cfg' x y) :
    Hushed cfg cfg' (onFreshStack x) (onFreshStack y) := by
  intro s
  unfold onFreshStack
  simp only [Halt.mapError_shift_zero]
  rcases h { s with machine := { s.machine with stack := .empty } } with
    ⟨hstate, hresult⟩ | ⟨e, herror, hcut⟩
  · rw [Halt.mapError_shift_zero] at hresult
    rw [hstate, hresult]
    exact Or.inl ⟨rfl, rfl⟩
  · refine Or.inr ⟨e, ?_, hcut⟩
    rw [herror]
    rfl

theorem hushed_conditionOperands {assemble assemble' : FlowRef → Action Assembly OperandStack}
    (h : ∀ node, Hushed cfg cfg' (assemble node) (assemble' node)) :
    ∀ conditions, Hushed cfg cfg' (conditionOperands assemble conditions)
      (conditionOperands assemble' conditions)
  | [] => hushed_refl _
  | condition :: rest => by
    unfold conditionOperands
    refine (h condition).bind fun inner => ?_
    cases inner.popFor "short-circuit condition" with
    | error e => exact hushed_refl _
    | ok popped =>
      exact (hushed_refl _).bind fun _ =>
        (hushed_conditionOperands h rest).bind fun _ => hushed_refl _

theorem hushed_visitBlock (h : cfg.Hushes cfg') (v : Visit) (block : Block)
    (branches : List FlowRef) :
    Hushed cfg cfg' (visitBlock cfg v block branches) (visitBlock cfg' v block branches) := by
  have hend : Hushed cfg cfg'
      (onMachine (v.finishBlock cfg block.role) >>= fun _ => pure (v.goOn branches))
      (onMachine (v.finishBlock cfg' block.role) >>= fun _ => pure (v.goOn branches)) :=
    (hushed_onMachine (Visit.echoes_finishBlock h v block.role)).bind fun _ => hushed_refl _
  refine (hushed_onMachine (echoes_execute h block.code v.container)).bind fun _ => ?_
  split
  · exact (hushed_prune v.node).bind fun _ => hend
  · exact hend

theorem hushed_visit (h : cfg.Hushes cfg') {assemble assemble' : Assembler}
    (ha : ∀ container node, Hushed cfg cfg' (assemble container node) (assemble' container node))
    (v : Visit) : Hushed cfg cfg' (visit cfg assemble v) (visit cfg' assemble' v) := by
  unfold visit
  refine (hushed_refl _).bind fun s => ?_
  cases s.graph.get? v.node with
  | none => exact hushed_refl _
  | some node =>
    cases hk : node.kind with
    | block block =>
      simp only [hk]
      exact hushed_visitBlock h v block node.branches
    | conditional header =>
      simp only [hk]
      exact (hushed_onMachine (echoes_execute h header.code v.container)).bind fun _ =>
        hushed_onMachine (Visit.echoes_openConditional v node.branches)
    | shortCircuit op conditions =>
      simp only [hk]
      exact (hushed_conditionOperands (ha v.container) conditions).bind fun _ => hushed_refl _
    | loop kind =>
      simp only [hk]
      exact hushed_onMachine (Visit.echoes_openLoop v kind node.branches)
    | switch =>
      simp only [hk]
      exact hushed_onMachine (Visit.echoes_openSwitch v node.branches)

/-- **A walk does the same with fewer reports.** -/
theorem hushed_walk (h : cfg.Hushes cfg') (budget : Nat) :
    ∀ pending, Hushed cfg cfg' (walk cfg budget pending) (walk cfg' budget pending) := by
  induction budget with
  | zero =>
    intro pending
    cases pending with
    | nil => exact hushed_refl _
    | cons v pending => exact hushed_refl _
  | succ budget ih =>
    intro pending
    cases pending with
    | nil => exact hushed_refl _
    | cons v pending =>
      rw [walk_succ_cons, walk_succ_cons]
      refine (hushed_visit h (fun container node => ?_) v).bind fun next => ih (next ++ pending)
      exact hushed_onFreshStack (ih _)

theorem hushed_fragment (h : cfg.Hushes cfg') (budget : Nat) (container : NodeId)
    (node : FlowRef) :
    Hushed cfg cfg' (fragment cfg budget container node) (fragment cfg' budget container node) :=
  hushed_onFreshStack (hushed_walk h budget _)

end Assembly

end GmlLift
