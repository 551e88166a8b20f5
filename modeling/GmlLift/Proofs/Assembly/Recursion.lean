import GmlLift.Proofs.Assembly.Budget
import Mathlib.Control.Monad.Basic

/-!
# The walk computes the recursive assembler

The walk keeps its pending visits in a list. The assembler that needs no list is `assembleNode`: it
does what a node calls for and then, by recursion, lifts the children of the node one after the
other. Each kind of node is written out, with the container, the loop and the conditional that each
of its children gets.

A graph may be cyclic, so the recursion has a depth and halts below it; as with the budget of a
walk, only recursions that end say anything.

Result: `walk_eq_assembleNode`. Where a walk ends, its first visit is done to the end before the
others are looked at, and assembling a node is the recursion; where the recursion ends, so does
every walk with enough budget.
-/

namespace GmlLift

namespace Assembly

open GmlLift.Action GmlLift.Visit

/-! ## The recursive assembler -/

section Nodes

variable (cfg : Settings) (assemble : Visit → Action Assembly Unit) (v : Visit)

/-- Goes on with the first branch, in the same place. -/
def assembleFirst : List FlowRef → Action Assembly Unit
  | [] => return ()
  | node :: _ => assemble { v with node }

/-- A block runs. If it breaks or continues, it loses its branches, but what follows it here is
still the first branch that it had. -/
def assembleBlock (block : Block) (branches : List FlowRef) : Action Assembly Unit := do
  onMachine (Machine.execute cfg block.code v.container)
  if block.role = .breakOut || block.role = .continueOn then onGraph (FlowGraph.prune cfg v.node)
  onMachine (v.finishBlock cfg block.role)
  assembleFirst assemble v branches

/-- A conditional lifts its true arm, its false arm if it has one, and the continuation. The arms
have blocks of their own, and the conditional is open in them. -/
def assembleConditional (header : Block) (branches : List FlowRef) : Action Assembly Unit := do
  onMachine (Machine.execute cfg header.code v.container)
  let continuation ← onMachine (branch branches .conditional 0)
  let trueArm ← onMachine (branch branches .conditional 1)
  let condition ← onMachine (Machine.popFor "if condition")
  let s ← state
  let statement ← onMachine (Machine.make (.conditional s.machine.stack.depth) [condition])
  onMachine (Machine.append v.container statement)
  let trueBlock ← onMachine (Machine.make .block)
  onMachine (Machine.append statement trueBlock)
  match branches[2]? with
  | some falseArm =>
    let falseBlock ← onMachine (Machine.make .block)
    onMachine (Machine.append statement falseBlock)
    assemble ⟨trueBlock, trueArm, v.loop, some ⟨statement, v.container⟩⟩
    assemble ⟨falseBlock, falseArm, v.loop, some ⟨statement, v.container⟩⟩
    assemble ⟨v.container, continuation, v.loop, v.openIf⟩
  | none =>
    assemble ⟨trueBlock, trueArm, v.loop, some ⟨statement, v.container⟩⟩
    assemble ⟨v.container, continuation, v.loop, v.openIf⟩

/-- A short circuit lifts each condition on a stack of its own, in the same container but in no loop
and in no conditional. -/
def assembleShortCircuit (op : Connective) (conditions branches : List FlowRef) :
    Action Assembly Unit := do
  let operands ← conditionOperands
    (fun node => onFreshStack (assemble ⟨v.container, node, none, none⟩)) conditions
  onMachine (Machine.pushNew (.shortCircuit op) operands)
  assembleFirst assemble v branches

/-- A `for` loop lifts its body and its step into blocks of their own, and then its condition. The
step is not in the loop. -/
def assembleFor (branches : List FlowRef) : Action Assembly Unit := do
  let statement ← onMachine (Machine.make .forLoop)
  let condition ← onMachine (branch branches .forLoop 0)
  let step ← onMachine (branch branches .forLoop 2)
  let stepBlock ← onMachine (Machine.make .block)
  onMachine (Machine.append statement stepBlock)
  let bodyBlock ← onMachine (Machine.make .block)
  onMachine (Machine.append statement bodyBlock)
  onMachine (Machine.append v.container statement)
  let body ← onMachine (branch branches .loop 1)
  assemble ⟨bodyBlock, body, some statement, v.openIf⟩
  assemble ⟨stepBlock, step, v.loop, v.openIf⟩
  assemble ⟨v.container, condition, some statement, v.openIf⟩

/-- Any other loop lifts its body into a block of its own and then the continuation, which is not in
the loop. -/
def assembleLoop (kind : LoopKind) (branches : List FlowRef) : Action Assembly Unit := do
  let statement ← onMachine (makeLoop kind)
  let bodyBlock ← onMachine (Machine.make .block)
  onMachine (Machine.append statement bodyBlock)
  onMachine (Machine.append v.container statement)
  let body ← onMachine (branch branches .loop 1)
  let continuation ← onMachine (branch branches .loop 0)
  assemble ⟨bodyBlock, body, some statement, v.openIf⟩
  assemble ⟨v.container, continuation, v.loop, v.openIf⟩

/-- A switch lifts its cases into itself, in their order, and then its first branch. -/
def assembleSwitch (branches : List FlowRef) : Action Assembly Unit := do
  let statement ← onMachine (Machine.make .switch)
  onMachine (Machine.append v.container statement)
  (branches.drop 1).forM fun node => assemble ⟨statement, node, v.loop, v.openIf⟩
  assembleFirst assemble v branches

end Nodes

/-- Lifts a node and everything that follows from it, down to a depth. -/
def assembleNode (cfg : Settings) : (depth : Nat) → Visit → Action Assembly Unit
  | 0, _ => halt .endless
  | depth + 1, v => do
    let s ← state
    match s.graph.get? v.node with
    | none => fail (.unknownNode v.node)
    | some node =>
      match node.kind with
      | .block block => assembleBlock cfg (assembleNode cfg depth) v block node.branches
      | .conditional header =>
        assembleConditional cfg (assembleNode cfg depth) v header node.branches
      | .shortCircuit op conditions =>
        assembleShortCircuit (assembleNode cfg depth) v op conditions node.branches
      | .loop .forLoop => assembleFor (assembleNode cfg depth) v node.branches
      | .loop kind => assembleLoop (assembleNode cfg depth) v kind node.branches
      | .switch => assembleSwitch (assembleNode cfg depth) v node.branches

/-! ## A visit and the visits that it calls for -/

theorem onMachine_pure {α : Type} (a : α) : onMachine (pure a) = pure a := rfl

theorem onMachine_bind {α β : Type} (x : Action Machine α) (f : α → Action Machine β) :
    onMachine (x >>= f) = onMachine x >>= fun a => onMachine (f a) := by
  funext s
  cases h : (x s.machine).result with
  | error e =>
    have hx : (onMachine x s).result = .error e := h
    rw [bind_of_error hx]
    unfold onMachine onPart
    rw [bind_of_error h]
  | ok a =>
    have hx : (onMachine x s).result = .ok a := h
    rw [bind_of_ok hx]
    unfold onMachine onPart
    rw [bind_of_ok h]

theorem onMachine_state_bind {β : Type} (f : Machine → Action Assembly β) :
    (onMachine state >>= f) = state >>= fun s => f s.machine := rfl

section Nodes

variable (cfg : Settings) (assemble : Visit → Action Assembly Unit) (v : Visit)

theorem forM_goOn (branches : List FlowRef) :
    (v.goOn branches).forM assemble = assembleFirst assemble v branches := by
  cases branches with
  | nil => rfl
  | cons node rest => exact bind_pure (assemble (v.goTo node))

theorem visitBlock_forM (block : Block) (branches : List FlowRef) :
    (visitBlock cfg v block branches >>= fun next => next.forM assemble) =
      assembleBlock cfg assemble v block branches := by
  unfold visitBlock assembleBlock
  split <;> simp only [bind_assoc, pure_bind, forM_goOn]

theorem openConditional_forM (branches : List FlowRef) (header : Block) :
    (onMachine (Machine.execute cfg header.code v.container) >>= fun _ =>
      onMachine (v.openConditional branches) >>= fun next => next.forM assemble) =
      assembleConditional cfg assemble v header branches := by
  unfold openConditional assembleConditional
  simp only [onMachine_bind, bind_assoc, onMachine_state_bind]
  cases branches[2]? with
  | none =>
    simp only [onMachine_pure, pure_bind, List.forM_eq_forM, List.forM_cons, List.forM_nil,
      bind_pure_unit, goTo]
  | some falseArm =>
    simp only [onMachine_bind, bind_assoc, onMachine_pure, pure_bind, List.forM_eq_forM,
      List.forM_cons, List.forM_nil, bind_pure_unit, goTo]

theorem conditionOperands_forM (op : Connective) (conditions branches : List FlowRef) :
    (conditionOperands (fun node => onFreshStack (assemble ⟨v.container, node, none, none⟩))
      conditions >>= fun operands =>
        onMachine (Machine.pushNew (.shortCircuit op) operands) >>= fun _ =>
          (v.goOn branches).forM assemble) =
      assembleShortCircuit assemble v op conditions branches := by
  unfold assembleShortCircuit
  simp only [forM_goOn]

theorem openFor_forM (branches : List FlowRef) :
    (onMachine (v.openLoop .forLoop branches) >>= fun next => next.forM assemble) =
      assembleFor assemble v branches := by
  unfold openLoop openBody assembleFor
  simp only [makeLoop, onMachine_bind, bind_assoc, onMachine_pure, pure_bind, List.forM_eq_forM,
    List.forM_cons, List.forM_nil, bind_pure_unit, goTo]

theorem openLoop_forM {kind : LoopKind} (hkind : kind ≠ .forLoop) (branches : List FlowRef) :
    (onMachine (v.openLoop kind branches) >>= fun next => next.forM assemble) =
      assembleLoop assemble v kind branches := by
  unfold openLoop openBody assembleLoop
  cases kind with
  | forLoop => exact absurd rfl hkind
  | _ =>
    simp only [onMachine_bind, bind_assoc, onMachine_pure, pure_bind, List.forM_eq_forM,
      List.forM_cons, List.forM_nil, bind_pure_unit, goTo]

theorem openSwitch_forM (branches : List FlowRef) :
    (onMachine (v.openSwitch branches) >>= fun next => next.forM assemble) =
      assembleSwitch assemble v branches := by
  unfold openSwitch assembleSwitch
  simp only [onMachine_bind, bind_assoc, onMachine_pure, pure_bind, List.forM_eq_forM,
    List.forM_append, List.forM_map, goTo, ← forM_goOn]

end Nodes

/-- **Lifting a node is its visit, and then lifting what the visit calls for.** -/
theorem assembleNode_succ (cfg : Settings) (depth : Nat) (v : Visit) :
    assembleNode cfg (depth + 1) v =
      visit cfg (fun container node => onFreshStack (assembleNode cfg depth { container, node })) v
        >>= fun next => next.forM (assembleNode cfg depth) := by
  rw [assembleNode, visit, bind_assoc]
  congr
  funext s
  cases s.graph.get? v.node with
  | none => rfl
  | some node =>
    simp only
    cases node.kind with
    | block block => exact (visitBlock_forM ..).symm
    | conditional header =>
      simp only [bind_assoc]
      exact (openConditional_forM ..).symm
    | shortCircuit op conditions =>
      simp only [bind_assoc, pure_bind]
      exact (conditionOperands_forM ..).symm
    | switch => exact (openSwitch_forM ..).symm
    | loop kind =>
      cases kind with
      | forLoop => exact (openFor_forM ..).symm
      | _ => exact (openLoop_forM _ _ (by decide) _).symm

/-! ## The walk and the recursion -/

theorem not_endsOn_assembleNode_zero {cfg : Settings} {v : Visit} {s : Assembly} :
    ¬ (assembleNode cfg 0 v).EndsOn s := fun h => h rfl

/-- A recursion that ends within a depth does the same within the next one. -/
theorem assembleNode_mono (cfg : Settings) (depth : Nat) (v : Visit) :
    Approximates (assembleNode cfg depth v) (assembleNode cfg (depth + 1) v) := by
  induction depth generalizing v with
  | zero => exact fun s hs => absurd hs not_endsOn_assembleNode_zero
  | succ depth ih =>
    rw [assembleNode_succ, assembleNode_succ cfg (depth + 1)]
    refine (approximates_visit (fun container node => ?_) cfg v).bind fun next => .forM ih next
    exact approximates_onFreshStack (ih _)

/-- A walk that ends lifts its visits by recursion, one after the other. -/
theorem approximates_walk_forM (cfg : Settings) (budget : Nat) (pending : List Visit) :
    Approximates (walk cfg budget pending) (pending.forM (assembleNode cfg budget)) := by
  induction budget generalizing pending with
  | zero =>
    cases pending with
    | nil => exact .refl _
    | cons v pending => exact fun s hs => absurd hs not_endsOn_walk_zero
  | succ budget ih =>
    cases pending with
    | nil => exact .refl _
    | cons v pending =>
      have hv : Approximates (visit cfg (fragment cfg budget) v)
          (visit cfg (fun container node =>
            onFreshStack (assembleNode cfg budget { container, node })) v) := by
        refine approximates_visit (fun container node => approximates_onFreshStack ?_) cfg v
        have single := ih [{ container, node }]
        rwa [List.forM_eq_forM, List.forM_cons, List.forM_nil, bind_pure_unit] at single
      have hrest : Approximates (pending.forM (assembleNode cfg budget))
          (pending.forM (assembleNode cfg (budget + 1))) :=
        .forM (assembleNode_mono cfg budget) pending
      rw [walk_succ_cons, List.forM_eq_forM, List.forM_cons, assembleNode_succ, bind_assoc]
      refine hv.bind fun next => (ih (next ++ pending)).trans ?_
      rw [List.forM_eq_forM, List.forM_append]
      exact (Approximates.refl _).bind fun _ => hrest

/-- Where the recursion ends, every walk with enough budget does the same. -/
theorem tends_walk_forM (cfg : Settings) (depth : Nat) (pending : List Visit) :
    Tends (fun budget => walk cfg budget pending) (pending.forM (assembleNode cfg depth)) := by
  induction depth generalizing pending with
  | zero =>
    cases pending with
    | nil => simp only [walk_nil]; exact .const _
    | cons v pending => exact fun s hs => absurd hs.left not_endsOn_assembleNode_zero
  | succ depth ih =>
    have single (v : Visit) :
        Tends (fun budget => walk cfg budget [v]) (assembleNode cfg (depth + 1) v) := by
      rw [assembleNode_succ]
      refine Tends.of_succ
        (Tends.bind (tends_visit (fun container node => ?_) cfg v) fun next => ?_)
      · have hnode := ih [{ container, node }]
        rw [List.forM_eq_forM, List.forM_cons, List.forM_nil, bind_pure_unit] at hnode
        exact tends_onFreshStack hnode
      · show Tends (fun budget => walk cfg budget (next ++ [])) _
        rw [List.append_nil]
        exact ih next
    induction pending with
    | nil => simp only [walk_nil]; exact .const _
    | cons v pending ihp =>
      exact Tends.trans (fun budget => tends_walk_append cfg budget budget [v] pending)
        ((single v).bind fun _ => ihp)

/-- **The pending visits are the stack of a recursion.** Where a walk ends, it does its first visit
to the end, with all that the visit calls for, and then the others on what that has left. So
assembling a node is the recursion, and where the recursion ends at some depth, every walk with
enough budget ends in the same way. -/
theorem walk_eq_assembleNode (cfg : Settings) (s : Assembly) :
    (∀ budget v pending, (walk cfg budget (v :: pending)).EndsOn s →
      walk cfg budget (v :: pending) s =
        (walk cfg budget [v] >>= fun _ => walk cfg budget pending) s) ∧
    ∀ container node,
      ((assembleInto cfg container node).EndsOn s →
        assembleInto cfg container node s =
          onFreshStack (assembleNode cfg s.graph.budget ⟨container, node, none, none⟩) s) ∧
      (∀ budget, (fragment cfg budget container node).EndsOn s →
        fragment cfg budget container node s =
          onFreshStack (assembleNode cfg budget ⟨container, node, none, none⟩) s) ∧
      ∀ depth, (onFreshStack (assembleNode cfg depth ⟨container, node, none, none⟩)).EndsOn s →
        ∃ enough, ∀ budget, enough ≤ budget →
          fragment cfg budget container node s =
            onFreshStack (assembleNode cfg depth ⟨container, node, none, none⟩) s := by
  refine ⟨fun budget v pending h => (walk_append cfg budget [v] pending s h).symm,
    fun container node => ?_⟩
  have hfragment (budget : Nat) (h : (fragment cfg budget container node).EndsOn s) :
      fragment cfg budget container node s =
        onFreshStack (assembleNode cfg budget ⟨container, node, none, none⟩) s := by
    have hwalk := approximates_walk_forM cfg budget [⟨container, node, none, none⟩]
    rw [List.forM_eq_forM, List.forM_cons, List.forM_nil, bind_pure_unit] at hwalk
    exact (approximates_onFreshStack hwalk s h).symm
  have hinto : assembleInto cfg container node s =
      fragment cfg s.graph.budget container node s := rfl
  refine ⟨fun h => ?_, hfragment, fun depth h => ?_⟩
  · unfold EndsOn at h
    rw [hinto] at h ⊢
    exact hfragment _ h
  have hwalk := tends_walk_forM cfg depth [⟨container, node, none, none⟩]
  rw [List.forM_eq_forM, List.forM_cons, List.forM_nil, bind_pure_unit] at hwalk
  exact tends_onFreshStack hwalk s h

/-- A conditional on a short circuit of two conditions, with an arm and a continuation, and one more
visit that is pending. -/
theorem walk_eq_assembleNode_guarded :
    let one : Instruction := { opcode := .push, type1 := .int16, literal := some (.int16 1) }
    let g : FlowGraph := {
      nodes := #[
        { kind := .shortCircuit .and [⟨1⟩, ⟨2⟩], branches := [⟨3⟩] },
        { kind := .block { code := [one] } },
        { kind := .block { code := [one] } },
        { kind := .conditional {}, branches := [⟨4⟩, ⟨5⟩] },
        { kind := .block { code := [{ opcode := .exit }] } },
        { kind := .block { code := [one, { opcode := .popz }] } }]
      entry := ⟨0⟩ }
    let s : Assembly := { graph := g }
    let first : Visit := ⟨Tree.root, ⟨0⟩, none, none⟩
    let last : Visit := ⟨Tree.root, ⟨4⟩, none, none⟩
    let walked := walk {} 10 [first, last] s
    let assembled := assembleInto {} Tree.root ⟨0⟩ s
    walked.result = .ok () ∧
      walked.state.machine.tree.text Tree.root =
        .ok "(block (if (short-circuit 1 1) (block 1)) (exit) (exit))" ∧
      walked = (walk {} 10 [first] >>= fun _ => walk {} 10 [last]) s ∧
      assembled.result = .ok .empty ∧
      assembled.state.machine.tree.text Tree.root =
        .ok "(block (if (short-circuit 1 1) (block 1)) (exit))" ∧
      assembled = onFreshStack (assembleNode {} g.budget first) s ∧
      ∃ enough, ∀ budget, enough ≤ budget → fragment {} budget Tree.root ⟨0⟩ s = assembled := by
  intro one g s first last walked assembled
  have hwalked : walked.result = .ok () := by decide +kernel
  have hassembled : assembled.result = .ok .empty := by decide +kernel
  obtain ⟨hsplit, hnode⟩ := walk_eq_assembleNode {} s
  obtain ⟨hinto, -, henough⟩ := hnode Tree.root ⟨0⟩
  have hwalkedEnds : (walk {} 10 [first, last]).EndsOn s := .of_isOk (by rw [hwalked]; rfl)
  have hrecursion := hinto (.of_isOk (by rw [hassembled]; rfl))
  refine ⟨hwalked, by decide +kernel, hsplit 10 first [last] hwalkedEnds, hassembled,
    by decide +kernel, hrecursion, ?_⟩
  have hends : (onFreshStack (assembleNode {} g.budget first)).EndsOn s := by
    unfold EndsOn
    rw [← hrecursion, hassembled]
    exact nofun
  obtain ⟨enough, hsame⟩ := henough g.budget hends
  exact ⟨enough, fun budget hle => (hsame budget hle).trans hrecursion.symm⟩

end Assembly

end GmlLift
