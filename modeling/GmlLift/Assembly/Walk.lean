import GmlLift.Assembly.Visit
import GmlLift.Flow.Budget

/-!
# Assembly of a function

The flow graph is walked with a list of pending visits: the first one is done, and the visits that
it calls for go in front of the others. All share one operand stack, except that each condition of
a short circuit is assembled on a stack of its own.

A graph may have cycles that nothing cuts, so a walk has a budget of visits and halts when it is
spent; `FlowGraph.budget` is the budget that `assembleInto` and `liftGraph` give it.
-/

namespace GmlLift

/-- The machine and the graph that is being walked. -/
structure Assembly where
  machine : Machine := {}
  graph : FlowGraph := {}
  deriving DecidableEq, Repr

namespace Assembly

open GmlLift.Action

/-- An action of the machine alone. -/
def onMachine {α : Type} (x : Action Machine α) : Action Assembly α :=
  onPart (·.machine) (fun machine s => { s with machine }) x

/-- An action on the graph alone. -/
def onGraph {α : Type} (x : Action FlowGraph α) : Action Assembly α :=
  onPart (·.graph) (fun graph s => { s with graph }) x

/-- Runs an action on an empty operand stack, answers the stack that it leaves, and puts the old one
back. -/
def onFreshStack (x : Action Assembly Unit) : Action Assembly OperandStack := fun s =>
  let o := x { s with machine := { s.machine with stack := .empty } }
  ⟨o.result.map fun _ => o.state.machine.stack,
    { o.state with machine := { o.state.machine with stack := s.machine.stack } }, o.notes⟩

/-! ## One visit -/

/-- Runs a block and then what it does for the construct around it. A block that breaks or continues
loses its branches in between; the visit to its first branch has been called for already. -/
def visitBlock (cfg : Settings) (v : Visit) (block : Block) (branches : List FlowRef) :
    Action Assembly (List Visit) := do
  onMachine (Machine.execute cfg block.code v.container)
  if block.role = .breakOut || block.role = .continueOn then onGraph (FlowGraph.prune cfg v.node)
  onMachine (v.finishBlock cfg block.role)
  return v.goOn branches

/-- The operands of a short circuit (`short_circuit`). Each condition is assembled by itself; its
last value is the operand, and what else it leaves goes on the stack. -/
def conditionOperands (assemble : FlowRef → Action Assembly OperandStack) :
    List FlowRef → Action Assembly (List NodeId)
  | [] => return []
  | condition :: rest => do
    let inner ← assemble condition
    match inner.popFor "short-circuit condition" with
    | .error e => fail e
    | .ok (operand, others) =>
      onMachine (change fun m => { m with stack := m.stack.append others })
      let operands ← conditionOperands assemble rest
      return operand :: operands

/-- Does one visit. Conditions of short circuits are left to `assemble`. -/
def visit (cfg : Settings) (assemble : NodeId → FlowRef → Action Assembly OperandStack)
    (v : Visit) : Action Assembly (List Visit) := do
  let s ← state
  match s.graph.get? v.node with
  | none => fail (.unknownNode v.node)
  | some node =>
    match node.kind with
    | .block block => visitBlock cfg v block node.branches
    | .conditional header =>
      onMachine (Machine.execute cfg header.code v.container)
      onMachine (v.openConditional node.branches)
    | .shortCircuit op conditions =>
      let operands ← conditionOperands (assemble v.container) conditions
      onMachine (Machine.pushNew (.shortCircuit op) operands)
      return v.goOn node.branches
    | .loop kind => onMachine (v.openLoop kind node.branches)
    | .switch => onMachine (v.openSwitch node.branches)

/-! ## The walk -/

/-- Does the pending visits, within a budget (the loop of `build_from_node`). -/
def walk (cfg : Settings) : (budget : Nat) → List Visit → Action Assembly Unit
  | _, [] => return ()
  | 0, _ :: _ => halt .endless
  | budget + 1, v :: pending => do
    let next ← visit cfg
      (fun container node => onFreshStack (walk cfg budget [{ container, node }])) v
    walk cfg budget (next ++ pending)

/-- Assembles what a node leads to into a container, and answers the expressions that are left over
(`build_from_node`). -/
def fragment (cfg : Settings) (budget : Nat) (container : NodeId) (node : FlowRef) :
    Action Assembly OperandStack :=
  onFreshStack (walk cfg budget [{ container, node }])

/-- Assembles what a node leads to into a container, with the budget of the graph as it is. -/
def assembleInto (cfg : Settings) (container : NodeId) (node : FlowRef) :
    Action Assembly OperandStack := fun s =>
  fragment cfg s.graph.budget container node s

end Assembly

/-- Lifts the function of a flow graph to a syntax tree (`build_ast`). The graph is left with its
branches pruned. -/
def liftGraph (cfg : Settings) : Action FlowGraph Tree := fun g =>
  let assemble : Action Assembly Tree := do
    let leftover ← Assembly.assembleInto cfg Tree.root g.entry
    if !leftover.isEmpty then
      Action.report cfg .debug fun _ => s!"{leftover.depth} expression(s) left on the stack"
    let s ← Action.state
    return s.machine.tree
  let o := assemble { graph := g }
  ⟨o.result, o.state.graph, o.notes⟩

end GmlLift
