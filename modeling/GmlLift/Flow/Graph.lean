import GmlLift.Bytecode.Instruction
import GmlLift.Tree.Node

/-!
# Flow graphs

The structured flow graph of a function: straight-line blocks and the constructs around them. What
the branches of a node mean depends on its kind:

* a block and a short circuit go on with their first branch, if they have one;
* a conditional has its continuation, its true arm and, if there is an `else`, its false arm;
* a `for` loop has its condition, its body and its step, every other loop its continuation and its
  body;
* a switch has its head and then its cases.

References are not checked, so a branch may lead out of the graph.
-/

namespace GmlLift

/-- A node of a flow graph, by its place in the graph (`NodeRef`). -/
structure FlowRef where
  index : Nat
  deriving DecidableEq, Repr

/-- What a block does for the construct around it, besides running its code (`ControlFlow`). -/
inductive Role where
  | plain
  | breakOut | continueOn
  | loopCondition
  | switchExpression | switchCase | switchDefault
  | ifCondition | withExpression | repeatExpression
  deriving DecidableEq, Repr

/-- Straight-line code with its role. -/
structure Block where
  code : List Instruction := []
  role : Role := .plain
  deriving DecidableEq, Repr

/-- The five loops of the source language. -/
inductive LoopKind where
  | whileLoop | forLoop | doUntilLoop | repeatLoop | withLoop
  deriving DecidableEq, Repr

/-- What a node of a flow graph is (`NodeKind`). -/
inductive FlowKind where
  | block (block : Block)
  | conditional (header : Block)
  | loop (kind : LoopKind)
  | switch
  | shortCircuit (op : Connective) (conditions : List FlowRef)
  deriving DecidableEq, Repr

/-- The name of a kind. -/
def FlowKind.name : FlowKind → String
  | block _ => "block"
  | conditional _ => "if"
  | loop _ => "loop"
  | switch => "switch"
  | shortCircuit .. => "short-circuit"

/-- A node of a flow graph (`Node`). -/
structure FlowNode where
  kind : FlowKind
  branches : List FlowRef := []
  /-- No path of the program leads here; such a branch outlives pruning. -/
  unreachable : Bool := false
  deriving DecidableEq, Repr

/-- A flow graph (`ControlFlowGraph`); unless set otherwise, it is entered at its first node. -/
structure FlowGraph where
  nodes : Array FlowNode := #[]
  entry : FlowRef := ⟨0⟩
  deriving DecidableEq, Repr

namespace FlowGraph

def size (g : FlowGraph) : Nat := g.nodes.size

def get? (g : FlowGraph) (ref : FlowRef) : Option FlowNode := g.nodes[ref.index]?

/-- The reference of the node that will be added next. -/
def nextRef (g : FlowGraph) : FlowRef := ⟨g.size⟩

def add (g : FlowGraph) (node : FlowNode) : FlowGraph :=
  { g with nodes := g.nodes.push node }

/-- Replaces the branches of a node, if there is such a node. -/
def setBranches (g : FlowGraph) (ref : FlowRef) (branches : List FlowRef) : FlowGraph :=
  { g with nodes := g.nodes.modify ref.index fun n => { n with branches } }

/-- Replaces the branches of a node; no graph results if there is no such node. -/
def setBranches? (g : FlowGraph) (ref : FlowRef) (branches : List FlowRef) : Option FlowGraph :=
  if ref.index < g.size then some (g.setBranches ref branches) else none

/-- Is the branch in the graph and marked as unreachable? -/
def leadsNowhere (g : FlowGraph) (ref : FlowRef) : Bool :=
  match g.get? ref with
  | some node => node.unreachable
  | none => false

/-- The branches of every node. -/
def branchTable (g : FlowGraph) : List (List FlowRef) :=
  g.nodes.toList.map (·.branches)

@[simp] theorem size_add (g : FlowGraph) (node : FlowNode) : (g.add node).size = g.size + 1 := by
  simp [add, size]

@[simp] theorem size_setBranches (g : FlowGraph) (ref : FlowRef) (branches : List FlowRef) :
    (g.setBranches ref branches).size = g.size := by
  simp [setBranches, size]

/-- Only the branches of the one node change. -/
theorem get?_setBranches (g : FlowGraph) (ref : FlowRef) (branches : List FlowRef)
    (other : FlowRef) :
    (g.setBranches ref branches).get? other =
      if other = ref then (g.get? ref).map ({ · with branches }) else g.get? other := by
  by_cases he : other = ref
  · subst he
    simp [setBranches, get?, Array.getElem?_modify]
  · have hi : ref.index ≠ other.index := fun hx => he (by cases ref; cases other; simp_all)
    simp [setBranches, get?, Array.getElem?_modify, he, hi]

end FlowGraph

end GmlLift
