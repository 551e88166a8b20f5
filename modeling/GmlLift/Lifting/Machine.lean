import GmlLift.Lifting.Action
import GmlLift.Lifting.OperandStack
import GmlLift.Tree.Text
import GmlLift.Tree.Pattern

/-!
# The symbolic machine

A machine is the tree built so far and the stack of expressions that no statement has taken up
yet. The actions here are the moves of which all lifting consists: pop and push an expression,
make a node, link a node.
-/

namespace GmlLift

/-- The tree that is built and the operands that are waiting. -/
structure Machine where
  tree : Tree := Tree.new
  stack : OperandStack := {}
  deriving DecidableEq, Repr

namespace Machine

open GmlLift.Action

/-- Goes on with the rest of the stack, or fails. -/
def settle (m : Machine) : Except LiftError (NodeId × OperandStack) → Outcome Machine NodeId
  | .ok (id, rest) => ⟨.ok id, { m with stack := rest }, []⟩
  | .error e => ⟨.error (.error e), m, []⟩

/-- Pops for the instruction at a position. -/
def pop (position : Nat) : Action Machine NodeId := fun m => m.settle (m.stack.popAt position)

/-- Pops an operand of a construct. -/
def popFor (construct : String) : Action Machine NodeId := fun m =>
  m.settle (m.stack.popFor construct)

/-- Pops several items; the first one popped comes first. -/
def popMany (position : Nat) : Nat → Action Machine (List NodeId)
  | 0 => return []
  | n + 1 => do
    let id ← pop position
    let rest ← popMany position n
    return id :: rest

/-- Pushes an expression. -/
def push (id : NodeId) : Action Machine Unit := change fun m => { m with stack := m.stack.push id }

/-- Makes a node and answers its id. -/
def make (kind : Kind) (children : List NodeId := []) : Action Machine NodeId := fun m =>
  ⟨.ok m.tree.nextId, { m with tree := m.tree.add kind children }, []⟩

/-- Makes an expression and pushes it (`push_node`). -/
def pushNew (kind : Kind) (children : List NodeId := []) : Action Machine Unit := do
  let id ← make kind children
  push id

/-- Changes the tree, unless the change refers to something that is not there. -/
def edit (f : Tree → Option Tree) : Action Machine Unit := fun m =>
  match f m.tree with
  | some tree => ⟨.ok (), { m with tree }, []⟩
  | none => ⟨.error .outOfRange, m, []⟩

/-- Links a child behind the other children of a node (`push_child`). -/
def append (parent child : NodeId) : Action Machine Unit := edit (·.appendChild? parent child)

/-- Reports a line about a node, with its text in it. -/
def describe (cfg : Settings) (level : Level) (id : NodeId) (line : String → String) :
    Action Machine Unit := fun m =>
  if level.wantedAt cfg.verbosity then
    match m.tree.text id with
    | .ok text => ⟨.ok (), m, [⟨level, line text⟩]⟩
    | .error (.missing _) => ⟨.error .outOfRange, m, []⟩
    | .error .cyclic => ⟨.error .endless, m, []⟩
  else ⟨.ok (), m, []⟩

/-- Row and column of an index expression, if the dialect flattens indices and the expression has
that shape. -/
def rowAndColumn? (cfg : Settings) (t : Tree) (index : NodeId) : Option (NodeId × NodeId) :=
  if cfg.flattensIndices then t.flattened? index else none

/-- The indices that an index expression stands for (`process_array_index`): row and column, or the
expression itself. -/
def arrayIndices (cfg : Settings) (index : NodeId) : Action Machine (List NodeId) := do
  let m ← state
  match rowAndColumn? cfg m.tree index with
  | some (row, column) =>
    describe cfg .debug index fun text => s!"recovered 2d array index from {text}"
    return [row, column]
  | none => return [index]

/-! ## How the moves compute -/

@[simp] theorem pop_push (position : Nat) (t : Tree) (s : OperandStack) (id : NodeId) :
    pop position ⟨t, s.push id⟩ = ⟨.ok id, ⟨t, s⟩, []⟩ := rfl

@[simp] theorem pop_empty (position : Nat) (t : Tree) :
    pop position ⟨t, .empty⟩ = ⟨.error (.error (.underflow position)), ⟨t, .empty⟩, []⟩ := rfl

@[simp] theorem popFor_push (construct : String) (t : Tree) (s : OperandStack) (id : NodeId) :
    popFor construct ⟨t, s.push id⟩ = ⟨.ok id, ⟨t, s⟩, []⟩ := rfl

@[simp] theorem popFor_empty (construct : String) (t : Tree) :
    popFor construct ⟨t, .empty⟩ =
      ⟨.error (.error (.missingExpression construct)), ⟨t, .empty⟩, []⟩ := rfl

@[simp] theorem push_apply (id : NodeId) (t : Tree) (s : OperandStack) :
    push id ⟨t, s⟩ = ⟨.ok (), ⟨t, s.push id⟩, []⟩ := rfl

@[simp] theorem make_apply (kind : Kind) (children : List NodeId) (t : Tree) (s : OperandStack) :
    make kind children ⟨t, s⟩ = ⟨.ok t.nextId, ⟨t.add kind children, s⟩, []⟩ := rfl

theorem edit_of_some {f : Tree → Option Tree} {m : Machine} {t : Tree} (h : f m.tree = some t) :
    edit f m = ⟨.ok (), { m with tree := t }, []⟩ := by
  simp [edit, h]

theorem edit_of_none {f : Tree → Option Tree} {m : Machine} (h : f m.tree = none) :
    edit f m = ⟨.error .outOfRange, m, []⟩ := by
  simp [edit, h]

end Machine

end GmlLift
