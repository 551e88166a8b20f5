import GmlLift.Lifting.Execution
import GmlLift.Assembly.Prune

/-!
# Visits

A visit is a node of the flow graph that is still to be lifted, together with the place that its
statements go to and the constructs around it. Lifting a node answers the visits that it calls
for, the one to be done first in front.
-/

namespace GmlLift

/-- A conditional statement whose arms are being lifted, and the node that holds it. -/
structure OpenIf where
  statement : NodeId
  container : NodeId
  deriving DecidableEq, Repr

/-- A node that is to be lifted (`Frame`). -/
structure Visit where
  container : NodeId
  node : FlowRef
  /-- The innermost loop around the node. -/
  loop : Option NodeId := none
  /-- The conditional of which the node is in an arm. -/
  openIf : Option OpenIf := none
  deriving DecidableEq, Repr

namespace Visit

open GmlLift.Action GmlLift.Machine

/-- A visit to another node in the same place (`with_node`). -/
def goTo (v : Visit) (node : FlowRef) : Visit := { v with node }

/-- The visit to the first branch, if there is one. -/
def goOn (v : Visit) (branches : List FlowRef) : List Visit :=
  (branches.head?.map v.goTo).toList

/-- A branch that the construct cannot do without. -/
def branch (branches : List FlowRef) (construct : Branching) (index : Nat) :
    Action Machine FlowRef :=
  match branches[index]? with
  | some ref => return ref
  | none => fail (.missingBranch construct index)

/-! ## Blocks -/

/-- How many children a conditional has when both of its arms have left a value
(`TERNARY_CHILD_COUNT`). -/
def ternarySize : Nat := 5

/-- An arm that leaves exactly one value on the stack gives it to the conditional (`fold_ternary`).
With the second value the conditional is an expression: it leaves its container and goes on the
stack. -/
def foldTernary (cfg : Settings) (arm : OpenIf) : Action Machine Unit := do
  let m ← state
  match m.tree.get? arm.statement with
  | none => halt .outOfRange
  | some { kind := .conditional depth, children, .. } =>
    if m.stack.depth = depth + 1 && 3 ≤ children.length && children.length < ternarySize then
      let value ← popFor "ternary value"
      append arm.statement value
      if ternarySize ≤ children.length + 1 then
        edit fun t => (t.removeChild? arm.container arm.statement).map (·.2)
        push arm.statement
        describe cfg .debug arm.statement fun text => s!"folded ternary {text}"
  | some _ => return ()

/-- Makes a statement without operands. -/
def addStatement (container : NodeId) (kind : Kind) : Action Machine Unit := do
  let statement ← make kind
  append container statement

/-- The loop around a visit. -/
def enclosingLoop (v : Visit) : Action Machine NodeId :=
  match v.loop with
  | some statement => return statement
  | none => fail .noEnclosingLoop

/-- Notes on a `while` loop that it is continued from inside; other loops need no such note. -/
def markContinued (statement : NodeId) : Action Machine Unit := do
  let m ← state
  match m.tree.get? statement with
  | none => halt .outOfRange
  | some { kind := .whileLoop _, .. } => edit (·.setKind? statement (.whileLoop true))
  | some _ => return ()

/-- What a block does for the construct around it, once its code has run (`finish_block`). -/
def finishBlock (cfg : Settings) (v : Visit) : Role → Action Machine Unit
  | .breakOut => addStatement v.container .breakStmt
  | .continueOn => do
    addStatement v.container .continueStmt
    let statement ← v.enclosingLoop
    markContinued statement
  | .loopCondition => do
    let statement ← v.enclosingLoop
    let condition ← popFor "loop condition"
    append statement condition
  | .switchExpression => do
    let expression ← popFor "switch expression"
    edit (·.insertChild? v.container 0 expression)
  | .switchCase => do
    let expression ← popFor "switch case"
    let statement ← make .switchCase [expression]
    append v.container statement
  | .switchDefault => addStatement v.container .switchDefault
  | .ifCondition | .withExpression | .repeatExpression => return ()
  | .plain =>
    match v.openIf with
    | some arm => foldTernary cfg arm
    | none => return ()

/-! ## Conditionals, loops and switches -/

/-- Opens a conditional on the top of the stack (`open_if`): the arms go to blocks of their own, the
true arm first, and the continuation comes after them. -/
def openConditional (v : Visit) (branches : List FlowRef) : Action Machine (List Visit) := do
  let continuation ← branch branches .conditional 0
  let trueArm ← branch branches .conditional 1
  let condition ← popFor "if condition"
  let m ← state
  let statement ← make (.conditional m.stack.depth) [condition]
  append v.container statement
  let arm (container : NodeId) (node : FlowRef) : Visit :=
    { v with container, node, openIf := some ⟨statement, v.container⟩ }
  let trueBlock ← make .block
  append statement trueBlock
  match branches[2]? with
  | some falseArm =>
    let falseBlock ← make .block
    append statement falseBlock
    return [arm trueBlock trueArm, arm falseBlock falseArm, v.goTo continuation]
  | none => return [arm trueBlock trueArm, v.goTo continuation]

/-- Makes the statement of a loop; `repeat` and `with` take their operand from the stack. -/
def makeLoop : LoopKind → Action Machine NodeId
  | .whileLoop => make (.whileLoop false)
  | .forLoop => make .forLoop
  | .doUntilLoop => make .doUntilLoop
  | .repeatLoop => do
    let count ← popFor "repeat count"
    make .repeatLoop [count]
  | .withLoop => do
    let target ← popFor "with target"
    make .withLoop [target]

/-- Gives a loop its body block, puts the loop into the container, and answers the visit to the
body. -/
def openBody (v : Visit) (statement : NodeId) (branches : List FlowRef) : Action Machine Visit := do
  let body ← make .block
  append statement body
  append v.container statement
  let node ← branch branches .loop 1
  return { v with container := body, node, loop := some statement }

/-- Opens a loop (`open_loop`). In a `for` loop the step goes to a block of its own, outside of the
loop, and the condition comes last, inside of it. In any other loop the continuation comes last. -/
def openLoop (v : Visit) (kind : LoopKind) (branches : List FlowRef) :
    Action Machine (List Visit) := do
  let statement ← makeLoop kind
  match kind with
  | .forLoop =>
    let condition ← branch branches .forLoop 0
    let step ← branch branches .forLoop 2
    let stepBlock ← make .block
    append statement stepBlock
    let body ← v.openBody statement branches
    return [body, { v.goTo step with container := stepBlock },
      { v.goTo condition with loop := some statement }]
  | _ =>
    let body ← v.openBody statement branches
    let continuation ← branch branches .loop 0
    return [body, v.goTo continuation]

/-- Opens a switch (`open_switch`): the cases go into it, in their order, and the first branch comes
after them. -/
def openSwitch (v : Visit) (branches : List FlowRef) : Action Machine (List Visit) := do
  let statement ← make .switch
  append v.container statement
  let case (node : FlowRef) : Visit := { v.goTo node with container := statement }
  return (branches.drop 1).map case ++ v.goOn branches

end Visit

end GmlLift
