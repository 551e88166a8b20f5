import GmlLift.Flow.Graph

/-!
# Budgets for walks

How many visits a walk through a flow graph may make before it counts as endless. Without a cycle,
a walk of `n` nodes with `d` references in all makes fewer than `(d + 2) ^ (n + 1)` visits, and
each cut of a cycle allows as many again. A cycle that nothing cuts ends only when the operand
stack runs out, and one instruction pushes at most 512 operands more than it takes.
-/

namespace GmlLift

/-- References from a node. -/
def FlowNode.degree (node : FlowNode) : Nat :=
  node.branches.length +
    match node.kind with
    | .shortCircuit _ conditions => conditions.length
    | _ => 0

/-- Instructions of a node. -/
def FlowNode.codeSize (node : FlowNode) : Nat :=
  match node.kind with
  | .block block => block.code.length
  | .conditional header => header.code.length
  | _ => 0

/-- The visits that a walk through the graph may make. -/
def FlowGraph.budget (g : FlowGraph) : Nat :=
  let total (size : FlowNode → Nat) := g.nodes.toList.foldr (fun node n => size node + n) 0
  let degree := total FlowNode.degree
  let code := total FlowNode.codeSize
  Nat.pow ((degree + 2) * 512 * (code + 1)) (2 * g.size + 2)

end GmlLift
