import GmlLift.Flow.Graph
import GmlLift.Lifting.Action

/-!
# Pruning

Behind a block that breaks out of a loop or continues it, only branches that no path reaches
remain. The others are dropped when the block has been run, so that a back edge through it is
followed once.
-/

namespace GmlLift.FlowGraph

/-- The branches that outlive pruning. -/
def keptBranches (g : FlowGraph) (node : FlowNode) : List FlowRef :=
  node.branches.filter g.leadsNowhere

/-- Drops the branches of a node, except to nodes that are marked as unreachable
(`prune_reachable_branches`). -/
def prune (cfg : Settings) (ref : FlowRef) : Action FlowGraph Unit := do
  let g ← Action.state
  match g.get? ref with
  | none => Action.halt .outOfRange
  | some node =>
    let kept := g.keptBranches node
    let removed := node.branches.length - kept.length
    if 0 < removed then
      Action.report cfg .debug fun _ => s!"pruned {removed} branch(es) after node {ref.index}"
    Action.change fun g => g.setBranches ref kept

end GmlLift.FlowGraph
