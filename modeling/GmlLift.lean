import GmlLift.Assembly.Walk
import GmlLift.Proofs.Lifting.Meets
import GmlLift.Proofs.Execution.Effect
import GmlLift.Proofs.Execution.Readiness
import GmlLift.Proofs.Execution.Cursor
import GmlLift.Proofs.Execution.Depth
import GmlLift.Proofs.Execution.Echo
import GmlLift.Proofs.Execution.Split
import GmlLift.Proofs.Flow.Pruning
import GmlLift.Proofs.Assembly.Budget
import GmlLift.Proofs.Assembly.Recursion
import GmlLift.Proofs.Semantics.Interpretation
import GmlLift.Proofs.Semantics.Soundness
import GmlLift.Proofs.Source.Language
import GmlLift.Proofs.Source.Trees
import GmlLift.Proofs.Source.Evaluation
import GmlLift.Proofs.Source.RoundTrip
import GmlLift.Proofs.Assembly.Moments
import GmlLift.Proofs.Moves.Move
import GmlLift.Proofs.Moves.Handling
import GmlLift.Proofs.Moves.Instructions
import GmlLift.Proofs.Moves.Constructs
import GmlLift.Proofs.Moves.Run
import GmlLift.Proofs.Lifted.Linear
import GmlLift.Proofs.Lifted.Range
import GmlLift.Proofs.Lifted.Statements
import GmlLift.Proofs.Lifted.Cycles
import GmlLift.Proofs.Lifted.Graph
import GmlLift.Proofs.Assembly.Echo
import GmlLift.Proofs.Assembly.Upkeep
import GmlLift.Proofs.Execution.Layout
import GmlLift.Proofs.Execution.Progress
import GmlLift.Proofs.Assembly.Layout
import GmlLift.Proofs.Lifted.Layout
import GmlLift.Proofs.Flow.Ranking
import GmlLift.Proofs.Lifted.Termination
import GmlLift.Proofs.Execution.Dialect
import GmlLift.Proofs.Flow.Likeness
import GmlLift.Proofs.Assembly.Likeness
import GmlLift.Proofs.Lifted.Budget
import GmlLift.Proofs.Lifted.Renumbering
import GmlLift.Proofs.Lifted.Dialect
import GmlLift.Proofs.Execution.Faults
import GmlLift.Proofs.Assembly.Faults
import GmlLift.Proofs.Lifted.Contract
import GmlLift.Proofs.Execution.Trace
import GmlLift.Proofs.Execution.Compound
import GmlLift.Proofs.Assembly.Course
import GmlLift.Proofs.Assembly.LoopConditions
import GmlLift.Proofs.Execution.Additions
import GmlLift.Proofs.Execution.Transfers
import GmlLift.Proofs.Assembly.Conditionals
import GmlLift.Proofs.Lifted.Ternary
import GmlLift.Proofs.Execution.Increments
import GmlLift.Proofs.Tree.Reach
import GmlLift.Proofs.Execution.Beneath
import GmlLift.Proofs.Execution.Failure
import GmlLift.Proofs.Execution.Preservation
import GmlLift.Proofs.Assembly.Nodes
import GmlLift.Proofs.Assembly.ShortCircuits
import GmlLift.Proofs.Execution.Windows
import GmlLift.Proofs.Assembly.Switches
import GmlLift.Proofs.Tree.Unfolding
import GmlLift.Proofs.Tree.Words
import GmlLift.Proofs.Tree.Readability
