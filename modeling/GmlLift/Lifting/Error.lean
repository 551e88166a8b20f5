import GmlLift.Bytecode.Opcode
import GmlLift.Bytecode.DataType
import GmlLift.Flow.Graph

/-!
# Why lifting stops

A `LiftError` is a fault of the function that is lifted and is reported to the caller;
`LiftError.message` is its text. A `Halt` is any reason for which a computation gives no answer:
an error, a reference that leads nowhere, or a computation without an end.
-/

namespace GmlLift

/-- What about an instruction is not supported. -/
inductive Unsupported where
  | pushType
  | immediateType
  | storeType
  | relation
  | operator
  | stackMove
  | indirectCall
  | extension
  deriving DecidableEq, Repr

def Unsupported.text : Unsupported → String
  | pushType => "push of this data type"
  | immediateType => "pushi of a non-integer type"
  | storeType => "store of this data type"
  | relation => "unknown comparison kind"
  | operator => "not a binary operator"
  | stackMove => "per-instance stack move"
  | indirectCall => "call through a variable"
  | extension => "extended opcode"

/-- A construct that needs branches. -/
inductive Branching where
  | conditional | forLoop | loop
  deriving DecidableEq, Repr

def Branching.text : Branching → String
  | conditional => "if"
  | forLoop => "for loop"
  | loop => "loop"

/-- A fault of the function that is lifted (`DecompileError`). Positions count the instructions of a
block. -/
inductive LiftError where
  | unsupported (position : Nat) (opcode : Opcode) (what : Unsupported)
  | underflow (position : Nat)
  | missingExpression (construct : String)
  | missingReference (position : Nat)
  | malformedLiteral (position : Nat) (expected : DataType)
  | missingBranch (construct : Branching) (index : Nat)
  | unknownNode (ref : FlowRef)
  | noEnclosingLoop
  deriving DecidableEq, Repr

/-- The text of an error. -/
def LiftError.message : LiftError → String
  | unsupported position opcode what =>
    s!"unsupported {opcode.mnemonic} instruction at {position}: {what.text}"
  | underflow position => s!"expression stack underflow at instruction {position}"
  | missingExpression construct => s!"missing expression for {construct}"
  | missingReference position =>
    s!"missing variable or function reference at instruction {position}"
  | malformedLiteral position expected =>
    s!"malformed literal at instruction {position}: expected {expected.name} payload"
  | missingBranch construct index => s!"{construct.text} node is missing branch {index}"
  | unknownNode ref => s!"node {ref.index} is not in the graph"
  | noEnclosingLoop => "loop control outside of any loop"

/-- Why a computation gives no answer. -/
inductive Halt where
  | error (e : LiftError)
  /-- An id, a reference or a position is outside of its collection. -/
  | outOfRange
  /-- The text of a cyclic tree was asked for, or a walk did not end within its budget. -/
  | endless
  deriving DecidableEq, Repr

end GmlLift
