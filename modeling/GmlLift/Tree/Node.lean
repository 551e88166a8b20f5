import GmlLift.Bytecode.Opcode
import GmlLift.Bytecode.DataType
import GmlLift.Bytecode.Variable
import GmlLift.Bytecode.Comparison

/-!
# Syntax nodes

Expressions and statements of the source language. A node holds a `Kind`, which carries scalars
only, and the ids of its children; the owner of a variable is the one operand that the kind itself
refers to.
-/

namespace GmlLift

/-- A node of a tree, by its place in the arena. -/
structure NodeId where
  index : Nat
  deriving DecidableEq, Repr

/-- An operator on two operands. -/
inductive BinaryOp where
  | add | sub | mul | div | and | or | mod | rem | xor | shl | shr
  | compare (relation : Comparison)
  deriving DecidableEq, Repr

namespace BinaryOp

/-- The operator of a binary opcode (`from_opcode`); a comparison also needs its relation. -/
def ofOpcode? (opcode : Opcode) (relation : Comparison) : Option BinaryOp :=
  match opcode with
  | .add => some add
  | .sub => some sub
  | .mul => some mul
  | .div => some div
  | .and => some and
  | .or => some or
  | .mod => some mod
  | .rem => some rem
  | .xor => some xor
  | .shl => some shl
  | .shr => some shr
  | .cmp => some (compare relation)
  | _ => none

/-- The operator in the source language. -/
def symbol : BinaryOp → String
  | add => "+"
  | sub => "-"
  | mul => "*"
  | div => "/"
  | and => "&"
  | or => "|"
  | mod => "%"
  | rem => "div"
  | xor => "^"
  | shl => "<<"
  | shr => ">>"
  | compare relation => relation.symbol

end BinaryOp

/-- An operator on one operand. -/
inductive UnaryOp where
  | neg | not
  deriving DecidableEq, Repr

/-- A lazy connective (`ShortCircuitKind`). -/
inductive Connective where
  | and | or
  deriving DecidableEq, Repr

/-- Does an increment yield the value after the change, or the one before? -/
inductive Side where
  | pre | post
  deriving DecidableEq, Repr

/-- How an assignment changes its target. -/
inductive AssignOp where
  | plain
  | compound (op : BinaryOp)
  | increment (op : BinaryOp) (side : Side)
  deriving DecidableEq, Repr

/-- What a node is (`AstKind`). -/
inductive Kind where
  -- expressions
  | int16 (value : Int16) (pushedBy : Opcode)
  | int32 (value : Int32)
  | int64 (value : Int64)
  | double (bits : UInt64)
  | float (bits : UInt32)
  | boolean (value : Bool)
  | string (index : UInt32)
  /-- A variable (`Variable`), with the node of its owner. -/
  | var (target : UInt32) (addressing : Addressing) (left : Option NodeId)
  | binary (op : BinaryOp)
  | unary (op : UnaryOp) (type : DataType)
  /-- A call of a function (`FunctionCall`). -/
  | call (target : UInt32)
  /-- An owner that the instruction itself names, by its code (`TypeInstance`). -/
  | owner (code : Int16)
  -- statements
  | assign (op : AssignOp)
  /-- An `If`; it remembers how deep the operand stack was when the statement was opened. -/
  | conditional (depth : Nat)
  | whileLoop (continued : Bool)
  | forLoop | doUntilLoop | repeatLoop | withLoop
  | switch | switchCase | switchDefault
  | breakStmt | continueStmt | returnStmt | exitStmt
  | block
  | shortCircuit (op : Connective)
  deriving DecidableEq, Repr

/-- The name of a kind. -/
def Kind.name : Kind → String
  | int16 .. => "int16"
  | int32 _ => "int32"
  | int64 _ => "int64"
  | double _ => "double"
  | float _ => "float"
  | boolean _ => "boolean"
  | string _ => "string"
  | var .. => "variable"
  | binary _ => "binary"
  | unary .. => "unary"
  | call _ => "call"
  | owner _ => "instance"
  | assign _ => "assign"
  | conditional _ => "if"
  | whileLoop _ => "while"
  | forLoop => "for"
  | doUntilLoop => "do-until"
  | repeatLoop => "repeat"
  | withLoop => "with"
  | switch => "switch"
  | switchCase => "case"
  | switchDefault => "default"
  | breakStmt => "break"
  | continueStmt => "continue"
  | returnStmt => "return"
  | exitStmt => "exit"
  | block => "block"
  | shortCircuit _ => "short-circuit"

/-- A node of a tree (`AstNode`). -/
structure Node where
  kind : Kind
  children : List NodeId := []
  /-- A duplication has copied the node's id on the operand stack. -/
  duplicated : Bool := false
  deriving DecidableEq, Repr

end GmlLift
