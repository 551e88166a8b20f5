import GmlLift.Bytecode.Opcode
import GmlLift.Bytecode.DataType
import GmlLift.Bytecode.Variable
import GmlLift.Bytecode.Comparison
import GmlLift.Bytecode.Literal

/-!
# Instructions

An instruction with all the fields that some opcode reads. Fields are independent of each other and
of the opcode: nothing here rules out a call without a function or a store with a literal.
-/

namespace GmlLift

/-- One instruction of compiled code. -/
structure Instruction where
  opcode : Opcode
  type1 : DataType := .double
  type2 : DataType := .double
  literal : Option Literal := none
  /-- The variable that is read or written (`variable`). -/
  reference : Option VariableRef := none
  function : Option UInt32 := none
  /-- Whose variable it is, unless the owner is on the stack (`instance_type`). -/
  owner : Owner := .undefined
  /-- Raw comparison number (`comparison_kind`); duplication reads it as a flag. -/
  comparison : UInt8 := 0
  /-- Values beyond the first that a duplication copies. -/
  extra : UInt8 := 0
  /-- Operand of a pop that names no variable (`swap_extra`). -/
  swap : UInt8 := 0
  argumentCount : UInt16 := 0
  deriving DecidableEq, Repr

namespace Instruction

/-- A duplication of variant values (`is_variable_dup`). -/
def isVariantDup (i : Instruction) : Bool :=
  i.opcode = .dup && i.type1 = .variant

/-- A pop that names no variable (`is_stack_permutation`): it rearranges the stack and stores
nothing. -/
def isPermutation (i : Instruction) : Bool :=
  i.opcode = .pop && i.reference.isNone

/-- A pop from a 16-bit integer to a variant (`is_int16_variable_pop`). -/
def isInt16Pop (i : Instruction) : Bool :=
  i.opcode = .pop && i.type1 = .int16 && i.type2 = .variant

/-- How many values a permutation drops from under the two that it keeps. -/
def dropCount (i : Instruction) : Nat :=
  i.swap.toNat - 4

end Instruction

end GmlLift
