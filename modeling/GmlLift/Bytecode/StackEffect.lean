import GmlLift.Bytecode.Instruction

/-!
# Stack effects

How many operands an instruction takes from the stack and how many it leaves there, read off the
instruction alone. `Instruction.delta` is the difference.
-/

namespace GmlLift.Instruction

/-- How many values a duplication copies (`dup_count`). -/
def dupCount (i : Instruction) : Nat :=
  (i.extra.toNat + 1) * i.type1.slots

/-- Operands that reaching the variable takes (`variable_operand_pops`): an owner on the stack, or
an index and an owner. -/
def operandPops (i : Instruction) : Nat :=
  match i.reference with
  | none => 0
  | some ref =>
    if i.owner = .stackTop then 1
    else match ref.addressing with
      | .stackTop => 1
      | .array => 2
      | _ => 0

/-- Values that an instruction takes from the stack (`stack_pops`). -/
def pops (i : Instruction) : Nat :=
  match i.opcode with
  | .push | .pushLocal | .pushGlobal | .pushBuiltin =>
    if i.type1 = .variant then i.operandPops else 0
  | .pushI | .exit | .jump | .jumpTrue | .jumpFalse | .pushEnv | .popEnv | .callV | .extended => 0
  | .pop =>
    if i.reference.isNone then 2 + i.dropCount
    else (if i.type1 = .int32 || i.type1 = .variant then 1 else 0) + i.operandPops
  | .neg | .not | .ret | .popz | .conv => 1
  | .add | .sub | .mul | .div | .and | .or | .mod | .rem | .xor | .shl | .shr | .cmp => 2
  | .call => i.argumentCount.toNat
  | .dup => i.dupCount

/-- Values that an instruction leaves on the stack. -/
def pushes (i : Instruction) : Nat :=
  match i.opcode with
  | .push | .pushLocal | .pushGlobal | .pushBuiltin | .pushI => 1
  | .pop => if i.reference.isNone then 2 else 0
  | .neg | .not | .conv => 1
  | .add | .sub | .mul | .div | .and | .or | .mod | .rem | .xor | .shl | .shr | .cmp => 1
  | .call => 1
  | .dup => 2 * i.dupCount
  | .ret | .popz | .exit | .jump | .jumpTrue | .jumpFalse | .pushEnv | .popEnv | .callV
  | .extended => 0

/-- The change of the stack's depth (`stack_delta`). -/
def delta (i : Instruction) : Int :=
  (i.pushes : Int) - i.pops

end GmlLift.Instruction
