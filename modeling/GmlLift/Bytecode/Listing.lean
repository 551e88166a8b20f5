import GmlLift.Bytecode.Instruction
import GmlLift.Decimal.Layout

/-!
# Listings

An instruction as one line of disassembly: `push.v self.var3`, `dup.v 0`, `pop.e.v 5`,
`call.i fn2(argc=1)`. A variable reference is shown in place of a literal.
-/

namespace GmlLift

/-- A literal as a listing writes it. -/
def Literal.listing : Literal → String
  | .int16 v => toString v.toInt
  | .int32 v => toString v.toInt
  | .int64 v => toString v.toInt
  | .double bits => NumberLayout.plain.double bits
  | .float bits => NumberLayout.plain.float bits
  | .boolean v => if v then "true" else "false"
  | .string index => s!"str{index.toNat}"

namespace Instruction

/-- Are both type tags shown (`has_two_types`)? -/
def showsSecondType (i : Instruction) : Bool :=
  i.opcode = .conv || i.opcode = .pop || i.opcode.isBinary

/-- The marker of an addressing mode that takes operands from the stack. -/
def addressingMark : Addressing → String
  | .array => "[array]"
  | .stackTop => "[stacktop]"
  | _ => ""

/-- The variable of an instruction, or else its literal. -/
def operandListing (i : Instruction) : String :=
  match i.reference, i.literal with
  | some ref, _ => s!" {addressingMark ref.addressing}{i.owner.name}.var{ref.target.toNat}"
  | none, some v => " " ++ v.listing
  | none, none => ""

/-- What follows the mnemonic and the types. -/
def detail (i : Instruction) : String :=
  match i.opcode with
  | .cmp => " " ++ match Comparison.ofByte? i.comparison with
    | some c => c.name
    | none => "?"
  | .dup =>
    s!" {i.extra.toNat}" ++ if i.comparison = 0 then "" else s!" {i.comparison.toNat}"
  | .pop => if i.reference.isNone then s!" {i.swap.toNat}" else i.operandListing
  | .call =>
    let callee := match i.function with
      | some target => s!"fn{target.toNat}"
      | none => "?"
    s!" {callee}(argc={i.argumentCount.toNat})"
  | _ => i.operandListing

/-- The instruction as one line of disassembly. -/
def listing (i : Instruction) : String :=
  i.opcode.mnemonic ++ "." ++ i.type1.suffix
    ++ (if i.showsSecondType then "." ++ i.type2.suffix else "")
    ++ i.detail

end Instruction

end GmlLift
