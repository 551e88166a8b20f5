/-!
# Raw codes that stand for nothing

Opcodes, operand types, addressing modes and comparisons are stored as one byte each. A byte outside
the table of its family is a `CodeError`; `CodeError.message` is its text.
-/

namespace GmlLift

/-- A byte that is not in the table of the family it was read for (`DecodeError`). -/
inductive CodeError where
  | opcode (byte : UInt8)
  | dataType (byte : UInt8)
  | addressing (byte : UInt8)
  | comparison (byte : UInt8)
  deriving DecidableEq, Repr

/-- Two lower-case hexadecimal digits. -/
def hexByte (byte : UInt8) : String :=
  String.ofList [Nat.digitChar (byte.toNat / 16), Nat.digitChar (byte.toNat % 16)]

/-- Codes are shown in hexadecimal, except comparisons, which are numbered. -/
def CodeError.message : CodeError → String
  | .opcode byte => s!"invalid opcode: 0x{hexByte byte}"
  | .dataType byte => s!"invalid data type: 0x{hexByte byte}"
  | .addressing byte => s!"invalid variable type: 0x{hexByte byte}"
  | .comparison byte => s!"invalid comparison kind: {byte.toNat}"

end GmlLift
