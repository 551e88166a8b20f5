import GmlLift.Bytecode.CodeError

/-!
# Operand types

The type tags that an instruction carries, up to two of them, with their bytes, their listing
suffixes and their width in stack slots.
-/

namespace GmlLift

/-- The type of an operand. -/
inductive DataType where
  | double | float | int32 | int64 | boolean
  | variant
  | string
  | instanceId
  | delete | undefined
  | unsigned
  | int16
  deriving DecidableEq, Repr

namespace DataType

/-- Every operand type, in the order of its byte. -/
def all : List DataType :=
  [double, float, int32, int64, boolean, variant, string, instanceId, delete, undefined, unsigned,
   int16]

/-- The byte that stands for the type in compiled code. -/
def byte : DataType → UInt8
  | double => 0x00 | float => 0x01 | int32 => 0x02 | int64 => 0x03 | boolean => 0x04
  | variant => 0x05 | string => 0x06 | instanceId => 0x07 | delete => 0x08 | undefined => 0x09
  | unsigned => 0x0A | int16 => 0x0F

/-- The name of the type, as error messages write it. -/
def name : DataType → String
  | double => "Double" | float => "Float" | int32 => "Int32" | int64 => "Int64"
  | boolean => "Boolean" | variant => "Variable" | string => "String" | instanceId => "Instance"
  | delete => "Delete" | undefined => "Undefined" | unsigned => "UnsignedInt" | int16 => "Int16"

/-- The suffix of a listing. -/
def suffix : DataType → String
  | double => "d" | float => "f" | int32 => "i" | int64 => "l" | boolean => "b"
  | variant => "v" | string => "s" | instanceId => "inst" | delete => "delete"
  | undefined => "undefined" | unsigned => "u" | int16 => "e"

/-- Stack slots per value (`slot_width`): 64-bit integers count twice. -/
def slots : DataType → Nat
  | int64 => 2
  | _ => 1

/-- The type with this byte. -/
def ofByte? (code : UInt8) : Option DataType :=
  all.find? fun ty => ty.byte == code

/-- The type with this byte, or the complaint that there is none. -/
def decode (code : UInt8) : Except CodeError DataType :=
  match ofByte? code with
  | some ty => .ok ty
  | none => .error (.dataType code)

theorem ofByte?_eq_some_iff {code : UInt8} {ty : DataType} :
    ofByte? code = some ty ↔ ty.byte = code := by
  constructor
  · intro h
    have := List.find?_some h
    simpa using this
  · rintro rfl
    cases ty <;> decide

end DataType

end GmlLift
