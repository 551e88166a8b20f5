import GmlLift.Bytecode.DataType

/-!
# Literals

The payload of a push. Floating-point payloads are kept as bit patterns, so that equality is
equality of bits: a NaN equals itself and the two zeros differ.
-/

namespace GmlLift

/-- A literal payload (`Value`). -/
inductive Literal where
  | int16 (value : Int16)
  | int32 (value : Int32)
  | int64 (value : Int64)
  | double (bits : UInt64)
  | float (bits : UInt32)
  | boolean (value : Bool)
  | string (index : UInt32)
  deriving DecidableEq, Repr

namespace Literal

/-- The type of a payload. -/
def dataType : Literal → DataType
  | int16 _ => .int16
  | int32 _ => .int32
  | int64 _ => .int64
  | double _ => .double
  | float _ => .float
  | boolean _ => .boolean
  | string _ => .string

/-! ## The payload, if it has the wanted type -/

def int16? : Literal → Option Int16
  | int16 v => some v
  | _ => none

def int32? : Literal → Option Int32
  | int32 v => some v
  | _ => none

def int64? : Literal → Option Int64
  | int64 v => some v
  | _ => none

def double? : Literal → Option UInt64
  | double bits => some bits
  | _ => none

def float? : Literal → Option UInt32
  | float bits => some bits
  | _ => none

def boolean? : Literal → Option Bool
  | boolean v => some v
  | _ => none

def string? : Literal → Option UInt32
  | string index => some index
  | _ => none

end Literal

end GmlLift
