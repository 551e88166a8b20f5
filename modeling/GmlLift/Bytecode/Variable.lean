import GmlLift.Bytecode.CodeError

/-!
# Variable operands

A variable is reached through its `Owner` (whose variable it is) and its `Addressing` (where the
owner and the indices come from). Owners are signed 16-bit codes: the non-negative ones are object
indices, a few negative ones are named, and every other code is `Owner.undefined`.
-/

namespace GmlLift

/-- Whose variable is meant (`InstanceType`). -/
inductive Owner where
  | undefined
  | self | other | all | noone | global | builtin | locals | stackTop | argument | static
  | object (index : Int16)
  deriving DecidableEq, Repr

namespace Owner

/-- The signed code of the owner; `undefined` has code zero. -/
def code : Owner → Int16
  | undefined => 0
  | self => -1 | other => -2 | all => -3 | noone => -4 | global => -5 | builtin => -6
  | locals => -7 | stackTop => -9 | argument => -15 | static => -16
  | object index => index

/-- The owners that have a negative code of their own. -/
def named : List Owner :=
  [self, other, all, noone, global, builtin, locals, stackTop, argument, static]

/-- The owner with this code (`from_code`). -/
def ofCode (c : Int16) : Owner :=
  if 0 ≤ c then object c else (named.find? fun o => o.code == c).getD undefined

/-- The owner as a listing writes it. -/
def name : Owner → String
  | undefined => "undefined"
  | self => "self" | other => "other" | all => "all" | noone => "noone" | global => "global"
  | builtin => "builtin" | locals => "local" | stackTop => "[stacktop]" | argument => "arg"
  | static => "static"
  | object index => s!"obj{index.toInt}"

end Owner

/-- Where the owner and the indices of a variable come from (`VariableType`). -/
inductive Addressing where
  | array | stackTop | normal | instanced | multiPush | multiPushPop
  deriving DecidableEq, Repr

namespace Addressing

/-- Every addressing mode. -/
def all : List Addressing :=
  [array, stackTop, normal, instanced, multiPush, multiPushPop]

/-- The byte that stands for the mode in compiled code. -/
def byte : Addressing → UInt8
  | array => 0x00 | stackTop => 0x80 | normal => 0xA0 | instanced => 0xE0
  | multiPush => 0x10 | multiPushPop => 0x90

/-- The full name of the mode. -/
def name : Addressing → String
  | array => "Array" | stackTop => "StackTop" | normal => "Normal" | instanced => "Instance"
  | multiPush => "MultiPush" | multiPushPop => "MultiPushPop"

/-- The mode with this byte. -/
def ofByte? (code : UInt8) : Option Addressing :=
  all.find? fun mode => mode.byte == code

/-- The mode with this byte, or the complaint that there is none. -/
def decode (code : UInt8) : Except CodeError Addressing :=
  match ofByte? code with
  | some mode => .ok mode
  | none => .error (.addressing code)

theorem ofByte?_eq_some_iff {code : UInt8} {mode : Addressing} :
    ofByte? code = some mode ↔ mode.byte = code := by
  constructor
  · intro h
    have := List.find?_some h
    simpa using this
  · rintro rfl
    cases mode <;> decide

end Addressing

/-- A reference to a variable: which one, and how it is addressed. -/
structure VariableRef where
  target : UInt32
  addressing : Addressing
  deriving DecidableEq, Repr

end GmlLift
