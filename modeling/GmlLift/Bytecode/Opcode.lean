import GmlLift.Bytecode.CodeError

/-!
# Opcodes

The closed set of operations of the stack machine, with the byte, the name and the mnemonic of each.
Decoding searches the table `Opcode.all`, so `ofByte?` and `byte` cannot drift apart:
`ofByte?_eq_some_iff` says that they are inverse to each other.
-/

namespace GmlLift

/-- An operation of the stack machine. -/
inductive Opcode where
  | conv
  | mul | div | rem | mod | add | sub
  | and | or | xor | neg | not | shl | shr | cmp
  | pop | pushI | dup
  | callV | ret | exit | popz
  | jump | jumpTrue | jumpFalse | pushEnv | popEnv
  | push | pushLocal | pushGlobal | pushBuiltin
  | call | extended
  deriving DecidableEq, Repr

namespace Opcode

/-- Every opcode, in the order of its byte. -/
def all : List Opcode :=
  [conv, mul, div, rem, mod, add, sub, and, or, xor, neg, not, shl, shr, cmp, pop, pushI, dup,
   callV, ret, exit, popz, jump, jumpTrue, jumpFalse, pushEnv, popEnv,
   push, pushLocal, pushGlobal, pushBuiltin, call, extended]

/-- The byte that stands for the opcode in compiled code. -/
def byte : Opcode → UInt8
  | conv => 0x07
  | mul => 0x08 | div => 0x09 | rem => 0x0A | mod => 0x0B | add => 0x0C | sub => 0x0D
  | and => 0x0E | or => 0x0F | xor => 0x10 | neg => 0x11 | not => 0x12
  | shl => 0x13 | shr => 0x14 | cmp => 0x15
  | pop => 0x45 | pushI => 0x84 | dup => 0x86
  | callV => 0x99 | ret => 0x9C | exit => 0x9D | popz => 0x9E
  | jump => 0xB6 | jumpTrue => 0xB7 | jumpFalse => 0xB8 | pushEnv => 0xBA | popEnv => 0xBB
  | push => 0xC0 | pushLocal => 0xC1 | pushGlobal => 0xC2 | pushBuiltin => 0xC3
  | call => 0xD9 | extended => 0xFF

/-- The full name of the opcode. -/
def name : Opcode → String
  | conv => "Conv"
  | mul => "Mul" | div => "Div" | rem => "Rem" | mod => "Mod" | add => "Add" | sub => "Sub"
  | and => "And" | or => "Or" | xor => "Xor" | neg => "Neg" | not => "Not"
  | shl => "Shl" | shr => "Shr" | cmp => "Cmp"
  | pop => "Pop" | pushI => "PushI" | dup => "Dup"
  | callV => "CallV" | ret => "Ret" | exit => "Exit" | popz => "Popz"
  | jump => "B" | jumpTrue => "Bt" | jumpFalse => "Bf" | pushEnv => "PushEnv" | popEnv => "PopEnv"
  | push => "Push" | pushLocal => "PushLoc" | pushGlobal => "PushGlb" | pushBuiltin => "PushBltn"
  | call => "Call" | extended => "Break"

/-- The mnemonic of a listing. -/
def mnemonic : Opcode → String
  | conv => "conv"
  | mul => "mul" | div => "div" | rem => "rem" | mod => "mod" | add => "add" | sub => "sub"
  | and => "and" | or => "or" | xor => "xor" | neg => "neg" | not => "not"
  | shl => "shl" | shr => "shr" | cmp => "cmp"
  | pop => "pop" | pushI => "pushi" | dup => "dup"
  | callV => "callv" | ret => "ret" | exit => "exit" | popz => "popz"
  | jump => "b" | jumpTrue => "bt" | jumpFalse => "bf" | pushEnv => "pushenv" | popEnv => "popenv"
  | push => "push" | pushLocal => "pushloc" | pushGlobal => "pushglb" | pushBuiltin => "pushbltn"
  | call => "call" | extended => "break"

/-- The four pushes that take a literal or a variable. -/
def isPush : Opcode → Bool
  | push | pushLocal | pushGlobal | pushBuiltin => true
  | _ => false

/-- The operators on two operands. -/
def isBinary : Opcode → Bool
  | add | sub | mul | div | and | or | mod | rem | xor | shl | shr | cmp => true
  | _ => false

/-- The opcode with this byte. -/
def ofByte? (code : UInt8) : Option Opcode :=
  all.find? fun op => op.byte == code

/-- The opcode with this byte, or the complaint that there is none. -/
def decode (code : UInt8) : Except CodeError Opcode :=
  match ofByte? code with
  | some op => .ok op
  | none => .error (.opcode code)

theorem ofByte?_eq_some_iff {code : UInt8} {op : Opcode} :
    ofByte? code = some op ↔ op.byte = code := by
  constructor
  · intro h
    have := List.find?_some h
    simpa using this
  · rintro rfl
    cases op <;> decide

end Opcode

end GmlLift
