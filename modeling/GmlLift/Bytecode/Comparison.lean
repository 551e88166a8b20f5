import GmlLift.Bytecode.CodeError

/-!
# Comparisons

The relation that a compare instruction tests, numbered from 0 (no relation) to 6.
-/

namespace GmlLift

/-- The relation of a compare instruction (`ComparisonKind`). -/
inductive Comparison where
  | none | less | lessEqual | equal | notEqual | greaterEqual | greater
  deriving DecidableEq, Repr

namespace Comparison

/-- Every comparison, in the order of its number. -/
def all : List Comparison :=
  [none, less, lessEqual, equal, notEqual, greaterEqual, greater]

/-- The number of the comparison in compiled code. -/
def byte : Comparison → UInt8
  | none => 0 | less => 1 | lessEqual => 2 | equal => 3 | notEqual => 4
  | greaterEqual => 5 | greater => 6

/-- The full name of the comparison. -/
def title : Comparison → String
  | none => "None" | less => "Less" | lessEqual => "LessEqual" | equal => "Equal"
  | notEqual => "NotEqual" | greaterEqual => "GreaterEqual" | greater => "Greater"

/-- The comparison as a listing writes it. -/
def name : Comparison → String
  | none => "" | less => "LT" | lessEqual => "LTE" | equal => "EQ" | notEqual => "NEQ"
  | greaterEqual => "GTE" | greater => "GT"

/-- The comparison as an operator of the source language; no relation is written as a question. -/
def symbol : Comparison → String
  | none => "?" | less => "<" | lessEqual => "<=" | equal => "==" | notEqual => "!="
  | greaterEqual => ">=" | greater => ">"

/-- The comparison with this number. -/
def ofByte? (code : UInt8) : Option Comparison :=
  all.find? fun c => c.byte == code

/-- The comparison with this number, or the complaint that there is none. -/
def decode (code : UInt8) : Except CodeError Comparison :=
  match ofByte? code with
  | some c => .ok c
  | .none => .error (.comparison code)

theorem ofByte?_eq_some_iff {code : UInt8} {c : Comparison} :
    ofByte? code = some c ↔ c.byte = code := by
  constructor
  · intro h
    have := List.find?_some h
    simpa using this
  · rintro rfl
    cases c <;> decide

end Comparison

end GmlLift
