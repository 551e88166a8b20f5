import GmlLift.Bytecode.Instruction
import GmlLift.Settings
import GmlLift.Tree.Node

/-!
# Increment windows

The compiler writes `x++` and `++x` as an addition of a 16-bit 1, with a copy of the variable on
the stack to store through or to leave as the value. A push of that 1 is the centre of such a
window: what stands right before it (`behind`, nearest first) and right after it (`ahead`) tells
which form it is, and `postWindow` and `preWindow` tell how much of `ahead` belongs to it.

The functions `findAt?`, `postEndAt` and `preEndAt` say the same by position in a list of
instructions.
-/

namespace GmlLift

/-- A recognised increment or decrement (`IncrementMatch`). -/
structure Increment where
  op : BinaryOp
  side : Side
  deriving DecidableEq, Repr

/-- How many instructions after the centre belong to a window, and whether it ends by rearranging
the stack (`PrefixEnd`). -/
structure Window where
  span : Nat
  permuted : Bool := false
  deriving DecidableEq, Repr

namespace Increment

/-- The operator of an addition or a subtraction (`increment_op`). -/
def stepOp? (i : Instruction) : Option BinaryOp :=
  match i.opcode with
  | .add => some .add
  | .sub => some .sub
  | _ => none

/-- Is this the 16-bit literal 1? -/
def isOne (i : Instruction) : Bool :=
  i.type1 = .int16 && i.literal = some (.int16 1)

/-- Was the variable copied right before, or, in the legacy dialect, copied and then swapped? -/
def copiedBefore (cfg : Settings) (last beforeLast : Instruction) : Bool :=
  last.isVariantDup ||
    (cfg.swapsInIncrement && beforeLast.isVariantDup && last.isPermutation && last.type1 = .int16)

/-- The postfix form (`match_postfix`): a copy before the 1, an addition or subtraction after it. -/
def findPost? (cfg : Settings) (behind ahead : List Instruction) : Option Increment :=
  match behind, ahead with
  | last :: beforeLast :: _, next :: _ =>
    if copiedBefore cfg last beforeLast then (stepOp? next).map (⟨·, .post⟩) else none
  | _, _ => none

/-- The prefix form (`match_prefix`): an addition or subtraction after the 1, and then the copy. -/
def findPre? (ahead : List Instruction) : Option Increment :=
  match ahead with
  | next :: copy :: _ => if copy.isVariantDup then (stepOp? next).map (⟨·, .pre⟩) else none
  | _ => none

/-- The increment of which the given push is the centre (`match_increment`, by what stands behind it
and ahead). The postfix form goes first. -/
def find? (cfg : Settings) (behind : List Instruction) (i : Instruction)
    (ahead : List Instruction) : Option Increment :=
  if isOne i then (findPost? cfg behind ahead).or (findPre? ahead) else none

/-- The pops that write a postfix increment back: any number of rearrangements and at most one
store. -/
def writeBack : (stored : Bool) → List Instruction → Nat
  | _, [] => 0
  | stored, i :: rest =>
    if i.isPermutation then writeBack stored rest + 1
    else if i.opcode = .pop && !stored then writeBack true rest + 1
    else 0

/-- A postfix window holds the addition and the pops that write back. -/
def postWindow (ahead : List Instruction) : Window :=
  match ahead with
  | [] => ⟨0, false⟩
  | _ :: rest => ⟨writeBack false rest + 1, false⟩

/-- A prefix window goes up to the first pop. A pop from a 16-bit integer to a variant rearranges
the stack, and the store follows it. -/
def preWindow : List Instruction → Window
  | [] => ⟨0, false⟩
  | i :: rest =>
    if i.opcode = .pop then
      if i.isInt16Pop then ⟨min 1 rest.length + 1, true⟩ else ⟨1, false⟩
    else
      let w := preWindow rest
      ⟨w.span + 1, w.permuted⟩

/-! ## By position -/

/-- The increment whose centre is at a position (`match_increment`). -/
def findAt? (cfg : Settings) (code : List Instruction) (position : Nat) : Option Increment :=
  match code.drop position with
  | [] => none
  | i :: ahead => find? cfg (code.take position).reverse i ahead

/-- The position behind a window whose centre is at a position. -/
def endAt (window : List Instruction → Window) (code : List Instruction) (position : Nat) : Nat :=
  min (position + 1 + (window (code.drop (position + 1))).span) code.length

/-- The position behind a postfix window (`postfix_end`). -/
def postEndAt (code : List Instruction) (position : Nat) : Nat :=
  endAt postWindow code position

/-- The position behind a prefix window (`prefix_end`). -/
def preEndAt (code : List Instruction) (position : Nat) : Nat :=
  endAt preWindow code position

/-- Does the prefix window at a position end by rearranging the stack? -/
def prePermutedAt (code : List Instruction) (position : Nat) : Bool :=
  (preWindow (code.drop (position + 1))).permuted

theorem writeBack_le_length (stored : Bool) (code : List Instruction) :
    writeBack stored code ≤ code.length := by
  fun_induction writeBack stored code <;> grind

theorem postWindow_span_le_length (ahead : List Instruction) :
    (postWindow ahead).span ≤ ahead.length := by
  cases ahead with
  | nil => simp [postWindow]
  | cons i rest => simpa [postWindow] using writeBack_le_length false rest

theorem preWindow_span_le_length (ahead : List Instruction) :
    (preWindow ahead).span ≤ ahead.length := by
  fun_induction preWindow ahead <;> grind

end Increment

end GmlLift
