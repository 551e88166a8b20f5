import GmlLift.Tree.Node
import GmlLift.Lifting.Error

/-!
# Operand stacks

The symbolic operand stack holds ids of expressions. `OperandStack.items` has the top first;
`OperandStack.toList` is the view from the bottom up, through which each operation is described.
-/

namespace GmlLift

/-- A stack of expressions, top first (`ExprStack`). -/
structure OperandStack where
  items : List NodeId := []
  deriving DecidableEq, Repr

namespace OperandStack

def empty : OperandStack := {}

/-- A stack given from the bottom up. -/
def ofList (ids : List NodeId) : OperandStack := ⟨ids.reverse⟩

/-- The items from the bottom up. -/
def toList (s : OperandStack) : List NodeId := s.items.reverse

def depth (s : OperandStack) : Nat := s.items.length

def isEmpty (s : OperandStack) : Bool := s.items.isEmpty

def push (s : OperandStack) (id : NodeId) : OperandStack := ⟨id :: s.items⟩

def peek? (s : OperandStack) : Option NodeId := s.items.head?

/-- The top and the stack below it (`try_pop`). -/
def pop? (s : OperandStack) : Option (NodeId × OperandStack) :=
  match s.items with
  | [] => none
  | id :: rest => some (id, ⟨rest⟩)

/-- Pops for the instruction at a position (`pop`). -/
def popAt (s : OperandStack) (position : Nat) : Except LiftError (NodeId × OperandStack) :=
  match s.pop? with
  | some popped => .ok popped
  | none => .error (.underflow position)

/-- Pops an operand of a construct (`pop_for`). -/
def popFor (s : OperandStack) (construct : String) : Except LiftError (NodeId × OperandStack) :=
  match s.pop? with
  | some popped => .ok popped
  | none => .error (.missingExpression construct)

/-- Puts another item in the place of the top, if there is one (`replace_top`). -/
def replaceTop (s : OperandStack) (id : NodeId) : OperandStack :=
  match s.items with
  | [] => s
  | _ :: rest => ⟨id :: rest⟩

/-- Puts all of another stack on top, in its order (`extend`). -/
def append (s above : OperandStack) : OperandStack := ⟨above.items ++ s.items⟩

/-- Pushes the top `n` items once more, in their order. -/
def copyTop (s : OperandStack) (n : Nat) : OperandStack := ⟨s.items.take n ++ s.items⟩

@[simp] theorem toList_empty : empty.toList = [] := rfl

@[simp] theorem toList_ofList (ids : List NodeId) : (ofList ids).toList = ids := by
  simp [ofList, toList]

@[simp] theorem toList_push (s : OperandStack) (id : NodeId) :
    (s.push id).toList = s.toList ++ [id] := by
  simp [push, toList]

@[simp] theorem toList_append (s above : OperandStack) :
    (s.append above).toList = s.toList ++ above.toList := by
  simp [append, toList]

@[simp] theorem length_toList (s : OperandStack) : s.toList.length = s.depth := by
  simp [toList, depth]

theorem pop?_eq_some_iff {s rest : OperandStack} {id : NodeId} :
    s.pop? = some (id, rest) ↔ s = rest.push id := by
  obtain ⟨items⟩ := s
  obtain ⟨below⟩ := rest
  cases items <;> simp [pop?, push]

end OperandStack

end GmlLift
