import GmlLift.Tree.Arena
import GmlLift.Decimal.Layout

/-!
# Trees as text

A node with everything below it on one line: `(= inst-1.var3 (+ 1 2))`. Literals, owners and
variables stand for themselves; every other node is written in parentheses, its head first and
then its children.

The text exists only if every id that is met is in the arena and no path comes back to its start.
On a path without repetition there are no more nodes than the arena has, so `Tree.text` looks just
one level deeper than that.
-/

namespace GmlLift

/-- Why a node has no text. -/
inductive TextFault where
  /-- An id below the node is not in the arena. -/
  | missing (id : NodeId)
  /-- The node is on a cycle, or refers to one. -/
  | cyclic
  deriving DecidableEq, Repr

/-- The text of a node without children of its own: a literal or an owner. -/
def Kind.atom? : Kind → Option String
  | .int16 v _ => some (toString v.toInt)
  | .int32 v => some (toString v.toInt)
  | .int64 v => some (toString v.toInt ++ "L")
  | .double bits => some (NumberLayout.tagged.double bits)
  | .float bits => some (NumberLayout.tagged.float bits ++ "f")
  | .boolean v => some (if v then "true" else "false")
  | .string index => some s!"str{index.toNat}"
  | .owner code => some s!"inst{code.toInt}"
  | _ => none

/-- The sign of an increment: everything but a subtraction counts up. -/
def BinaryOp.stepSymbol (op : BinaryOp) : String :=
  if op = .sub then "--" else "++"

/-- The head of an assignment. -/
def AssignOp.head : AssignOp → String
  | .plain => "="
  | .compound op => op.symbol ++ "="
  | .increment op .pre => op.stepSymbol ++ "pre"
  | .increment op .post => op.stepSymbol ++ "post"

/-- The head of a node that is written in parentheses. -/
def Kind.head : Kind → String
  | .binary op => op.symbol
  | .unary .neg _ => "neg"
  | .unary .not _ => "not"
  | .call target => s!"fn{target.toNat}"
  | .assign op => op.head
  | kind => kind.name

namespace Tree

/-- The texts of the children, each after a blank. -/
def joinArguments : List String → String
  | [] => ""
  | text :: rest => " " ++ text ++ joinArguments rest

/-- The texts of the indices, divided by commas. -/
def joinIndices : List String → String
  | [] => ""
  | [text] => text
  | text :: rest => text ++ ", " ++ joinIndices rest

/-- The text of a variable, given the text of its owner and of its indices. -/
def variableText (left : Option String) (target : UInt32) (indices : List String) : String :=
  let owner := match left with
    | some text => text ++ "."
    | none => ""
  let index := if indices.isEmpty then "" else "[" ++ joinIndices indices ++ "]"
  owner ++ s!"var{target.toNat}" ++ index

/-- The text of a node, looking at most `depth` levels down (`describe_into`). -/
def textWithin (t : Tree) : (depth : Nat) → NodeId → Except TextFault String
  | 0, _ => .error .cyclic
  | depth + 1, id =>
    match t.get? id with
    | none => .error (.missing id)
    | some node =>
      match node.kind with
      | .var target _ left => do
        let owner ← left.mapM (t.textWithin depth)
        let indices ← node.children.mapM (t.textWithin depth)
        return variableText owner target indices
      | kind =>
        match kind.atom? with
        | some text => .ok text
        | none => do
          let arguments ← node.children.mapM (t.textWithin depth)
          return "(" ++ kind.head ++ joinArguments arguments ++ ")"

/-- The text of a node (`describe`). -/
def text (t : Tree) (id : NodeId) : Except TextFault String :=
  t.textWithin (t.size + 1) id

end Tree

end GmlLift
