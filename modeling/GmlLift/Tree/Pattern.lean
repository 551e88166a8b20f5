import GmlLift.Tree.Arena

/-!
# Shapes that the compiler leaves in trees

* A number 0 or 1 that is converted to a truth value was a boolean literal.
* In the legacy dialect `a[row, col]` is compiled as `a[row * 32000 + col]`.
* `x.y += e` is compiled as a store of `x.y + e` to a copy of `x`.
-/

namespace GmlLift.Tree

/-- The truth value of a node that is the number 0 or 1 (`boolean_literal`). -/
def booleanLiteral? (t : Tree) (id : NodeId) : Option Bool :=
  match t.get? id with
  | some { kind := .int16 v _, .. } =>
    if v = 0 then some false else if v = 1 then some true else none
  | _ => none

/-- The factor between rows of a flattened index (`LEGACY_ARRAY_STRIDE`). -/
def rowStride : Int32 := 32000

/-- The operands of a node, if it is the given operator with at least two of them. -/
def operands? (t : Tree) (id : NodeId) (op : BinaryOp) : Option (NodeId × NodeId) :=
  match t.get? id with
  | some { kind := .binary op', children := left :: right :: _, .. } =>
    if op' = op then some (left, right) else none
  | _ => none

/-- Row and column of a flattened index (`split_flattened`). -/
def flattened? (t : Tree) (index : NodeId) : Option (NodeId × NodeId) := do
  let (product, column) ← t.operands? index .add
  let (row, stride) ← t.operands? product .mul
  match t.get? stride with
  | some { kind := .int32 v, .. } => if v = rowStride then some (row, column) else none
  | _ => none

/-- Operator and right operand of a compound assignment (`compound_assignment`): the owner was
copied on the stack, the variable was reached through the stack, and the stored value is an
operation on a variable. There is no answer at all if an id that has to be looked at is missing. -/
def compound? (t : Tree) (owner : NodeId) (addressing : Addressing) (value : NodeId) :
    Option (Option (BinaryOp × NodeId)) :=
  match t.get? owner with
  | none => none
  | some ownerNode =>
    if ownerNode.duplicated && (addressing = .stackTop || addressing = .array) then
      match t.get? value with
      | none => none
      | some { kind := .binary op, children := left :: right :: _, .. } =>
        match t.get? left with
        | none => none
        | some { kind := .var .., .. } => some (some (op, right))
        | some _ => some none
      | some _ => some none
    else some none

/-! ## What the shapes say -/

variable {t : Tree} {id left right : NodeId} {op : BinaryOp}

theorem get?_of_operands? (h : t.operands? id op = some (left, right)) :
    ∃ more mark, t.get? id = some ⟨.binary op, left :: right :: more, mark⟩ := by
  unfold operands? at h
  split at h
  · rename_i op' l r more mark hn
    split at h
    · rename_i hop
      cases h
      subst hop
      exact ⟨more, mark, hn⟩
    · cases h
  · cases h

theorem operands?_of_flattened? {index row column : NodeId}
    (h : t.flattened? index = some (row, column)) :
    ∃ product stride, t.operands? index .add = some (product, column) ∧
      t.operands? product .mul = some (row, stride) ∧
      ∃ children mark, t.get? stride = some ⟨.int32 rowStride, children, mark⟩ := by
  unfold flattened? at h
  obtain ⟨⟨product, column'⟩, hadd, h⟩ := Option.bind_eq_some_iff.mp h
  obtain ⟨⟨row', stride⟩, hmul, h⟩ := Option.bind_eq_some_iff.mp h
  simp only at h
  split at h
  · rename_i v children mark hn
    split at h
    · rename_i hv
      cases h
      subst hv
      exact ⟨product, stride, hadd, hmul, children, mark, hn⟩
    · cases h
  · cases h

theorem operands?_of_compound? {owner value : NodeId} {addressing : Addressing}
    (h : t.compound? owner addressing value = some (some (op, right))) :
    ∃ left, t.operands? value op = some (left, right) := by
  unfold compound? at h
  split at h
  · cases h
  · split at h
    · split at h
      · cases h
      · rename_i op' left right' more mark hn
        split at h
        · cases h
        · cases h
          exact ⟨left, by simp [operands?, hn]⟩
        · cases h
      · cases h
    · cases h

end GmlLift.Tree
