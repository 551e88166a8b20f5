import GmlLift.Tree.Node

/-!
# Trees

A tree is an arena: nodes in the order in which they were made, referring to each other by id. Ids
are not checked when they are stored, so children may be missing, shared or cyclic; reading a
missing id gives nothing, and changing one gives no tree.

Each operation is described by what `get?` sees afterwards.
-/

namespace GmlLift

/-- An arena of syntax nodes (`Ast`). -/
structure Tree where
  nodes : Array Node
  deriving DecidableEq, Repr

namespace Tree

/-- One empty block, the root. -/
def new : Tree := ⟨#[{ kind := .block }]⟩

/-- The root is the first node. -/
def root : NodeId := ⟨0⟩

def size (t : Tree) : Nat := t.nodes.size

def get? (t : Tree) (id : NodeId) : Option Node := t.nodes[id.index]?

/-- The id of the node that will be made next. -/
def nextId (t : Tree) : NodeId := ⟨t.size⟩

/-- Makes a node and does not link it to anything (`add_with_children`). -/
def add (t : Tree) (kind : Kind) (children : List NodeId) : Tree :=
  ⟨t.nodes.push { kind, children }⟩

/-- Changes a node; no tree results if there is none with that id. -/
def update? (t : Tree) (id : NodeId) (change : Node → Node) : Option Tree :=
  if id.index < t.size then some ⟨t.nodes.modify id.index change⟩ else none

def children? (t : Tree) (id : NodeId) : Option (List NodeId) :=
  (t.get? id).map (·.children)

/-- Links a child behind the others (`push_child`). -/
def appendChild? (t : Tree) (parent child : NodeId) : Option Tree :=
  t.update? parent fun n => { n with children := n.children ++ [child] }

/-- Links a child at a position, which may be the end but not beyond it (`insert_child`). -/
def insertChild? (t : Tree) (parent : NodeId) (position : Nat) (child : NodeId) : Option Tree :=
  match t.children? parent with
  | none => none
  | some children =>
    if position ≤ children.length then
      t.update? parent fun n => { n with children := n.children.insertIdx position child }
    else none

/-- A list without the last occurrence of an element. -/
def eraseLast (children : List NodeId) (child : NodeId) : List NodeId :=
  (children.reverse.erase child).reverse

/-- Unlinks the last occurrence of a child, and says whether there was one (`remove_child`). -/
def removeChild? (t : Tree) (parent child : NodeId) : Option (Bool × Tree) :=
  match t.children? parent with
  | none => none
  | some children =>
    (t.update? parent fun n => { n with children := eraseLast n.children child }).map
      fun t' => (children.contains child, t')

/-- Marks or unmarks a node as copied on the operand stack. -/
def setDuplicated? (t : Tree) (id : NodeId) (mark : Bool) : Option Tree :=
  t.update? id fun n => { n with duplicated := mark }

/-- Changes what a node is. -/
def setKind? (t : Tree) (id : NodeId) (kind : Kind) : Option Tree :=
  t.update? id fun n => { n with kind := kind }

/-- The children of a node, each with the node that it refers to. -/
def statements? (t : Tree) (id : NodeId) : Option (List (NodeId × Node)) :=
  match t.children? id with
  | none => none
  | some children => children.mapM fun child => (t.get? child).map fun n => (child, n)

/-! ## What the operations do to `get?` and `size` -/

theorem get?_eq_none_iff {t : Tree} {id : NodeId} : t.get? id = none ↔ t.size ≤ id.index := by
  simp [get?, size]

theorem isSome_get?_iff {t : Tree} {id : NodeId} : (t.get? id).isSome ↔ id.index < t.size := by
  simp [get?, size]

@[simp] theorem size_new : new.size = 1 := rfl

@[simp] theorem size_add (t : Tree) (kind : Kind) (children : List NodeId) :
    (t.add kind children).size = t.size + 1 := by
  simp [add, size]

@[simp] theorem get?_add_nextId (t : Tree) (kind : Kind) (children : List NodeId) :
    (t.add kind children).get? t.nextId = some { kind, children } := by
  simp [add, get?, nextId, size]

theorem get?_add_of_lt {t : Tree} {id : NodeId} (h : id.index < t.size) (kind : Kind)
    (children : List NodeId) : (t.add kind children).get? id = t.get? id := by
  simp only [size] at h
  simp [add, get?, Array.getElem?_push, Nat.ne_of_lt h]

theorem update?_eq_some_iff {t t' : Tree} {id : NodeId} {change : Node → Node} :
    t.update? id change = some t' ↔
      id.index < t.size ∧ t' = ⟨t.nodes.modify id.index change⟩ := by
  unfold update?
  by_cases h : id.index < t.size
  · rw [if_pos h]
    exact ⟨fun e => ⟨h, (Option.some.inj e).symm⟩, fun e => congrArg some e.2.symm⟩
  · rw [if_neg h]
    exact ⟨fun e => (nomatch e), fun e => absurd e.1 h⟩

theorem size_update? {t t' : Tree} {id : NodeId} {change : Node → Node}
    (h : t.update? id change = some t') : t'.size = t.size := by
  obtain ⟨-, rfl⟩ := update?_eq_some_iff.1 h
  simp [size]

theorem get?_update? {t t' : Tree} {id : NodeId} {change : Node → Node}
    (h : t.update? id change = some t') (other : NodeId) :
    t'.get? other = if other = id then (t.get? id).map change else t.get? other := by
  obtain ⟨hid, rfl⟩ := update?_eq_some_iff.1 h
  by_cases he : other = id
  · subst he
    simp [get?, Array.getElem?_modify]
  · have hi : id.index ≠ other.index := fun hx => he (by cases id; cases other; simp_all)
    simp [get?, Array.getElem?_modify, he, hi]

theorem isSome_update?_iff {t : Tree} {id : NodeId} {change : Node → Node} :
    (t.update? id change).isSome ↔ id.index < t.size := by
  unfold update?
  split <;> simp_all

end Tree

end GmlLift
