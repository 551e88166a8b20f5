import GmlLift.Proofs.Tree.Growth
import GmlLift.Assembly.Visit
import Mathlib.Logic.Basic

/-!
# Evolving trees

While a function is lifted, its tree does more than grow: loops get conditions, conditionals get
values, and a conditional that has become an expression leaves its container. What is kept is the
sort of every node. `Tree.Evolves t t'` says what one tree may rely on in a later one; every fact
that a pending visit needs is stable under it.

A change of one node is described by `Tree.Replaces`, whatever operation has made it.
-/

namespace GmlLift

/-- What the assembly of a function does with a node. -/
inductive NodeSort where
  /-- Has a value. -/
  | expression
  /-- Takes statements. -/
  | container
  | loop
  | conditional
  /-- Any other statement. -/
  | simple
  deriving DecidableEq, Repr

def Kind.sort : Kind → NodeSort
  | .int16 .. | .int32 _ | .int64 _ | .double _ | .float _ | .boolean _ | .string _ => .expression
  | .var .. | .binary _ | .unary .. | .call _ | .owner _ | .shortCircuit _ => .expression
  | .assign (.increment ..) => .expression
  | .assign .plain | .assign (.compound _) => .simple
  | .conditional _ => .conditional
  | .whileLoop _ | .forLoop | .doUntilLoop | .repeatLoop | .withLoop => .loop
  | .switchCase | .switchDefault => .simple
  | .breakStmt | .continueStmt | .returnStmt | .exitStmt => .simple
  | .block | .switch => .container

namespace Node

/-- A conditional that has the values of both of its arms. -/
def IsTernary (n : Node) : Prop :=
  n.kind.sort = .conditional ∧ Visit.ternarySize ≤ n.children.length

/-- A node without a value: a conditional is one until it has the values of both of its arms. -/
def IsStatement (n : Node) : Prop :=
  n.kind.sort ≠ .expression ∧ ¬ n.IsTernary

instance (n : Node) : Decidable n.IsTernary := inferInstanceAs (Decidable (_ ∧ _))

instance (n : Node) : Decidable n.IsStatement := inferInstanceAs (Decidable (_ ∧ _))

theorem not_isStatement_iff {n : Node} :
    ¬ n.IsStatement ↔ n.kind.sort = .expression ∨ n.IsTernary := by
  unfold IsStatement
  rw [not_and_or, not_not, not_not]

end Node

namespace Tree

/-- The id is the id of a node of the given sort. -/
def IsSort (t : Tree) (sort : NodeSort) (id : NodeId) : Prop :=
  ∃ n, t.get? id = some n ∧ n.kind.sort = sort

/-- The id is the id of a conditional with both values. -/
def Ternary (t : Tree) (id : NodeId) : Prop :=
  ∃ n, t.get? id = some n ∧ n.IsTernary

/-- The id is the id of a node with a value. -/
def Valued (t : Tree) (id : NodeId) : Prop :=
  ∃ n, t.get? id = some n ∧ ¬ n.IsStatement

theorem IsSort.holds {t : Tree} {sort : NodeSort} {id : NodeId} (h : t.IsSort sort id) :
    t.Holds id := by
  obtain ⟨n, hn, -⟩ := h
  exact holds_of_get? hn

theorem Valued.holds {t : Tree} {id : NodeId} (h : t.Valued id) : t.Holds id := by
  obtain ⟨n, hn, -⟩ := h
  exact holds_of_get? hn

theorem valued_of_sort {t : Tree} {id : NodeId} {n : Node} (hn : t.get? id = some n)
    (hs : n.kind.sort = .expression) : t.Valued id :=
  ⟨n, hn, Node.not_isStatement_iff.mpr (Or.inl hs)⟩

/-! ## One node is replaced -/

/-- **The tree with another node in one place.** -/
structure Replaces (t t' : Tree) (id : NodeId) (n n' : Node) : Prop where
  old : t.get? id = some n
  size_eq : t'.size = t.size
  get?_eq : ∀ other, t'.get? other = if other = id then some n' else t.get? other

section Operations

variable {t t' : Tree} {id : NodeId} {n : Node}

theorem replaces_update? {change : Node → Node} (h : t.update? id change = some t')
    (hn : t.get? id = some n) : Replaces t t' id n (change n) where
  old := hn
  size_eq := size_update? h
  get?_eq other := by
    rw [get?_update? h other, hn, Option.map_some]

theorem replaces_appendChild? {child : NodeId} (h : t.appendChild? id child = some t')
    (hn : t.get? id = some n) :
    Replaces t t' id n { n with children := n.children ++ [child] } :=
  replaces_update? h hn

theorem replaces_insertChild? {child : NodeId} (h : t.insertChild? id 0 child = some t')
    (hn : t.get? id = some n) : Replaces t t' id n { n with children := child :: n.children } := by
  unfold insertChild? children? at h
  rw [hn] at h
  have hupdate : t.update? id (fun n => { n with children := child :: n.children }) = some t' := h
  exact replaces_update? hupdate hn

theorem replaces_removeChild? {child : NodeId} {found : Bool}
    (h : t.removeChild? id child = some (found, t')) (hn : t.get? id = some n) :
    Replaces t t' id n { n with children := eraseLast n.children child } := by
  unfold removeChild? children? at h
  rw [hn] at h
  obtain ⟨t₁, h₁, heq⟩ := Option.map_eq_some_iff.mp h
  cases heq
  exact replaces_update? h₁ hn

theorem insertChild?_of_get? (hn : t.get? id = some n) (child : NodeId) :
    ∃ t', t.insertChild? id 0 child = some t' := by
  unfold insertChild? children?
  rw [hn]
  exact Option.isSome_iff_exists.mp (isSome_update?_iff.mpr (holds_of_get? hn))

theorem removeChild?_of_get? (hn : t.get? id = some n) (child : NodeId) :
    ∃ t', t.removeChild? id child = some (n.children.contains child, t') := by
  unfold removeChild? children?
  rw [hn]
  have hsome : (t.update? id fun n => { n with children := eraseLast n.children child }).isSome :=
    isSome_update?_iff.mpr (holds_of_get? hn)
  obtain ⟨t', ht'⟩ := Option.isSome_iff_exists.mp hsome
  exact ⟨t', congrArg (Option.map _) ht'⟩

theorem mem_eraseLast_of_ne {children : List NodeId} {child other : NodeId} (hne : other ≠ child)
    (h : other ∈ children) : other ∈ eraseLast children child := by
  unfold eraseLast
  rw [List.mem_reverse, List.mem_erase_of_ne hne, List.mem_reverse]
  exact h

theorem mem_of_mem_eraseLast {children : List NodeId} {child other : NodeId}
    (h : other ∈ eraseLast children child) : other ∈ children := by
  unfold eraseLast at h
  rw [List.mem_reverse] at h
  exact List.mem_reverse.mp (List.mem_of_mem_erase h)

end Operations

namespace Replaces

variable {t t' : Tree} {id other : NodeId} {n n' m : Node}

theorem new (h : Replaces t t' id n n') : t'.get? id = some n' := by
  rw [h.get?_eq, if_pos rfl]

theorem of_ne (h : Replaces t t' id n n') (hne : other ≠ id) : t'.get? other = t.get? other := by
  rw [h.get?_eq, if_neg hne]

/-- A node afterwards is the new one or an old one. -/
theorem cases_get? (h : Replaces t t' id n n') (hm : t'.get? other = some m) :
    (other = id ∧ m = n') ∨ (other ≠ id ∧ t.get? other = some m) := by
  by_cases hid : other = id
  · subst hid
    rw [h.new] at hm
    exact Or.inl ⟨rfl, (Option.some.inj hm).symm⟩
  · rw [h.of_ne hid] at hm
    exact Or.inr ⟨hid, hm⟩

theorem holds_iff (h : Replaces t t' id n n') : t'.Holds other ↔ t.Holds other := by
  unfold Holds
  rw [h.size_eq]

end Replaces

/-! ## Evolution -/

/-- **What a later tree keeps**: its nodes have the sorts that they had, a conditional has no fewer
children, and a child that has left its parent has become an expression. -/
structure Evolves (t t' : Tree) : Prop where
  size_le : t.size ≤ t'.size
  kept : ∀ id n, t.get? id = some n → ∃ n', t'.get? id = some n' ∧ n'.kind.sort = n.kind.sort ∧
    (n.kind.sort = .conditional → n.children.length ≤ n'.children.length) ∧
    ∀ child ∈ n.children, child ∈ n'.children ∨ t'.Ternary child

section Evolution

variable {t t' t'' : Tree} {id : NodeId}

theorem Evolves.holds (h : Evolves t t') (hid : t.Holds id) : t'.Holds id :=
  Nat.lt_of_lt_of_le hid h.size_le

theorem IsSort.mono {sort : NodeSort} (hs : t.IsSort sort id) (h : Evolves t t') :
    t'.IsSort sort id := by
  obtain ⟨n, hn, hsort⟩ := hs
  obtain ⟨n', hn', hsort', -, -⟩ := h.kept id n hn
  exact ⟨n', hn', hsort'.trans hsort⟩

theorem Ternary.mono (ht : t.Ternary id) (h : Evolves t t') : t'.Ternary id := by
  obtain ⟨n, hn, hsort, hlen⟩ := ht
  obtain ⟨n', hn', hsort', hlen', -⟩ := h.kept id n hn
  exact ⟨n', hn', hsort'.trans hsort, Nat.le_trans hlen (hlen' hsort)⟩

theorem Valued.mono (hv : t.Valued id) (h : Evolves t t') : t'.Valued id := by
  obtain ⟨n, hn, hvalue⟩ := hv
  rcases Node.not_isStatement_iff.mp hvalue with hsort | hternary
  · obtain ⟨n', hn', hsort', -, -⟩ := h.kept id n hn
    exact valued_of_sort hn' (hsort'.trans hsort)
  · obtain ⟨n', hn', hternary'⟩ := Ternary.mono ⟨n, hn, hternary⟩ h
    exact ⟨n', hn', Node.not_isStatement_iff.mpr (Or.inr hternary')⟩

protected theorem Evolves.refl (t : Tree) : Evolves t t where
  size_le := Nat.le_refl _
  kept _ n hn := ⟨n, hn, rfl, fun _ => Nat.le_refl _, fun _ h => Or.inl h⟩

protected theorem Evolves.trans (h : Evolves t t') (h' : Evolves t' t'') : Evolves t t'' where
  size_le := Nat.le_trans h.size_le h'.size_le
  kept id n hn := by
    obtain ⟨n₁, hn₁, hs₁, hl₁, hc₁⟩ := h.kept id n hn
    obtain ⟨n₂, hn₂, hs₂, hl₂, hc₂⟩ := h'.kept id n₁ hn₁
    refine ⟨n₂, hn₂, hs₂.trans hs₁, fun hs => Nat.le_trans (hl₁ hs) (hl₂ (hs₁.trans hs)),
      ?_⟩
    intro child hchild
    rcases hc₁ child hchild with hchild | hternary
    · exact hc₂ child hchild
    · exact Or.inr (hternary.mono h')

theorem evolves_add (t : Tree) (kind : Kind) (children : List NodeId) :
    Evolves t (t.add kind children) where
  size_le := by rw [size_add]; exact Nat.le_succ _
  kept id n hn := by
    refine ⟨n, ?_, rfl, fun _ => Nat.le_refl _, fun _ h => Or.inl h⟩
    rw [get?_add_of_lt (holds_of_get? hn)]
    exact hn

/-- Replacing a node by one of its sort that has more children. -/
theorem Replaces.evolves {n n' : Node} (h : Replaces t t' id n n')
    (hs : n'.kind.sort = n.kind.sort)
    (hlen : n.kind.sort = .conditional → n.children.length ≤ n'.children.length)
    (hc : ∀ child ∈ n.children, child ∈ n'.children ∨ t'.Ternary child) : Evolves t t' where
  size_le := Nat.le_of_eq h.size_eq.symm
  kept other m hm := by
    by_cases hid : other = id
    · subst hid
      cases h.old.symm.trans hm
      exact ⟨n', h.new, hs, hlen, hc⟩
    · exact ⟨m, (h.of_ne hid).trans hm, rfl, fun _ => Nat.le_refl _, fun _ h => Or.inl h⟩

end Evolution

end Tree

end GmlLift
