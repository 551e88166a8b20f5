import GmlLift.Tree.Arena

/-!
# Growing trees

Execution only adds to a tree: it makes nodes, puts statements behind the children of one
container, and marks nodes as copied. `Tree.Extends container t t' statements` says that `t'`
comes from `t` in this way, `statements` being what the container got. Extensions compose
(`Extends.trans`). A tree that only gets new nodes `Grows`, and the copied nodes are the `Marked`
ones.

A tree is `Closed` when every id in it is the id of one of its nodes; growing keeps a tree closed
as long as the new ids are in range.
-/

namespace GmlLift

/-- The owner that the kind itself refers to. -/
def Kind.left? : Kind → Option NodeId
  | .var _ _ left => left
  | _ => none

/-- Every id that a node refers to. -/
def Node.references (n : Node) : List NodeId :=
  n.kind.left?.toList ++ n.children

namespace Tree

/-- The id is the id of a node. -/
def Holds (t : Tree) (id : NodeId) : Prop := id.index < t.size

/-- Every id in the tree is the id of a node. -/
def Closed (t : Tree) : Prop :=
  ∀ id n, t.get? id = some n → ∀ ref ∈ n.references, t.Holds ref

theorem holds_of_get? {t : Tree} {id : NodeId} {n : Node} (h : t.get? id = some n) :
    t.Holds id :=
  isSome_get?_iff.mp (by rw [h]; rfl)

theorem get?_of_holds {t : Tree} {id : NodeId} (h : t.Holds id) : ∃ n, t.get? id = some n :=
  Option.isSome_iff_exists.mp (isSome_get?_iff.mpr h)

theorem not_holds_nextId (t : Tree) : ¬ t.Holds t.nextId := Nat.lt_irrefl t.size

theorem holds_nextId_add (t : Tree) (kind : Kind) (children : List NodeId) :
    (t.add kind children).Holds t.nextId := by
  unfold Holds
  rw [size_add]
  exact Nat.lt_succ_self t.size

/-- A node of the tree with one node more is an old one or the new one. -/
theorem get?_add_cases {t : Tree} {kind : Kind} {children : List NodeId} {id : NodeId} {n : Node}
    (h : (t.add kind children).get? id = some n) :
    t.get? id = some n ∨ (id = t.nextId ∧ n = { kind, children }) := by
  have hid := holds_of_get? h
  unfold Holds at hid
  rw [size_add] at hid
  rcases Nat.lt_succ_iff_lt_or_eq.mp hid with hlt | heq
  · rw [get?_add_of_lt hlt] at h
    exact Or.inl h
  · have hn : id = t.nextId := by
      cases id
      exact congrArg NodeId.mk heq
    subst hn
    rw [get?_add_nextId] at h
    exact Or.inr ⟨rfl, (Option.some.inj h).symm⟩

/-! ## Extensions -/

/-- **The tree has grown**: old nodes keep their kinds, their marks and their children, except that
the container has got the statements behind its children. -/
structure Extends (container : NodeId) (t t' : Tree) (statements : List NodeId) : Prop where
  size_le : t.size ≤ t'.size
  kept : ∀ id n, t.get? id = some n → ∃ n', t'.get? id = some n' ∧ n'.kind = n.kind ∧
    n'.children = (if id = container then n.children ++ statements else n.children) ∧
    (n.duplicated = true → n'.duplicated = true)

namespace Extends

variable {container : NodeId} {t t' t'' : Tree} {statements more : List NodeId}

protected theorem refl (container : NodeId) (t : Tree) : Extends container t t [] where
  size_le := Nat.le_refl _
  kept _ n hn := ⟨n, hn, rfl, by simp, fun h => h⟩

protected theorem trans (h : Extends container t t' statements)
    (h' : Extends container t' t'' more) : Extends container t t'' (statements ++ more) where
  size_le := Nat.le_trans h.size_le h'.size_le
  kept id n hn := by
    obtain ⟨n₁, hn₁, hk₁, hc₁, hd₁⟩ := h.kept id n hn
    obtain ⟨n₂, hn₂, hk₂, hc₂, hd₂⟩ := h'.kept id n₁ hn₁
    refine ⟨n₂, hn₂, hk₂.trans hk₁, ?_, fun hd => hd₂ (hd₁ hd)⟩
    rw [hc₂, hc₁]
    by_cases hid : id = container
    · rw [if_pos hid, if_pos hid, if_pos hid, List.append_assoc]
    · rw [if_neg hid, if_neg hid, if_neg hid]

theorem holds (h : Extends container t t' statements) {id : NodeId} (hid : t.Holds id) :
    t'.Holds id :=
  Nat.lt_of_lt_of_le hid h.size_le

/-- The children of the container, before and after. -/
theorem children?_container (h : Extends container t t' statements) {children : List NodeId}
    (hc : t.children? container = some children) :
    t'.children? container = some (children ++ statements) := by
  unfold children? at hc ⊢
  obtain ⟨n, hn, rfl⟩ := Option.map_eq_some_iff.mp hc
  obtain ⟨n', hn', -, hc', -⟩ := h.kept container n hn
  rw [hn', Option.map_some, hc', if_pos rfl]

end Extends

theorem extends_add (container : NodeId) (t : Tree) (kind : Kind) (children : List NodeId) :
    Extends container t (t.add kind children) [] where
  size_le := by rw [size_add]; exact Nat.le_succ _
  kept id n hn := ⟨n, by rw [get?_add_of_lt (holds_of_get? hn)]; exact hn, rfl, by simp, fun h => h⟩

theorem extends_appendChild {t t' : Tree} {container child : NodeId}
    (h : t.appendChild? container child = some t') : Extends container t t' [child] where
  size_le := Nat.le_of_eq (size_update? h).symm
  kept id n hn := by
    have hg := get?_update? h id
    by_cases hid : id = container
    · subst hid
      rw [if_pos rfl, hn, Option.map_some] at hg
      exact ⟨_, hg, rfl, by simp, fun hd => hd⟩
    · rw [if_neg hid, hn] at hg
      exact ⟨n, hg, rfl, by simp [hid], fun hd => hd⟩

theorem extends_setDuplicated (container : NodeId) {t t' : Tree} {id : NodeId}
    (h : t.setDuplicated? id true = some t') : Extends container t t' [] where
  size_le := Nat.le_of_eq (size_update? h).symm
  kept other n hn := by
    have hg := get?_update? h other
    by_cases hid : other = id
    · subst hid
      rw [if_pos rfl, hn, Option.map_some] at hg
      exact ⟨_, hg, rfl, by simp, fun _ => rfl⟩
    · rw [if_neg hid, hn] at hg
      exact ⟨n, hg, rfl, by simp, fun hd => hd⟩

/-! ## New nodes and marks -/

/-- **The tree has only got new nodes**; the old ones are as they were. -/
structure Grows (t t' : Tree) : Prop where
  size_le : t.size ≤ t'.size
  kept : ∀ id n, t.get? id = some n → t'.get? id = some n

protected theorem Grows.refl (t : Tree) : t.Grows t := ⟨Nat.le_refl _, fun _ _ h => h⟩

protected theorem Grows.trans {t t' t'' : Tree} (h : t.Grows t') (h' : t'.Grows t'') :
    t.Grows t'' :=
  ⟨Nat.le_trans h.size_le h'.size_le, fun id n hn => h'.kept id n (h.kept id n hn)⟩

theorem grows_add (t : Tree) (kind : Kind) (children : List NodeId) :
    t.Grows (t.add kind children) where
  size_le := by rw [size_add]; exact Nat.le_succ _
  kept id n hn := by rw [get?_add_of_lt (holds_of_get? hn)]; exact hn

/-- A mark on a new node is no change of an old one. -/
theorem Grows.setDuplicated {t t₁ t₂ : Tree} (h : t.Grows t₁) {id : NodeId}
    (hid : ¬ t.Holds id) (hs : t₁.setDuplicated? id true = some t₂) : t.Grows t₂ where
  size_le := by rw [size_update? hs]; exact h.size_le
  kept other n hn := by
    have hne : other ≠ id := by
      rintro rfl
      exact hid (holds_of_get? hn)
    rw [get?_update? hs other, if_neg hne]
    exact h.kept other n hn

theorem Grows.extends {t t' : Tree} (h : t.Grows t') (container : NodeId) :
    t.Extends container t' [] where
  size_le := h.size_le
  kept id n hn := ⟨n, h.kept id n hn, rfl, by simp, fun hd => hd⟩

/-- The node is there and has not been copied. -/
def Unmarked (t : Tree) (id : NodeId) : Prop := ∃ n, t.get? id = some n ∧ n.duplicated = false

theorem Unmarked.mono {t t' : Tree} {id : NodeId} (h : t.Unmarked id) (hg : t.Grows t') :
    t'.Unmarked id := by
  obtain ⟨n, hn, hm⟩ := h
  exact ⟨n, hg.kept id n hn, hm⟩

theorem unmarked_add (t : Tree) (kind : Kind) (children : List NodeId) :
    (t.add kind children).Unmarked t.nextId :=
  ⟨_, t.get?_add_nextId kind children, rfl⟩

/-- The node is there and has been copied. -/
def Marked (t : Tree) (id : NodeId) : Prop := ∃ n, t.get? id = some n ∧ n.duplicated = true

theorem Marked.mono {t t' : Tree} {container id : NodeId} {statements : List NodeId}
    (h : t.Marked id) (hx : t.Extends container t' statements) : t'.Marked id := by
  obtain ⟨n, hn, hm⟩ := h
  obtain ⟨n', hn', -, -, hm'⟩ := hx.kept id n hn
  exact ⟨n', hn', hm' hm⟩

section Marks

variable {t t' : Tree} {id other child : NodeId}

/-- A new node is not marked. -/
@[simp] theorem marked_add {kind : Kind} {children : List NodeId} :
    (t.add kind children).Marked id ↔ t.Marked id := by
  constructor
  · rintro ⟨n, hn, hd⟩
    rcases get?_add_cases hn with hold | ⟨-, rfl⟩
    · exact ⟨n, hold, hd⟩
    · cases hd
  · rintro ⟨n, hn, hd⟩
    exact ⟨n, (grows_add t kind children).kept id n hn, hd⟩

theorem marked_appendChild? (h : t.appendChild? other child = some t') :
    t'.Marked id ↔ t.Marked id := by
  unfold Marked
  rw [get?_update? h id]
  by_cases hid : id = other
  · subst hid
    rw [if_pos rfl]
    cases t.get? id <;> simp
  · rw [if_neg hid]

theorem marked_setDuplicated? (h : t.setDuplicated? other true = some t') :
    t'.Marked id ↔ t.Marked id ∨ id = other := by
  unfold Marked
  rw [get?_update? h id]
  by_cases hid : id = other
  · obtain ⟨n, hn⟩ := get?_of_holds (isSome_update?_iff.mp (Option.isSome_of_eq_some h))
    simp [hid, hn]
  · simp [hid]

end Marks

/-! ## Closed trees -/

theorem Closed.add {t : Tree} (ht : t.Closed) {kind : Kind} {children : List NodeId}
    (hc : ∀ ref ∈ Node.references { kind, children }, t.Holds ref) :
    (t.add kind children).Closed := by
  intro id n hn ref href
  have hold : t.Holds ref := by
    rcases get?_add_cases hn with h | ⟨-, rfl⟩
    · exact ht id n h ref href
    · exact hc ref href
  exact (extends_add ref t kind children).holds hold

theorem Closed.appendChild {t t' : Tree} (ht : t.Closed) {container child : NodeId}
    (h : t.appendChild? container child = some t') (hc : t.Holds child) : t'.Closed := by
  intro id n hn ref href
  apply (extends_appendChild h).holds
  have hg := get?_update? h id
  rw [hn] at hg
  by_cases hid : id = container
  · subst hid
    rw [if_pos rfl] at hg
    obtain ⟨old, hold, rfl⟩ := Option.map_eq_some_iff.mp hg.symm
    have hmem : ref ∈ old.references ∨ ref = child := by
      simpa [Node.references, or_assoc] using href
    rcases hmem with hmem | rfl
    · exact ht id old hold ref hmem
    · exact hc
  · rw [if_neg hid] at hg
    exact ht id n hg.symm ref href

theorem Closed.setDuplicated {t t' : Tree} (ht : t.Closed) {id : NodeId} {mark : Bool}
    (h : t.setDuplicated? id mark = some t') : t'.Closed := by
  intro other n hn ref href
  have hsize := size_update? h
  have hg := get?_update? h other
  rw [hn] at hg
  unfold Holds
  rw [hsize]
  by_cases hid : other = id
  · subst hid
    rw [if_pos rfl] at hg
    obtain ⟨old, hold, rfl⟩ := Option.map_eq_some_iff.mp hg.symm
    exact ht other old hold ref href
  · rw [if_neg hid] at hg
    exact ht other n hg.symm ref href

theorem appendChild?_of_holds {t : Tree} {container : NodeId} (h : t.Holds container)
    (child : NodeId) : ∃ t', t.appendChild? container child = some t' :=
  Option.isSome_iff_exists.mp (isSome_update?_iff.mpr h)

end Tree

end GmlLift
