import GmlLift.Proofs.Execution.Additions
import Mathlib.Logic.Function.Basic

/-!
# What becomes of the conditionals of a tree

A conditional has its condition and its blocks as children, and behind them the values of its arms.
Three relations say what a change of the tree does to the conditionals: it may open a new one
(`Tree.Opens`), it may serve those that are there, where only some of them get values
(`Tree.Serves`), and after both of it the conditionals have developed (`Tree.Develops`).
-/

namespace GmlLift

namespace Tree

variable {t t' t'' : Tree} {id : NodeId} {n n' : Node} {own own' : NodeId → Prop}

/-- The children of a conditional; none, if the node is not one. -/
def conditional? (t : Tree) (id : NodeId) : Option (List NodeId) :=
  (t.get? id).bind fun n => if n.kind.sort = .conditional then some n.children else none

theorem conditional?_of_get? (hn : t.get? id = some n) : t.conditional? id =
    if n.kind.sort = .conditional then some n.children else none := by
  unfold conditional?
  rw [hn]
  rfl

theorem conditional?_of_not_holds (h : ¬ t.Holds id) : t.conditional? id = none := by
  unfold conditional?
  rw [get?_eq_none_iff.mpr (Nat.le_of_not_lt h)]
  rfl

theorem holds_of_conditional? {children : List NodeId} (h : t.conditional? id = some children) :
    t.Holds id := by
  by_contra hid
  rw [conditional?_of_not_holds hid] at h
  cases h

/-- Equal nodes are conditionals with the same children. -/
theorem conditional?_congr (h : t'.get? id = t.get? id) : t'.conditional? id = t.conditional? id :=
  congrArg (fun n : Option Node => n.bind _) h

/-- The node is there and no conditional. -/
def Unconditional (t : Tree) (id : NodeId) : Prop := t.Holds id ∧ t.conditional? id = none

theorem unconditional_of_get? (hn : t.get? id = some n) (h : n.kind.sort ≠ .conditional) :
    t.Unconditional id :=
  ⟨holds_of_get? hn, (conditional?_of_get? hn).trans (if_neg h)⟩

theorem Unconditional.sort_ne (h : t.Unconditional id) (hn : t.get? id = some n) :
    n.kind.sort ≠ .conditional := by
  intro hsort
  have hnone := h.2
  rw [conditional?_of_get? hn, if_pos hsort] at hnone
  cases hnone

/-! ## Development -/

/-- **The conditionals of a tree develop**: the own ones may get values, behind both of their
blocks, and the others stay. -/
structure Develops (own : NodeId → Prop) (t t' : Tree) : Prop where
  size_le : t.size ≤ t'.size
  gains : ∀ id, t.Holds id → ∃ values, t'.conditional? id = (t.conditional? id).map (· ++ values) ∧
    (values ≠ [] → own id ∧ ∀ children, t.conditional? id = some children → 3 ≤ children.length)

namespace Develops

theorem holds (h : t.Develops own t') (hid : t.Holds id) : t'.Holds id :=
  Nat.lt_of_lt_of_le hid h.size_le

theorem unconditional (h : t.Develops own t') (hid : t.Unconditional id) : t'.Unconditional id := by
  obtain ⟨values, heq, -⟩ := h.gains id hid.1
  rw [hid.2] at heq
  exact ⟨h.holds hid.1, heq⟩

/-- A conditional that is not an own one stays. -/
theorem kept (h : t.Develops own t') (hid : t.Holds id) (hown : ¬ own id) :
    t'.conditional? id = t.conditional? id := by
  obtain ⟨values, heq, hvalues⟩ := h.gains id hid
  obtain rfl : values = [] := by
    by_contra hne
    exact hown (hvalues hne).1
  simpa using heq

protected theorem refl (own : NodeId → Prop) (t : Tree) : t.Develops own t where
  size_le := Nat.le_refl _
  gains _ _ := ⟨[], by simp, fun hne => absurd rfl hne⟩

/-- More conditionals may be own ones. -/
theorem mono (h : t.Develops own t') (hown : ∀ id, own id → own' id) : t.Develops own' t' where
  size_le := h.size_le
  gains id hid := by
    obtain ⟨values, heq, hvalues⟩ := h.gains id hid
    exact ⟨values, heq, fun hne => ⟨hown id (hvalues hne).1, (hvalues hne).2⟩⟩

/-- One development after the other. -/
protected theorem trans (h : t.Develops own t') (h' : t'.Develops own' t'')
    (hown : ∀ id, t.Holds id → own' id → own id) : t.Develops own t'' where
  size_le := Nat.le_trans h.size_le h'.size_le
  gains id hid := by
    obtain ⟨first, heq, hfirst⟩ := h.gains id hid
    obtain ⟨second, heq', hsecond⟩ := h'.gains id (h.holds hid)
    refine ⟨first ++ second, ?_, fun hne => ?_⟩
    · rw [heq', heq, Option.map_map]
      simp [Function.comp_def]
    · by_cases hempty : first = []
      · subst hempty
        obtain ⟨hid', hlength⟩ := hsecond hne
        refine ⟨hown id hid hid', fun children hchildren => hlength children ?_⟩
        simpa [hchildren] using heq
      · exact hfirst hempty

end Develops

/-! ## Service -/

/-- **The conditionals of a tree are served**: they develop, and no conditional is new. -/
structure Serves (own : NodeId → Prop) (t t' : Tree) : Prop extends Develops own t t' where
  fresh : ∀ id, ¬ t.Holds id → t'.conditional? id = none

/-- A change that no conditional notices. -/
theorem serves_of_eq (own : NodeId → Prop) (hsize : t.size ≤ t'.size)
    (h : ∀ id, t'.conditional? id = t.conditional? id) : t.Serves own t' where
  size_le := hsize
  gains id _ := ⟨[], by simp [h id], fun hne => absurd rfl hne⟩
  fresh id hid := (h id).trans (conditional?_of_not_holds hid)

namespace Serves

protected theorem refl (own : NodeId → Prop) (t : Tree) : t.Serves own t :=
  serves_of_eq own (Nat.le_refl _) fun _ => rfl

protected theorem trans (h : t.Serves own t') (h' : t'.Serves own t'') : t.Serves own t'' where
  toDevelops := h.toDevelops.trans h'.toDevelops fun _ _ hid => hid
  fresh id hid := by
    by_cases hid' : t'.Holds id
    · exact (h'.unconditional ⟨hid', h.fresh id hid⟩).2
    · exact h'.fresh id hid'

/-- With no own conditionals, all of them stay. -/
theorem conditional?_eq (h : t.Serves (fun _ => False) t') : t'.conditional? = t.conditional? := by
  funext id
  by_cases hid : t.Holds id
  · exact h.kept hid not_false
  · rw [h.fresh id hid, conditional?_of_not_holds hid]

end Serves

/-- A new node is next to the conditionals. -/
theorem conditional?_add_of_ne (t : Tree) (kind : Kind) (children : List NodeId)
    (hne : id ≠ t.nextId) : (t.add kind children).conditional? id = t.conditional? id := by
  by_cases hid : t.Holds id
  · exact conditional?_congr (get?_add_of_lt hid kind children)
  · rw [conditional?_of_not_holds hid]
    refine conditional?_of_not_holds fun hid' => hne ?_
    unfold Holds at hid hid'
    rw [size_add] at hid'
    exact congrArg NodeId.mk (Nat.le_antisymm (Nat.le_of_lt_succ hid') (Nat.le_of_not_lt hid))

/-- Any other node is added. -/
theorem serves_add (own : NodeId → Prop) (t : Tree) {kind : Kind} (children : List NodeId)
    (h : kind.sort ≠ .conditional) : t.Serves own (t.add kind children) := by
  refine serves_of_eq own (by simp) fun id => ?_
  by_cases hid : id = t.nextId
  · subst hid
    rw [conditional?_of_not_holds t.not_holds_nextId]
    exact (unconditional_of_get? (t.get?_add_nextId kind children) h).2
  · exact t.conditional?_add_of_ne kind children hid

/-- A node that is no conditional is replaced by another one. -/
theorem Replaces.serves (own : NodeId → Prop) (h : t.Replaces t' id n n')
    (hid : t.Unconditional id) (hsort : n'.kind.sort = n.kind.sort) : t.Serves own t' := by
  have hn := hid.sort_ne h.old
  refine serves_of_eq own (Nat.le_of_eq h.size_eq.symm) fun other => ?_
  by_cases heq : other = id
  · subst heq
    rw [conditional?_of_get? h.new, conditional?_of_get? h.old, hsort, if_neg hn, if_neg hn]
  · exact conditional?_congr (h.of_ne heq)

/-- An own conditional gets a value. -/
theorem Replaces.serves_value {value : NodeId} (hown : own id)
    (h : t.Replaces t' id n { n with children := n.children ++ [value] })
    (hlength : 3 ≤ n.children.length) : t.Serves own t' where
  size_le := Nat.le_of_eq h.size_eq.symm
  gains other hother := by
    by_cases hid : other = id
    · subst hid
      refine ⟨[value], ?_, fun _ => ⟨hown, fun children hchildren => ?_⟩⟩
      · rw [conditional?_of_get? h.new, conditional?_of_get? h.old]
        by_cases hsort : n.kind.sort = .conditional <;> simp [hsort]
      · rw [conditional?_of_get? h.old] at hchildren
        by_cases hsort : n.kind.sort = .conditional
        · rw [if_pos hsort] at hchildren
          cases hchildren
          exact hlength
        · rw [if_neg hsort] at hchildren
          cases hchildren
    · exact ⟨[], by simp [conditional?_congr (h.of_ne hid)], fun hne => absurd rfl hne⟩
  fresh other hother := by
    refine conditional?_of_not_holds ?_
    rwa [h.holds_iff]

/-- Code only adds nodes that are no conditionals, and links to its container. -/
theorem GrowsIn.serves {container : NodeId} (own : NodeId → Prop) (h : t.GrowsIn container t')
    (hcontainer : t.Unconditional container) : t.Serves own t' := by
  obtain ⟨statements, hx⟩ := h.statements
  refine serves_of_eq own hx.size_le fun id => ?_
  by_cases hid : t.Holds id
  · obtain ⟨n, hn⟩ := get?_of_holds hid
    obtain ⟨n', hn', hkind, hchildren, -⟩ := hx.kept id n hn
    rw [conditional?_of_get? hn, conditional?_of_get? hn', hkind, hchildren]
    by_cases heq : id = container
    · subst heq
      rw [if_neg (hcontainer.sort_ne hn), if_neg (hcontainer.sort_ne hn)]
    · rw [if_neg heq]
  · rw [conditional?_of_not_holds hid]
    by_cases hid' : t'.Holds id
    · obtain ⟨n, hn⟩ := get?_of_holds hid'
      refine (unconditional_of_get? hn fun hsort => ?_).2
      have hsimple := h.simple id n hn hid
      rw [Kind.isSimple, hsort] at hsimple
      cases hsimple
    · exact conditional?_of_not_holds hid'

/-! ## Opening -/

/-- **A conditional is opened**: it is new, and the others stay. -/
structure Opens (t t' : Tree) (statement : NodeId) (children : List NodeId) : Prop where
  size_le : t.size ≤ t'.size
  new : ¬ t.Holds statement
  conditional?_eq : t'.conditional? = Function.update t.conditional? statement (some children)

theorem opens_add (t : Tree) (depth : Nat) (children : List NodeId) :
    t.Opens (t.add (.conditional depth) children) t.nextId children where
  size_le := by simp
  new := t.not_holds_nextId
  conditional?_eq := by
    funext id
    by_cases hid : id = t.nextId
    · subst hid
      rw [Function.update_self, conditional?_of_get? (t.get?_add_nextId _ _)]
      rfl
    · rw [Function.update_of_ne hid, conditional?_add_of_ne t _ _ hid]

namespace Opens

variable {statement : NodeId} {children : List NodeId}

theorem conditional?_statement (h : t.Opens t' statement children) :
    t'.conditional? statement = some children := by
  rw [h.conditional?_eq, Function.update_self]

theorem conditional?_of_ne (h : t.Opens t' statement children) (hne : id ≠ statement) :
    t'.conditional? id = t.conditional? id := by
  rw [h.conditional?_eq, Function.update_of_ne hne]

theorem develops (own : NodeId → Prop) (h : t.Opens t' statement children) : t.Develops own t' where
  size_le := h.size_le
  gains id hid := by
    have hne : id ≠ statement := fun heq => h.new (heq ▸ hid)
    exact ⟨[], by simp [h.conditional?_of_ne hne], fun hne => absurd rfl hne⟩

theorem serves (h : t.Opens t' statement children) (h' : t'.Serves (fun _ => False) t'') :
    t.Opens t'' statement children where
  size_le := Nat.le_trans h.size_le h'.size_le
  new := h.new
  conditional?_eq := h'.conditional?_eq.trans h.conditional?_eq

/-- What is served before the opening. -/
theorem after_serves (h : t'.Opens t'' statement children) (h' : t.Serves (fun _ => False) t') :
    t.Opens t'' statement children where
  size_le := Nat.le_trans h'.size_le h.size_le
  new hid := h.new (h'.holds hid)
  conditional?_eq := by
    rw [h.conditional?_eq, h'.conditional?_eq]

theorem holds (h : t.Opens t' statement children) : t'.Holds statement :=
  holds_of_conditional? h.conditional?_statement

section Append

variable {child : NodeId} (h : t.Opens t' statement children)
  (ht : t'.appendChild? statement child = some t'')

include h ht

/-- The new conditional gets a child. -/
theorem append : t.Opens t'' statement (children ++ [child]) where
  size_le := Nat.le_trans h.size_le (Nat.le_of_eq (size_update? ht).symm)
  new := h.new
  conditional?_eq := by
    have hstatement := h.conditional?_statement
    obtain ⟨n, hn⟩ := get?_of_holds h.holds
    have hr := replaces_appendChild? ht hn
    funext id
    by_cases hid : id = statement
    · subst hid
      rw [conditional?_of_get? hn] at hstatement
      rw [Function.update_self, conditional?_of_get? hr.new]
      by_cases hsort : n.kind.sort = .conditional
      · rw [if_pos hsort] at hstatement ⊢
        cases hstatement
        rfl
      · rw [if_neg hsort] at hstatement
        cases hstatement
    · rw [Function.update_of_ne hid, conditional?_congr (hr.of_ne hid), h.conditional?_of_ne hid]

/-- Where no conditional was, there is none then. -/
theorem unconditional_append (hid : t'.Unconditional id) : t''.Unconditional id := by
  have hne : id ≠ statement := by
    rintro rfl
    exact Option.some_ne_none _ (h.conditional?_statement.symm.trans hid.2)
  refine ⟨?_, ?_⟩
  · unfold Holds
    rw [size_update? ht]
    exact hid.1
  · rw [(h.append ht).conditional?_of_ne hne, ← h.conditional?_of_ne hne]
    exact hid.2

end Append

end Opens

end Tree

end GmlLift
