import GmlLift.Proofs.Tree.Evolution
import Mathlib.Algebra.Order.Group.Multiset
import Mathlib.Logic.Relation

/-!
# Moves

Everything that lifting does to a tree is made of a few moves. A `Scene` is a tree with the
expressions that are in hand, on an operand stack or just taken from one, and the statements that
have been made and have no place yet. A move makes a node of what is in hand, takes an expression
apart, or passes an id between the hand, the loose statements and the children of one node.

* `Move.evolves`: after a move the tree keeps what later visits rely on.
* `Move.inRange`: a move keeps every id in range.
* `Rewiring.conserves`: a move that changes a node neither loses an id nor makes one.

The invariants of whole runs are proved for one move and hold along all of them.
-/

namespace GmlLift

/-- A tree, the expressions in hand and the statements without a place. -/
structure Scene where
  tree : Tree
  held : Multiset NodeId
  loose : Multiset NodeId

/-- What a run may do besides the moves that are always allowed. -/
structure Licence where
  /-- To copy what is in hand. -/
  copies : Prop
  /-- To give a conditional a second arm. -/
  elses : Prop

/-- The node has a place for one more statement. -/
def Node.TakesStatement (L : Licence) (n : Node) : Prop :=
  n.kind.sort = .container ∨ n.kind.sort = .loop ∨
    (n.kind.sort = .conditional ∧
      (n.children.length < 2 ∨ (L.elses ∧ n.children.length < 3)))

/-- The node has a place for one more value: a conditional only behind its two arms. -/
def Node.TakesValue (n : Node) : Prop :=
  n.kind.sort = .container ∨ n.kind.sort = .loop ∨
    (n.kind.sort = .conditional ∧ 3 ≤ n.children.length ∧
      n.children.length < Visit.ternarySize)

namespace Node

variable {L : Licence} {n : Node}

theorem TakesStatement.sort_ne (h : n.TakesStatement L) : n.kind.sort ≠ .expression := by
  rcases h with h | h | ⟨h, -⟩ <;> rw [h] <;> decide

theorem TakesStatement.length (h : n.TakesStatement L) (hc : n.kind.sort = .conditional) :
    n.children.length < 2 ∨ (L.elses ∧ n.children.length < 3) := by
  rcases h with h | h | ⟨-, h⟩
  · exact absurd (hc.symm.trans h) (by decide)
  · exact absurd (hc.symm.trans h) (by decide)
  · exact h

theorem TakesValue.sort_ne (h : n.TakesValue) : n.kind.sort ≠ .expression := by
  rcases h with h | h | ⟨h, -⟩ <;> rw [h] <;> decide

theorem TakesValue.length (h : n.TakesValue) (hc : n.kind.sort = .conditional) :
    3 ≤ n.children.length ∧ n.children.length < Visit.ternarySize := by
  rcases h with h | h | ⟨-, h⟩
  · exact absurd (hc.symm.trans h) (by decide)
  · exact absurd (hc.symm.trans h) (by decide)
  · exact h

end Node

/-- **The moves that change a node.** -/
inductive Rewiring (L : Licence) : Scene → Scene → Prop
  /-- A new statement gets its place, in an older one. -/
  | attach {t t' : Tree} {held loose : Multiset NodeId} {parent child : NodeId} {n : Node}
      (hn : t.get? parent = some n) (hp : n.TakesStatement L) (hlt : parent.index < child.index)
      (ht : t.appendChild? parent child = some t') :
      Rewiring L ⟨t, held, child ::ₘ loose⟩ ⟨t', held, loose⟩
  /-- An expression goes behind the children of a statement. -/
  | give {t t' : Tree} {held loose : Multiset NodeId} {parent value : NodeId} {n : Node}
      (hn : t.get? parent = some n) (hp : n.TakesValue)
      (ht : t.appendChild? parent value = some t') :
      Rewiring L ⟨t, value ::ₘ held, loose⟩ ⟨t', held, loose⟩
  /-- An expression goes in front of the children of a container. -/
  | lead {t t' : Tree} {held loose : Multiset NodeId} {parent value : NodeId} {n : Node}
      (hn : t.get? parent = some n) (hp : n.kind.sort = .container)
      (ht : t.insertChild? parent 0 value = some t') :
      Rewiring L ⟨t, value ::ₘ held, loose⟩ ⟨t', held, loose⟩
  /-- A conditional that has become an expression leaves its container. -/
  | fold {t t' : Tree} {held loose : Multiset NodeId} {container statement : NodeId} {n : Node}
      {found : Bool} (hternary : t.Ternary statement) (hn : t.get? container = some n)
      (hp : n.kind.sort = .container) (hmem : statement ∈ n.children)
      (ht : t.removeChild? container statement = some (found, t')) :
      Rewiring L ⟨t, held, loose⟩ ⟨t', statement ::ₘ held, loose⟩
  /-- A loop gets to know that it is continued. -/
  | note {t t' : Tree} {held loose : Multiset NodeId} {id : NodeId} {continued : Bool} {n : Node}
      (hn : t.get? id = some n) (hk : n.kind = .whileLoop continued)
      (ht : t.setKind? id (.whileLoop true) = some t') :
      Rewiring L ⟨t, held, loose⟩ ⟨t', held, loose⟩

/-- **The moves of which lifting is made.** -/
inductive Move (L : Licence) : Scene → Scene → Prop
  | forget {t : Tree} {held held' loose : Multiset NodeId} (h : held' ≤ held) :
      Move L ⟨t, held, loose⟩ ⟨t, held', loose⟩
  | copy {t : Tree} {held more loose : Multiset NodeId} (hL : L.copies)
      (h : ∀ id ∈ more, id ∈ held) : Move L ⟨t, held, loose⟩ ⟨t, more + held, loose⟩
  /-- A node is marked as copied. -/
  | mark {t t' : Tree} {held loose : Multiset NodeId} {id : NodeId}
      (ht : t.setDuplicated? id true = some t') : Move L ⟨t, held, loose⟩ ⟨t', held, loose⟩
  /-- An expression is taken apart. -/
  | part {t : Tree} {held loose : Multiset NodeId} {id : NodeId} {n : Node}
      (hn : t.get? id = some n) (hs : n.kind.sort = .expression) :
      Move L ⟨t, id ::ₘ held, loose⟩ ⟨t, n.references + held, loose⟩
  /-- An expression is made of expressions in hand. -/
  | express {t : Tree} {held loose : Multiset NodeId} {kind : Kind} {children : List NodeId}
      (hs : kind.sort = .expression) :
      Move L ⟨t, Node.references { kind, children } + held, loose⟩
        ⟨t.add kind children, t.nextId ::ₘ held, loose⟩
  /-- A statement is made of expressions in hand. -/
  | state {t : Tree} {held loose : Multiset NodeId} {kind : Kind} {children : List NodeId}
      (hs : kind.sort ≠ .expression) (hlen : children.length ≤ 2) :
      Move L ⟨t, children + held, loose⟩ ⟨t.add kind children, held, t.nextId ::ₘ loose⟩
  | rewire {s s' : Scene} (h : Rewiring L s s') : Move L s s'

/-- Any number of moves. -/
abbrev Moves (L : Licence) : Scene → Scene → Prop := Relation.ReflTransGen (Move L)

namespace Scene

/-- Every id of the scene is in range. -/
structure InRange (s : Scene) : Prop where
  closed : s.tree.Closed
  held : ∀ id ∈ s.held, s.tree.Holds id
  loose : ∀ id ∈ s.loose, s.tree.Holds id

/-- The scene with more in hand. -/
def beside (s : Scene) (more : Multiset NodeId) : Scene := { s with held := more + s.held }

theorem InRange.of_beside {s : Scene} {more : Multiset NodeId} (h : (s.beside more).InRange) :
    s.InRange where
  closed := h.closed
  held id hid := h.held id (Multiset.mem_add.mpr (Or.inr hid))
  loose := h.loose

end Scene

/-- The owner that a kind refers to belongs to an expression. -/
theorem Kind.left?_of_sort {kind : Kind} (h : kind.sort ≠ .expression) : kind.left? = none := by
  cases kind <;> first | rfl | exact absurd rfl h

theorem Node.references_of_left? {n : Node} (h : n.kind.left? = none) :
    n.references = n.children := by
  unfold Node.references
  rw [h]
  rfl

theorem Node.references_of_sort {n : Node} (h : n.kind.sort ≠ .expression) :
    n.references = n.children :=
  Node.references_of_left? (Kind.left?_of_sort h)

/-! ## Rewirings -/

namespace Rewiring

variable {L : Licence} {s s' : Scene}

theorem eraseLast_perm {children : List NodeId} {child : NodeId} (h : child ∈ children) :
    (child :: Tree.eraseLast children child).Perm children := by
  have hperm := List.perm_cons_erase (List.mem_reverse.mpr h)
  unfold Tree.eraseLast
  exact (List.Perm.cons child (List.reverse_perm _)).trans
    (hperm.symm.trans (List.reverse_perm children))

/-- **A rewiring changes one statement and conserves the ids**: what the node, the hand and the
loose statements have together is the same before and after. -/
theorem conserves (h : Rewiring L s s') : ∃ id n n',
    Tree.Replaces s.tree s'.tree id n n' ∧ n.kind.sort ≠ .expression ∧
      n'.kind.sort = n.kind.sort ∧
      (n'.children : Multiset NodeId) + (s'.held + s'.loose) = n.children + (s.held + s.loose) := by
  cases h with
  | @attach t t' held loose parent child n hn hp hlt ht =>
    refine ⟨_, _, _, Tree.replaces_appendChild? ht hn, hp.sort_ne, rfl, ?_⟩
    simp only [← Multiset.coe_add, Multiset.coe_singleton, Multiset.add_cons, add_assoc,
      Multiset.singleton_add]
  | @give t t' held loose parent value n hn hp ht =>
    refine ⟨_, _, _, Tree.replaces_appendChild? ht hn, hp.sort_ne, rfl, ?_⟩
    simp only [← Multiset.coe_add, Multiset.coe_singleton, Multiset.add_cons, Multiset.cons_add,
      add_assoc, Multiset.singleton_add]
  | @lead t t' held loose parent value n hn hp ht =>
    refine ⟨_, _, _, Tree.replaces_insertChild? ht hn, ?_, rfl, ?_⟩
    · rw [hp]; decide
    · simp only [← Multiset.cons_coe, Multiset.add_cons, Multiset.cons_add]
  | @fold t t' held loose container statement n found hternary hn hp hmem ht =>
    refine ⟨_, _, _, Tree.replaces_removeChild? ht hn, ?_, rfl, ?_⟩
    · rw [hp]; decide
    · have hperm := Multiset.coe_eq_coe.mpr (eraseLast_perm hmem)
      simp only [← hperm, ← Multiset.cons_coe, Multiset.add_cons, Multiset.cons_add]
  | @note t t' held loose id continued n hn hk ht =>
    refine ⟨_, _, _, Tree.replaces_update? ht hn, ?_, ?_, rfl⟩
    · rw [hk]
      exact fun h => nomatch h
    · rw [hk]
      rfl

theorem evolves (h : Rewiring L s s') : Tree.Evolves s.tree s'.tree := by
  cases h with
  | attach hn hp hlt ht =>
    refine (Tree.replaces_appendChild? ht hn).evolves rfl (fun _ => ?_) fun c hc => Or.inl ?_
    · simp
    · exact List.mem_append_left _ hc
  | give hn hp ht =>
    refine (Tree.replaces_appendChild? ht hn).evolves rfl (fun _ => ?_) fun c hc => Or.inl ?_
    · simp
    · exact List.mem_append_left _ hc
  | lead hn hp ht =>
    refine (Tree.replaces_insertChild? ht hn).evolves rfl (fun _ => ?_) fun c hc => Or.inl ?_
    · simp
    · exact List.mem_cons_of_mem _ hc
  | @fold t t' held loose container statement n found hternary hn hp hmem ht =>
    have hr := Tree.replaces_removeChild? ht hn
    refine hr.evolves rfl (fun hs => ?_) fun c hc => ?_
    · rw [hp] at hs
      cases hs
    · by_cases hcs : c = statement
      · -- the conditional is not its own container, so it is as it was
        subst hcs
        obtain ⟨m, hm, hternary⟩ := hternary
        have hne : c ≠ container := by
          rintro rfl
          cases hn.symm.trans hm
          rw [hternary.1] at hp
          cases hp
        exact Or.inr ⟨m, (hr.of_ne hne).trans hm, hternary⟩
      · exact Or.inl (Tree.mem_eraseLast_of_ne hcs hc)
  | note hn hk ht =>
    refine (Tree.replaces_update? ht hn).evolves ?_ (fun _ => Nat.le_refl _) fun c hc => Or.inl hc
    rw [hk]
    rfl

end Rewiring

/-! ## Moves -/

theorem Tree.Closed.replaces {t t' : Tree} {id : NodeId} {n n' : Node} (ht : t.Closed)
    (h : t.Replaces t' id n n') (hn' : ∀ ref ∈ n'.references, t.Holds ref) : t'.Closed := by
  intro other m hm ref href
  rw [h.holds_iff]
  rcases h.cases_get? hm with ⟨rfl, rfl⟩ | ⟨-, hm⟩
  · exact hn' ref href
  · exact ht other m hm ref href

namespace Move

variable {L : Licence} {s s' : Scene}

theorem evolves (h : Move L s s') : Tree.Evolves s.tree s'.tree := by
  cases h with
  | forget _ | copy _ _ | part _ _ => exact .refl _
  | express _ | state _ _ => exact Tree.evolves_add ..
  | rewire h => exact h.evolves
  | @mark t t' _ _ id ht =>
    obtain ⟨n, hn⟩ := Tree.get?_of_holds (Tree.isSome_update?_iff.mp (Option.isSome_of_eq_some ht))
    exact (Tree.replaces_update? ht hn).evolves rfl (fun _ => Nat.le_refl _) fun _ h => Or.inl h

/-- **A move keeps every id in range.** -/
theorem inRange (h : Move L s s') (hs : s.InRange) : s'.InRange := by
  have hx := h.evolves
  cases h with
  | forget h =>
    exact ⟨hs.closed, fun id hid => hs.held id (Multiset.mem_of_le h hid), hs.loose⟩
  | copy _ h =>
    refine ⟨hs.closed, fun id hid => ?_, hs.loose⟩
    rcases Multiset.mem_add.mp hid with hid | hid
    · exact hs.held id (h id hid)
    · exact hs.held id hid
  | mark ht =>
    exact ⟨hs.closed.setDuplicated ht, fun id hid => hx.holds (hs.held id hid),
      fun id hid => hx.holds (hs.loose id hid)⟩
  | part hn _ =>
    refine ⟨hs.closed, fun id hid => ?_, hs.loose⟩
    rcases Multiset.mem_add.mp hid with hid | hid
    · exact hs.closed _ _ hn id hid
    · exact hs.held id (Multiset.mem_cons_of_mem hid)
  | @express t held _ kind children _ =>
    refine ⟨hs.closed.add fun id hid => ?_, fun id hid => ?_,
      fun id hid => hx.holds (hs.loose id hid)⟩
    · exact hs.held id (Multiset.mem_add.mpr (Or.inl hid))
    · rcases Multiset.mem_cons.mp hid with rfl | hid
      · exact t.holds_nextId_add kind children
      · exact hx.holds (hs.held id (Multiset.mem_add.mpr (Or.inr hid)))
  | @state t _ loose kind children hsort _ =>
    refine ⟨hs.closed.add fun id hid => ?_, fun id hid => ?_, fun id hid => ?_⟩
    · rw [Node.references_of_sort hsort] at hid
      exact hs.held id (Multiset.mem_add.mpr (Or.inl hid))
    · exact hx.holds (hs.held id (Multiset.mem_add.mpr (Or.inr hid)))
    · rcases Multiset.mem_cons.mp hid with rfl | hid
      · exact t.holds_nextId_add kind children
      · exact hx.holds (hs.loose id hid)
  | rewire h =>
    obtain ⟨id, n, n', hr, hsort, hsort', hsum⟩ := h.conserves
    -- whatever the node, the hand or the loose statements have now, one of them had before
    have hall : ∀ ref ∈ (n'.children : Multiset NodeId) + (s'.held + s'.loose),
        s.tree.Holds ref := by
      intro ref href
      rw [hsum] at href
      rcases Multiset.mem_add.mp href with href | href
      · rw [Multiset.mem_coe, ← Node.references_of_sort hsort] at href
        exact hs.closed id n hr.old ref href
      · rcases Multiset.mem_add.mp href with href | href
        · exact hs.held ref href
        · exact hs.loose ref href
    refine ⟨hs.closed.replaces hr fun ref href => ?_, fun ref href => ?_, fun ref href => ?_⟩
    · rw [Node.references_of_sort (hsort' ▸ hsort)] at href
      exact hall ref (Multiset.mem_add.mpr (Or.inl href))
    · refine hx.holds (hall ref (Multiset.mem_add.mpr (Or.inr ?_)))
      exact Multiset.mem_add.mpr (Or.inl href)
    · refine hx.holds (hall ref (Multiset.mem_add.mpr (Or.inr ?_)))
      exact Multiset.mem_add.mpr (Or.inr href)

/-- A move leaves what else is in hand alone. -/
theorem beside (h : Move L s s') (more : Multiset NodeId) :
    Move L (s.beside more) (s'.beside more) := by
  cases h with
  | forget h => exact .forget (add_le_add_right h more)
  | @copy t held copied loose hL h =>
    show Move L ⟨t, more + held, loose⟩ ⟨t, more + (copied + held), loose⟩
    rw [add_left_comm]
    exact .copy hL fun id hid => Multiset.mem_add.mpr (Or.inr (h id hid))
  | mark ht => exact .mark ht
  | @part t held loose id n hn hs =>
    show Move L ⟨t, more + (id ::ₘ held), loose⟩ ⟨t, more + (n.references + held), loose⟩
    rw [Multiset.add_cons, add_left_comm]
    exact .part hn hs
  | @express t held loose kind children hs =>
    show Move L ⟨t, more + (_ + held), loose⟩ ⟨_, more + (t.nextId ::ₘ held), loose⟩
    rw [Multiset.add_cons, add_left_comm]
    exact .express hs
  | @state t held loose kind children hs hlen =>
    show Move L ⟨t, more + (_ + held), loose⟩ ⟨_, more + held, t.nextId ::ₘ loose⟩
    rw [add_left_comm]
    exact .state hs hlen
  | rewire h =>
    refine .rewire ?_
    cases h with
    | attach hn hp hlt ht => exact .attach hn hp hlt ht
    | @give t t' held loose parent value n hn hp ht =>
      show Rewiring L ⟨t, more + (value ::ₘ held), loose⟩ ⟨t', more + held, loose⟩
      rw [Multiset.add_cons]
      exact .give hn hp ht
    | @lead t t' held loose parent value n hn hp ht =>
      show Rewiring L ⟨t, more + (value ::ₘ held), loose⟩ ⟨t', more + held, loose⟩
      rw [Multiset.add_cons]
      exact .lead hn hp ht
    | @fold t t' held loose container statement n found hternary hn hp hmem ht =>
      show Rewiring L ⟨t, more + held, loose⟩ ⟨t', more + (statement ::ₘ held), loose⟩
      rw [Multiset.add_cons]
      exact .fold hternary hn hp hmem ht
    | note hn hk ht => exact .note hn hk ht

end Move

namespace Moves

variable {L : Licence} {s s' : Scene}

/-- What every move keeps, any number of them keeps. -/
theorem keep {P : Scene → Prop} (hstep : ∀ s s', Move L s s' → P s → P s') (h : Moves L s s')
    (hs : P s) : P s' := by
  induction h with
  | refl => exact hs
  | tail _ hmove ih => exact hstep _ _ hmove ih

theorem evolves (h : Moves L s s') : Tree.Evolves s.tree s'.tree := by
  induction h with
  | refl => exact .refl _
  | tail _ hmove ih => exact ih.trans hmove.evolves

theorem inRange (h : Moves L s s') (hs : s.InRange) : s'.InRange :=
  h.keep (fun _ _ => Move.inRange) hs

theorem beside (h : Moves L s s') (more : Multiset NodeId) :
    Moves L (s.beside more) (s'.beside more) := by
  induction h with
  | refl => exact .refl
  | tail _ hmove ih => exact ih.tail (hmove.beside more)

end Moves

end GmlLift
