import GmlLift.Proofs.Moves.Move
import GmlLift.Proofs.Tree.References

/-!
# References as tokens

The tokens of a scene are the references in its tree, what is in hand and what is loose. A move that
makes a node adds the token of that node, a rewiring moves one token, and taking an expression apart
turns its token into those of its operands, or only drops it if the expression is retired.
-/

namespace GmlLift

namespace Scene

/-- All references that there are, in the tree or on their way into it. -/
def tokens (s : Scene) (retired : Finset NodeId) : Multiset NodeId :=
  s.tree.mentions retired + (s.held + s.loose)

variable {L : Licence} {s s' : Scene} {t t' : Tree} {held loose : Multiset NodeId}
  {retired : Finset NodeId} {id : NodeId}

theorem InRange.holds_of_mem_tokens (h : s.InRange) (hid : id ∈ s.tokens retired) :
    s.tree.Holds id := by
  rcases Multiset.mem_add.mp hid with hid | hid
  · exact h.closed.holds_of_mem_mentions hid
  · rcases Multiset.mem_add.mp hid with hid | hid
    · exact h.held id hid
    · exact h.loose id hid

theorem tokens_express (h : t.nextId ∉ retired) (kind : Kind) (children : List NodeId) :
    tokens ⟨t.add kind children, t.nextId ::ₘ held, loose⟩ retired =
      t.nextId ::ₘ tokens ⟨t, Node.references { kind, children } + held, loose⟩ retired := by
  unfold tokens
  simp only
  rw [Tree.mentions_add h, Multiset.cons_add, Multiset.add_cons, add_assoc, add_assoc]

theorem tokens_state (h : t.nextId ∉ retired) {kind : Kind} (hs : kind.sort ≠ .expression)
    (children : List NodeId) :
    tokens ⟨t.add kind children, held, t.nextId ::ₘ loose⟩ retired =
      t.nextId ::ₘ tokens ⟨t, children + held, loose⟩ retired := by
  unfold tokens
  simp only
  rw [Tree.mentions_add h, Node.references_of_sort hs, Multiset.add_cons, Multiset.add_cons,
    add_assoc, add_assoc]

theorem tokens_mark (ht : t.setDuplicated? id true = some t') :
    tokens ⟨t', held, loose⟩ retired = tokens ⟨t, held, loose⟩ retired := by
  have hrefs : ∀ other, t'.refs other = t.refs other := by
    intro other
    unfold Tree.refs
    rw [Tree.get?_update? ht other]
    by_cases heq : other = id
    · rw [if_pos heq, heq]
      cases t.get? id with
      | none => rfl
      | some n => rfl
    · rw [if_neg heq]
  exact congrArg (· + (held + loose)) (Tree.mentions_congr (Tree.size_update? ht) hrefs)

/-- An expression that is taken apart and retired leaves its references to the hand. -/
theorem tokens_part {n : Node} (hn : t.get? id = some n) (hid : id ∉ retired) :
    tokens ⟨t, id ::ₘ held, loose⟩ retired =
      id ::ₘ tokens ⟨t, n.references + held, loose⟩ (insert id retired) := by
  unfold tokens
  simp only
  rw [Tree.mentions_retire hn hid, Multiset.cons_add, Multiset.add_cons, add_assoc, add_assoc]

/-- **A rewiring only moves tokens**, as long as only expressions are retired. -/
theorem tokens_rewire (h : Rewiring L s s')
    (hretired : ∀ id ∈ retired, s.tree.IsSort .expression id) :
    s'.tokens retired = s.tokens retired := by
  obtain ⟨id, n, n', hr, hsort, hsort', hsum⟩ := h.conserves
  have hid : id ∉ retired := by
    intro hmem
    obtain ⟨m, hm, hs⟩ := hretired id hmem
    cases hr.old.symm.trans hm
    exact hsort hs
  have hmentions := Tree.mentions_replaces hr hid
  rw [Node.references_of_sort hsort, Node.references_of_sort (hsort' ▸ hsort)] at hmentions
  refine add_right_cancel (b := (n.children : Multiset NodeId)) ?_
  calc s'.tree.mentions retired + (s'.held + s'.loose) + n.children
      = s'.tree.mentions retired + n.children + (s'.held + s'.loose) := add_right_comm ..
    _ = s.tree.mentions retired + n'.children + (s'.held + s'.loose) := by rw [hmentions]
    _ = s.tree.mentions retired + (n.children + (s.held + s.loose)) := by rw [add_assoc, hsum]
    _ = s.tree.mentions retired + (s.held + s.loose) + n.children := by
      rw [add_comm (n.children : Multiset NodeId), ← add_assoc]

end Scene

end GmlLift
