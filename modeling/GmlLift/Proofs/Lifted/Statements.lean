import GmlLift.Proofs.Moves.Run
import GmlLift.Proofs.Moves.Tokens
import GmlLift.Proofs.Moves.Values

/-!
# Every statement has one place

A statement is never in hand, so no instruction can drop it or copy it: its token is made with it,
loose, and goes to the node that contains it. Only a conditional that has become an expression
leaves its place, and from then on it is a value.
-/

namespace GmlLift

theorem Tree.Evolves.isStatement {t t' : Tree} (h : Tree.Evolves t t') {id : NodeId} {n n' : Node}
    (hn : t.get? id = some n) (hn' : t'.get? id = some n') (hs : n'.IsStatement) :
    n.IsStatement := by
  by_contra hvalue
  obtain ⟨m, hm, hvalue'⟩ := Valued.mono ⟨n, hn, hvalue⟩ h
  cases hn'.symm.trans hm
  exact hvalue' hs

/-- **Every statement has one token**, except the root, which has none. -/
structure Scene.Once (s : Scene) : Prop where
  root : s.tree.Holds Tree.root
  count : ∀ id n, s.tree.get? id = some n → n.IsStatement →
    (s.tokens ∅).count id = if id = Tree.root then 0 else 1

namespace Scene

variable {L : Licence} {s s' : Scene} {t : Tree} {held held' loose : Multiset NodeId}

theorem Ordered.count_held (h : s.Ordered L) {id : NodeId} {n : Node}
    (hn : s.tree.get? id = some n) (hs : n.IsStatement) : s.held.count id = 0 := by
  refine Multiset.count_eq_zero.mpr fun hid => ?_
  obtain ⟨m, hm, hvalue⟩ := h.held id hid
  cases hn.symm.trans hm
  exact hvalue hs

namespace Once

/-- What is in hand does not matter. -/
theorem of_hand (h : Once ⟨t, held, loose⟩) (ho : Ordered L ⟨t, held, loose⟩)
    (ho' : Ordered L ⟨t, held', loose⟩) : Once ⟨t, held', loose⟩ where
  root := h.root
  count id n hn hs := by
    have hcount := h.count id n hn hs
    unfold tokens at hcount ⊢
    rw [Multiset.count_add, Multiset.count_add, ho.count_held hn hs] at hcount
    rw [Multiset.count_add, Multiset.count_add, ho'.count_held hn hs]
    exact hcount

/-- The tokens stay the same. -/
theorem of_eq (h : s.Once) (hx : Tree.Evolves s.tree s'.tree) (hsize : s'.tree.size = s.tree.size)
    (heq : s'.tokens ∅ = s.tokens ∅) : s'.Once where
  root := hx.holds h.root
  count id n' hn' hs := by
    have hid : s.tree.Holds id := by
      have hid := Tree.holds_of_get? hn'
      unfold Tree.Holds at hid ⊢
      rwa [hsize] at hid
    obtain ⟨n, hn⟩ := Tree.get?_of_holds hid
    rw [heq]
    exact h.count id n hn (hx.isStatement hn hn' hs)

/-- A node is made, with its token. -/
theorem of_add (h : s.Once) (hrange : s.InRange) {kind : Kind} {children : List NodeId}
    (htree : s'.tree = s.tree.add kind children)
    (heq : s'.tokens ∅ = s.tree.nextId ::ₘ s.tokens ∅) : s'.Once where
  root := by
    rw [htree]
    exact (Tree.evolves_add ..).holds h.root
  count id n' hn' hs := by
    rw [htree] at hn'
    rw [heq]
    rcases Tree.get?_add_cases hn' with hn | ⟨rfl, -⟩
    · have hne : id ≠ s.tree.nextId := by
        rintro rfl
        exact s.tree.not_holds_nextId (Tree.holds_of_get? hn)
      rw [Multiset.count_cons_of_ne hne]
      exact h.count id n' hn hs
    · have hnew : s.tree.nextId ∉ s.tokens ∅ := fun hmem =>
        s.tree.not_holds_nextId (hrange.holds_of_mem_tokens hmem)
      have hne : s.tree.nextId ≠ Tree.root := fun hroot =>
        s.tree.not_holds_nextId (hroot ▸ h.root)
      rw [Multiset.count_cons_self, Multiset.count_eq_zero.mpr hnew, if_neg hne]

end Once

end Scene

/-- **A move neither loses nor doubles a statement.** -/
theorem Move.once {L : Licence} {s s' : Scene} (h : Move L s s') (hrange : s.InRange)
    (ho : s.Ordered L) (hs : s.Once) : s'.Once := by
  have hx := h.evolves
  have ho' := h.ordered ho
  cases h with
  | forget _ | copy _ _ | part _ _ => exact hs.of_hand ho ho'
  | mark ht => exact hs.of_eq hx (Tree.size_update? ht) (Scene.tokens_mark ht)
  | express _ =>
    exact hs.of_add hrange rfl (Scene.tokens_express (Finset.notMem_empty _) _ _)
  | state hsort _ =>
    exact hs.of_add hrange rfl (Scene.tokens_state (Finset.notMem_empty _) hsort _)
  | rewire h =>
    obtain ⟨id, n, n', hr, -⟩ := h.conserves
    refine hs.of_eq hx hr.size_eq (Scene.tokens_rewire h fun id hid => ?_)
    exact absurd hid (Finset.notMem_empty id)

theorem Moves.once {L : Licence} {s : Scene} (h : Moves L ⟨Tree.new, 0, 0⟩ s) : s.Once := by
  refine (h.keep (P := fun s => s.InRange ∧ s.Ordered L ∧ s.Once) ?_ ⟨?_, ?_, ?_⟩).2.2
  · exact fun s s' hmove ⟨hrange, ho, hs⟩ =>
      ⟨hmove.inRange hrange, hmove.ordered ho, hmove.once hrange ho hs⟩
  · exact Moves.inRange_of_new (L := L) .refl
  · exact Moves.ordered .refl
  · refine ⟨Nat.one_pos, fun id n hn _ => ?_⟩
    have hid : id = Tree.root := by
      obtain ⟨index⟩ := id
      exact congrArg NodeId.mk (Nat.lt_one_iff.mp (Tree.holds_of_get? hn))
    have htokens : Scene.tokens ⟨Tree.new, 0, 0⟩ ∅ = 0 := by decide
    rw [htokens, if_pos hid, Multiset.count_zero]

/-- **No statement is lost or duplicated.** In the tree of a function every block, loop, switch,
case, jump, return and assignment, and every conditional with fewer than five children, is a child
exactly once and never an owner; the root is neither. -/
theorem liftGraph_statement_once {cfg : Settings} {g : FlowGraph} {t : Tree}
    (h : (liftGraph cfg g).result = .ok t ∨ ∃ g', LiftsTo cfg g (.ok t) g') :
    (∀ id n, t.get? id = some n → n.IsStatement → id ≠ Tree.root →
      (t.nodes.toList.flatMap (·.children)).count id = 1 ∧
        ∀ other m, t.get? other = some m → m.kind.left? ≠ some id) ∧
    ∀ other m, t.get? other = some m →
      Tree.root ∉ m.children ∧ m.kind.left? ≠ some Tree.root := by
  obtain ⟨budget, h⟩ := exists_liftWithin h
  obtain ⟨held, hmoves⟩ := liftWithin_moves h
  have ho := hmoves.ordered
  have hcount : ∀ id n, t.get? id = some n → n.IsStatement →
      (t.mentions ∅).count id = if id = Tree.root then 0 else 1 := by
    intro id n hn hs
    have hcount := hmoves.once.count id n hn hs
    rwa [Scene.tokens, Multiset.count_add, Multiset.count_add, ho.count_held hn hs,
      Multiset.count_zero] at hcount
  refine ⟨fun id n hn hs hne => ?_, fun other m hm => ?_⟩
  · have hleft : ∀ other m, t.get? other = some m → m.kind.left? ≠ some id := by
      intro other m hm howner
      have hsort : m.kind.sort = .expression := by
        by_contra hsort
        rw [Kind.left?_of_sort hsort] at howner
        cases howner
      have hmem : id ∈ m.references := List.mem_append_left _ (Option.mem_toList.mpr howner)
      obtain ⟨n', hn', hvalue⟩ := ((ho.tree other m hm).expression hsort id hmem).1
      cases hn.symm.trans hn'
      exact hvalue hs
    refine ⟨?_, hleft⟩
    rw [← Tree.count_mentions_empty hleft, hcount id n hn hs, if_neg hne]
  · have hroot : t.IsSort .container Tree.root := Tree.IsSort.mono ⟨_, rfl, rfl⟩ hmoves.evolves
    obtain ⟨n, hn, hsort⟩ := hroot
    have hs := Node.isStatement_of_sort hsort (by decide) (by decide)
    have hzero := hcount Tree.root n hn hs
    rw [if_pos rfl] at hzero
    have hnot : Tree.root ∉ m.references := fun hmem => Multiset.count_eq_zero.mp hzero
      (Tree.mem_mentions (Finset.notMem_empty other) (Tree.mem_refs_iff.mpr ⟨m, hm, hmem⟩))
    exact ⟨fun hmem => hnot (List.mem_append_right _ hmem),
      fun howner => hnot (List.mem_append_left _ (Option.mem_toList.mpr howner))⟩

/-- A loop with a condition, continued in its body, and a copied operand behind it. -/
theorem liftGraph_statement_once_loop :
    let one : Instruction := { opcode := .push, type1 := .int16, literal := some (.int16 1) }
    let g : FlowGraph := {
      nodes := #[
        { kind := .loop .whileLoop, branches := [⟨1⟩, ⟨2⟩] },
        { kind := .block { code := [one, { opcode := .dup }, { opcode := .popz },
            { opcode := .exit }] } },
        { kind := .block { code := [one], role := .loopCondition }, branches := [⟨3⟩] },
        { kind := .block { role := .continueOn } }]
      entry := ⟨0⟩ }
    let t : Tree := ⟨#[
      { kind := .block, children := [⟨1⟩, ⟨5⟩, ⟨6⟩] },
      { kind := .whileLoop true, children := [⟨2⟩, ⟨3⟩] },
      { kind := .block, children := [⟨4⟩] },
      { kind := .int16 1 .push },
      { kind := .continueStmt },
      { kind := .int16 1 .push, duplicated := true },
      { kind := .exitStmt }]⟩
    (liftGraph {} g).result = .ok t ∧
      (∀ id ∈ [⟨1⟩, ⟨2⟩, ⟨4⟩, ⟨6⟩], (t.nodes.toList.flatMap (·.children)).count id = 1) ∧
      ∀ other m, t.get? other = some m → Tree.root ∉ m.children := by
  intro one g t
  have hresult : (liftGraph {} g).result = .ok t := by decide +kernel
  obtain ⟨honce, hroot⟩ := liftGraph_statement_once (Or.inl hresult)
  have hstatement : ∀ id ∈ [⟨1⟩, ⟨2⟩, ⟨4⟩, ⟨6⟩], ∃ n, t.get? id = some n ∧ n.IsStatement ∧
      id ≠ Tree.root := by
    intro id hid
    simp only [List.mem_cons, List.not_mem_nil, or_false] at hid
    rcases hid with rfl | rfl | rfl | rfl <;> exact ⟨_, rfl, by decide, by decide⟩
  refine ⟨hresult, fun id hid => ?_, fun other m hm => (hroot other m hm).1⟩
  obtain ⟨n, hn, hs, hne⟩ := hstatement id hid
  exact (honce id n hn hs hne).1

end GmlLift
