import GmlLift.Proofs.Moves.Move

/-!
# Values and statements

What is in hand has a value. An expression refers to older nodes with values; a statement refers to
values and to newer statements, the ones that it contains. A conditional has at most five children,
and only two where no false arm is allowed. Every move keeps this (`Move.ordered`).
-/

namespace GmlLift

/-- **What a node may refer to.** -/
structure Node.Fits (L : Licence) (t : Tree) (id : NodeId) (n : Node) : Prop where
  expression : n.kind.sort = .expression →
    ∀ ref ∈ n.references, t.Valued ref ∧ ref.index < id.index
  statement : n.IsStatement → ∀ ref ∈ n.children, t.Valued ref ∨ id.index < ref.index
  conditional : n.kind.sort = .conditional →
    n.children.length ≤ Visit.ternarySize ∧ (¬ L.elses → n.children.length ≤ 2)

/-- Every node refers only to what it may. -/
def Tree.Ordered (L : Licence) (t : Tree) : Prop := ∀ id n, t.get? id = some n → n.Fits L t id

/-- Every node refers only to what it may, and what is in hand has a value. -/
structure Scene.Ordered (L : Licence) (s : Scene) : Prop where
  tree : s.tree.Ordered L
  held : ∀ id ∈ s.held, s.tree.Valued id

namespace Node

variable {L : Licence} {t t' : Tree} {id : NodeId} {n : Node}

theorem Fits.mono (h : n.Fits L t id) (hx : Tree.Evolves t t') : n.Fits L t' id where
  expression hs ref href := ⟨(h.expression hs ref href).1.mono hx, (h.expression hs ref href).2⟩
  statement hs ref href := (h.statement hs ref href).imp_left fun hv => hv.mono hx
  conditional := h.conditional

theorem isStatement_of_sort {sort : NodeSort} (hs : n.kind.sort = sort) (he : sort ≠ .expression)
    (hc : sort ≠ .conditional) : n.IsStatement :=
  ⟨fun h => he (hs.symm.trans h), fun hternary => hc (hs.symm.trans hternary.1)⟩

/-- A container or a loop may refer to values and to newer nodes. -/
theorem fits_of_sort {sort : NodeSort} (hs : n.kind.sort = sort) (he : sort ≠ .expression)
    (hc : sort ≠ .conditional) (h : ∀ ref ∈ n.children, t.Valued ref ∨ id.index < ref.index) :
    n.Fits L t id where
  expression hsort := absurd (hs.symm.trans hsort) he
  statement _ := h
  conditional hsort := absurd (hs.symm.trans hsort) hc

/-- A node that is a statement with one more child was one before. -/
theorem IsStatement.of_append {children : List NodeId}
    (h : IsStatement { n with children := n.children ++ children }) : n.IsStatement := by
  refine ⟨h.1, fun hternary => h.2 ⟨hternary.1, ?_⟩⟩
  rw [List.length_append]
  exact Nat.le_add_right_of_le hternary.2

end Node

namespace Tree.Ordered

variable {L : Licence} {t t' : Tree} {id : NodeId} {n n' : Node}

theorem replaces (h : t.Ordered L) (hr : t.Replaces t' id n n') (hx : Evolves t t')
    (hn' : n'.Fits L t' id) : t'.Ordered L := by
  intro other m hm
  rcases hr.cases_get? hm with ⟨rfl, rfl⟩ | ⟨-, hm⟩
  · exact hn'
  · exact (h other m hm).mono hx

theorem add (h : t.Ordered L) {kind : Kind} {children : List NodeId}
    (hnew : Node.Fits L (t.add kind children) t.nextId { kind, children }) :
    (t.add kind children).Ordered L := by
  intro other m hm
  rcases get?_add_cases hm with hm | ⟨rfl, rfl⟩
  · exact (h other m hm).mono (evolves_add t kind children)
  · exact hnew

end Tree.Ordered

/-- **A rewiring keeps the order.** -/
theorem Rewiring.ordered {L : Licence} {s s' : Scene} (h : Rewiring L s s') (hs : s.Ordered L) :
    s'.Ordered L := by
  have hx := h.evolves
  -- what a statement refers to, it still may
  have hkept : ∀ id n, s.tree.get? id = some n → n.IsStatement → ∀ ref ∈ n.children,
      s'.tree.Valued ref ∨ id.index < ref.index := fun id n hn hstatement ref href =>
    ((hs.tree id n hn).statement hstatement ref href).imp_left fun hv => hv.mono hx
  cases h with
  | @attach t t' held loose parent child n hn hp hlt ht =>
    refine ⟨hs.tree.replaces (Tree.replaces_appendChild? ht hn) hx
      ⟨fun h => absurd h hp.sort_ne, fun hstatement ref href => ?_, fun hc => ?_⟩,
      fun id hid => (hs.held id hid).mono hx⟩
    · rcases List.mem_append.mp href with href | href
      · exact hkept parent n hn hstatement.of_append ref href
      · rw [List.mem_singleton.mp href]
        exact Or.inr hlt
    · have hlen := hp.length hc
      simp only [List.length_append, List.length_singleton, Visit.ternarySize]
      refine ⟨by omega, fun helse => ?_⟩
      rcases hlen with hlen | ⟨hL, -⟩
      · omega
      · exact absurd hL helse
  | @give t t' held loose parent value n hn hp ht =>
    refine ⟨hs.tree.replaces (Tree.replaces_appendChild? ht hn) hx
      ⟨fun h => absurd h hp.sort_ne, fun hstatement ref href => ?_, fun hc => ?_⟩,
      fun id hid => (hs.held id (Multiset.mem_cons_of_mem hid)).mono hx⟩
    · rcases List.mem_append.mp href with href | href
      · exact hkept parent n hn hstatement.of_append ref href
      · rw [List.mem_singleton.mp href]
        exact Or.inl ((hs.held value (Multiset.mem_cons_self value held)).mono hx)
    · obtain ⟨hlow, hhigh⟩ := hp.length hc
      rw [List.length_append]
      refine ⟨hhigh, fun helse => ?_⟩
      have htwo := ((hs.tree parent n hn).conditional hc).2 helse
      omega
  | @lead t t' held loose parent value n hn hp ht =>
    have hstatement := Node.isStatement_of_sort hp (by decide) (by decide)
    refine ⟨hs.tree.replaces (Tree.replaces_insertChild? ht hn) hx
      (Node.fits_of_sort hp (by decide) (by decide) fun ref href => ?_),
      fun id hid => (hs.held id (Multiset.mem_cons_of_mem hid)).mono hx⟩
    rcases List.mem_cons.mp href with rfl | href
    · exact Or.inl ((hs.held ref (Multiset.mem_cons_self ref held)).mono hx)
    · exact hkept parent n hn hstatement ref href
  | @fold t t' held loose container statement n found hternary hn hp hmem ht =>
    have hstatement := Node.isStatement_of_sort hp (by decide) (by decide)
    refine ⟨hs.tree.replaces (Tree.replaces_removeChild? ht hn) hx
      (Node.fits_of_sort hp (by decide) (by decide) fun ref href => ?_), fun id hid => ?_⟩
    · exact hkept container n hn hstatement ref (Tree.mem_of_mem_eraseLast href)
    · rcases Multiset.mem_cons.mp hid with rfl | hid
      · obtain ⟨m, hm, hternary⟩ := hternary.mono hx
        exact ⟨m, hm, Node.not_isStatement_iff.mpr (Or.inr hternary)⟩
      · exact (hs.held id hid).mono hx
  | @note t t' held loose id continued n hn hk ht =>
    have hsort : n.kind.sort = .loop := by rw [hk]; rfl
    have hnoted : (Kind.whileLoop true).sort = .loop := rfl
    have hstatement := Node.isStatement_of_sort hsort (by decide) (by decide)
    refine ⟨hs.tree.replaces (Tree.replaces_update? ht hn) hx
      (Node.fits_of_sort hnoted (by decide) (by decide) (hkept id n hn hstatement)),
      fun id hid => (hs.held id hid).mono hx⟩

/-- **A move keeps the order.** -/
theorem Move.ordered {L : Licence} {s s' : Scene} (h : Move L s s') (hs : s.Ordered L) :
    s'.Ordered L := by
  have hx := h.evolves
  cases h with
  | forget hle => exact ⟨hs.tree, fun id hid => hs.held id (Multiset.mem_of_le hle hid)⟩
  | copy _ hmore =>
    refine ⟨hs.tree, fun id hid => ?_⟩
    rcases Multiset.mem_add.mp hid with hid | hid
    · exact hs.held id (hmore id hid)
    · exact hs.held id hid
  | @mark t t' held loose id ht =>
    obtain ⟨n, hn⟩ := Tree.get?_of_holds (Tree.isSome_update?_iff.mp (Option.isSome_of_eq_some ht))
    have hfits := (hs.tree id n hn).mono hx
    refine ⟨hs.tree.replaces (Tree.replaces_update? ht hn) hx ?_,
      fun id hid => (hs.held id hid).mono hx⟩
    exact ⟨hfits.expression, hfits.statement, hfits.conditional⟩
  | part hn hsort =>
    refine ⟨hs.tree, fun id hid => ?_⟩
    rcases Multiset.mem_add.mp hid with hid | hid
    · exact ((hs.tree _ _ hn).expression hsort id hid).1
    · exact hs.held id (Multiset.mem_cons_of_mem hid)
  | @express t held loose kind children hsort =>
    refine ⟨hs.tree.add ⟨fun _ ref href => ?_, fun h => absurd hsort h.1,
      fun h => absurd (h.symm.trans hsort) (by decide)⟩, fun id hid => ?_⟩
    · have hv := hs.held ref (Multiset.mem_add.mpr (Or.inl href))
      exact ⟨hv.mono hx, hv.holds⟩
    · rcases Multiset.mem_cons.mp hid with rfl | hid
      · exact Tree.valued_of_sort (t.get?_add_nextId kind children) hsort
      · exact (hs.held id (Multiset.mem_add.mpr (Or.inr hid))).mono hx
  | @state t held loose kind children hsort hlen =>
    refine ⟨hs.tree.add ⟨fun h => absurd h hsort, fun _ ref href => Or.inl ?_, fun _ => ?_⟩,
      fun id hid => ?_⟩
    · exact (hs.held ref (Multiset.mem_add.mpr (Or.inl href))).mono hx
    · exact ⟨Nat.le_trans hlen (by decide), fun _ => hlen⟩
    · exact (hs.held id (Multiset.mem_add.mpr (Or.inr hid))).mono hx
  | rewire h => exact h.ordered hs

theorem Moves.ordered {L : Licence} {s : Scene} (h : Moves L ⟨Tree.new, 0, 0⟩ s) : s.Ordered L := by
  refine h.keep (fun _ _ => Move.ordered) ⟨fun id n hn => ?_, fun id hid => ?_⟩
  · have hid : id.index = 0 := Nat.lt_one_iff.mp (Tree.holds_of_get? hn)
    obtain ⟨index⟩ := id
    cases hid
    cases hn
    exact ⟨nofun, fun _ _ href => absurd href List.not_mem_nil, nofun⟩
  · exact absurd hid (Multiset.notMem_zero id)

end GmlLift
