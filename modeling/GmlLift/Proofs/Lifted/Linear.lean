import GmlLift.Proofs.Moves.Run
import GmlLift.Proofs.Moves.Tokens

/-!
# Without copies the result is a tree

If no instruction copies, no two tokens of a run are the same. An expression that is taken apart
still refers to its operands, but nothing refers to it any more: it retires, and its references are
not counted. What the root leads to has not retired, so each of its nodes is referred to from one
place, and going back from a cycle would never come to the root.
-/

namespace GmlLift

/-- **No two tokens are the same**, and none is the root or has retired. -/
structure Scene.Linear (s : Scene) (retired : Finset NodeId) : Prop where
  inRange : s.InRange
  root : s.tree.IsSort .container Tree.root
  expressions : ∀ id ∈ retired, s.tree.IsSort .expression id
  nodup : (s.tokens retired).Nodup
  live : ∀ id ∈ retired, id ∉ s.tokens retired
  rootless : Tree.root ∉ s.tokens retired

namespace Scene.Linear

variable {s s' : Scene} {t : Tree} {retired : Finset NodeId}

theorem nextId_notMem (h : s.Linear retired) : s.tree.nextId ∉ retired :=
  fun hmem => s.tree.not_holds_nextId (h.expressions _ hmem).holds

/-- Fewer tokens. -/
theorem of_le (h : s.Linear retired) (hrange : s'.InRange) (hx : Tree.Evolves s.tree s'.tree)
    (hle : s'.tokens retired ≤ s.tokens retired) : s'.Linear retired where
  inRange := hrange
  root := h.root.mono hx
  expressions id hid := (h.expressions id hid).mono hx
  nodup := Multiset.nodup_of_le hle h.nodup
  live id hid hmem := h.live id hid (Multiset.mem_of_le hle hmem)
  rootless hmem := h.rootless (Multiset.mem_of_le hle hmem)

/-- The token of a node that has just been made. -/
theorem of_cons (h : s.Linear retired) (hrange : s'.InRange) (hx : Tree.Evolves s.tree s'.tree)
    (heq : s'.tokens retired = s.tree.nextId ::ₘ s.tokens retired) : s'.Linear retired where
  inRange := hrange
  root := h.root.mono hx
  expressions id hid := (h.expressions id hid).mono hx
  nodup := by
    rw [heq, Multiset.nodup_cons]
    exact ⟨fun hmem => s.tree.not_holds_nextId (h.inRange.holds_of_mem_tokens hmem), h.nodup⟩
  live id hid := by
    rw [heq, Multiset.mem_cons, not_or]
    exact ⟨fun hnew => h.nextId_notMem (hnew ▸ hid), h.live id hid⟩
  rootless := by
    rw [heq, Multiset.mem_cons, not_or]
    exact ⟨fun hnew => s.tree.not_holds_nextId (hnew ▸ h.root.holds), h.rootless⟩

/-- An expression in hand retires. -/
theorem retire {held loose : Multiset NodeId} {id : NodeId} {n : Node}
    (h : Scene.Linear ⟨t, id ::ₘ held, loose⟩ retired)
    (hrange : Scene.InRange ⟨t, n.references + held, loose⟩) (hn : t.get? id = some n)
    (hs : n.kind.sort = .expression) :
    Scene.Linear ⟨t, n.references + held, loose⟩ (insert id retired) := by
  have hmem : id ∈ Scene.tokens ⟨t, id ::ₘ held, loose⟩ retired := by
    refine Multiset.mem_add.mpr (Or.inr (Multiset.mem_add.mpr (Or.inl ?_)))
    exact Multiset.mem_cons_self id held
  have hid : id ∉ retired := fun hid => h.live id hid hmem
  have heq : Scene.tokens ⟨t, id ::ₘ held, loose⟩ retired = _ := Scene.tokens_part hn hid
  have hnodup := h.nodup
  rw [heq, Multiset.nodup_cons] at hnodup
  refine ⟨hrange, h.root, ?_, hnodup.2, ?_, fun hroot => h.rootless ?_⟩
  · intro other hother
    rcases Finset.mem_insert.mp hother with rfl | hother
    · exact ⟨n, hn, hs⟩
    · exact h.expressions other hother
  · intro other hother hmem
    rcases Finset.mem_insert.mp hother with rfl | hother
    · exact hnodup.1 hmem
    · exact h.live other hother (heq ▸ Multiset.mem_cons_of_mem hmem)
  · exact heq ▸ Multiset.mem_cons_of_mem hroot

end Scene.Linear

/-- **Without copies a move keeps the tokens apart.** -/
theorem Move.linear {L : Licence} {s s' : Scene} {retired : Finset NodeId} (hL : ¬ L.copies)
    (h : Move L s s') (hs : s.Linear retired) : ∃ retired', s'.Linear retired' := by
  have hrange := h.inRange hs.inRange
  have hx := h.evolves
  cases h with
  | forget hle =>
    refine ⟨retired, hs.of_le hrange hx ?_⟩
    exact add_le_add_right (add_le_add_left hle _) _
  | copy hcopy _ => exact absurd hcopy hL
  | mark ht => exact ⟨retired, hs.of_le hrange hx (Scene.tokens_mark ht).le⟩
  | part hn hsort => exact ⟨_, hs.retire hrange hn hsort⟩
  | express _ => exact ⟨retired, hs.of_cons hrange hx (Scene.tokens_express hs.nextId_notMem _ _)⟩
  | state hsort _ =>
    exact ⟨retired, hs.of_cons hrange hx (Scene.tokens_state hs.nextId_notMem hsort _)⟩
  | rewire h => exact ⟨retired, hs.of_le hrange hx (Scene.tokens_rewire h hs.expressions).le⟩

theorem Moves.linear {L : Licence} {s : Scene} (hL : ¬ L.copies)
    (h : Moves L ⟨Tree.new, 0, 0⟩ s) : ∃ retired, s.Linear retired := by
  refine h.keep (P := fun s => ∃ retired, s.Linear retired)
    (fun s s' hmove ⟨retired, hs⟩ => hmove.linear hL hs) ⟨∅, ?_⟩
  have htokens : Scene.tokens ⟨Tree.new, 0, 0⟩ ∅ = 0 := by decide
  refine ⟨Moves.inRange_of_new (L := L) .refl, ⟨_, rfl, rfl⟩, ?_, ?_, ?_, ?_⟩
  · intro id hid
    exact absurd hid (Finset.notMem_empty id)
  · rw [htokens]
    exact Multiset.nodup_zero
  · intro id hid
    exact absurd hid (Finset.notMem_empty id)
  · rw [htokens]
    exact Multiset.notMem_zero _

/-! ## What the root leads to -/

namespace Tree

variable {t : Tree} {x : NodeId}

/-- Where every node is referred to from one node at most and the root from none, the root leads
into no cycle. -/
theorem Reachable.not_cycle
    (hunique : ∀ p q x, t.Reachable p → t.Reachable q → t.Refers p x → t.Refers q x → p = q)
    (hroot : ∀ p, t.Reachable p → ¬ t.Refers p root) (hx : t.Reachable x) :
    ¬ Relation.TransGen t.Refers x x := by
  -- going back from the cycle along the way from the root, one stays in a cycle
  induction hx with
  | refl =>
    intro hcycle
    obtain ⟨p, hp, hrefers⟩ := Relation.TransGen.tail'_iff.mp hcycle
    exact hroot p hp hrefers
  | @tail b x hb hbx ih =>
    intro hcycle
    obtain ⟨p, hp, hpx⟩ := Relation.TransGen.tail'_iff.mp hcycle
    have hreach : t.Reachable p := (Relation.ReflTransGen.tail hb hbx).trans hp
    obtain rfl := hunique p b x hreach hb hpx hbx
    exact ih (.head' hbx hp)

/-- A node that the root leads to has not retired. -/
theorem Reachable.notMem_retired {held loose : Multiset NodeId} {retired : Finset NodeId}
    (h : Scene.Linear ⟨t, held, loose⟩ retired) (hx : t.Reachable x) : x ∉ retired := by
  induction hx with
  | refl =>
    intro hmem
    obtain ⟨n, hn, hs⟩ := h.expressions _ hmem
    obtain ⟨m, hm, hs'⟩ := h.root
    cases hn.symm.trans hm
    rw [hs] at hs'
    cases hs'
  | tail _ hrefers ih =>
    exact fun hmem => h.live _ hmem (Multiset.mem_add.mpr (Or.inl (mem_mentions ih hrefers)))

end Tree

/-- **What the root leads to is a tree**: every node of it except the root is referred to from one
place among them, the root from none, and there is no cycle. -/
structure Tree.IsArborescence (t : Tree) : Prop where
  place : ∀ x, t.Reachable x → x ≠ root →
    ∃! place : NodeId × Nat, t.Reachable place.1 ∧ (t.refs place.1)[place.2]? = some x
  rootless : ∀ x, t.Reachable x → ¬ t.Refers x root
  acyclic : ∀ x, t.Reachable x → ¬ Relation.TransGen t.Refers x x

/-- References that have not retired are all different, so the root leads to a tree. -/
theorem Scene.Linear.isArborescence {t : Tree} {held loose : Multiset NodeId}
    {retired : Finset NodeId} (h : Scene.Linear ⟨t, held, loose⟩ retired) : t.IsArborescence := by
  have hnodup : (t.mentions retired).Nodup := (Multiset.nodup_add.mp h.nodup).1
  have hplace : ∀ x p q i j, t.Reachable p → t.Reachable q → (t.refs p)[i]? = some x →
      (t.refs q)[j]? = some x → p = q ∧ i = j := fun x p q i j hp hq =>
    Tree.eq_of_nodup_mentions hnodup (hp.notMem_retired h) (hq.notMem_retired h)
  have hroot : ∀ p, t.Reachable p → ¬ t.Refers p Tree.root := fun p hp hrefers =>
    h.rootless (Multiset.mem_add.mpr (Or.inl (Tree.mem_mentions (hp.notMem_retired h) hrefers)))
  refine ⟨fun x hx hne => ?_, hroot, fun x hx => hx.not_cycle (fun p q y hp hq hpy hqy => ?_) hroot⟩
  · obtain ⟨p, hp, hrefers⟩ := (Relation.ReflTransGen.cases_tail hx).resolve_left hne
    obtain ⟨i, hi⟩ := List.mem_iff_getElem?.mp hrefers
    refine ⟨(p, i), ⟨hp, hi⟩, fun place ⟨hq, hj⟩ => ?_⟩
    obtain ⟨hpq, hij⟩ := hplace x place.1 p place.2 i hq hp hj hi
    exact Prod.ext hpq hij
  · obtain ⟨i, hi⟩ := List.mem_iff_getElem?.mp hpy
    obtain ⟨j, hj⟩ := List.mem_iff_getElem?.mp hqy
    exact (hplace y p q i j hp hq hi hj).1

/-- **Without copies the lifted function is a tree**, and so the root has a text. -/
theorem liftGraph_isArborescence {cfg : Settings} {g : FlowGraph} {t : Tree} (hcopies : ¬ g.Copies)
    (h : (liftGraph cfg g).result = .ok t ∨ ∃ g', LiftsTo cfg g (.ok t) g') :
    t.IsArborescence ∧ ∃ text, t.text Tree.root = .ok text := by
  obtain ⟨budget, h⟩ := exists_liftWithin h
  obtain ⟨held, hmoves⟩ := liftWithin_moves h
  obtain ⟨retired, hlinear⟩ := hmoves.linear hcopies
  have htree := hlinear.isArborescence
  exact ⟨htree, Tree.text_of_acyclic hlinear.inRange.closed hlinear.root.holds htree.acyclic⟩

/-- A conditional expression, and an array element with a flattened index, of which the sum and the
product retire. -/
theorem liftGraph_isArborescence_flattened :
    let number (n : Int16) : Instruction :=
      { opcode := .push, type1 := .int16, literal := some (.int16 n) }
    let stride : Instruction := { opcode := .push, type1 := .int32, literal := some (.int32 32000) }
    let element : Instruction :=
      { opcode := .push, type1 := .variant, reference := some ⟨7, .array⟩ }
    let g : FlowGraph := {
      nodes := #[
        { kind := .conditional { code := [number 1] }, branches := [⟨1⟩, ⟨2⟩, ⟨3⟩] },
        { kind := .block { code := [{ opcode := .popz }, number 4, number 5, stride,
            { opcode := .mul }, number 6, { opcode := .add }, element, { opcode := .popz }] } },
        { kind := .block { code := [number 2] } },
        { kind := .block { code := [number 3] } }]
      entry := ⟨0⟩ }
    ¬ g.Copies ∧ ∃ t, (liftGraph {} g).result = .ok t ∧
      t.get? ⟨13⟩ = some { kind := .var 7 .array (some ⟨7⟩), children := [⟨8⟩, ⟨11⟩] } ∧
      t.IsArborescence ∧ ∃ text, t.text Tree.root = .ok text := by
  intro number stride element g
  have hcopies : ¬ g.Copies := by decide
  have hvariable : (liftGraph {} g).result.map (·.get? ⟨13⟩) =
      .ok (some { kind := .var 7 .array (some ⟨7⟩), children := [⟨8⟩, ⟨11⟩] }) := by
    decide +kernel
  cases hresult : (liftGraph {} g).result with
  | error e =>
    rw [hresult] at hvariable
    cases hvariable
  | ok t =>
    rw [hresult] at hvariable
    exact ⟨hcopies, t, rfl, Except.ok.inj hvariable,
      liftGraph_isArborescence hcopies (Or.inl hresult)⟩

end GmlLift
