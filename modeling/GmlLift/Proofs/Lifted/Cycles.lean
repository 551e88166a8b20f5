import GmlLift.Proofs.Moves.Run
import GmlLift.Proofs.Moves.Values
import GmlLift.Proofs.Tree.References

/-!
# Cycles come from conditional expressions

Expressions refer to older values, statements to newer statements or to values, so every reference
from a node that is no conditional expression leads down in a rank: first the statements, the oldest
one highest, and below them the values, the newest one highest. A cycle has to pass through a
conditional that has the values of both of its arms.
-/

namespace GmlLift

namespace Tree

variable {L : Licence} {t : Tree} {id other : NodeId}

/-- Statements stand above values, old statements and new values above others of their kind. -/
def rank (t : Tree) (id : NodeId) : Nat :=
  match t.get? id with
  | some n => if n.IsStatement then 2 * t.size - id.index else id.index
  | none => 0

theorem rank_of_statement {n : Node} (hn : t.get? id = some n) (hs : n.IsStatement) :
    t.rank id = 2 * t.size - id.index := by
  unfold rank
  rw [hn]
  exact if_pos hs

theorem rank_of_value {n : Node} (hn : t.get? id = some n) (hs : ¬ n.IsStatement) :
    t.rank id = id.index := by
  unfold rank
  rw [hn]
  exact if_neg hs

/-- **A reference leads down, unless it comes from a conditional expression.** -/
theorem rank_lt (ht : t.Closed) (ho : t.Ordered L) (hid : ¬ t.Ternary id)
    (h : t.Refers id other) : t.rank other < t.rank id := by
  obtain ⟨n, hn, hmem⟩ := mem_refs_iff.mp h
  obtain ⟨m, hm⟩ := get?_of_holds (ht id n hn other hmem)
  have hlt : id.index < t.size := holds_of_get? hn
  have hlt' : other.index < t.size := holds_of_get? hm
  have hfits := ho id n hn
  have hvalued : t.Valued other → ¬ m.IsStatement := by
    rintro ⟨m', hm', hvalue⟩
    cases hm.symm.trans hm'
    exact hvalue
  by_cases hsort : n.kind.sort = .expression
  · have hn' : ¬ n.IsStatement := fun hs => hs.1 hsort
    obtain ⟨hv, hdown⟩ := hfits.expression hsort other hmem
    rw [rank_of_value hn hn', rank_of_value hm (hvalued hv)]
    exact hdown
  · have hs : n.IsStatement := ⟨hsort, fun hternary => hid ⟨n, hn, hternary⟩⟩
    rw [Node.references_of_sort hsort] at hmem
    rw [rank_of_statement hn hs]
    by_cases hm' : m.IsStatement
    · have hup : id.index < other.index := by
        rcases hfits.statement hs other hmem with hv | hup
        · exact absurd hm' (hvalued hv)
        · exact hup
      rw [rank_of_statement hm hm']
      omega
    · rw [rank_of_value hm hm']
      omega

theorem rank_lt_of_chain (ht : t.Closed) (ho : t.Ordered L) {path : List NodeId}
    (h : List.IsChain t.Refers (id :: path ++ [other])) (hpath : ∀ x ∈ id :: path, ¬ t.Ternary x) :
    t.rank other < t.rank id := by
  induction path generalizing id with
  | nil =>
    have hrefers : t.Refers id other := List.isChain_pair.mp h
    exact rank_lt ht ho (hpath id List.mem_cons_self) hrefers
  | cons next path ih =>
    obtain ⟨hrefers, hrest⟩ := List.isChain_cons_cons.mp h
    have hnext := ih hrest fun x hx => hpath x (List.mem_cons_of_mem id hx)
    exact hnext.trans (rank_lt ht ho (hpath id List.mem_cons_self) hrefers)

/-- Where no conditional is an expression, there is no cycle. -/
theorem not_cycle (ht : t.Closed) (ho : t.Ordered L) (hternary : ∀ x, ¬ t.Ternary x) (id : NodeId) :
    ¬ Relation.TransGen t.Refers id id := by
  have hdown : ∀ x y, Relation.TransGen t.Refers x y → t.rank y < t.rank x := by
    intro x y hpath
    induction hpath with
    | single h => exact rank_lt ht ho (hternary _) h
    | tail _ h ih => exact (rank_lt ht ho (hternary _) h).trans ih
  exact fun hcycle => Nat.lt_irrefl _ (hdown id id hcycle)

/-- Without false arms no conditional becomes an expression. -/
theorem Ordered.not_ternary (ho : t.Ordered L) (hL : ¬ L.elses) (id : NodeId) : ¬ t.Ternary id := by
  rintro ⟨n, hn, hsort, hlen⟩
  have htwo := ((ho id n hn).conditional hsort).2 hL
  exact absurd (hlen.trans htwo) (by decide)

end Tree

/-- **Every cycle passes through a conditional expression.** In the tree of a function, every way
along children and owners that comes back to where it began passes through a conditional with five
children. If no conditional of the graph has a false arm, there is no cycle at all, and every node
has a text. -/
theorem liftGraph_cycle {cfg : Settings} {g : FlowGraph} {t : Tree}
    (h : (liftGraph cfg g).result = .ok t ∨ ∃ g', LiftsTo cfg g (.ok t) g') :
    (∀ id path, List.IsChain t.Refers (id :: path ++ [id]) → ∃ x ∈ id :: path, ∃ n,
      t.get? x = some n ∧ n.kind.sort = .conditional ∧ n.children.length = Visit.ternarySize) ∧
    (¬ g.HasElse → (∀ id, ¬ Relation.TransGen t.Refers id id) ∧
      ∀ id, t.Holds id → ∃ text, t.text id = .ok text) := by
  obtain ⟨budget, h⟩ := exists_liftWithin h
  obtain ⟨held, hmoves⟩ := liftWithin_moves h
  have hclosed : t.Closed := hmoves.inRange_of_new.closed
  have ho : t.Ordered g.licence := hmoves.ordered.tree
  refine ⟨fun id path hcycle => ?_, fun helse => ?_⟩
  · by_contra hnone
    have hpath : ∀ x ∈ id :: path, ¬ t.Ternary x := by
      rintro x hx ⟨n, hn, hsort, hlen⟩
      have hle := ((ho x n hn).conditional hsort).1
      exact hnone ⟨x, hx, n, hn, hsort, Nat.le_antisymm hle hlen⟩
    exact Nat.lt_irrefl _ (Tree.rank_lt_of_chain hclosed ho hcycle hpath)
  · have hacyclic := Tree.not_cycle hclosed ho (ho.not_ternary helse)
    exact ⟨hacyclic, fun id hid => Tree.text_of_acyclic hclosed hid fun other _ => hacyclic other⟩

/-- A conditional that is discarded in its own false arm, and a copied operand without any
conditional. -/
theorem liftGraph_cycle_own_arm :
    let one : Instruction := { opcode := .push, type1 := .int16, literal := some (.int16 1) }
    let g : FlowGraph := {
      nodes := #[
        { kind := .conditional { code := [one] }, branches := [⟨1⟩, ⟨2⟩, ⟨3⟩] },
        { kind := .block {} },
        { kind := .block { code := [one] } },
        { kind := .block { code := [one] }, branches := [⟨4⟩] },
        { kind := .block { code := [{ opcode := .popz }] } }]
      entry := ⟨0⟩ }
    let g' : FlowGraph := {
      nodes := #[{ kind := .block { code := [one, { opcode := .dup }, { opcode := .add }] } }]
      entry := ⟨0⟩ }
    (∃ t, (liftGraph {} g).result = .ok t ∧ List.IsChain t.Refers [⟨2⟩, ⟨4⟩, ⟨2⟩] ∧
      ∃ x ∈ [⟨2⟩, ⟨4⟩], ∃ n, t.get? x = some n ∧ n.kind.sort = .conditional ∧
        n.children.length = Visit.ternarySize) ∧
    ¬ g'.HasElse ∧ ∃ t, (liftGraph {} g').result = .ok t ∧
      ∀ id, t.Holds id → ∃ text, t.text id = .ok text := by
  intro one g g'
  refine ⟨?_, by decide, ?_⟩
  · let t : Tree := ⟨#[
      { kind := .block },
      { kind := .int16 1 .push },
      { kind := .conditional 0, children := [⟨1⟩, ⟨3⟩, ⟨4⟩, ⟨5⟩, ⟨6⟩] },
      { kind := .block },
      { kind := .block, children := [⟨2⟩] },
      { kind := .int16 1 .push },
      { kind := .int16 1 .push }]⟩
    have hresult : (liftGraph {} g).result = .ok t := by decide +kernel
    have hcycle : List.IsChain t.Refers [⟨2⟩, ⟨4⟩, ⟨2⟩] := by
      unfold Tree.Refers
      decide
    exact ⟨t, hresult, hcycle, (liftGraph_cycle (Or.inl hresult)).1 ⟨2⟩ [⟨4⟩] hcycle⟩
  · let t : Tree := ⟨#[
      { kind := .block },
      { kind := .int16 1 .push, duplicated := true },
      { kind := .binary .add, children := [⟨1⟩, ⟨1⟩] }]⟩
    have hresult : (liftGraph {} g').result = .ok t := by decide +kernel
    exact ⟨t, hresult, ((liftGraph_cycle (Or.inl hresult)).2 (by decide)).2⟩

end GmlLift
