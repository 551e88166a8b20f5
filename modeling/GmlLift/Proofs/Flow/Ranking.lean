import GmlLift.Flow.Budget
import GmlLift.Proofs.Flow.Pruning
import Mathlib.Algebra.Group.Action.Defs
import Mathlib.Algebra.Order.BigOperators.Group.List
import Mathlib.Data.Finset.Card
import Mathlib.Tactic.Ring

/-!
# The cost of a walk

Where every cycle goes over an edge that pruning takes away, lasting edges lead down a rank
(`CyclesCut.ranked`). A node weighs more than all nodes together to which its lasting edges lead
(`Ranked.weight_calls`), and pruning a block leaves fewer blocks to prune (`card_uncut_prune`). So
`FlowGraph.cost`, the weight of what is still to be visited and as much again for each block that
can be pruned, goes down with every visit. The budget of the graph is enough for it
(`cost_le_budget`).
-/

namespace GmlLift.FlowGraph

variable {g g' : FlowGraph} {ref other : FlowRef} {node : FlowNode} {ran : FlowRef → Prop}

/-! ## Ranks -/

open Classical in
/-- The nodes to which lasting edges lead. -/
noncomputable def lastingFrom (g : FlowGraph) (ref : FlowRef) : Finset Nat :=
  (Finset.range g.size).filter fun i => Relation.TransGen g.Lasting ref ⟨i⟩

theorem mem_lastingFrom {i : Nat} :
    i ∈ g.lastingFrom ref ↔ i < g.size ∧ Relation.TransGen g.Lasting ref ⟨i⟩ := by
  classical
  rw [lastingFrom, Finset.mem_filter, Finset.mem_range]

/-- A reference out of the graph is at the bottom. -/
noncomputable def rank (g : FlowGraph) (ref : FlowRef) : Nat :=
  if ref.index < g.size then (g.lastingFrom ref).card + 1 else 0

theorem rank_le (g : FlowGraph) (ref : FlowRef) : g.rank ref ≤ g.size + 1 := by
  classical
  have hcard : (g.lastingFrom ref).card ≤ g.size := by
    calc (g.lastingFrom ref).card ≤ (Finset.range g.size).card := Finset.card_filter_le _ _
      _ = g.size := Finset.card_range _
  unfold rank
  split <;> omega

/-- **Lasting edges lead down.** -/
theorem CyclesCut.rank_lt (hg : g.CyclesCut) (h : g.Lasting ref other) :
    g.rank other < g.rank ref := by
  have hin : ref.index < g.size := by
    obtain ⟨node, hnode, -⟩ := h
    exact lt_size_of_get? hnode
  unfold rank
  rw [if_pos hin]
  by_cases ho : other.index < g.size
  · rw [if_pos ho]
    refine Nat.succ_lt_succ (Finset.card_lt_card ?_)
    refine (Finset.ssubset_iff_of_subset fun i hi => ?_).mpr ⟨other.index, ?_, fun hmem => ?_⟩
    · obtain ⟨hlt, hpath⟩ := mem_lastingFrom.mp hi
      exact mem_lastingFrom.mpr ⟨hlt, .head h hpath⟩
    · exact mem_lastingFrom.mpr ⟨ho, .single h⟩
    · exact hg other (mem_lastingFrom.mp hmem).2
  · rw [if_neg ho]
    exact Nat.succ_pos _

/-- Every lasting edge of the graph leads down, and no node has more branches than `width`. -/
structure Ranked (rank : FlowRef → Nat) (width : Nat) (g : FlowGraph) : Prop where
  lt : ∀ {ref other}, g.Lasting ref other → rank other < rank ref
  le : ∀ ref, rank ref ≤ g.size + 1
  width : ∀ {ref node}, g.get? ref = some node → node.branches.length ≤ width

/-- Whatever has ranks has no lasting cycles. -/
theorem cyclesCut_of_rank (rank : FlowRef → Nat)
    (h : ∀ ref other, g.Lasting ref other → rank other < rank ref) : g.CyclesCut := by
  have hpath {ref other : FlowRef} (hp : Relation.TransGen g.Lasting ref other) :
      rank other < rank ref := by
    induction hp with
    | single hl => exact h _ _ hl
    | tail _ hl ih => exact Nat.lt_trans (h _ _ hl) ih
  exact fun ref hp => Nat.lt_irrefl _ (hpath hp)

/-- References of all nodes. -/
def degree (g : FlowGraph) : Nat := (g.nodes.toList.map FlowNode.degree).sum

theorem branches_le_degree (h : g.get? ref = some node) : node.branches.length ≤ g.degree := by
  have hmem : node.degree ∈ g.nodes.toList.map FlowNode.degree := by
    refine List.mem_map_of_mem (List.mem_iff_getElem?.mpr ⟨ref.index, ?_⟩)
    rw [Array.getElem?_toList]
    exact h
  calc node.branches.length ≤ node.degree := Nat.le_add_right _ _
    _ ≤ g.degree := List.single_le_sum (fun _ _ => Nat.zero_le _) _ hmem

theorem CyclesCut.ranked (hg : g.CyclesCut) : g.Ranked g.rank g.degree where
  lt := hg.rank_lt
  le := g.rank_le
  width := branches_le_degree

theorem PrunedAt.ranked {rank : FlowRef → Nat} {width : Nat} (h : PrunedAt g g' ran)
    (hg : g.Ranked rank width) : g'.Ranked rank width where
  lt hl := hg.lt (h.lasting_iff.mp hl)
  le ref := h.size_eq ▸ hg.le ref
  width hnode' := by
    obtain ⟨node, hnode, ⟨-, -, rfl⟩ | ⟨-, rfl⟩⟩ := h.cases_get? hnode'
    · exact Nat.le_trans (List.length_filter_le _ _) (hg.width hnode)
    · exact hg.width hnode

/-! ## Blocks to prune -/

open Classical in
/-- The blocks that would lose branches if they were pruned. -/
noncomputable def uncut (g : FlowGraph) : Finset Nat :=
  (Finset.range g.size).filter fun i =>
    ∃ node, g.get? ⟨i⟩ = some node ∧ node.kind.leaves = true ∧ g.cut node ≠ node

theorem mem_uncut {i : Nat} : i ∈ g.uncut ↔
    ∃ node, g.get? ⟨i⟩ = some node ∧ node.kind.leaves = true ∧ g.cut node ≠ node := by
  classical
  rw [uncut, Finset.mem_filter, Finset.mem_range, and_iff_right_iff_imp]
  rintro ⟨node, hnode, -⟩
  exact lt_size_of_get? hnode

theorem card_uncut_le (g : FlowGraph) : g.uncut.card ≤ g.size := by
  classical
  calc g.uncut.card ≤ (Finset.range g.size).card := Finset.card_filter_le _ _
    _ = g.size := Finset.card_range _

theorem PrunedAt.uncut_subset (h : PrunedAt g g' ran) : g'.uncut ⊆ g.uncut := by
  intro i hi
  obtain ⟨node', hnode', hleaves, hcut⟩ := mem_uncut.mp hi
  rw [h.cut_eq] at hcut
  refine mem_uncut.mpr ?_
  obtain ⟨node, hnode, ⟨-, -, rfl⟩ | ⟨-, rfl⟩⟩ := h.cases_get? hnode'
  · exact absurd (g.cut_cut node) hcut
  · exact ⟨node', hnode, hleaves, hcut⟩

/-- **A block is pruned once.** -/
theorem card_uncut_prune (hnode : g.get? ref = some node) (hleaves : node.kind.leaves = true)
    (hcut : g.cut node ≠ node) :
    (g.setBranches ref (g.keptBranches node)).uncut.card < g.uncut.card := by
  have hpruned := (PrunedAt.refl g).prune hnode hleaves
  refine Finset.card_lt_card ((Finset.ssubset_iff_of_subset hpruned.uncut_subset).mpr
    ⟨ref.index, mem_uncut.mpr ⟨node, hnode, hleaves, hcut⟩, fun hmem => ?_⟩)
  obtain ⟨node', hnode', -, hcut'⟩ := mem_uncut.mp hmem
  cases hnode'.symm.trans (setBranches_of_get? hnode _)
  rw [hpruned.cut_eq] at hcut'
  exact hcut' (g.cut_cut node)

/-! ## Costs -/

/-- What the visits to nodes can cost as long as nothing is pruned. -/
def weight (rank : FlowRef → Nat) (width : Nat) (refs : List FlowRef) : Nat :=
  (refs.map fun ref => (width + 2) ^ rank ref).sum

/-- **What the visits to nodes can cost.** Whenever a block is pruned they may begin again. -/
noncomputable def cost (rank : FlowRef → Nat) (width : Nat) (g : FlowGraph)
    (refs : List FlowRef) : Nat :=
  g.uncut.card * (width + 2) ^ (g.size + 1) + weight rank width refs

variable {rank : FlowRef → Nat} {width : Nat} {refs more : List FlowRef}

theorem weight_append (rank : FlowRef → Nat) (width : Nat) (refs more : List FlowRef) :
    weight rank width (refs ++ more) = weight rank width refs + weight rank width more := by
  simp [weight]

theorem weight_singleton (rank : FlowRef → Nat) (width : Nat) (ref : FlowRef) :
    weight rank width [ref] = (width + 2) ^ rank ref := by
  simp [weight]

theorem weight_singleton_pos (rank : FlowRef → Nat) (width : Nat) (ref : FlowRef) :
    0 < weight rank width [ref] := by
  rw [weight_singleton]
  exact Nat.pow_pos (Nat.succ_pos _)

/-- **A node weighs more than what its lasting edges lead to.** -/
theorem Ranked.weight_calls (hg : g.Ranked rank width) (h : ∀ other ∈ refs, g.Lasting ref other)
    (hlen : refs.length ≤ width + 1) : weight rank width refs < weight rank width [ref] := by
  rw [weight_singleton]
  cases refs with
  | nil => exact Nat.pow_pos (Nat.succ_pos _)
  | cons first rest =>
    -- all of them are on lower ranks
    obtain ⟨below, hbelow⟩ : ∃ below, rank ref = below + 1 :=
      Nat.exists_eq_succ_of_ne_zero (Nat.ne_of_gt (Nat.lt_of_le_of_lt (Nat.zero_le _)
        (hg.lt (h first List.mem_cons_self))))
    have hsum : weight rank width (first :: rest) ≤
        (first :: rest).length * (width + 2) ^ below := by
      have hle := List.sum_le_card_nsmul
        ((first :: rest).map fun ref => (width + 2) ^ rank ref) ((width + 2) ^ below) ?_
      · rwa [List.length_map, smul_eq_mul] at hle
      · intro x hx
        obtain ⟨other, hother, rfl⟩ := List.mem_map.mp hx
        have hlt := hg.lt (h other hother)
        exact Nat.pow_le_pow_right (Nat.succ_pos _) (by omega)
    calc weight rank width (first :: rest)
        ≤ (first :: rest).length * (width + 2) ^ below := hsum
      _ ≤ (width + 1) * (width + 2) ^ below := Nat.mul_le_mul_right _ hlen
      _ < (width + 2) * (width + 2) ^ below :=
        Nat.mul_lt_mul_of_pos_right (Nat.lt_succ_self _) (Nat.pow_pos (Nat.succ_pos _))
      _ = (width + 2) ^ rank ref := by rw [hbelow, Nat.pow_succ, Nat.mul_comm]

/-- No node weighs more than beginning again. -/
theorem Ranked.weight_le (hg : g.Ranked rank width) (ref : FlowRef) :
    weight rank width [ref] ≤ (width + 2) ^ (g.size + 1) := by
  rw [weight_singleton]
  exact Nat.pow_le_pow_right (Nat.succ_pos _) (hg.le ref)

theorem cost_append (rank : FlowRef → Nat) (width : Nat) (g : FlowGraph)
    (refs more : List FlowRef) :
    g.cost rank width (refs ++ more) = g.cost rank width refs + weight rank width more := by
  rw [cost, cost, weight_append, Nat.add_assoc]

/-- The graph has been pruned further, if at all. -/
structure Shrinks (rank : FlowRef → Nat) (width : Nat) (g g' : FlowGraph) : Prop where
  ranked : g'.Ranked rank width
  size_eq : g'.size = g.size
  uncut_le : g'.uncut.card ≤ g.uncut.card

namespace Shrinks

theorem of_eq (hg : g.Ranked rank width) (h : g' = g) : Shrinks rank width g g' := by
  subst h
  exact ⟨hg, rfl, Nat.le_refl _⟩

theorem trans {g'' : FlowGraph} (h : Shrinks rank width g g') (h' : Shrinks rank width g' g'') :
    Shrinks rank width g g'' :=
  ⟨h'.ranked, h'.size_eq.trans h.size_eq, Nat.le_trans h'.uncut_le h.uncut_le⟩

theorem cost_le (h : Shrinks rank width g g') (refs : List FlowRef) :
    g'.cost rank width refs ≤ g.cost rank width refs := by
  unfold cost
  rw [h.size_eq]
  exact Nat.add_le_add_right (Nat.mul_le_mul_right _ h.uncut_le) _

/-- What is called for over lasting edges costs less than the visit that calls for it. -/
theorem cost_calls (h : Shrinks rank width g g') (hg : g.Ranked rank width)
    (hcalls : ∀ other ∈ refs, g.Lasting ref other) (hlen : refs.length ≤ width + 1) :
    g'.cost rank width refs < g.cost rank width [ref] := by
  have hweight := hg.weight_calls hcalls hlen
  have hle := h.cost_le refs
  unfold cost at hle ⊢
  omega

end Shrinks

theorem shrinks_prune (hg : g.Ranked rank width) (hnode : g.get? ref = some node)
    (hleaves : node.kind.leaves = true) :
    Shrinks rank width g (g.setBranches ref (g.keptBranches node)) := by
  have hpruned := (PrunedAt.refl g).prune hnode hleaves
  exact ⟨hpruned.ranked hg, hpruned.size_eq, Finset.card_le_card hpruned.uncut_subset⟩

/-- **What is called for behind a block that is pruned**, over whatever branch, costs less than the
visit to the block. -/
theorem Ranked.cost_prune (hg : g.Ranked rank width) (hnode : g.get? ref = some node)
    (hleaves : node.kind.leaves = true) (hcalls : refs = [] ∨ ∃ b ∈ node.branches, refs = [b]) :
    (g.setBranches ref (g.keptBranches node)).cost rank width refs <
      g.cost rank width [ref] := by
  have hshrinks := shrinks_prune hg hnode hleaves
  have hpos := weight_singleton_pos rank width ref
  by_cases hcut : g.cut node = node
  · -- nothing is cut, so all branches are lasting
    have hlasting (b : FlowRef) (hb : b ∈ node.branches) : g.Lasting ref b := by
      refine ⟨node, hnode, Or.inl hb, fun _ => ?_⟩
      have hbranches : g.keptBranches node = node.branches := congrArg FlowNode.branches hcut
      rw [← hbranches] at hb
      exact (List.mem_filter.mp hb).2
    rcases hcalls with rfl | ⟨b, hb, rfl⟩
    · exact hshrinks.cost_calls hg (by simp) (Nat.zero_le _)
    · exact hshrinks.cost_calls hg (by simpa using hlasting b hb) (Nat.le_add_left ..)
  · -- a block has been cut, which pays for any branch
    have hlt := card_uncut_prune hnode hleaves hcut
    have hweight : weight rank width refs ≤ (width + 2) ^ (g.size + 1) := by
      rcases hcalls with rfl | ⟨b, -, rfl⟩
      · exact Nat.zero_le _
      · exact hg.weight_le b
    unfold cost
    rw [hshrinks.size_eq]
    have hpay := Nat.mul_le_mul_right ((width + 2) ^ (g.size + 1)) (Nat.succ_le_of_lt hlt)
    rw [Nat.succ_mul] at hpay
    omega

/-- **The budget of a graph is enough.** -/
theorem CyclesCut.cost_le_budget (hg : g.CyclesCut) (ref : FlowRef) :
    g.cost g.rank g.degree [ref] ≤ g.budget := by
  have hbudget : (g.degree + 2) ^ (2 * g.size + 2) ≤ g.budget := by
    have hdegree : g.nodes.toList.foldr (fun node n => node.degree + n) 0 = g.degree := by
      rw [degree, List.sum_eq_foldr, List.foldr_map]
    unfold budget
    simp only [hdegree]
    refine Nat.pow_le_pow_left ?_ _
    rw [Nat.mul_assoc]
    exact Nat.le_mul_of_pos_right _ (Nat.mul_pos (by decide) (Nat.succ_pos _))
  have htwo : g.size + 1 ≤ (g.degree + 2) ^ (g.size + 1) :=
    Nat.le_trans Nat.lt_two_pow_self.le (Nat.pow_le_pow_left (Nat.le_add_left ..) _)
  calc g.cost g.rank g.degree [ref]
      ≤ g.size * (g.degree + 2) ^ (g.size + 1) + (g.degree + 2) ^ (g.size + 1) :=
        Nat.add_le_add (Nat.mul_le_mul_right _ g.card_uncut_le) (hg.ranked.weight_le ref)
    _ = (g.size + 1) * (g.degree + 2) ^ (g.size + 1) := (Nat.succ_mul ..).symm
    _ ≤ (g.degree + 2) ^ (g.size + 1) * (g.degree + 2) ^ (g.size + 1) :=
      Nat.mul_le_mul_right _ htwo
    _ = (g.degree + 2) ^ (2 * g.size + 2) := by ring
    _ ≤ g.budget := hbudget

end GmlLift.FlowGraph
