import GmlLift.Assembly.Prune
import Mathlib.Logic.Relation

/-!
# Pruned graphs

Only blocks that break or continue are ever pruned: they *leave* the body of a loop. A graph that
has been pruned at some nodes (`FlowGraph.PrunedAt`) has the nodes of the old one, except that the
branches of these blocks have been cut. Cutting a node twice is cutting it once.

An edge out of a leaving block is *lasting* if it outlives pruning, and every other edge is lasting
too. Pruning takes no lasting edge away (`PrunedAt.lasting_iff`).
-/

namespace GmlLift

/-- Does a block of this role leave the body of a loop? -/
def Role.leaves (role : Role) : Bool := role = .breakOut || role = .continueOn

namespace FlowKind

def leaves : FlowKind → Bool
  | .block b => b.role.leaves
  | .conditional _ | .loop _ | .switch | .shortCircuit .. => false

/-- The nodes that a short circuit is made of. -/
def conditions : FlowKind → List FlowRef
  | .shortCircuit _ conditions => conditions
  | .block _ | .conditional _ | .loop _ | .switch => []

/-- The code of a node. -/
def code : FlowKind → List Instruction
  | .block b | .conditional b => b.code
  | .loop _ | .switch | .shortCircuit .. => []

end FlowKind

namespace FlowGraph

variable {g g' : FlowGraph} {ref other : FlowRef} {node node' : FlowNode} {ran : FlowRef → Prop}

/-- The node with the branches that outlive pruning. -/
def cut (g : FlowGraph) (node : FlowNode) : FlowNode :=
  { node with branches := g.keptBranches node }

@[simp] theorem cut_cut (g : FlowGraph) (node : FlowNode) : g.cut (g.cut node) = g.cut node := by
  simp [cut, keptBranches]

theorem lt_size_of_get? (h : g.get? ref = some node) : ref.index < g.size := by
  obtain ⟨hlt, -⟩ := Array.getElem?_eq_some_iff.mp h
  exact hlt

theorem get?_of_lt_size (h : ref.index < g.size) : ∃ node, g.get? ref = some node :=
  ⟨_, Array.getElem?_eq_getElem h⟩

theorem mem_nodes_iff : node ∈ g.nodes.toList ↔ ∃ ref, g.get? ref = some node := by
  rw [List.mem_iff_getElem?]
  constructor
  · rintro ⟨i, hi⟩
    exact ⟨⟨i⟩, by simpa [get?] using hi⟩
  · rintro ⟨ref, href⟩
    exact ⟨ref.index, by simpa [get?] using href⟩

theorem ext_get? (hentry : g'.entry = g.entry) (h : ∀ ref, g'.get? ref = g.get? ref) : g' = g := by
  obtain ⟨nodes, entry⟩ := g
  obtain ⟨nodes', entry'⟩ := g'
  cases hentry
  have hnodes : nodes' = nodes := Array.ext_getElem? fun i => h ⟨i⟩
  rw [hnodes]

theorem setBranches_of_get? (h : g.get? ref = some node) (branches : List FlowRef) :
    (g.setBranches ref branches).get? ref = some { node with branches } := by
  rw [get?_setBranches, if_pos rfl, h]
  rfl

theorem setBranches_self (h : g.get? ref = some node) : g.setBranches ref node.branches = g := by
  refine ext_get? rfl fun other => ?_
  rw [get?_setBranches]
  by_cases ho : other = ref
  · rw [if_pos ho, ho, h]
    rfl
  · rw [if_neg ho]

theorem leadsNowhere_setBranches (g : FlowGraph) (ref : FlowRef) (branches : List FlowRef) :
    (g.setBranches ref branches).leadsNowhere = g.leadsNowhere := by
  funext other
  unfold leadsNowhere
  rw [get?_setBranches]
  by_cases ho : other = ref
  · rw [if_pos ho, ho]
    cases g.get? ref <;> rfl
  · rw [if_neg ho]

/-! ## References -/

/-- One node refers to another, as a branch or as a condition. -/
def RefersTo (g : FlowGraph) (ref other : FlowRef) : Prop :=
  ∃ node, g.get? ref = some node ∧ (other ∈ node.branches ∨ other ∈ node.kind.conditions)

/-- **The entry leads to the node**, through any branches and conditions. -/
def Reachable (g : FlowGraph) (ref : FlowRef) : Prop :=
  Relation.ReflTransGen g.RefersTo g.entry ref

theorem Reachable.branch (href : g.Reachable ref) (hnode : g.get? ref = some node)
    (h : other ∈ node.branches) : g.Reachable other :=
  href.tail ⟨node, hnode, Or.inl h⟩

theorem Reachable.condition (href : g.Reachable ref) (hnode : g.get? ref = some node)
    (h : other ∈ node.kind.conditions) : g.Reachable other :=
  href.tail ⟨node, hnode, Or.inr h⟩

/-- What the entry leads to is in every set of nodes that is closed under references. -/
theorem Reachable.mem {nodes : List FlowRef} (hentry : g.entry ∈ nodes)
    (hclosed : ∀ ref ∈ nodes, ∀ node ∈ g.get? ref,
      ∀ other ∈ node.branches ++ node.kind.conditions, other ∈ nodes)
    (href : g.Reachable ref) : ref ∈ nodes := by
  induction href with
  | refl => exact hentry
  | tail _ hstep ih =>
    obtain ⟨node, hnode, hmem⟩ := hstep
    exact hclosed _ ih node hnode _ (List.mem_append.mpr hmem)

/-! ## Pruning -/

theorem prune_of_get? (cfg : Settings) (hnode : g.get? ref = some node) :
    (prune cfg ref g).result = .ok () ∧
      (prune cfg ref g).state = g.setBranches ref (g.keptBranches node) := by
  have hstate : (Action.state g).result = .ok g := rfl
  unfold prune
  rw [Action.bind_of_ok hstate]
  simp only [Action.state_apply, hnode]
  split
  · exact ⟨rfl, rfl⟩
  · exact ⟨rfl, rfl⟩

theorem prune_of_none (cfg : Settings) (hnode : g.get? ref = none) :
    prune cfg ref g = ⟨.error .outOfRange, g, []⟩ := by
  have hstate : (Action.state g).result = .ok g := rfl
  unfold prune
  rw [Action.bind_of_ok hstate]
  simp only [Action.state_apply, hnode]
  rfl

/-- A node without branches to cut is left as it is. -/
theorem prune_of_cut (cfg : Settings) (h : g.get? ref = some node) (hcut : g.cut node = node) :
    (prune cfg ref g).state = g := by
  rw [(prune_of_get? cfg h).2]
  have hbranches : g.keptBranches node = node.branches := congrArg FlowNode.branches hcut
  rw [hbranches, setBranches_self h]

/-- **The graph has been pruned where code has run**: its leaving blocks that `ran` have been cut,
and everything else is as it was. -/
structure PrunedAt (g g' : FlowGraph) (ran : FlowRef → Prop) : Prop where
  size_eq : g'.size = g.size
  entry_eq : g'.entry = g.entry
  cut : ∀ ref node, g.get? ref = some node → node.kind.leaves = true → ran ref →
    g'.get? ref = some (g.cut node)
  kept : ∀ ref node, g.get? ref = some node → ¬ (node.kind.leaves = true ∧ ran ref) →
    g'.get? ref = some node

namespace PrunedAt

protected theorem refl (g : FlowGraph) : PrunedAt g g fun _ => False where
  size_eq := rfl
  entry_eq := rfl
  cut _ _ _ _ h := h.elim
  kept _ _ h _ := h

theorem congr {ran' : FlowRef → Prop} (h : PrunedAt g g' ran) (hran : ∀ ref, ran' ref ↔ ran ref) :
    PrunedAt g g' ran' where
  size_eq := h.size_eq
  entry_eq := h.entry_eq
  cut ref node hn hl hr := h.cut ref node hn hl ((hran ref).mp hr)
  kept ref node hn hr := h.kept ref node hn fun ⟨hl, hr'⟩ => hr ⟨hl, (hran ref).mpr hr'⟩

/-- A node afterwards is an old one, cut or as it was. -/
theorem cases_get? (h : PrunedAt g g' ran) (hnode : g'.get? ref = some node') :
    ∃ node, g.get? ref = some node ∧
      ((node.kind.leaves = true ∧ ran ref ∧ node' = g.cut node) ∨
        (¬ (node.kind.leaves = true ∧ ran ref) ∧ node' = node)) := by
  obtain ⟨node, hold⟩ := get?_of_lt_size (h.size_eq ▸ lt_size_of_get? hnode)
  refine ⟨node, hold, ?_⟩
  by_cases hran : node.kind.leaves = true ∧ ran ref
  · have hcut := h.cut ref node hold hran.1 hran.2
    exact Or.inl ⟨hran.1, hran.2, Option.some.inj (hnode.symm.trans hcut)⟩
  · have hkept := h.kept ref node hold hran
    exact Or.inr ⟨hran, Option.some.inj (hnode.symm.trans hkept)⟩

/-- A node afterwards has the kind of an old one and no other branches; it is the old one, unless it
leaves. -/
theorem original (h : PrunedAt g g' ran) (hnode : g'.get? ref = some node') :
    ∃ node, g.get? ref = some node ∧ node'.kind = node.kind ∧ node'.branches ⊆ node.branches ∧
      (node.kind.leaves = false → node' = node) := by
  obtain ⟨node, hold, ⟨hleaves, -, rfl⟩ | ⟨-, rfl⟩⟩ := h.cases_get? hnode
  · refine ⟨node, hold, rfl, List.filter_sublist.subset, fun hstays => ?_⟩
    rw [hleaves] at hstays
    cases hstays
  · exact ⟨node', hold, rfl, List.Subset.refl _, fun _ => rfl⟩

/-- What is kept is the kind and the mark of every node. -/
theorem alike (h : PrunedAt g g' ran) (hnode : g.get? ref = some node) :
    ∃ node', g'.get? ref = some node' ∧ node'.kind = node.kind ∧
      node'.unreachable = node.unreachable ∧ g.cut node' = g.cut node := by
  by_cases hran : node.kind.leaves = true ∧ ran ref
  · exact ⟨_, h.cut ref node hnode hran.1 hran.2, rfl, rfl, g.cut_cut node⟩
  · exact ⟨node, h.kept ref node hnode hran, rfl, rfl, rfl⟩

theorem get?_eq_none_iff (h : PrunedAt g g' ran) : g'.get? ref = none ↔ g.get? ref = none := by
  have hsize : g'.nodes.size = g.nodes.size := h.size_eq
  unfold get?
  rw [Array.getElem?_eq_none_iff, Array.getElem?_eq_none_iff, hsize]

theorem leadsNowhere (h : PrunedAt g g' ran) : g'.leadsNowhere = g.leadsNowhere := by
  funext ref
  unfold FlowGraph.leadsNowhere
  cases hnode : g.get? ref with
  | none => rw [h.get?_eq_none_iff.mpr hnode]
  | some node =>
    obtain ⟨node', hnode', -, hmark, -⟩ := h.alike hnode
    rw [hnode']
    exact hmark

theorem cut_eq (h : PrunedAt g g' ran) : g'.cut = g.cut := by
  funext node
  unfold FlowGraph.cut keptBranches
  rw [h.leadsNowhere]

/-- **One more leaving block has run and is cut.** -/
theorem prune (h : PrunedAt g g' ran) (hnode : g'.get? ref = some node')
    (hleaves : node'.kind.leaves = true) :
    PrunedAt g (g'.setBranches ref (g'.keptBranches node')) fun r => ran r ∨ r = ref := by
  refine ⟨(size_setBranches ..).trans h.size_eq, h.entry_eq, ?_, ?_⟩
  · intro other node hold hl hran
    rw [get?_setBranches]
    by_cases ho : other = ref
    · subst ho
      obtain ⟨node₁, hnode₁, -, -, hcut⟩ := h.alike hold
      cases hnode.symm.trans hnode₁
      have hnew : ({ node' with branches := g'.keptBranches node' } : FlowNode) = g.cut node := by
        rw [← hcut, ← h.cut_eq]
        rfl
      rw [if_pos rfl, hnode, Option.map_some, hnew]
    · rw [if_neg ho]
      exact h.cut other node hold hl (hran.resolve_right ho)
  · intro other node hold hran
    rw [get?_setBranches]
    have ho : other ≠ ref := by
      rintro rfl
      obtain ⟨node₁, hnode₁, hkind, -, -⟩ := h.alike hold
      cases hnode.symm.trans hnode₁
      exact hran ⟨hkind ▸ hleaves, Or.inr rfl⟩
    rw [if_neg ho]
    exact h.kept other node hold fun ⟨hl, hr⟩ => hran ⟨hl, Or.inl hr⟩

/-- A node that does not leave may run. -/
theorem pass (h : PrunedAt g g' ran) (hnode : g'.get? ref = some node')
    (hleaves : node'.kind.leaves = false) : PrunedAt g g' fun r => ran r ∨ r = ref := by
  have hstays : ∀ other node, g.get? other = some node → node.kind.leaves = true →
      other ≠ ref := by
    rintro other node hold hl rfl
    obtain ⟨node₁, hnode₁, hkind, -, -⟩ := h.alike hold
    cases hnode.symm.trans hnode₁
    rw [hkind, hl] at hleaves
    cases hleaves
  refine ⟨h.size_eq, h.entry_eq, ?_, ?_⟩
  · intro other node hold hl hran
    exact h.cut other node hold hl (hran.resolve_right (hstays other node hold hl))
  · intro other node hold hran
    exact h.kept other node hold fun ⟨hl, hr⟩ => hran ⟨hl, Or.inl hr⟩

/-- What has been pruned is not pruned again. -/
theorem prune_again (h : PrunedAt g g' ran) (cfg : Settings) (hnode : g.get? ref = some node)
    (hleaves : node.kind.leaves = true) (hran : ran ref) :
    (FlowGraph.prune cfg ref g').state = g' := by
  refine prune_of_cut cfg (h.cut ref node hnode hleaves hran) ?_
  rw [h.cut_eq, cut_cut]

end PrunedAt

/-- **Pruning a second time changes nothing.** -/
theorem prune_prune (cfg : Settings) (h : g.get? ref = some node) :
    (prune cfg ref (prune cfg ref g).state).state = (prune cfg ref g).state := by
  rw [(prune_of_get? cfg h).2]
  refine prune_of_cut cfg (setBranches_of_get? h _) ?_
  have hcut := g.cut_cut node
  unfold cut keptBranches at hcut ⊢
  rw [leadsNowhere_setBranches]
  exact hcut

/-! ## Lasting edges -/

/-- An edge to a branch or a condition that pruning never takes away. -/
def Lasting (g : FlowGraph) (ref other : FlowRef) : Prop :=
  ∃ node, g.get? ref = some node ∧ (other ∈ node.branches ∨ other ∈ node.kind.conditions) ∧
    (node.kind.leaves = true → g.leadsNowhere other = true)

/-- **Every cycle goes over an edge that pruning takes away.** -/
def CyclesCut (g : FlowGraph) : Prop := ∀ ref, ¬ Relation.TransGen g.Lasting ref ref

theorem PrunedAt.lasting_iff (h : PrunedAt g g' ran) :
    g'.Lasting ref other ↔ g.Lasting ref other := by
  unfold Lasting
  rw [h.leadsNowhere]
  constructor
  · rintro ⟨node', hnode', hmem, hlast⟩
    obtain ⟨node, hnode, ⟨-, -, rfl⟩ | ⟨-, rfl⟩⟩ := h.cases_get? hnode'
    · exact ⟨node, hnode, hmem.imp_left fun hb => (List.mem_filter.mp hb).1, hlast⟩
    · exact ⟨node', hnode, hmem, hlast⟩
  · rintro ⟨node, hnode, hmem, hlast⟩
    by_cases hran : node.kind.leaves = true ∧ ran ref
    · refine ⟨_, h.cut ref node hnode hran.1 hran.2, hmem.imp_left fun hb => ?_, hlast⟩
      exact List.mem_filter.mpr ⟨hb, hlast hran.1⟩
    · exact ⟨node, h.kept ref node hnode hran, hmem, hlast⟩

end FlowGraph

end GmlLift
