import GmlLift.Proofs.Assembly.Likeness
import GmlLift.Proofs.Lifted.Budget
import Mathlib.Data.Set.Function

/-!
# Numbers do not matter

A graph is renumbered by a map that is injective on the nodes that its entry leads to and keeps
them: their kinds, their branches and their marks. The other graph may have more nodes, and nodes
that the entry does not lead to need not be kept.

Results:
* `FlowGraph.renumbers_of_closed`: it is enough to look at a list of nodes that contains the entry
  and every node that its members refer to.
* `liftsTo_renumbered`: graphs that differ in their numbers are lifted alike.
-/

namespace GmlLift

/-! ## Renumbering -/

def FlowKind.rename (f : FlowRef → FlowRef) : FlowKind → FlowKind
  | .shortCircuit op conditions => .shortCircuit op (conditions.map f)
  | .block b => .block b
  | .conditional header => .conditional header
  | .loop kind => .loop kind
  | .switch => .switch

/-- The node with other numbers for the nodes that it refers to. -/
def FlowNode.rename (f : FlowRef → FlowRef) (node : FlowNode) : FlowNode where
  kind := node.kind.rename f
  branches := node.branches.map f
  unreachable := node.unreachable

namespace FlowGraph

variable {g h g' h' : FlowGraph} {f : FlowRef → FlowRef} {ref ref' other : FlowRef}
  {node node' : FlowNode}

/-- The nodes of one graph are in the other, under other numbers. -/
def Corresponds (nodes : FlowRef → Prop) (f : FlowRef → FlowRef) (g h : FlowGraph) : Prop :=
  ∀ ref, nodes ref → ∃ node, g.get? ref = some node ∧ h.get? (f ref) = some (node.rename f)

/-- **The map renumbers the part of the graph that its entry leads to.** -/
structure Renumbers (f : FlowRef → FlowRef) (g h : FlowGraph) : Prop where
  entry : h.entry = f g.entry
  injective : Set.InjOn f {ref | g.Reachable ref}
  nodes : Corresponds g.Reachable f g h

/-- **Where a list is closed under references, only its members are to be compared.** -/
theorem renumbers_of_closed (nodes : List FlowRef) (hentry : g.entry ∈ nodes)
    (hclosed : ∀ ref ∈ nodes, ∀ node ∈ g.get? ref,
      ∀ other ∈ node.branches ++ node.kind.conditions, other ∈ nodes)
    (hf : h.entry = f g.entry)
    (hinj : ∀ ref ∈ nodes, ∀ ref' ∈ nodes, f ref = f ref' → ref = ref')
    (hnodes : ∀ ref ∈ nodes, (g.get? ref).isSome = true ∧
      h.get? (f ref) = (g.get? ref).map (FlowNode.rename f)) : Renumbers f g h where
  entry := hf
  injective ref href ref' href' :=
    hinj ref (Reachable.mem hentry hclosed href) ref' (Reachable.mem hentry hclosed href')
  nodes ref href := by
    obtain ⟨hsome, hmap⟩ := hnodes ref (Reachable.mem hentry hclosed href)
    obtain ⟨node, hnode⟩ := Option.isSome_iff_exists.mp hsome
    rw [hnode] at hmap
    exact ⟨node, hnode, hmap⟩

/-! ## Renumbered graphs are alike -/

/-- A node that the entry leads to is the counterpart of its image. -/
def renumbering (g : FlowGraph) (f : FlowRef → FlowRef)
    (hf : Set.InjOn f {ref | g.Reachable ref}) : Pairing where
  Counterparts ref ref' := g.Reachable ref ∧ ref' = f ref
  Allows _ := True
  Misses _ := False
  unique := by
    constructor
    · rintro ref other _ ⟨href, rfl⟩ ⟨hother, heq⟩
      exact hf href hother heq
    · rintro _ _ _ ⟨-, rfl⟩ ⟨-, rfl⟩
      rfl

variable {hf : Set.InjOn f {ref | g.Reachable ref}}

theorem forall₂_map_renumbering {refs : List FlowRef} (h : ∀ ref ∈ refs, g.Reachable ref) :
    List.Forall₂ (renumbering g f hf).Counterparts refs (refs.map f) :=
  List.forall₂_map_right_iff.mpr (List.forall₂_same.mpr fun ref href => ⟨h ref href, rfl⟩)

theorem eq_map_of_forall₂_renumbering {refs refs' : List FlowRef}
    (h : List.Forall₂ (renumbering g f hf).Counterparts refs refs') : refs' = refs.map f := by
  have hmap : List.Forall₂ Eq (refs.map f) refs' :=
    List.forall₂_map_left_iff.mpr (h.imp fun _ _ href => href.2.symm)
  rw [List.forall₂_eq_eq_eq] at hmap
  exact hmap.symm

theorem alike_rename (href : g.Reachable ref) (hnode : g.get? ref = some node) :
    node.Alike (renumbering g f hf) (node.rename f) where
  kind := by
    have hconditions : ∀ other ∈ node.kind.conditions, g.Reachable other :=
      fun other => href.condition hnode
    unfold FlowNode.rename
    cases hkind : node.kind with
    | block b => exact .block trivial
    | conditional header => exact .conditional trivial
    | loop kind => exact .loop kind
    | switch => exact .switch
    | shortCircuit op conditions =>
      rw [hkind] at hconditions
      exact .shortCircuit op (forall₂_map_renumbering hconditions)
  branches := forall₂_map_renumbering fun other => href.branch hnode
  unreachable := rfl

theorem eq_rename_of_alike (h : node.Alike (renumbering g f hf) node') :
    node' = node.rename f := by
  obtain ⟨kind, branches, unreachable⟩ := node
  obtain ⟨kind', branches', unreachable'⟩ := node'
  obtain ⟨hkind, hbranches, hmark⟩ := h
  have hbranches' : branches' = branches.map f := eq_map_of_forall₂_renumbering hbranches
  have hmark' : unreachable' = unreachable := hmark
  subst hbranches' hmark'
  cases hkind with
  | shortCircuit op hconditions =>
    rw [eq_map_of_forall₂_renumbering hconditions]
    rfl
  | _ => rfl

theorem Renumbers.alike (hr : Renumbers f g h) : g.Alike (renumbering g f hr.injective) h where
  entry := ⟨.refl, hr.entry⟩
  nodes := by
    rintro ref _ ⟨href, rfl⟩
    obtain ⟨node, hnode, hnode'⟩ := hr.nodes ref href
    exact .found hnode hnode' (alike_rename href hnode)

theorem Alike.corresponds (h : g'.Alike (renumbering g f hf) h') :
    Corresponds g.Reachable f g' h' := by
  intro ref href
  have href' : (renumbering g f hf).Counterparts ref (f ref) := ⟨href, rfl⟩
  cases h.nodes href' with
  | missing _ _ hmisses _ => exact hmisses.elim
  | @found node node' hnode hnode' halike =>
    rw [eq_rename_of_alike halike] at hnode'
    exact ⟨node, hnode, hnode'⟩

end FlowGraph

/-! ## Lifting renumbered graphs -/

open GmlLift.FlowGraph

variable {g h : FlowGraph} {f : FlowRef → FlowRef}

/-- Within one budget the liftings have the same end, or both none. -/
theorem liftWithin_renumbered (cfg : Settings) (hr : Renumbers f g h) (budget : Nat) :
    (liftWithin cfg budget h).result = (liftWithin cfg budget g).result ∧
      Corresponds g.Reachable f (liftWithin cfg budget g).state
        (liftWithin cfg budget h).state := by
  have halike := hr.alike
  obtain ⟨⟨hmachine, hgraph⟩, hend⟩ := Assembly.parallel_fragment (.refl _ cfg) budget Tree.root
    halike.entry { graph := g } { graph := h } ⟨rfl, halike⟩
  refine ⟨?_, hgraph.corresponds⟩
  simp only [liftWithin]
  rw [hmachine, hend.eq]

/-- **How a graph is numbered, and what its entry does not lead to, does not matter**: the liftings
of a graph and of a renumbered one end together, with the same tree or for the same reason, and the
nodes that the first entry leads to still correspond, with the branches that they are left with. The
same holds of `liftGraph`, where both of its budgets are enough. -/
theorem liftsTo_renumbered (cfg : Settings) (hr : Renumbers f g h) :
    (∀ result g', LiftsTo cfg g result g' →
      ∃ h', LiftsTo cfg h result h' ∧ Corresponds g.Reachable f g' h') ∧
    (∀ result h', LiftsTo cfg h result h' →
      ∃ g', LiftsTo cfg g result g' ∧ Corresponds g.Reachable f g' h') ∧
    ((liftGraph cfg).EndsOn g → (liftGraph cfg).EndsOn h →
      (liftGraph cfg h).result = (liftGraph cfg g).result ∧
        Corresponds g.Reachable f (liftGraph cfg g).state (liftGraph cfg h).state) := by
  have hto : ∀ result g', LiftsTo cfg g result g' →
      ∃ h', LiftsTo cfg h result h' ∧ Corresponds g.Reachable f g' h' := by
    rintro _ _ ⟨budget, hends, rfl, rfl⟩
    obtain ⟨hresult, hnodes⟩ := liftWithin_renumbered cfg hr budget
    exact ⟨_, ⟨budget, fun he => hends (hresult.symm.trans he), hresult, rfl⟩, hnodes⟩
  refine ⟨hto, ?_, fun hg hh => ?_⟩
  · rintro _ _ ⟨budget, hends, rfl, rfl⟩
    obtain ⟨hresult, hnodes⟩ := liftWithin_renumbered cfg hr budget
    exact ⟨_, ⟨budget, fun he => hends (hresult.trans he), hresult.symm, rfl⟩, hnodes⟩
  · obtain ⟨h', hlifts, hnodes⟩ := hto _ _ (liftsTo_of_endsOn hg)
    obtain ⟨hresult, rfl⟩ := hlifts.unique (liftsTo_of_endsOn hh)
    exact ⟨hresult, hnodes⟩

/-- A loop with a short circuit, one of whose conditions is shared, and with a block that continues
and one that breaks, numbered backwards. The node without a number in the other graph is not one
that the entry leads to. -/
theorem liftsTo_renumbered_backwards :
    let one : Instruction := { opcode := .push, type1 := .int16, literal := some (.int16 1) }
    let g : FlowGraph := {
      nodes := #[
        { kind := .loop .whileLoop, branches := [⟨5⟩, ⟨1⟩] },
        { kind := .shortCircuit .and [⟨2⟩, ⟨2⟩], branches := [⟨3⟩] },
        { kind := .block { code := [one] } },
        { kind := .conditional {}, branches := [⟨5⟩, ⟨4⟩] },
        { kind := .block { role := .continueOn }, branches := [⟨0⟩] },
        { kind := .block { role := .breakOut }, branches := [⟨5⟩] },
        { kind := .conditional {}, branches := [⟨9⟩] }] }
    let h : FlowGraph := {
      nodes := #[
        { kind := .switch, branches := [⟨1⟩], unreachable := true },
        { kind := .block { role := .breakOut }, branches := [⟨1⟩] },
        { kind := .block { role := .continueOn }, branches := [⟨6⟩] },
        { kind := .conditional {}, branches := [⟨1⟩, ⟨2⟩] },
        { kind := .block { code := [one] } },
        { kind := .shortCircuit .and [⟨4⟩, ⟨4⟩], branches := [⟨3⟩] },
        { kind := .loop .whileLoop, branches := [⟨1⟩, ⟨5⟩] }]
      entry := ⟨6⟩ }
    let f : FlowRef → FlowRef := fun ref => ⟨6 - ref.index⟩
    Renumbers f g h ∧ (liftGraph {} g).result.isOk = true ∧
      (liftGraph {} h).result = (liftGraph {} g).result ∧
      Corresponds g.Reachable f (liftGraph {} g).state (liftGraph {} h).state ∧
      (liftGraph {} g).state.branchTable = [[⟨5⟩, ⟨1⟩], [⟨3⟩], [], [⟨5⟩, ⟨4⟩], [], [], [⟨9⟩]] ∧
      (liftGraph {} h).state.branchTable = [[⟨1⟩], [], [], [⟨1⟩, ⟨2⟩], [], [⟨3⟩], [⟨1⟩, ⟨5⟩]] := by
  intro one g h f
  have hr : Renumbers f g h := by
    refine renumbers_of_closed ((List.range 6).map FlowRef.mk) ?_ ?_ ?_ ?_ ?_ <;> decide
  have hg : (liftGraph {} g).result.isOk = true := by decide +kernel
  have hh : (liftGraph {} h).result.isOk = true := by decide +kernel
  obtain ⟨hresult, hnodes⟩ := (liftsTo_renumbered {} hr).2.2 (.of_isOk hg) (.of_isOk hh)
  exact ⟨hr, hg, hresult, hnodes, by decide +kernel, by decide +kernel⟩

end GmlLift
