import GmlLift.Proofs.Flow.Pruning
import GmlLift.Proofs.Lifting.Parallel
import Mathlib.Data.List.Forall2

/-!
# Graphs that are alike

A `Pairing` says which node of one graph is the counterpart of which node of another. The graphs are
alike under it if counterparts are nodes of one kind and one mark, with code that the pairing
allows, and if the nodes that they refer to are counterparts again. Nodes without a counterpart do
not matter. A number that is missing from both graphs may be its own counterpart.

Pruning counterparts leaves the graphs alike (`parallel_prune`), because no node has two
counterparts.
-/

namespace GmlLift

/-- **Which nodes of two graphs go together**, and what is asked of them. -/
structure Pairing where
  Counterparts : FlowRef → FlowRef → Prop
  /-- The code that nodes may have. -/
  Allows : List Instruction → Prop
  /-- The numbers that may be in neither graph. -/
  Misses : FlowRef → Prop
  unique : Relator.BiUnique Counterparts

/-- Kinds of nodes that differ in the nodes that they refer to only. -/
inductive FlowKind.Alike (P : Pairing) : FlowKind → FlowKind → Prop
  | block {b : Block} (h : P.Allows b.code) : FlowKind.Alike P (.block b) (.block b)
  | conditional {header : Block} (h : P.Allows header.code) :
      FlowKind.Alike P (.conditional header) (.conditional header)
  | loop (kind : LoopKind) : FlowKind.Alike P (.loop kind) (.loop kind)
  | switch : FlowKind.Alike P .switch .switch
  | shortCircuit (op : Connective) {conditions conditions' : List FlowRef}
      (h : List.Forall₂ P.Counterparts conditions conditions') :
      FlowKind.Alike P (.shortCircuit op conditions) (.shortCircuit op conditions')

structure FlowNode.Alike (P : Pairing) (node node' : FlowNode) : Prop where
  kind : node.kind.Alike P node'.kind
  branches : List.Forall₂ P.Counterparts node.branches node'.branches
  unreachable : node'.unreachable = node.unreachable

namespace FlowGraph

/-- What two graphs have at two numbers. -/
inductive AlikeAt (P : Pairing) (g g' : FlowGraph) (ref ref' : FlowRef) : Prop
  | missing (h : g.get? ref = none) (h' : g'.get? ref' = none) (hmisses : P.Misses ref)
      (heq : ref' = ref)
  | found {node node' : FlowNode} (h : g.get? ref = some node) (h' : g'.get? ref' = some node')
      (halike : node.Alike P node')

/-- **The graphs are alike**, as far as nodes have counterparts. -/
structure Alike (P : Pairing) (g g' : FlowGraph) : Prop where
  entry : P.Counterparts g.entry g'.entry
  nodes : ∀ {ref ref'}, P.Counterparts ref ref' → AlikeAt P g g' ref ref'

variable {P : Pairing} {g g' : FlowGraph} {ref ref' : FlowRef} {node node' : FlowNode}

namespace Alike

theorem leadsNowhere (h : g.Alike P g') (href : P.Counterparts ref ref') :
    g'.leadsNowhere ref' = g.leadsNowhere ref := by
  unfold FlowGraph.leadsNowhere
  cases h.nodes href with
  | missing hg hg' _ _ => rw [hg, hg']
  | found hg hg' halike =>
    rw [hg, hg']
    exact halike.unreachable

theorem keptBranches (h : g.Alike P g') (hnode : node.Alike P node') :
    List.Forall₂ P.Counterparts (g.keptBranches node) (g'.keptBranches node') := by
  refine List.rel_filter (fun ref ref' href => ?_) hnode.branches
  exact Bool.eq_iff_iff.mp (h.leadsNowhere href).symm

/-- Counterparts get branches that are counterparts. -/
theorem setBranches (h : g.Alike P g') (href : P.Counterparts ref ref')
    {branches branches' : List FlowRef}
    (hbranches : List.Forall₂ P.Counterparts branches branches') :
    (g.setBranches ref branches).Alike P (g'.setBranches ref' branches') where
  entry := h.entry
  nodes := by
    intro other other' hother
    have hiff : other = ref ↔ other' = ref' := Relator.rel_eq P.unique hother href
    by_cases ho : other = ref
    · obtain rfl := ho
      obtain rfl := hiff.mp rfl
      cases h.nodes hother with
      | missing hg hg' hmisses heq =>
        refine .missing ?_ ?_ hmisses heq
        · rw [get?_setBranches, if_pos rfl, hg]
          rfl
        · rw [get?_setBranches, if_pos rfl, hg']
          rfl
      | found hg hg' halike =>
        exact .found (setBranches_of_get? hg _) (setBranches_of_get? hg' _)
          ⟨halike.kind, hbranches, halike.unreachable⟩
    · have ho' : other' ≠ ref' := fun he => ho (hiff.mpr he)
      cases h.nodes hother with
      | missing hg hg' hmisses heq =>
        refine .missing ?_ ?_ hmisses heq
        · rw [get?_setBranches, if_neg ho, hg]
        · rw [get?_setBranches, if_neg ho', hg']
      | found hg hg' halike =>
        refine .found ?_ ?_ halike
        · rw [get?_setBranches, if_neg ho, hg]
        · rw [get?_setBranches, if_neg ho', hg']

end Alike

/-- **Pruning goes side by side**, whatever is reported. -/
theorem parallel_prune (cfg cfg' : Settings) (href : P.Counterparts ref ref') :
    Action.Parallel (Alike P) Eq (prune cfg ref) (prune cfg' ref') := by
  intro g g' h
  cases h.nodes href with
  | missing hg hg' _ _ =>
    rw [prune_of_none cfg hg, prune_of_none cfg' hg']
    exact ⟨h, .error _⟩
  | found hg hg' halike =>
    obtain ⟨hresult, hstate⟩ := prune_of_get? cfg hg
    obtain ⟨hresult', hstate'⟩ := prune_of_get? cfg' hg'
    rw [hresult, hstate, hresult', hstate']
    exact ⟨h.setBranches href (h.keptBranches halike), .ok rfl⟩

end FlowGraph

/-! ## One graph beside itself -/

/-- Every number is its own counterpart. -/
def Pairing.same (allows : List Instruction → Prop) : Pairing where
  Counterparts := Eq
  Allows := allows
  Misses _ := True
  unique := ⟨fun _ _ _ h h' => h.trans h'.symm, fun _ _ _ h h' => h.symm.trans h'⟩

namespace FlowGraph

variable {allows : List Instruction → Prop} {g g' : FlowGraph}

theorem alike_same (h : ∀ ref node, g.get? ref = some node → allows node.kind.code) :
    g.Alike (.same allows) g where
  entry := rfl
  nodes := by
    rintro ref _ rfl
    cases hnode : g.get? ref with
    | none => exact .missing hnode hnode trivial rfl
    | some node =>
      refine .found hnode hnode ⟨?_, List.forall₂_same.mpr fun _ _ => rfl, rfl⟩
      have hcode := h ref node hnode
      cases hkind : node.kind with
      | block b => exact .block (by rwa [hkind] at hcode)
      | conditional header => exact .conditional (by rwa [hkind] at hcode)
      | loop kind => exact .loop kind
      | switch => exact .switch
      | shortCircuit op conditions =>
        exact .shortCircuit op (List.forall₂_same.mpr fun _ _ => rfl)

/-- Graphs that are alike with every number as its own counterpart are equal. -/
theorem Alike.eq (h : g.Alike (.same allows) g') : g' = g := by
  refine ext_get? h.entry.symm fun ref => ?_
  cases h.nodes (rfl : ref = ref) with
  | missing hg hg' _ _ => rw [hg, hg']
  | @found node node' hg hg' halike =>
    obtain ⟨kind, branches, unreachable⟩ := node
    obtain ⟨kind', branches', unreachable'⟩ := node'
    obtain ⟨hkind, hbranches, hmark⟩ := halike
    simp only [Pairing.same, List.forall₂_eq_eq_eq] at hbranches hmark
    rw [hg, hg', hbranches, hmark]
    cases hkind with
    | shortCircuit op hconditions =>
      simp only [Pairing.same, List.forall₂_eq_eq_eq] at hconditions
      rw [hconditions]
    | _ => rfl

end FlowGraph

end GmlLift
