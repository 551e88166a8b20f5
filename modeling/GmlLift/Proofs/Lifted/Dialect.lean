import GmlLift.Proofs.Assembly.Likeness
import GmlLift.Proofs.Lifted.Budget
import Mathlib.Data.Prod.Lex

/-!
# The version matters only where it is meant to

Versions before 2.3 are the legacy dialect. A function is lifted in the same way by any two versions
of one dialect; and by any two versions at all, if none of its instructions is dialectal.
-/

namespace GmlLift

variable {cfg cfg' : Settings} {g : FlowGraph}

/-- No instruction of the graph is dialectal. -/
def FlowGraph.IsUndialectal (g : FlowGraph) : Prop :=
  ∀ ref node, g.get? ref = some node → ∀ i ∈ node.kind.code, i.isDialectal = false

/-- Versions are compared by their first two numbers. -/
theorem Settings.isLegacy_iff (cfg : Settings) :
    cfg.isLegacy = true ↔
      toLex (cfg.version.major, cfg.version.minor) < toLex ((2, 3) : UInt32 × UInt32) := by
  rw [Prod.Lex.toLex_lt_toLex]
  simp only [isLegacy, Version.isAtLeast, Bool.not_eq_true', Bool.or_eq_false_iff,
    Bool.and_eq_false_iff, decide_eq_false_iff_not]
  grind

/-- **The settings lift the graph in the same way**: to the same result, and with the same graph
left, within the budget of the graph and also with as many visits as it takes. -/
structure LiftAlike (cfg cfg' : Settings) (g : FlowGraph) : Prop where
  result : (liftGraph cfg' g).result = (liftGraph cfg g).result
  state : (liftGraph cfg' g).state = (liftGraph cfg g).state
  liftsTo : ∀ result g', LiftsTo cfg' g result g' ↔ LiftsTo cfg g result g'

section Agreement

variable (hv : cfg'.verbosity = cfg.verbosity)
  (h : ∀ ref node, g.get? ref = some node → ∀ i ∈ node.kind.code, cfg.AgreeOn cfg' i)

include hv h

theorem liftWithin_congr (budget : Nat) :
    (liftWithin cfg' budget g).result = (liftWithin cfg budget g).result ∧
      (liftWithin cfg' budget g).state = (liftWithin cfg budget g).state := by
  let allows (code : List Instruction) : Prop := ∀ i ∈ code, cfg.AgreeOn cfg' i
  have hcfg : cfg.Accord allows cfg' :=
    ⟨hv, fun code hcode container => Machine.execute_congr hv hcode container⟩
  obtain ⟨⟨hmachine, hgraph⟩, hend⟩ :=
    Assembly.parallel_fragment (P := .same allows) hcfg budget Tree.root (rfl : g.entry = g.entry)
      { graph := g } { graph := g } ⟨rfl, FlowGraph.alike_same h⟩
  simp only [liftWithin]
  rw [hmachine, hend.eq, hgraph.eq]
  exact ⟨rfl, rfl⟩

/-- Settings that agree on every instruction of a graph lift it in the same way. -/
theorem liftAlike_of_agreeOn : LiftAlike cfg cfg' g := by
  have hwithin := liftWithin_congr hv h
  obtain ⟨hresult, hstate⟩ := liftGraph_eq_liftWithin cfg g
  obtain ⟨hresult', hstate'⟩ := liftGraph_eq_liftWithin cfg' g
  refine ⟨?_, ?_, fun result g' => exists_congr fun budget => ?_⟩
  · rw [hresult, hresult', (hwithin g.budget).1]
  · rw [hstate, hstate', (hwithin g.budget).2]
  · unfold Action.EndsOn
    rw [(hwithin budget).1, (hwithin budget).2]

end Agreement

/-- **The version matters only where it is meant to**: two versions that both come before 2.3 or
both do not lift every graph in the same way; and any two versions do so with a graph in which no
instruction reads or writes an element of an array and none is a swap. -/
theorem liftGraph_version (v v' : Version) (verbosity : Option Level) :
    ((toLex (v.major, v.minor) < toLex ((2, 3) : UInt32 × UInt32) ↔
        toLex (v'.major, v'.minor) < toLex ((2, 3) : UInt32 × UInt32)) →
      ∀ g, LiftAlike ⟨v, verbosity⟩ ⟨v', verbosity⟩ g) ∧
    ∀ g : FlowGraph, g.IsUndialectal → LiftAlike ⟨v, verbosity⟩ ⟨v', verbosity⟩ g := by
  constructor
  · intro hsame g
    refine liftAlike_of_agreeOn rfl fun _ _ _ _ _ => Or.inl ?_
    rw [Bool.eq_iff_iff, Settings.isLegacy_iff, Settings.isLegacy_iff]
    exact hsame.symm
  · intro g hplain
    exact liftAlike_of_agreeOn rfl fun ref node hnode i hi => Or.inr (hplain ref node hnode i hi)

/-- An element of a flattened array is lifted in one way by versions 1.4 and 2.2 and in another way
by version 2.3, but without the access to it all three agree. -/
theorem liftGraph_version_flattened :
    let number (n : Int16) : Instruction :=
      { opcode := .push, type1 := .int16, literal := some (.int16 n) }
    let stride : Instruction := { opcode := .push, type1 := .int32, literal := some (.int32 32000) }
    let element : Instruction :=
      { opcode := .push, type1 := .variant, reference := some ⟨7, .array⟩ }
    let index : List Instruction :=
      [number 4, number 1, stride, { opcode := .mul }, number 6, { opcode := .add }]
    let g : FlowGraph := {
      nodes := #[
        { kind := .block { code := index ++ [element, { opcode := .ret }], role := .breakOut },
          branches := [⟨1⟩] },
        { kind := .block {} }] }
    let g' : FlowGraph := {
      nodes := #[
        { kind := .block { code := index ++ [{ opcode := .ret }], role := .breakOut },
          branches := [⟨1⟩] },
        { kind := .block {} }] }
    let old : Settings := { version := { major := 1, minor := 4 } }
    let last : Settings := { version := { major := 2, minor := 2, release := 5 } }
    let new : Settings := { version := { major := 2, minor := 3 } }
    LiftAlike old last g ∧ (liftGraph new g).result ≠ (liftGraph old g).result ∧
      g'.IsUndialectal ∧ LiftAlike old new g' ∧
      (liftGraph old g').state.branchTable = [[], []] := by
  intro number stride element index g g' old last new
  have hplain : g'.IsUndialectal := by
    have hnodes : ∀ i < 2, ∀ node ∈ g'.get? ⟨i⟩, ∀ j ∈ node.kind.code, j.isDialectal = false := by
      decide
    exact fun ref node hnode => hnodes ref.index (FlowGraph.lt_size_of_get? hnode) node hnode
  have hbefore : toLex (old.version.major, old.version.minor) < toLex ((2, 3) : UInt32 × UInt32) ↔
      toLex (last.version.major, last.version.minor) < toLex ((2, 3) : UInt32 × UInt32) := by
    simp only [Prod.Lex.toLex_lt_toLex]
    decide
  exact ⟨(liftGraph_version old.version last.version none).1 hbefore g, by decide +kernel, hplain,
    (liftGraph_version old.version new.version none).2 g' hplain, by decide +kernel⟩

end GmlLift
