import GmlLift.Proofs.Assembly.Echo
import GmlLift.Proofs.Assembly.Layout
import GmlLift.Proofs.Lifted.Budget

/-!
# Lifted functions are laid out

Every node of a lifted function has the children that its kind asks for, each in its place. It does
not matter what is reported on the way: settings that report nothing come to the same tree.
-/

namespace GmlLift

open GmlLift.Action

variable {cfg cfg' : Settings} {own : NodeId → Prop}

/-- Of the settings only the dialect counts. -/
theorem Tree.Layout.congr {t : Tree} (h : cfg'.isLegacy = cfg.isLegacy)
    (ht : t.Layout cfg own) : t.Layout cfg' own where
  closed := ht.closed
  fresh := ht.fresh
  laidOut id n hown hn := by
    have harrangements : n.kind.arrangements cfg' = n.kind.arrangements cfg := by
      unfold Kind.arrangements
      rw [h]
    obtain ⟨⟨a, ha, hsuits⟩, howned⟩ := ht.laidOut id n hown hn
    exact ⟨⟨a, harrangements ▸ ha, hsuits⟩, howned⟩

/-- **What an assembly has made is laid out**, into whatever tree it goes. -/
theorem Assembly.fragment_layout {budget : Nat} {container : NodeId} {node : FlowRef}
    {s : Assembly} {leftover : OperandStack} (ht : s.machine.tree.Layout cfg own)
    (hc : s.machine.tree.Takes own .container container)
    (h : (fragment cfg budget container node s).result = .ok leftover) :
    (fragment cfg budget container node s).state.machine.tree.Layout cfg own := by
  have hhush := cfg.hushes_quiet
  rcases hushed_fragment hhush budget container node s with ⟨hstate, hresult⟩ | ⟨_, herror, -⟩
  · have hseated : Visit.Seated own s.machine.tree { container, node } := ⟨hc, nofun, nofun⟩
    have hkept := (Scheme.layout_upkeep rfl own).fragment budget (ht.congr hhush.isLegacy) hseated
    rw [h] at hresult
    have hlayout := ((meets_of_ok hresult).mp hkept).1
    rw [hstate] at hlayout
    exact hlayout.congr hhush.isLegacy.symm
  · rw [h] at herror
    cases herror

/-- **Every node of a lifted function is laid out**: its children are those of one of the
arrangements of its kind, and a variable has an owner. -/
theorem liftGraph_laidOut {g : FlowGraph} {t : Tree}
    (h : (liftGraph cfg g).result = .ok t ∨ ∃ g', LiftsTo cfg g (.ok t) g')
    (id : NodeId) (n : Node) (hn : t.get? id = some n) : n.LaidOut cfg t.Fills := by
  obtain ⟨budget, h⟩ := exists_liftWithin h
  obtain ⟨leftover, hok, rfl⟩ := fragment_of_liftWithin h
  have hroot : Tree.new.Takes (fun _ => True) .container Tree.root :=
    ⟨Machine.wellFormed_new.container, fun _ => ⟨_, rfl, rfl⟩⟩
  have hlayout := Assembly.fragment_layout (Tree.layout_new cfg) hroot hok
  exact (hlayout.laidOut id n trivial hn).mono fun _ _ hf => hf.1

/-- A conditional expression as an index of a flattened array, in a loop that is continued: the
conditional has left its container, and the variable has two indices. -/
theorem liftGraph_laidOut_flattened :
    let number (n : Int16) : Instruction :=
      { opcode := .push, type1 := .int16, literal := some (.int16 n) }
    let stride : Instruction := { opcode := .push, type1 := .int32, literal := some (.int32 32000) }
    let element : Instruction :=
      { opcode := .push, type1 := .variant, reference := some ⟨7, .array⟩ }
    let g : FlowGraph := {
      nodes := #[
        { kind := .loop .whileLoop, branches := [⟨5⟩, ⟨1⟩] },
        { kind := .conditional { code := [number 4, number 1] }, branches := [⟨4⟩, ⟨2⟩, ⟨3⟩] },
        { kind := .block { code := [number 2] } },
        { kind := .block { code := [number 3] } },
        { kind := .block { role := .continueOn, code := [stride, { opcode := .mul }, number 6,
            { opcode := .add }, element, { opcode := .popz }] } },
        { kind := .block {} }]
      entry := ⟨0⟩ }
    let value : Node := { kind := .conditional 1, children := [⟨4⟩, ⟨6⟩, ⟨7⟩, ⟨8⟩, ⟨9⟩] }
    let indexed : Node := { kind := .var 7 .array (some ⟨3⟩), children := [⟨5⟩, ⟨12⟩] }
    ∃ t, (liftGraph {} g).result = .ok t ∧ t.get? ⟨5⟩ = some value ∧ t.get? ⟨14⟩ = some indexed ∧
      value.LaidOut {} t.Fills ∧ indexed.LaidOut {} t.Fills := by
  intro number stride element g value indexed
  have hnodes : (liftGraph {} g).result.map (fun t => (t.get? ⟨5⟩, t.get? ⟨14⟩)) =
      .ok (some value, some indexed) := by
    decide +kernel
  cases hresult : (liftGraph {} g).result with
  | error e =>
    rw [hresult] at hnodes
    cases hnodes
  | ok t =>
    rw [hresult] at hnodes
    obtain ⟨hvalue, hindexed⟩ := Prod.mk.inj (Except.ok.inj hnodes)
    exact ⟨t, rfl, hvalue, hindexed, liftGraph_laidOut (Or.inl hresult) _ _ hvalue,
      liftGraph_laidOut (Or.inl hresult) _ _ hindexed⟩

end GmlLift
