import GmlLift.Proofs.Assembly.Moments

/-!
# Lifting without a budget

The budget of `liftGraph` depends on the whole graph. `liftWithin` lifts within any budget, and
`LiftsTo` says what a lifting comes to that is given as many visits as it needs: it ends, with one
result and one graph. Where `liftGraph` ends, it comes to the same. So what is said of every tree
that is lifted within some budget is said of `liftGraph` and of `LiftsTo` (`exists_liftWithin`).
-/

namespace GmlLift

open GmlLift.Action

variable {cfg : Settings} {g g' g'' : FlowGraph} {result result' : Except Halt Tree}

/-- Lifts the function of a flow graph within a budget of visits. -/
def liftWithin (cfg : Settings) (budget : Nat) : Action FlowGraph Tree := fun g =>
  let o := Assembly.fragment cfg budget Tree.root g.entry { graph := g }
  ⟨o.result.map fun _ => o.state.machine.tree, o.state.graph, o.notes⟩

theorem liftGraph_eq_liftWithin (cfg : Settings) (g : FlowGraph) :
    (liftGraph cfg g).result = (liftWithin cfg g.budget g).result ∧
      (liftGraph cfg g).state = (liftWithin cfg g.budget g).state :=
  Moment.liftGraph_eq_fragment cfg g

theorem liftWithin_mono (cfg : Settings) {budget budget' : Nat} (h : budget ≤ budget') :
    Approximates (liftWithin cfg budget) (liftWithin cfg budget') := by
  intro g hends
  have hfragment : (Assembly.fragment cfg budget Tree.root g.entry).EndsOn { graph := g } := by
    intro hendless
    refine hends ?_
    simp only [liftWithin]
    rw [hendless]
    rfl
  have hsame : Assembly.fragment cfg budget' Tree.root g.entry { graph := g } =
      Assembly.fragment cfg budget Tree.root g.entry { graph := g } :=
    Assembly.approximates_onFreshStack (Assembly.walk_mono cfg h _) _ hfragment
  simp only [liftWithin, hsame]

theorem fragment_of_liftWithin {budget : Nat} {t : Tree}
    (h : (liftWithin cfg budget g).result = .ok t) :
    let o := Assembly.fragment cfg budget Tree.root g.entry { graph := g }
    ∃ leftover, o.result = .ok leftover ∧ o.state.machine.tree = t :=
  exists_of_map_eq_ok h

/-- **Given enough visits, lifting the graph ends**, with this result, and leaves this graph. -/
def LiftsTo (cfg : Settings) (g : FlowGraph) (result : Except Halt Tree) (g' : FlowGraph) : Prop :=
  ∃ budget, (liftWithin cfg budget).EndsOn g ∧ (liftWithin cfg budget g).result = result ∧
    (liftWithin cfg budget g).state = g'

/-- Lifting ends in one way only. -/
theorem LiftsTo.unique (h : LiftsTo cfg g result g') (h' : LiftsTo cfg g result' g'') :
    result' = result ∧ g'' = g' := by
  obtain ⟨budget, hends, rfl, rfl⟩ := h
  obtain ⟨budget', hends', rfl, rfl⟩ := h'
  rcases Nat.le_total budget budget' with hle | hle
  · rw [liftWithin_mono cfg hle g hends]
    exact ⟨rfl, rfl⟩
  · rw [liftWithin_mono cfg hle g hends']
    exact ⟨rfl, rfl⟩

/-- Where the budget of the graph is enough, no other is needed. -/
theorem liftsTo_of_endsOn (h : (liftGraph cfg).EndsOn g) :
    LiftsTo cfg g (liftGraph cfg g).result (liftGraph cfg g).state := by
  obtain ⟨hresult, hstate⟩ := liftGraph_eq_liftWithin cfg g
  refine ⟨g.budget, fun hendless => h ?_, hresult.symm, hstate.symm⟩
  rw [hresult, hendless]

/-- What comes of a graph, with its own budget or given enough visits, comes of it within some
budget. -/
theorem exists_liftWithin
    (h : (liftGraph cfg g).result = result ∨ ∃ g', LiftsTo cfg g result g') :
    ∃ budget, (liftWithin cfg budget g).result = result := by
  rcases h with h | ⟨g', budget, -, h, -⟩
  · exact ⟨g.budget, (liftGraph_eq_liftWithin cfg g).1.symm.trans h⟩
  · exact ⟨budget, h⟩

end GmlLift
