import GmlLift.Proofs.Assembly.Moments
import GmlLift.Proofs.Flow.Pruning
import Mathlib.Control.Monad.Basic

/-!
# What lifting does to the graph

A run changes its graph at one kind of step only: when the code of a block that breaks or continues
has been run to its end, the branches of the block are cut. So the graph that a run leaves behind,
however it stops, is the old one, pruned at the nodes whose code has run (`Moment.RunsCode`).

A run may start at any node, on any assembly and into any container: `Moment.startAt` is its first
moment.
-/

namespace GmlLift

/-- What follows the code of a node of this kind, if it has code. -/
def FlowKind.sequel? : FlowKind → Option Sequel
  | .block b => some (.finish b.role)
  | .conditional _ => some .fork
  | .loop _ | .switch | .shortCircuit .. => none

def Sequel.leaves : Sequel → Bool
  | .finish role => role.leaves
  | .fork => false

theorem FlowKind.leaves_of_sequel? {kind : FlowKind} {sequel : Sequel}
    (h : kind.sequel? = some sequel) : kind.leaves = sequel.leaves := by
  cases kind <;> cases h <;> rfl

namespace Task

/-- The node whose code has been run to its end. -/
def ran? : Task → Option FlowRef
  | .run v _ _ _ _ [] => some v.node
  | .run _ _ _ _ _ (_ :: _) | .walk | .gather .. | .stopped _ => none

/-- What is to follow the code that is run is what the graph has for the node. -/
def Agrees (g : FlowGraph) : Task → Prop
  | .run v sequel _ _ _ _ => ∃ node, g.get? v.node = some node ∧ node.kind.sequel? = some sequel
  | .walk | .gather .. | .stopped _ => True

end Task

namespace Assembly

open GmlLift.Action

variable {α β : Type} {s : Assembly}

/-- An action of the machine leaves the graph alone, and so does an answer after it. -/
theorem graph_onMachine_bind (x : Action Machine α) (f : α → β) :
    ((onMachine x >>= fun a => pure (f a)) s).state.graph = s.graph := by
  cases h : (onMachine x s).result with
  | ok a =>
    rw [bind_of_ok h]
    rfl
  | error e =>
    rw [bind_of_error h]
    rfl

/-- What is done for a node cuts a leaving block, and no other one. -/
theorem leave_graph (cfg : Settings) {v : Visit} {node : FlowNode} (branches : List FlowRef)
    {sequel : Sequel} (hnode : s.graph.get? v.node = some node) :
    (leave cfg v branches sequel s).state.graph =
      if sequel.leaves = true then s.graph.setBranches v.node (s.graph.keptBranches node)
      else s.graph := by
  cases sequel with
  | fork => rfl
  | finish role =>
    have hrest (s' : Assembly) := graph_onMachine_bind (s := s') (v.finishBlock cfg role)
      fun _ => v.goOn branches
    have hleave : leave cfg v branches (.finish role) =
        if role.leaves = true then
          onGraph (FlowGraph.prune cfg v.node) >>= fun _ =>
            onMachine (v.finishBlock cfg role) >>= fun _ => pure (v.goOn branches)
        else onMachine (v.finishBlock cfg role) >>= fun _ => pure (v.goOn branches) := rfl
    rw [hleave]
    by_cases hl : role.leaves = true
    · obtain ⟨hok, hstate⟩ := FlowGraph.prune_of_get? cfg hnode
      have hok' : (onGraph (FlowGraph.prune cfg v.node) s).result = .ok () := hok
      rw [if_pos hl, bind_of_ok hok', if_pos (show (Sequel.finish role).leaves = true from hl),
        ← hstate]
      exact hrest _
    · rw [if_neg hl, if_neg (show ¬ (Sequel.finish role).leaves = true from hl)]
      exact hrest s

end Assembly

namespace Moment

open GmlLift.Action GmlLift.Assembly

variable {cfg : Settings} {m : Moment} {g : FlowGraph} {ran : FlowRef → Prop}

/-! ## Steps -/

/-- The graph of a moment, and the task that is to agree with it. -/
structure Traces (g : FlowGraph) (ran : FlowRef → Prop) (m : Moment) : Prop where
  graph : g.PrunedAt m.assembly.graph ran
  task : m.task.Agrees m.assembly.graph

namespace Traces

/-- A step that leaves the graph alone. -/
theorem turn (h : Traces g ran m) (hran : m.task.ran? = none) {m' : Moment}
    (hgraph : m'.assembly.graph = m.assembly.graph) (htask : m'.task.Agrees m.assembly.graph) :
    Traces g (fun ref => ran ref ∨ m.task.ran? = some ref) m' where
  graph := by
    rw [hgraph, hran]
    exact h.graph.congr fun ref => ⟨fun hr => hr.resolve_right nofun, Or.inl⟩
  task := by
    rw [hgraph]
    exact htask

/-- After an action that answers visits there is no code to run. -/
theorem schedule_agrees (x : Action Assembly (List Visit)) (m : Moment) (g : FlowGraph) :
    (m.schedule x).task.Agrees g ∧
      (m.schedule x).assembly.graph = (x m.assembly).state.graph := by
  unfold schedule act
  cases (x m.assembly).result with
  | ok next => exact ⟨trivial, rfl⟩
  | error h => exact ⟨trivial, rfl⟩

theorem enter (h : Traces g ran m) (hran : m.task.ran? = none) (v : Visit) (pending : List Visit) :
    Traces g (fun ref => ran ref ∨ m.task.ran? = some ref) (enter v { m with pending }) := by
  unfold Moment.enter
  split
  · exact h.turn hran rfl trivial
  · rename_i node hnode
    split
    · rename_i b hkind
      exact h.turn hran rfl ⟨node, hnode, by rw [hkind]; rfl⟩
    · rename_i header hkind
      exact h.turn hran rfl ⟨node, hnode, by rw [hkind]; rfl⟩
    · exact h.turn hran rfl trivial
    · obtain ⟨htask, hgraph⟩ := schedule_agrees _ { m with pending } m.assembly.graph
      exact h.turn hran hgraph htask
    · obtain ⟨htask, hgraph⟩ := schedule_agrees _ { m with pending } m.assembly.graph
      exact h.turn hran hgraph htask

theorem resume (h : Traces g ran m) (hran : m.task.ran? = none) (w : Waiting)
    (waiting : List Waiting) :
    Traces g (fun ref => ran ref ∨ m.task.ran? = some ref) (m.resume w waiting) := by
  unfold Moment.resume
  split
  · exact h.turn hran rfl trivial
  · exact h.turn hran rfl trivial

/-- Code has run to its end: this is where a leaving block is cut. -/
theorem leave {s : Assembly} {v : Visit} {sequel : Sequel} {branches : List FlowRef} {skip : Nat}
    {behind : List Instruction} {pending : List Visit} {waiting : List Waiting}
    (h : Traces g ran ⟨s, .run v sequel branches skip behind [], pending, waiting⟩) :
    Traces g (fun ref => ran ref ∨ some v.node = some ref)
      (schedule ⟨s, .run v sequel branches skip behind [], pending, waiting⟩
        (leave cfg v branches sequel)) := by
  obtain ⟨node, hnode, hsequel⟩ := h.task
  have hleaves := FlowKind.leaves_of_sequel? hsequel
  have hran : ∀ ref, (ran ref ∨ some v.node = some ref) ↔ (ran ref ∨ ref = v.node) :=
    fun ref => or_congr_right ⟨fun he => (Option.some.inj he).symm, fun he => congrArg some he.symm⟩
  obtain ⟨htask, hgraph⟩ := schedule_agrees (Assembly.leave cfg v branches sequel)
    ⟨s, .run v sequel branches skip behind [], pending, waiting⟩
    (schedule ⟨s, .run v sequel branches skip behind [], pending, waiting⟩
      (Assembly.leave cfg v branches sequel)).assembly.graph
  refine ⟨?_, htask⟩
  rw [hgraph, leave_graph cfg branches hnode]
  by_cases hl : sequel.leaves = true
  · rw [if_pos hl]
    exact (h.graph.prune hnode (hleaves.trans hl)).congr hran
  · rw [if_neg hl]
    exact (h.graph.pass hnode (hleaves.trans (eq_false_of_ne_true hl))).congr hran

end Traces

/-- **A step prunes the graph where code has just run**, and nowhere else. -/
theorem traces_step (cfg : Settings) (h : Traces g ran m) :
    Traces g (fun ref => ran ref ∨ m.task.ran? = some ref) (step cfg m) := by
  obtain ⟨s, task, pending, waiting⟩ := m
  cases task with
  | stopped result => exact h.turn rfl rfl trivial
  | walk =>
    match pending, waiting with
    | v :: pending, waiting => exact h.enter rfl v pending
    | [], w :: waiting => exact h.resume rfl w waiting
    | [], [] => exact h.turn rfl rfl trivial
  | run v sequel branches skip behind ahead =>
    match skip, ahead with
    | skip, [] => exact h.leave
    | skip + 1, i :: ahead => exact h.turn rfl rfl h.task
    | 0, i :: ahead =>
      have hstep : step cfg ⟨s, .run v sequel branches 0 behind (i :: ahead), pending, waiting⟩ =
          act ⟨s, .run v sequel branches 0 behind (i :: ahead), pending, waiting⟩
            (onMachine (Machine.step cfg v.container behind i ahead)) fun skip m =>
              { m with task := .run v sequel branches skip (i :: behind) ahead } := rfl
      rw [hstep]
      unfold act
      split
      · exact h.turn rfl rfl h.task
      · exact h.turn rfl rfl trivial
  | gather v op branches operands conditions =>
    cases conditions with
    | cons condition conditions => exact h.turn rfl rfl trivial
    | nil =>
      obtain ⟨htask, hgraph⟩ := Traces.schedule_agrees (connect v op branches operands)
        ⟨s, .gather v op branches operands [], pending, waiting⟩ s.graph
      exact h.turn rfl (hgraph.trans (graph_onMachine_bind _ _)) htask

/-! ## Whole runs -/

/-- The first moment of a run from a node on, into a container. -/
def startAt (s : Assembly) (container : NodeId) (node : FlowRef) : Moment where
  assembly := s.withStack .empty
  pending := [{ container, node }]

/-- **The code of a node is run to its end**, in some visit of the run that starts so. -/
def RunsCode (cfg : Settings) (first : Moment) (ref : FlowRef) : Prop :=
  ∃ n, ((step cfg)^[n] first).task.ran? = some ref

theorem traces_iterate (cfg : Settings) (s : Assembly) (container : NodeId) (node : FlowRef)
    (n : Nat) :
    Traces s.graph
      (fun ref => ∃ k < n, ((step cfg)^[k] (startAt s container node)).task.ran? = some ref)
      ((step cfg)^[n] (startAt s container node)) := by
  induction n with
  | zero =>
    refine ⟨(FlowGraph.PrunedAt.refl s.graph).congr fun ref => ?_, trivial⟩
    exact ⟨fun ⟨k, hk, _⟩ => absurd hk (Nat.not_lt_zero k), False.elim⟩
  | succ n ih =>
    rw [Function.iterate_succ_apply']
    obtain ⟨hgraph, htask⟩ := traces_step cfg ih
    refine ⟨hgraph.congr fun ref => ?_, htask⟩
    constructor
    · rintro ⟨k, hk, hran⟩
      rcases Nat.lt_succ_iff_lt_or_eq.mp hk with hk | rfl
      · exact Or.inl ⟨k, hk, hran⟩
      · exact Or.inr hran
    · rintro (⟨k, hk, hran⟩ | hran)
      · exact ⟨k, Nat.lt_succ_of_lt hk, hran⟩
      · exact ⟨n, Nat.lt_succ_self n, hran⟩

/-- No code is run any more when a run has stopped. -/
theorem runsCode_iff_of_stopped {first : Moment} {n : Nat} {r : Except Halt Unit}
    (h : ((step cfg)^[n] first).task = .stopped r) (ref : FlowRef) :
    RunsCode cfg first ref ↔ ∃ k < n, ((step cfg)^[k] first).task.ran? = some ref := by
  have hfixed : step cfg ((step cfg)^[n] first) = (step cfg)^[n] first := by
    rw [step, h]
  constructor
  · rintro ⟨k, hran⟩
    by_cases hk : k < n
    · exact ⟨k, hk, hran⟩
    · obtain ⟨j, rfl⟩ := Nat.exists_eq_add_of_le' (Nat.le_of_not_lt hk)
      rw [Function.iterate_add_apply, Function.iterate_fixed hfixed, h] at hran
      cases hran
  · rintro ⟨k, -, hran⟩
    exact ⟨k, hran⟩

/-- Where an assembly ends, its moments stop on the graph that it leaves. -/
theorem startAt_stops {s : Assembly} {budget : Nat} {container : NodeId} {node : FlowRef}
    (h : (fragment cfg budget container node).EndsOn s) :
    ∃ n r, ((step cfg)^[n] (startAt s container node)).task = .stopped r ∧
      ((step cfg)^[n] (startAt s container node)).assembly.graph =
        (fragment cfg budget container node s).state.graph := by
  have hwalk : Realizes cfg (startAt s container node) (fragment cfg budget container node s)
      fun leftover s' => ⟨s'.withStack leftover, .walk, [], []⟩ :=
    Realizes.onFreshStack (fun s' => ⟨s', .walk, [], []⟩)
      (realizes_walk cfg budget [{ container, node }] [] [] (s.withStack .empty))
  unfold Realizes at hwalk
  cases ho : (fragment cfg budget container node s).result with
  | ok leftover =>
    rw [ho] at hwalk
    obtain ⟨n, hn⟩ := hwalk.trans (.of_step rfl)
    exact ⟨n, .ok (), by rw [hn]; rfl, by rw [hn]; rfl⟩
  | error e =>
    rw [ho] at hwalk
    obtain ⟨m', ⟨n, rfl⟩, htask, hgraph⟩ := hwalk fun he => h (ho.trans (congrArg _ he))
    exact ⟨n, .error e, htask, hgraph⟩

theorem fragment_prunes {s : Assembly} {budget : Nat} {container : NodeId} {node : FlowRef}
    (h : (fragment cfg budget container node).EndsOn s) :
    s.graph.PrunedAt (fragment cfg budget container node s).state.graph
      (RunsCode cfg (startAt s container node)) := by
  obtain ⟨n, r, htask, hgraph⟩ := startAt_stops h
  rw [← hgraph]
  exact (traces_iterate cfg s container node n).graph.congr (runsCode_iff_of_stopped htask)

end Moment

/-- **The graph is changed only by pruning**: however an assembly or a lifting ends, with an answer
or with an error, its graph is as it was, except that the blocks that break or continue have been
cut to their branches to unreachable nodes, exactly where their code has run to its end in some
visit. Pruning such a block again changes nothing, and no node is changed by pruning it twice. -/
theorem liftGraph_prunes (cfg : Settings) :
    (∀ s container node, (Assembly.assembleInto cfg container node).EndsOn s →
      s.graph.PrunedAt (Assembly.assembleInto cfg container node s).state.graph
        (Moment.RunsCode cfg (Moment.startAt s container node))) ∧
    (∀ g, (liftGraph cfg).EndsOn g →
      g.PrunedAt (liftGraph cfg g).state (Moment.RunsCode cfg (Moment.start g))) ∧
    (∀ g g' ran, FlowGraph.PrunedAt g g' ran → ∀ ref node, g.get? ref = some node →
      node.kind.leaves = true → ran ref → (FlowGraph.prune cfg ref g').state = g') ∧
    ∀ g ref node, FlowGraph.get? g ref = some node →
      (FlowGraph.prune cfg ref (FlowGraph.prune cfg ref g).state).state =
        (FlowGraph.prune cfg ref g).state := by
  refine ⟨fun s container node h => ?_, fun g h => ?_,
    fun g g' ran h ref node hnode hleaves hran => h.prune_again cfg hnode hleaves hran,
    fun g ref node hnode => FlowGraph.prune_prune cfg hnode⟩
  · have hinto : Assembly.assembleInto cfg container node s =
        Assembly.fragment cfg s.graph.budget container node s := rfl
    unfold Action.EndsOn at h
    rw [hinto] at h ⊢
    exact Moment.fragment_prunes h
  · obtain ⟨hresult, hstate⟩ := Moment.liftGraph_eq_fragment cfg g
    rw [hstate]
    refine Moment.fragment_prunes (s := { graph := g }) fun ho => h ?_
    rw [hresult, ho]
    rfl

/-- A block that continues is cut before the block behind it fails; that one breaks and has not run
to its end, so it keeps its branch. -/
theorem liftGraph_prunes_failing :
    let g : FlowGraph := {
      nodes := #[
        { kind := .loop .whileLoop, branches := [⟨3⟩, ⟨1⟩] },
        { kind := .block { role := .continueOn }, branches := [⟨2⟩, ⟨4⟩] },
        { kind := .block { code := [{ opcode := .ret }], role := .breakOut }, branches := [⟨3⟩] },
        { kind := .block {} },
        { kind := .block {}, unreachable := true }]
      entry := ⟨0⟩ }
    (liftGraph {} g).result = .error (.error (.underflow 0)) ∧
      (liftGraph {} g).state.branchTable = [[⟨3⟩, ⟨1⟩], [⟨4⟩], [⟨3⟩], [], []] ∧
      Moment.RunsCode {} (Moment.start g) ⟨1⟩ ∧ ¬ Moment.RunsCode {} (Moment.start g) ⟨2⟩ := by
  intro g
  have hresult : (liftGraph {} g).result = .error (.error (.underflow 0)) := by decide +kernel
  have hkept : (liftGraph {} g).state.get? ⟨2⟩ = g.get? ⟨2⟩ := by decide +kernel
  have hends : (liftGraph {}).EndsOn g := by
    unfold Action.EndsOn
    rw [hresult]
    exact nofun
  have hpruned := (liftGraph_prunes {}).2.1 g hends
  refine ⟨hresult, by decide +kernel, ⟨2, rfl⟩, fun hran => ?_⟩
  have hcut := hpruned.cut ⟨2⟩ _ rfl rfl hran
  rw [hkept] at hcut
  exact absurd hcut (by decide)

end GmlLift
