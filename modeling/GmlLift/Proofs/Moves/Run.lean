import GmlLift.Proofs.Flow.Pruning
import GmlLift.Proofs.Lifted.Budget
import GmlLift.Proofs.Moves.Constructs
import Mathlib.Tactic.Abel

/-!
# Runs as moves

What is in hand at a moment of a run is on the operand stack, among the operands of a short circuit,
or with a short circuit that waits. Every step of a run is made of moves, so every moment is reached
by moves from the tree of one empty block, with every visit placed (`Moment.reached_after`). A graph
without `dup` never needs the licence to copy, and one without `else` never gives a conditional a
second arm.

Result: `liftWithin_moves`. The tree of a function is made by moves, and no statement is left
without a place.
-/

namespace GmlLift

/-! ## What a graph asks for -/

namespace FlowNode

/-- Does an instruction of the node copy? -/
def copies (node : FlowNode) : Bool := node.kind.code.any fun i => i.opcode = .dup

/-- Is the node a conditional with a false arm? -/
def hasElse (node : FlowNode) : Bool :=
  match node.kind with
  | .conditional _ => 3 ≤ node.branches.length
  | _ => false

theorem copies_of_mem {node : FlowNode} {i : Instruction} (hi : i ∈ node.kind.code)
    (hdup : i.opcode = .dup) : node.copies = true :=
  List.any_eq_true.mpr ⟨i, hi, decide_eq_true hdup⟩

/-- With the same kind and no more branches, a node asks for no more. -/
theorem hasElse_mono {node node' : FlowNode} (hkind : node.kind = node'.kind)
    (hlen : node.branches.length ≤ node'.branches.length) (h : node.hasElse = true) :
    node'.hasElse = true := by
  unfold hasElse at h ⊢
  rw [← hkind]
  split at h
  · exact decide_eq_true (Nat.le_trans (of_decide_eq_true h) hlen)
  · cases h

end FlowNode

namespace FlowGraph

/-- Some instruction of the graph copies. -/
def Copies (g : FlowGraph) : Prop := ∃ node ∈ g.nodes.toList, node.copies

/-- Some conditional of the graph has a false arm. -/
def HasElse (g : FlowGraph) : Prop := ∃ node ∈ g.nodes.toList, node.hasElse

instance (g : FlowGraph) : Decidable g.Copies := inferInstanceAs (Decidable (∃ node ∈ _, _))

instance (g : FlowGraph) : Decidable g.HasElse := inferInstanceAs (Decidable (∃ node ∈ _, _))

/-- The licence that a graph asks for. -/
def licence (g : FlowGraph) : Licence := ⟨g.Copies, g.HasElse⟩

/-- The graph asks for no more than a licence. -/
structure Within (L : Licence) (g : FlowGraph) : Prop where
  copies : g.Copies → L.copies
  elses : g.HasElse → L.elses

theorem within_licence (g : FlowGraph) : g.Within g.licence := ⟨id, id⟩

variable {L : Licence} {g : FlowGraph} {ref : FlowRef} {node : FlowNode}

/-- A node with fewer branches asks for no more. -/
theorem Within.setBranches (h : g.Within L) (hnode : g.get? ref = some node)
    {branches : List FlowRef} (hlen : branches.length ≤ node.branches.length) :
    (g.setBranches ref branches).Within L := by
  -- every node of the new graph is a node of the old one with no more branches
  have hold : ∀ n ∈ (g.setBranches ref branches).nodes.toList, ∃ n' ∈ g.nodes.toList,
      n.kind = n'.kind ∧ n.branches.length ≤ n'.branches.length := by
    intro n hn
    obtain ⟨other, hn⟩ := mem_nodes_iff.mp hn
    rw [get?_setBranches, hnode] at hn
    split at hn
    · cases hn
      exact ⟨node, mem_nodes_iff.mpr ⟨ref, hnode⟩, rfl, hlen⟩
    · exact ⟨n, mem_nodes_iff.mpr ⟨other, hn⟩, rfl, Nat.le_refl _⟩
  constructor
  · rintro ⟨n, hn, hcopies⟩
    obtain ⟨n', hn', hkind, -⟩ := hold n hn
    refine h.copies ⟨n', hn', ?_⟩
    unfold FlowNode.copies at hcopies ⊢
    rwa [← hkind]
  · rintro ⟨n, hn, helse⟩
    obtain ⟨n', hn', hkind, hlen'⟩ := hold n hn
    exact h.elses ⟨n', hn', FlowNode.hasElse_mono hkind hlen' helse⟩

end FlowGraph

/-! ## What there is at a moment -/

namespace Task

/-- The operands that a short circuit has so far. -/
def operands : Task → List NodeId
  | .gather _ _ _ operands _ => operands
  | .walk | .run .. | .stopped _ => []

/-- The visit that is being done. -/
def visit? : Task → Option Visit
  | .run v .. | .gather v .. => some v
  | .walk | .stopped _ => none

/-- The run has halted. -/
def Halted : Task → Prop
  | .stopped (.error _) => True
  | .stopped (.ok _) | .walk | .run .. | .gather .. => False

/-- A run that has halted has done so with an error of the function. -/
def Fair : Task → Prop
  | .stopped (.error h) => ∃ e, h = .error e
  | .stopped (.ok _) | .walk | .run .. | .gather .. => True

/-- The code of a task and its branches ask for no more than a licence, and its node is in the
graph. -/
def Within (L : Licence) (g : FlowGraph) : Task → Prop
  | .run v sequel branches _ _ ahead =>
    (∃ node, g.get? v.node = some node) ∧ (∀ i ∈ ahead, i.opcode = .dup → L.copies) ∧
      (sequel = .fork → 3 ≤ branches.length → L.elses)
  | .walk | .gather .. | .stopped _ => True

end Task

/-- What a short circuit holds while it waits. -/
def Waiting.held (w : Waiting) : Multiset NodeId := w.operands + w.stack.items

/-- Ids are in range before the first move, and so after every one. -/
theorem Moves.inRange_of_new {L : Licence} {s : Scene} (h : Moves L ⟨Tree.new, 0, 0⟩ s) :
    s.InRange :=
  h.inRange ⟨Machine.wellFormed_new.closed, fun _ hid => absurd hid (Multiset.notMem_zero _),
    fun _ hid => absurd hid (Multiset.notMem_zero _)⟩

namespace Moment

open GmlLift.Action GmlLift.Assembly GmlLift.Machine

def tree (m : Moment) : Tree := m.assembly.machine.tree

/-- What the short circuits that wait have in hand. -/
def aside (m : Moment) : Multiset NodeId := (m.waiting.map Waiting.held).sum

/-- What is in hand, on whatever stack. -/
def held (m : Moment) : Multiset NodeId :=
  m.aside + (m.assembly.machine.stack.items + m.task.operands)

/-- The visit that is being done and all visits that are still to be done. -/
def visits (m : Moment) : List Visit :=
  m.task.visit?.toList ++ m.pending ++ m.waiting.flatMap fun w => w.visit :: w.pending

/-- **How a moment is reached**: by moves, and everything that the steps to come rely on is there.
Statements can be left without a place only where the run has halted. -/
structure Reached (L : Licence) (cfg : Settings) (m : Moment) : Prop where
  moves : ∃ loose, Moves L ⟨Tree.new, 0, 0⟩ ⟨m.tree, m.held, loose⟩ ∧
    (¬ m.task.Halted → loose = 0)
  placed : ∀ v ∈ m.visits, v.Placed m.tree
  graph : m.assembly.graph.Within L
  task : m.task.Within L m.assembly.graph
  fair : cfg.verbosity = none → m.task.Fair

variable {L : Licence} {cfg : Settings} {m : Moment} {α : Type}

namespace Reached

/-- The visit that is being done is placed. -/
theorem placed_task (h : Reached L cfg m) {v : Visit} (hv : m.task.visit? = some v) :
    v.Placed m.tree := by
  refine h.placed v ?_
  unfold visits
  rw [hv]
  exact List.mem_cons_self

/-- A step that changes neither the tree nor what is in hand. -/
theorem turn (h : Reached L cfg m) (hrun : ¬ m.task.Halted) {m' : Moment}
    (htree : m'.tree = m.tree) (hheld : m'.held = m.held)
    (hgraph : m'.assembly.graph = m.assembly.graph) (hvisits : ∀ v ∈ m'.visits, v.Placed m.tree)
    (htask : m'.task.Within L m.assembly.graph) (hfair : m'.task.Fair) : Reached L cfg m' where
  moves := by
    obtain ⟨loose, hmoves, hloose⟩ := h.moves
    rw [htree, hheld]
    exact ⟨loose, hmoves, fun _ => hloose hrun⟩
  placed := by
    rw [htree]
    exact hvisits
  graph := by
    rw [hgraph]
    exact h.graph
  task := by
    rw [hgraph]
    exact htask
  fair _ := hfair

/-- **A step that does an action of the machine.** What waits is set aside while it is done. -/
theorem act (h : Reached L cfg m) (hrun : ¬ m.task.Halted) {x : Action Assembly α}
    {y : Action Machine α} {g : FlowGraph} (hg : g.Within L)
    (hresult : (x m.assembly).result = (y m.assembly.machine).result)
    (hstate : (x m.assembly).state = ⟨(y m.assembly.machine).state, g⟩) {Q : α → Tree → Prop}
    (hy : Does L cfg y ⟨m.tree, m.task.operands, 0⟩ fun a s => s.Has 0 0 ∧ Q a s.tree)
    {next : α → Moment → Moment}
    (hnext : ∀ a t stack, Q a t → (∀ v ∈ m.visits, v.Placed t) →
      Moves L ⟨Tree.new, 0, 0⟩ ⟨t, m.aside + (stack.items + 0), 0⟩ →
      Reached L cfg (next a { m with assembly := ⟨⟨t, stack⟩, g⟩ })) :
    Reached L cfg (m.act x next) := by
  obtain ⟨loose, hmoves, hloose⟩ := h.moves
  cases hloose hrun
  have hrange : ((Scene.under ⟨m.tree, m.task.operands, 0⟩ m.assembly.machine.stack).beside
      m.aside).InRange := hmoves.inRange_of_new
  obtain ⟨s, stack, hs, hmoves', hpost⟩ := hy m.assembly.machine.stack hrange.of_beside
  have hall := hmoves.trans (hmoves'.beside m.aside)
  have hplaced : ∀ v ∈ m.visits, v.Placed s.tree := fun v hv => (h.placed v hv).mono hmoves'.evolves
  have hmachine : Machine.mk (Scene.tree ⟨m.tree, m.task.operands, 0⟩) m.assembly.machine.stack =
      m.assembly.machine := rfl
  rw [hmachine] at hs hpost
  unfold Moment.act
  rw [hresult, hstate, hs]
  cases hr : (y m.assembly.machine).result with
  | ok a =>
    rw [hr] at hpost
    obtain ⟨t, _, _⟩ := s
    obtain ⟨⟨rfl, rfl⟩, hQ⟩ := hpost
    exact hnext a t stack hQ hplaced hall
  | error e =>
    rw [hr] at hpost
    refine ⟨⟨s.loose, hall.tail (.forget ?_), fun hrun => absurd trivial hrun⟩, fun v hv => ?_, hg,
      trivial, hpost⟩
    · exact add_le_add_right (add_le_add_right (Multiset.zero_le _) _) _
    · refine hplaced v ?_
      simp only [visits, List.mem_append, Task.visit?, Option.toList_none, List.not_mem_nil,
        false_or] at hv ⊢
      exact hv.imp_left Or.inr

/-- A step that answers visits. -/
theorem schedule (h : Reached L cfg m) (hrun : ¬ m.task.Halted)
    {x : Action Assembly (List Visit)} {y : Action Machine (List Visit)} {g : FlowGraph}
    (hg : g.Within L) (hresult : (x m.assembly).result = (y m.assembly.machine).result)
    (hstate : (x m.assembly).state = ⟨(y m.assembly.machine).state, g⟩)
    (hy : Does L cfg y ⟨m.tree, m.task.operands, 0⟩ (Visit.Called 0 0)) :
    Reached L cfg (m.schedule x) := by
  refine h.act hrun hg hresult hstate (Q := fun next t => ∀ w ∈ next, w.Placed t) hy ?_
  intro next t stack hnext hplaced hmoves
  refine ⟨⟨0, hmoves, fun _ => rfl⟩, fun v hv => ?_, hg, trivial, fun _ => trivial⟩
  simp only [visits, List.mem_append, Task.visit?, Option.toList_none, List.not_mem_nil,
    false_or] at hv
  rcases hv with (hv | hv) | hv
  · exact hnext v hv
  · exact hplaced v (by simp only [visits, List.mem_append]; exact Or.inl (Or.inr hv))
  · exact hplaced v (by simp only [visits, List.mem_append]; exact Or.inr hv)

end Reached

/-! ## Steps -/

variable {s : Assembly} {v : Visit} {pending : List Visit} {waiting : List Waiting}

theorem onMachine_bind_pure (x : Action Machine Unit) (a : α) :
    (onMachine x >>= fun _ => pure a) = onMachine (x >>= fun _ => pure a) := by
  rw [onMachine_bind]
  rfl

/-- The end of a block on the machine: pruning never misses its node, and only takes branches
away. -/
theorem leave_finish (cfg : Settings) {branches : List FlowRef} (hgraph : s.graph.Within L)
    (hnode : ∃ node, s.graph.get? v.node = some node) (role : Role) :
    ∃ g, g.Within L ∧
      (leave cfg v branches (.finish role) s).result =
        ((v.finishBlock cfg role >>= fun _ => pure (v.goOn branches)) s.machine).result ∧
      (leave cfg v branches (.finish role) s).state =
        ⟨((v.finishBlock cfg role >>= fun _ => pure (v.goOn branches)) s.machine).state, g⟩ := by
  have hleave : leave cfg v branches (.finish role) =
      if role = .breakOut || role = .continueOn then do
        onGraph (FlowGraph.prune cfg v.node)
        onMachine (v.finishBlock cfg role >>= fun _ => pure (v.goOn branches))
      else onMachine (v.finishBlock cfg role >>= fun _ => pure (v.goOn branches)) := by
    rw [← onMachine_bind_pure]
    rfl
  rw [hleave]
  obtain ⟨node, hnode⟩ := hnode
  split
  · obtain ⟨hresult, hstate⟩ := FlowGraph.prune_of_get? cfg hnode
    have hok : (onGraph (FlowGraph.prune cfg v.node) s).result = .ok () := hresult
    have hpruned : (onGraph (FlowGraph.prune cfg v.node) s).state =
        ⟨s.machine, s.graph.setBranches v.node (s.graph.keptBranches node)⟩ :=
      congrArg (Assembly.mk s.machine) hstate
    rw [bind_of_ok hok, hpruned]
    exact ⟨_, hgraph.setBranches hnode (List.length_filter_le _ _), rfl, rfl⟩
  · exact ⟨s.graph, hgraph, rfl, rfl⟩

theorem reached_leave {sequel : Sequel} {branches : List FlowRef} {skip : Nat}
    {behind : List Instruction}
    (h : Reached L cfg ⟨s, .run v sequel branches skip behind [], pending, waiting⟩) :
    Reached L cfg (schedule ⟨s, .run v sequel branches skip behind [], pending, waiting⟩
      (leave cfg v branches sequel)) := by
  have hv : v.Placed s.machine.tree := h.placed_task rfl
  obtain ⟨hnode, -, helse⟩ := h.task
  cases sequel with
  | finish role =>
    obtain ⟨g, hg, hresult, hstate⟩ := leave_finish cfg h.graph hnode role
    refine h.schedule id hg hresult hstate ?_
    refine (Visit.does_finishBlock hv role).bind ?_
    rintro _ s' hs hx -
    exact .pure ⟨hs, (hv.mono hx).goOn branches⟩
  | fork =>
    exact h.schedule id h.graph rfl rfl (Visit.does_openConditional hv (helse rfl))

theorem reached_run {sequel : Sequel} {branches : List FlowRef} {behind ahead : List Instruction}
    {i : Instruction}
    (h : Reached L cfg ⟨s, .run v sequel branches 0 behind (i :: ahead), pending, waiting⟩) :
    Reached L cfg
      (step cfg ⟨s, .run v sequel branches 0 behind (i :: ahead), pending, waiting⟩) := by
  have hv : v.Placed s.machine.tree := h.placed_task rfl
  obtain ⟨hnode, hcode, helse⟩ := h.task
  show Reached L cfg (Moment.act _ (onMachine (Machine.step cfg v.container behind i ahead))
    fun skip m => { m with task := .run v sequel branches skip (i :: behind) ahead })
  refine h.act id h.graph rfl rfl (Q := fun _ _ => True) ?_ ?_
  · refine (does_step hv.container behind (hcode i List.mem_cons_self) ahead).mono ?_
    exact fun _ _ hs => ⟨hs, trivial⟩
  · intro skip t stack _ hplaced hmoves
    refine ⟨⟨0, hmoves, fun _ => rfl⟩, hplaced, h.graph, ⟨hnode, fun j hj => ?_, helse⟩,
      fun _ => trivial⟩
    exact hcode j (List.mem_cons_of_mem i hj)

/-- A short circuit is made of its operands. -/
theorem reached_connect {op : Connective} {branches : List FlowRef} {operands : List NodeId}
    (h : Reached L cfg ⟨s, .gather v op branches operands [], pending, waiting⟩) :
    Reached L cfg (schedule ⟨s, .gather v op branches operands [], pending, waiting⟩
      (connect v op branches operands)) := by
  have hv : v.Placed s.machine.tree := h.placed_task rfl
  have hmachine : connect v op branches operands =
      onMachine (pushNew (.shortCircuit op) operands >>= fun _ => pure (v.goOn branches)) :=
    onMachine_bind_pure _ _
  rw [hmachine]
  refine h.schedule id h.graph rfl rfl ?_
  show Does L cfg _ ⟨s.machine.tree, operands, 0⟩ _
  rw [← add_zero (operands : Multiset NodeId)]
  refine (does_pushNew (.shortCircuit op) operands rfl).bind ?_
  rintro _ _ rfl hx -
  exact .pure ⟨⟨rfl, rfl⟩, (hv.mono hx).goOn branches⟩

/-- A visit is taken up. -/
theorem reached_enter (h : Reached L cfg ⟨s, .walk, v :: pending, waiting⟩) :
    Reached L cfg (enter v ⟨s, .walk, pending, waiting⟩) := by
  have hv : v.Placed s.machine.tree := h.placed v (by simp [visits])
  have hrest : ∀ w ∈ visits ⟨s, .walk, pending, waiting⟩, w.Placed s.machine.tree := by
    intro w hw
    refine h.placed w ?_
    simp only [visits, List.mem_append, List.mem_cons] at hw ⊢
    exact hw.imp_left (Or.imp_right Or.inr)
  have hall : ∀ w, w = v ∨ w ∈ visits ⟨s, .walk, pending, waiting⟩ → w.Placed s.machine.tree := by
    rintro w (rfl | hw)
    · exact hv
    · exact hrest w hw
  have h' : Reached L cfg ⟨s, .walk, pending, waiting⟩ :=
    h.turn id rfl rfl rfl hrest trivial trivial
  unfold enter
  split
  · exact h'.turn id rfl rfl rfl hrest trivial ⟨_, rfl⟩
  · rename_i node hnode
    have hmem := FlowGraph.mem_nodes_iff.mpr ⟨v.node, hnode⟩
    split
    · rename_i block hkind
      refine h'.turn id rfl rfl rfl (fun w hw => hall w ?_) ⟨⟨node, hnode⟩, fun i hi hdup => ?_,
        nofun⟩ trivial
      · simpa [visits, Task.visit?] using hw
      · exact h.graph.copies ⟨node, hmem, FlowNode.copies_of_mem (hkind ▸ hi) hdup⟩
    · rename_i header hkind
      refine h'.turn id rfl rfl rfl (fun w hw => hall w ?_) ⟨⟨node, hnode⟩, fun i hi hdup => ?_,
        fun _ hthree => ?_⟩ trivial
      · simpa [visits, Task.visit?] using hw
      · exact h.graph.copies ⟨node, hmem, FlowNode.copies_of_mem (hkind ▸ hi) hdup⟩
      · refine h.graph.elses ⟨node, hmem, ?_⟩
        unfold FlowNode.hasElse
        rw [hkind]
        exact decide_eq_true hthree
    · rename_i op conditions hkind
      refine h'.turn id rfl rfl rfl (fun w hw => hall w ?_) trivial trivial
      simpa [visits, Task.visit?] using hw
    · exact h'.schedule id h.graph rfl rfl (Visit.does_openLoop hv _ node.branches)
    · exact h'.schedule id h.graph rfl rfl (Visit.does_openSwitch hv node.branches)

/-- A condition is left: its last value is one more operand. -/
theorem reached_resume {w : Waiting} (h : Reached L cfg ⟨s, .walk, [], w :: waiting⟩) :
    Reached L cfg (resume ⟨s, .walk, [], w :: waiting⟩ w waiting) := by
  unfold resume
  split
  · exact h.turn id rfl rfl rfl h.placed trivial ⟨_, rfl⟩
  · rename_i operand others hpop
    have hstack : s.machine.stack.items = operand :: others.items :=
      congrArg OperandStack.items (OperandStack.eq_push_of_popFor hpop)
    refine h.turn id rfl ?_ rfl (fun x hx => h.placed x ?_) trivial trivial
    · show (waiting.map Waiting.held).sum +
        (↑(others.items ++ w.stack.items) + (↑(w.operands ++ [operand]) : Multiset NodeId)) =
        ((w :: waiting).map Waiting.held).sum + (↑s.machine.stack.items + ↑([] : List NodeId))
      rw [List.map_cons, List.sum_cons, Waiting.held, hstack, Multiset.coe_nil, ← Multiset.coe_add,
        ← Multiset.coe_add, ← Multiset.cons_coe operand others.items, Multiset.coe_singleton,
        ← Multiset.singleton_add]
      abel
    · simpa [visits, Task.visit?] using hx

/-- A condition is entered, with everything else set aside. -/
theorem reached_condition {op : Connective} {branches conditions : List FlowRef}
    {operands : List NodeId} {condition : FlowRef}
    (h : Reached L cfg ⟨s, .gather v op branches operands (condition :: conditions), pending,
      waiting⟩) :
    Reached L cfg (step cfg ⟨s, .gather v op branches operands (condition :: conditions), pending,
      waiting⟩) := by
  have hv : v.Placed s.machine.tree := h.placed_task rfl
  refine h.turn id rfl ?_ rfl (fun w hw => ?_) trivial trivial
  · show (_ :: waiting.map Waiting.held).sum + (↑([] : List NodeId) + ↑([] : List NodeId)) =
      (waiting.map Waiting.held).sum + (↑s.machine.stack.items + (↑operands : Multiset NodeId))
    rw [List.sum_cons, Waiting.held, Multiset.coe_nil]
    abel
  · have hw' : w = { container := v.container, node := condition } ∨ w ∈ visits
        ⟨s, .gather v op branches operands (condition :: conditions), pending, waiting⟩ := by
      simpa [visits, Task.visit?, step] using hw
    rcases hw' with rfl | hw'
    · exact .plain hv.container condition
    · exact h.placed w hw'

/-- **Every step is made of moves**, and everything that the next one relies on is there. -/
theorem reached_step (h : Reached L cfg m) : Reached L cfg (step cfg m) := by
  obtain ⟨s, task, pending, waiting⟩ := m
  cases task with
  | stopped result => exact h
  | walk =>
    match pending, waiting with
    | v :: pending, waiting => exact reached_enter h
    | [], w :: waiting => exact reached_resume h
    | [], [] => exact h.turn id rfl rfl rfl h.placed trivial trivial
  | run v sequel branches skip behind ahead =>
    match skip, ahead with
    | skip, [] => exact reached_leave h
    | 0, i :: ahead => exact reached_run h
    | skip + 1, i :: ahead =>
      obtain ⟨hnode, hcode, helse⟩ := h.task
      refine h.turn id rfl rfl rfl h.placed ⟨hnode, fun j hj => ?_, helse⟩ trivial
      exact hcode j (List.mem_cons_of_mem i hj)
  | gather v op branches operands conditions =>
    cases conditions with
    | nil => exact reached_connect h
    | cons condition conditions => exact reached_condition h

/-! ## Whole runs -/

theorem reached_start {g : FlowGraph} (hg : g.Within L) : Reached L cfg (start g) where
  moves := ⟨0, .refl, fun _ => rfl⟩
  placed v hv := by
    have heq : v = { container := Tree.root, node := g.entry } := by
      simpa [visits, start, Task.visit?] using hv
    rw [heq]
    exact .plain ⟨_, rfl, rfl⟩ g.entry
  graph := hg
  task := trivial
  fair _ := trivial

/-- **Every moment of a run is reached by moves.** -/
theorem reached_after (cfg : Settings) (g : FlowGraph) (n : Nat) :
    Reached g.licence cfg (after cfg g n) :=
  after_induction (reached_start g.within_licence) (fun _ => reached_step) n

end Moment

/-- **The tree of a function is made by moves**, and every statement has got a place. -/
theorem liftWithin_moves {cfg : Settings} {budget : Nat} {g : FlowGraph} {t : Tree}
    (h : (liftWithin cfg budget g).result = .ok t) :
    ∃ held, Moves g.licence ⟨Tree.new, 0, 0⟩ ⟨t, held, 0⟩ := by
  obtain ⟨leftover, hok, -⟩ := fragment_of_liftWithin h
  have hends : (Assembly.fragment cfg budget Tree.root g.entry).EndsOn { graph := g } := by
    intro hendless
    rw [hendless] at hok
    cases hok
  obtain ⟨n, r, htask, hresult, -⟩ := Moment.fragment_stops hends
  replace hresult := h.symm.trans hresult
  cases r with
  | error e => cases hresult
  | ok _ =>
    cases hresult
    obtain ⟨loose, hmoves, hloose⟩ := (Moment.reached_after cfg g n).moves
    cases hloose (by rw [htask]; exact id)
    exact ⟨_, hmoves⟩

end GmlLift
