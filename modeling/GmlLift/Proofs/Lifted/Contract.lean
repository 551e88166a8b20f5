import GmlLift.Proofs.Assembly.Faults
import GmlLift.Proofs.Lifted.Budget
import GmlLift.Proofs.Lifted.Termination

/-!
# Structural errors

Lifting complains about the graph in two ways: a node is not there, or a construct lacks a branch.
Both are to be found in the graph as it was before anything was pruned
(`FlowGraph.Explains`): along a walk the graph is the old one, pruned somewhere, and only nodes are
visited that the entry leads to.

Result: `liftGraph_structural`. A graph that keeps its contract never gives such an error.
-/

namespace GmlLift

open GmlLift.Action

namespace FlowGraph

/-- **The contract of a flow graph**: its entry and every branch and condition are there, and its
constructs have the branches that they cannot do without. -/
def KeepsContract (g : FlowGraph) : Prop :=
  g.entry.index < g.size ∧ ∀ node ∈ g.nodes.toList,
    (∀ ref ∈ node.branches ++ node.kind.conditions, ref.index < g.size) ∧
      ∀ construct ∈ node.kind.branching?, construct.needs ≤ node.branches.length

instance (g : FlowGraph) : Decidable g.KeepsContract :=
  inferInstanceAs (Decidable (_ ∧ ∀ node ∈ _, _ ∧ ∀ construct ∈ _, _))

/-- A construct that the entry leads to has no branch at the index, although it needs one. -/
def Lacks (g : FlowGraph) (construct : Branching) (index : Nat) : Prop :=
  ∃ ref node, g.Reachable ref ∧ g.get? ref = some node ∧
    node.kind.branching? = some construct ∧ node.branches.length ≤ index ∧ index < construct.needs

/-- **The graph accounts for the halt**, if it is a structural error. -/
def Explains (g : FlowGraph) : Halt → Prop
  | .error (.unknownNode ref) => g.Reachable ref ∧ g.get? ref = none
  | .error (.missingBranch construct index) => g.Lacks construct index
  | _ => True

variable {g : FlowGraph} {ref : FlowRef} {node : FlowNode} {h : Halt}

theorem explains_of_isAt {position : Nat} (hh : h.IsAt position) : g.Explains h := by
  cases h with
  | error e => cases e <;> trivial
  | outOfRange | endless => trivial

theorem explains_of_isOfConstruct (hh : h.IsOfConstruct) : g.Explains h := by
  cases h with
  | error e => cases e <;> trivial
  | outOfRange | endless => trivial

theorem explains_of_lacks {construct : Branching} (href : g.Reachable ref)
    (hnode : g.get? ref = some node) (hkind : node.kind.branching? = some construct)
    (hh : Visit.Lacks construct node.branches h) : g.Explains h := by
  rcases hh with hh | ⟨index, rfl, hle, hlt⟩
  · exact explains_of_isOfConstruct hh
  · exact ⟨ref, node, href, hnode, hkind, hle, hlt⟩

/-! ## The contract -/

namespace KeepsContract

theorem get?_of_reachable (hg : g.KeepsContract) (href : g.Reachable ref) :
    ∃ node, g.get? ref = some node := by
  refine get?_of_lt_size ?_
  rcases Relation.ReflTransGen.cases_tail href with rfl | ⟨other, -, node, hnode, hmem⟩
  · exact hg.1
  · exact (hg.2 node (mem_nodes_iff.mpr ⟨other, hnode⟩)).1 ref (List.mem_append.mpr hmem)

theorem not_lacks (hg : g.KeepsContract) (construct : Branching) (index : Nat) :
    ¬ g.Lacks construct index := by
  rintro ⟨ref, node, -, hnode, hkind, hle, hlt⟩
  have hneeds := (hg.2 node (mem_nodes_iff.mpr ⟨ref, hnode⟩)).2 construct hkind
  omega

end KeepsContract

end FlowGraph

/-! ## Walks -/

namespace Assembly

open GmlLift.FlowGraph

variable {α : Type} {cfg : Settings} {g : FlowGraph} {s : Assembly} {v : Visit}

/-- Code makes no structural errors. -/
theorem explains_execute (g : FlowGraph) (cfg : Settings) (code : List Instruction)
    (container : NodeId) : HaltsOnly g.Explains (Machine.execute cfg code container) := by
  refine (Machine.haltsOnly_execute cfg code container).mono ?_
  rintro e ⟨position, -, he⟩
  exact explains_of_isAt he

/-- **An action whose structural errors are to be found in the graph**; the graph that it leaves is
that one, pruned somewhere. -/
def Explained (g : FlowGraph) (x : Action Assembly α) (s : Assembly) (answer : α → Prop) : Prop :=
  x.Meets s (fun a s' => (∃ ran, g.PrunedAt s'.graph ran) ∧ answer a) g.Explains

/-- The visits go to nodes that the entry leads to. -/
def Leads (g : FlowGraph) (next : List Visit) : Prop := ∀ w ∈ next, g.Reachable w.node

theorem leads_of_follow {ref : FlowRef} {node : FlowNode} {branches : List FlowRef}
    (href : g.Reachable ref) (hnode : g.get? ref = some node) (hsub : branches ⊆ node.branches)
    {next : List Visit} (h : Visit.Follow branches next) : Leads g next :=
  fun w hw => href.branch hnode (hsub (h.mem w hw))

namespace Explained

protected theorem bind {β : Type} {x : Action Assembly α} {f : α → Action Assembly β}
    {answer : α → Prop} {answer' : β → Prop} (hx : Explained g x s answer)
    (hf : ∀ a s' ran, g.PrunedAt s'.graph ran → answer a → Explained g (f a) s' answer') :
    Explained g (x >>= f) s answer' := by
  refine Meets.bind (Meets.imp hx ?_)
  rintro a s' ⟨⟨ran, hran⟩, ha⟩
  exact hf a s' ran hran ha

/-- What is done may depend on the assembly. -/
theorem state_bind {f : Assembly → Action Assembly α} {answer : α → Prop}
    (h : Explained g (f s) s answer) : Explained g (state >>= f) s answer :=
  Meets.bind (meets_state h)

variable {ran : FlowRef → Prop} (hs : g.PrunedAt s.graph ran)

include hs

protected theorem pure {a : α} {answer : α → Prop} (h : answer a) :
    Explained g (pure a) s answer := ⟨⟨ran, hs⟩, h⟩

/-- What the machine does leaves the graph alone. -/
theorem onMachine {x : Action Machine α} {answer : α → Prop} (hx : HaltsOnly g.Explains x)
    (hanswer : ∀ m, x.Meets m (fun a _ => answer a) fun _ => True) :
    Explained g (Assembly.onMachine x) s answer :=
  Meets.onPart (((hx.meets s.machine).and (hanswer s.machine)).mono
    (fun _ _ h => ⟨⟨ran, hs⟩, h.2⟩) fun _ h => h.1)

/-- What the machine does, whatever it answers. -/
theorem onMachine_any {x : Action Machine α} (hx : HaltsOnly g.Explains x) :
    Explained g (Assembly.onMachine x) s fun _ => True :=
  onMachine hs hx fun m => meets_trivial x m

theorem execute (code : List Instruction) (container : NodeId) :
    Explained g (Assembly.onMachine (Machine.execute cfg code container)) s fun _ => True :=
  onMachine_any hs (explains_execute g cfg code container)

theorem prune {ref : FlowRef} {node : FlowNode} (hnode : s.graph.get? ref = some node)
    (hleaves : node.kind.leaves = true) :
    Explained g (onGraph (FlowGraph.prune cfg ref)) s fun _ => True := by
  obtain ⟨hresult, hstate⟩ := prune_of_get? cfg hnode
  have hok : (onGraph (FlowGraph.prune cfg ref) s).result = .ok () := hresult
  have hpruned := hs.prune hnode hleaves
  rw [← hstate] at hpruned
  exact (meets_of_ok hok).mpr ⟨⟨_, hpruned⟩, trivial⟩

end Explained

section Visits

variable {ran : FlowRef → Prop}

theorem explained_visitBlock (hs : g.PrunedAt s.graph ran) {block : Block} {node : FlowNode}
    (hnode : s.graph.get? v.node = some node) (hkind : node.kind = .block block)
    (hnext : Leads g (v.goOn node.branches)) :
    Explained g (visitBlock cfg v block node.branches) s (Leads g) := by
  have hend (s' : Assembly) (ran' : FlowRef → Prop) (hs' : g.PrunedAt s'.graph ran') :
      Explained g (onMachine (v.finishBlock cfg block.role) >>= fun _ =>
        pure (v.goOn node.branches)) s' (Leads g) := by
    refine Explained.bind (Explained.onMachine_any hs' ?_) fun _ s'' ran'' hs'' _ =>
      .pure hs'' hnext
    exact (Visit.haltsOnly_finishBlock cfg v block.role).mono fun e => explains_of_isOfConstruct
  -- the code leaves the graph as it is, so the node is still there to be pruned
  have hexecute : (onMachine (Machine.execute cfg block.code v.container)).Meets s
      (fun _ s' => s'.graph = s.graph) g.Explains :=
    Meets.onPart (((explains_execute g cfg block.code v.container).meets _).mono
      (fun _ _ _ => rfl) fun _ he => he)
  unfold visitBlock
  refine Meets.bind (hexecute.imp fun _ s' hgraph => ?_)
  rw [← hgraph] at hs hnode
  split
  · rename_i hrole
    have hleaves : node.kind.leaves = true := by
      rw [hkind]
      exact hrole
    exact Explained.bind (Explained.prune hs hnode hleaves) fun _ s'' ran' hs'' _ =>
      hend s'' ran' hs''
  · exact hend s' ran hs

/-- A way to assemble conditions whose structural errors are to be found in the graph. -/
def AssemblesExplained (g : FlowGraph) (assemble : Assembler) : Prop :=
  ∀ (s : Assembly) (ran : FlowRef → Prop) (container : NodeId) (ref : FlowRef),
    g.PrunedAt s.graph ran → g.Reachable ref →
      Explained g (assemble container ref) s fun _ => True

theorem explained_conditionOperands {assemble : Assembler} (ha : AssemblesExplained g assemble)
    (container : NodeId) : ∀ (conditions : List FlowRef) (s : Assembly) (ran : FlowRef → Prop),
      g.PrunedAt s.graph ran → (∀ ref ∈ conditions, g.Reachable ref) →
      Explained g (conditionOperands (assemble container) conditions) s fun _ => True
  | [], _, _, hs, _ => .pure hs trivial
  | condition :: rest, s, ran, hs, hreach => by
    obtain ⟨hcondition, hrest⟩ := List.forall_mem_cons.mp hreach
    unfold conditionOperands
    refine .bind (ha s ran container condition hs hcondition) fun inner s₁ ran₁ hs₁ _ => ?_
    obtain ⟨items⟩ := inner
    cases items with
    | nil => exact (trivial : g.Explains (.error (.missingExpression _)))
    | cons operand others =>
      refine .bind (Explained.onMachine_any hs₁ (.change _)) fun _ s₂ ran₂ hs₂ _ => ?_
      refine .bind (explained_conditionOperands ha container rest s₂ ran₂ hs₂ hrest)
        fun _ s₃ ran₃ hs₃ _ => ?_
      exact .pure hs₃ trivial

/-- **One visit.** -/
theorem explained_visit {assemble : Assembler} (ha : AssemblesExplained g assemble)
    (hs : g.PrunedAt s.graph ran) (hv : g.Reachable v.node) :
    Explained g (visit cfg assemble v) s (Leads g) := by
  refine .state_bind ?_
  cases hnode' : s.graph.get? v.node with
  | none => exact ⟨hv, hs.get?_eq_none_iff.mp hnode'⟩
  | some node' =>
    obtain ⟨node, hnode, hkind, hsub, hstays⟩ := hs.original hnode'
    have hfollow {next : List Visit} (h : Visit.Follow node'.branches next) : Leads g next :=
      leads_of_follow hv hnode hsub h
    cases hk : node'.kind with
    | block block =>
      simp only [hk]
      exact explained_visitBlock hs hnode' hk (hfollow (Visit.follow_goOn v _))
    | conditional header =>
      simp only [hk]
      rw [hk] at hkind
      obtain rfl := hstays (by rw [← hkind]; rfl)
      refine .bind (Explained.execute hs header.code v.container) fun _ s₁ ran₁ hs₁ _ => ?_
      refine .onMachine hs₁ ((Visit.haltsOnly_openConditional v node'.branches).mono fun e he => ?_)
        fun m => (Visit.openConditional_follows v node'.branches m).imp fun _ _ => hfollow
      exact explains_of_lacks hv hnode (by rw [hk]; rfl) he
    | loop kind =>
      simp only [hk]
      rw [hk] at hkind
      obtain rfl := hstays (by rw [← hkind]; rfl)
      refine .onMachine hs ((Visit.haltsOnly_openLoop v kind node'.branches).mono fun e he => ?_)
        fun m => (Visit.openLoop_follows v kind node'.branches m).imp fun _ _ => hfollow
      exact explains_of_lacks hv hnode (by rw [hk]; rfl) he
    | switch =>
      simp only [hk]
      refine .onMachine hs ((Visit.haltsOnly_openSwitch v node'.branches).mono fun e he => ?_)
        fun m => (Visit.openSwitch_follows v node'.branches m).imp fun _ _ => hfollow
      exact explains_of_isOfConstruct he
    | shortCircuit op conditions =>
      simp only [hk]
      rw [hk] at hkind
      have hconditions : ∀ ref ∈ conditions, g.Reachable ref := fun ref href =>
        hv.condition hnode (by rw [← hkind]; exact href)
      refine .bind (explained_conditionOperands ha v.container conditions s ran hs hconditions)
        fun operands s₁ ran₁ hs₁ _ => ?_
      refine .bind (Explained.onMachine_any hs₁ (Machine.haltsOnly_pushNew ..))
        fun _ s₂ ran₂ hs₂ _ => ?_
      exact .pure hs₂ (hfollow (Visit.follow_goOn v _))

end Visits

/-- **The structural errors of a walk are to be found in the graph.** -/
theorem explained_walk (cfg : Settings) (g : FlowGraph) (budget : Nat) :
    ∀ (pending : List Visit) (s : Assembly) (ran : FlowRef → Prop), g.PrunedAt s.graph ran →
      Leads g pending → Explained g (walk cfg budget pending) s fun _ => True := by
  induction budget with
  | zero =>
    intro pending s ran hs _
    cases pending with
    | nil => exact .pure hs trivial
    | cons v pending => exact (trivial : g.Explains .endless)
  | succ budget ih =>
    intro pending s ran hs hpending
    cases pending with
    | nil => exact .pure hs trivial
    | cons v pending =>
      obtain ⟨hv, hpending⟩ := List.forall_mem_cons.mp hpending
      have ha : AssemblesExplained g (fragment cfg budget) := by
        intro s' ran' container ref hs' href
        refine meets_onFreshStack (Meets.imp (ih [{ container, node := ref }] _ ran' hs' ?_) ?_)
        · intro w hw
          rw [List.mem_singleton.mp hw]
          exact href
        · exact fun _ s'' h => h
      rw [walk_succ_cons]
      refine .bind (explained_visit ha hs hv) fun next s' ran' hs' hnext => ih _ s' ran' hs' ?_
      exact fun w hw => (List.mem_append.mp hw).elim (hnext w) (hpending w)

end Assembly

/-- Within any budget, the graph accounts for the error. -/
theorem explains_of_liftWithin {cfg : Settings} {g : FlowGraph} {budget : Nat} {e : LiftError}
    (h : (liftWithin cfg budget g).result = .error (.error e)) : g.Explains (.error e) := by
  have hwalk : (Assembly.fragment cfg budget Tree.root g.entry).Meets { graph := g }
      (fun _ s' => (∃ ran, g.PrunedAt s'.graph ran) ∧ True) g.Explains := by
    refine Assembly.meets_onFreshStack (Assembly.explained_walk cfg g budget _ _ _ (.refl g) ?_)
    intro w hw
    rw [List.mem_singleton.mp hw]
    exact .refl
  simp only [liftWithin] at h
  cases hr : (Assembly.fragment cfg budget Tree.root g.entry { graph := g }).result with
  | ok leftover =>
    rw [hr] at h
    cases h
  | error e' =>
    rw [hr] at h
    cases h
    exact (meets_of_error hr).mp hwalk

/-- **Structural errors are errors of the graph**, as it was given: if a node is missing, then the
entry leads to it, through branches and conditions, and it is not in the graph; if a branch is
missing, then there is a construct of that sort without it. So there is no such error in a graph
that keeps its contract. -/
theorem liftGraph_structural {cfg : Settings} {g : FlowGraph} {e : LiftError}
    (h : (liftGraph cfg g).result = .error (.error e) ∨
      ∃ g', LiftsTo cfg g (.error (.error e)) g') :
    (g.KeepsContract →
      (∀ ref, e ≠ .unknownNode ref) ∧ ∀ construct index, e ≠ .missingBranch construct index) ∧
    (∀ ref, e = .unknownNode ref → g.Reachable ref ∧ g.get? ref = none) ∧
    ∀ construct index, e = .missingBranch construct index →
      ∃ ref node, g.Reachable ref ∧ g.get? ref = some node ∧
        node.kind.branching? = some construct ∧ node.branches.length ≤ index ∧
        index < construct.needs := by
  have hexplains : g.Explains (.error e) := by
    obtain ⟨budget, h⟩ := exists_liftWithin h
    exact explains_of_liftWithin h
  refine ⟨fun hg => ⟨?_, ?_⟩, ?_, ?_⟩
  · rintro ref rfl
    obtain ⟨node, hnode⟩ := hg.get?_of_reachable hexplains.1
    rw [hexplains.2] at hnode
    cases hnode
  · rintro construct index rfl
    exact hg.not_lacks construct index hexplains
  · rintro ref rfl
    exact hexplains
  · rintro construct index rfl
    exact hexplains

/-- Behind a block that continues and has lost its branch: code that fails in a graph that keeps its
contract, a block that breaks to a node that is not there, and a conditional without a true arm. -/
theorem liftGraph_structural_continued :
    let one : Instruction := { opcode := .push, type1 := .int16, literal := some (.int16 1) }
    let behind (node : FlowNode) : FlowGraph := {
      nodes := #[
        { kind := .loop .whileLoop, branches := [⟨3⟩, ⟨1⟩] },
        { kind := .block { role := .continueOn }, branches := [⟨2⟩] },
        node,
        { kind := .block {} }] }
    let sound := behind { kind := .block { code := [{ opcode := .ret }] }, branches := [⟨3⟩] }
    let dangling := behind { kind := .block { role := .breakOut }, branches := [⟨9⟩] }
    let stunted := behind { kind := .conditional { code := [one] }, branches := [⟨3⟩] }
    (sound.KeepsContract ∧ (liftGraph {} sound).result = .error (.error (.underflow 0)) ∧
      (∀ ref, LiftError.underflow 0 ≠ .unknownNode ref) ∧
      ∀ construct index, LiftError.underflow 0 ≠ .missingBranch construct index) ∧
    (¬ dangling.KeepsContract ∧
      (liftGraph {} dangling).result = .error (.error (.unknownNode ⟨9⟩)) ∧
      dangling.Reachable ⟨9⟩ ∧ dangling.get? ⟨9⟩ = none) ∧
    ¬ stunted.KeepsContract ∧
      (liftGraph {} stunted).result = .error (.error (.missingBranch .conditional 1)) ∧
      ∃ ref node, stunted.Reachable ref ∧ stunted.get? ref = some node ∧
        node.kind.branching? = some .conditional ∧ node.branches.length ≤ 1 := by
  intro one behind sound dangling stunted
  have hsound : (liftGraph {} sound).result = .error (.error (.underflow 0)) := by decide +kernel
  have hdangling : (liftGraph {} dangling).result = .error (.error (.unknownNode ⟨9⟩)) := by
    decide +kernel
  have hstunted : (liftGraph {} stunted).result =
      .error (.error (.missingBranch .conditional 1)) := by
    decide +kernel
  have hkeeps : sound.KeepsContract := by decide
  refine ⟨⟨hkeeps, hsound, (liftGraph_structural (Or.inl hsound)).1 hkeeps⟩,
    ⟨by decide, hdangling, (liftGraph_structural (Or.inl hdangling)).2.1 _ rfl⟩,
    by decide, hstunted, ?_⟩
  obtain ⟨ref, node, href, hnode, hkind, hlen, -⟩ :=
    (liftGraph_structural (Or.inl hstunted)).2.2 _ _ rfl
  exact ⟨ref, node, href, hnode, hkind, hlen⟩

end GmlLift
