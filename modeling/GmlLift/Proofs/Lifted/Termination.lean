import GmlLift.Proofs.Assembly.Echo
import GmlLift.Proofs.Assembly.Layout
import GmlLift.Proofs.Assembly.Moments
import GmlLift.Proofs.Flow.Ranking

/-!
# Where pruning cuts every cycle, assembly ends

A visit calls for branches of its node, or for a branch of a block that is pruned by the visit. So
with every visit the cost of what is to be done goes down (`Assembly.lowers_visit`), and the budget
of the graph lasts to the end (`Assembly.walk_ends`). Nothing else can keep a walk from ending but
the text of a node, if it is reported and refers to itself.
-/

namespace GmlLift

open GmlLift.Action

/-! ## What a construct calls for -/

namespace Visit

/-- The visits go to branches of the node, and there are no more of them. -/
structure Follow (branches : List FlowRef) (next : List Visit) : Prop where
  length_le : next.length ≤ branches.length
  mem : ∀ w ∈ next, w.node ∈ branches

variable {v : Visit} {m : Machine} {branches : List FlowRef}

theorem follow_goOn (v : Visit) (branches : List FlowRef) : Follow branches (v.goOn branches) := by
  cases branches with
  | nil => exact ⟨Nat.le_refl _, fun _ h => nomatch h⟩
  | cons node rest =>
    refine ⟨by simp [goOn], fun w hw => ?_⟩
    rw [List.mem_singleton.mp hw]
    exact List.mem_cons_self

theorem lt_length_of_get {i : Nat} {node : FlowRef} (h : branches[i]? = some node) :
    i < branches.length :=
  (List.getElem?_eq_some_iff.mp h).1

theorem openConditional_follows (v : Visit) (branches : List FlowRef) (m : Machine) :
    (v.openConditional branches).Meets m (fun next _ => Follow branches next) fun _ => True := by
  refine .bind (meets_branch trivial fun continuation hcontinuation => ?_)
  refine .bind (meets_branch trivial fun trueArm htrue => ?_)
  refine .bind_any fun _ _ => .bind_any fun _ _ => .bind_any fun _ _ => .bind_any fun _ _ =>
    .bind_any fun _ _ => .bind_any fun _ _ => ?_
  cases hfalse : branches[2]? with
  | none =>
    refine meets_pure ⟨lt_length_of_get htrue, ?_⟩
    simp [goTo, List.mem_of_getElem? htrue, List.mem_of_getElem? hcontinuation]
  | some falseArm =>
    refine .bind_any fun _ _ => .bind_any fun _ _ => ?_
    refine meets_pure ⟨lt_length_of_get hfalse, ?_⟩
    simp [goTo, List.mem_of_getElem? htrue, List.mem_of_getElem? hfalse,
      List.mem_of_getElem? hcontinuation]

theorem openBody_follows (v : Visit) (statement : NodeId) (branches : List FlowRef) (m : Machine) :
    (v.openBody statement branches).Meets m (fun w _ => branches[1]? = some w.node)
      fun _ => True := by
  refine .bind_any fun _ _ => .bind_any fun _ _ => .bind_any fun _ _ => ?_
  exact .bind (meets_branch trivial fun node hnode => meets_pure hnode)

theorem openLoop_follows (v : Visit) (kind : LoopKind) (branches : List FlowRef) (m : Machine) :
    (v.openLoop kind branches).Meets m (fun next _ => Follow branches next) fun _ => True := by
  refine .bind_any fun statement m' => ?_
  cases kind with
  | forLoop =>
    refine .bind (meets_branch trivial fun condition hcondition => ?_)
    refine .bind (meets_branch trivial fun step hstep => ?_)
    refine .bind_any fun _ _ => .bind_any fun _ _ => .bind ((openBody_follows ..).imp ?_)
    intro body _ hbody
    refine meets_pure ⟨lt_length_of_get hstep, ?_⟩
    simp [goTo, List.mem_of_getElem? hbody, List.mem_of_getElem? hstep,
      List.mem_of_getElem? hcondition]
  | whileLoop | doUntilLoop | repeatLoop | withLoop =>
    refine .bind ((openBody_follows ..).imp fun body _ hbody => ?_)
    refine .bind (meets_branch trivial fun continuation hcontinuation => ?_)
    refine meets_pure ⟨lt_length_of_get hbody, ?_⟩
    simp [goTo, List.mem_of_getElem? hbody, List.mem_of_getElem? hcontinuation]

theorem openSwitch_follows (v : Visit) (branches : List FlowRef) (m : Machine) :
    (v.openSwitch branches).Meets m (fun next _ => Follow branches next) fun _ => True := by
  refine .bind_any fun statement _ => .bind_any fun _ _ => meets_pure ?_
  have hgoOn := follow_goOn v branches
  cases branches with
  | nil => exact hgoOn
  | cons node rest =>
    refine ⟨by simp [goOn], fun w hw => ?_⟩
    rcases List.mem_append.mp hw with hw | hw
    · obtain ⟨case, hcase, rfl⟩ := List.mem_map.mp hw
      exact List.mem_cons_of_mem _ hcase
    · exact hgoOn.mem w hw

end Visit

namespace Assembly

open GmlLift.FlowGraph

variable {cfg : Settings} {rank : FlowRef → Nat} {width : Nat} {α : Type} {s : Assembly} {v : Visit}

/-- With nothing reported, what the machine does has an end. -/
theorem meets_onMachine (quiet : cfg.verbosity = none) {x : Action Machine α}
    (hx : Machine.Echoes cfg cfg 0 x x) {post : α → Prop}
    (hpost : ∀ m, x.Meets m (fun a _ => post a) fun _ => True) :
    (onMachine x).Meets s (fun a s' => s'.graph = s.graph ∧ post a) (· ≠ .endless) := by
  have hends : x.Meets s.machine (fun _ _ => True) (· ≠ .endless) := by
    cases hr : (x s.machine).result with
    | ok a => exact (meets_of_ok hr).mpr trivial
    | error e =>
      refine (meets_of_error hr).mpr ?_
      rintro rfl
      exact (hx.ends s.machine hr).1 quiet
  exact Meets.onPart (((hpost s.machine).and hends).mono (fun a _ h => ⟨rfl, h.1⟩) fun _ h => h.2)

/-- **What an action calls for costs less than a visit to the node**, in the graph as it was, and
the action ends. -/
def Lowers (rank : FlowRef → Nat) (width : Nat) (g : FlowGraph) (ref : FlowRef)
    (x : Action Assembly (List Visit)) (s : Assembly) : Prop :=
  x.Meets s (fun next s' => g.Shrinks rank width s'.graph ∧
    s'.graph.cost rank width (next.map Visit.node) < g.cost rank width [ref]) (· ≠ .endless)

variable {g : FlowGraph} {node : FlowNode}

/-- Lasting edges, in a graph that may have been pruned meanwhile. -/
theorem cost_follow (hg : g.Ranked rank width) (hnode : g.get? v.node = some node)
    (hstays : node.kind.leaves = false) {next : List Visit} (h : Visit.Follow node.branches next)
    {g' : FlowGraph} (hg' : g.Shrinks rank width g') :
    g'.cost rank width (next.map Visit.node) < g.cost rank width [v.node] := by
  refine hg'.cost_calls hg (fun other ho => ?_) ?_
  · obtain ⟨w, hw, rfl⟩ := List.mem_map.mp ho
    exact ⟨node, hnode, Or.inl (h.mem w hw),
      fun hleaves => absurd (hstays.symm.trans hleaves) nofun⟩
  · rw [List.length_map]
    exact Nat.le_succ_of_le (Nat.le_trans h.length_le (hg.width hnode))

theorem cost_condition (hg : g.Ranked rank width) (hnode : g.get? v.node = some node)
    (hstays : node.kind.leaves = false) {c : FlowRef} (hc : c ∈ node.kind.conditions) :
    g.cost rank width [c] < g.cost rank width [v.node] := by
  have hlasting : g.Lasting v.node c :=
    ⟨node, hnode, Or.inr hc, fun hleaves => absurd (hstays.symm.trans hleaves) nofun⟩
  exact (Shrinks.of_eq hg rfl).cost_calls hg (by simpa using hlasting) (Nat.le_add_left ..)

/-- The machine calls for visits. -/
theorem lowers_onMachine (quiet : cfg.verbosity = none) (hs : s.graph.Ranked rank width)
    (hnode : s.graph.get? v.node = some node) (hstays : node.kind.leaves = false)
    {x : Action Machine (List Visit)} (hx : Machine.Echoes cfg cfg 0 x x)
    (hfollows : ∀ m, x.Meets m (fun next _ => Visit.Follow node.branches next) fun _ => True) :
    Lowers rank width s.graph v.node (onMachine x) s := by
  refine (meets_onMachine quiet hx hfollows).imp ?_
  rintro next s' ⟨hgraph, hfollow⟩
  have hshrinks : s.graph.Shrinks rank width s'.graph := .of_eq hs hgraph
  exact ⟨hshrinks, cost_follow hs hnode hstays hfollow hshrinks⟩

/-- The end of a visit to a block, once the graph is as it will be. -/
theorem lowers_finishBlock (quiet : cfg.verbosity = none) {ref : FlowRef} {next : List Visit}
    (hg : g.Shrinks rank width s.graph)
    (hcost : s.graph.cost rank width (next.map Visit.node) < g.cost rank width [ref])
    (v : Visit) (role : Role) :
    Lowers rank width g ref (onMachine (v.finishBlock cfg role) >>= fun _ => pure next) s := by
  refine .bind ((meets_onMachine quiet (Visit.echoes_finishBlock (.refl cfg) v role)
    fun m => meets_trivial _ m).imp ?_)
  rintro _ s' ⟨hgraph, -⟩
  rw [← hgraph] at hg hcost
  exact meets_pure ⟨hg, hcost⟩

theorem lowers_visitBlock (quiet : cfg.verbosity = none) (hs : s.graph.Ranked rank width)
    {block : Block} (hnode : s.graph.get? v.node = some node) (hk : node.kind = .block block) :
    Lowers rank width s.graph v.node (visitBlock cfg v block node.branches) s := by
  have hgoOn := Visit.follow_goOn v node.branches
  refine .bind ((meets_onMachine quiet (Machine.echoes_execute (.refl cfg) block.code v.container)
    fun m => meets_trivial _ m).imp ?_)
  rintro _ s₁ ⟨hgraph, -⟩
  have hrest : Lowers rank width s.graph v.node (do
      if block.role = .breakOut || block.role = .continueOn then onGraph (prune cfg v.node)
      onMachine (v.finishBlock cfg block.role)
      return v.goOn node.branches) s₁ := by
    split
    · rename_i hleaves
      replace hleaves : node.kind.leaves = true := by
        rw [hk]
        exact hleaves
      rw [← hgraph] at hnode hs ⊢
      obtain ⟨hok, hstate⟩ := prune_of_get? cfg hnode
      have hprune : (onGraph (prune cfg v.node)).Meets s₁
          (fun _ s₂ => s₂.graph = s₁.graph.setBranches v.node (s₁.graph.keptBranches node))
          (· ≠ .endless) := Meets.onPart ((meets_of_ok hok).mpr hstate)
      refine .bind (hprune.imp fun _ s₂ hgraph₂ => lowers_finishBlock quiet ?_ ?_ v block.role)
      · rw [hgraph₂]
        exact shrinks_prune hs hnode hleaves
      · rw [hgraph₂]
        refine hs.cost_prune hnode hleaves ?_
        cases hb : node.branches with
        | nil => exact Or.inl rfl
        | cons b rest => exact Or.inr ⟨b, List.mem_cons_self, rfl⟩
    · rename_i hstays
      have hshrinks : s.graph.Shrinks rank width s₁.graph := .of_eq hs hgraph
      replace hstays : node.kind.leaves = false := by
        rw [hk]
        exact eq_false_of_ne_true hstays
      exact lowers_finishBlock quiet hshrinks (cost_follow hs hnode hstays hgoOn hshrinks) v _
  exact hrest

/-- The conditions of a short circuit are assembled within the budget. -/
def Assembles (rank : FlowRef → Nat) (width budget : Nat) (assemble : Assembler) : Prop :=
  ∀ (s : Assembly) (container : NodeId) (node : FlowRef), s.graph.Ranked rank width →
    s.graph.cost rank width [node] ≤ budget →
    (assemble container node).Meets s (fun _ s' => s.graph.Shrinks rank width s'.graph)
      (· ≠ .endless)

theorem meets_conditionOperands {budget : Nat} {assemble : Assembler}
    (ha : Assembles rank width budget assemble) (container : NodeId) (conditions : List FlowRef) :
    ∀ s : Assembly, s.graph.Ranked rank width →
      (∀ c ∈ conditions, s.graph.cost rank width [c] ≤ budget) →
      (conditionOperands (assemble container) conditions).Meets s
        (fun _ s' => s.graph.Shrinks rank width s'.graph) (· ≠ .endless) := by
  induction conditions with
  | nil => exact fun s hs _ => meets_pure (.of_eq hs rfl)
  | cons condition rest ih =>
    intro s hs hcost
    refine .bind ((ha s container condition hs (hcost condition List.mem_cons_self)).imp ?_)
    intro inner s₁ hs₁
    obtain ⟨items⟩ := inner
    cases items with
    | nil => exact nofun
    | cons operand others =>
      let s₂ : Assembly :=
        { s₁ with machine := { s₁.machine with stack := s₁.machine.stack.append ⟨others⟩ } }
      have hrest := ih s₂ hs₁.ranked fun c hc =>
        Nat.le_trans (hs₁.cost_le [c]) (hcost c (List.mem_cons_of_mem _ hc))
      refine .bind (Meets.onPart (meets_change (.bind (hrest.imp fun operands s₃ hs₃ => ?_))))
      exact meets_pure (hs₁.trans hs₃)

theorem lowers_visit (quiet : cfg.verbosity = none) {budget : Nat} {assemble : Assembler}
    (ha : Assembles rank width budget assemble) (hs : s.graph.Ranked rank width)
    (hcost : s.graph.cost rank width [v.node] ≤ budget + 1) :
    Lowers rank width s.graph v.node (visit cfg assemble v) s := by
  refine Meets.bind (meets_state ?_)
  cases hnode : s.graph.get? v.node with
  | none => exact nofun
  | some node =>
    cases hk : node.kind with
    | block block =>
      simp only [hk]
      exact lowers_visitBlock quiet hs hnode hk
    | conditional header =>
      simp only [hk]
      refine .bind ((meets_onMachine quiet (Machine.echoes_execute (.refl cfg) header.code _)
        fun m => meets_trivial _ m).imp ?_)
      rintro _ s₁ ⟨hgraph, -⟩
      rw [← hgraph] at hs hnode ⊢
      exact lowers_onMachine quiet hs hnode (by rw [hk]; rfl) (Visit.echoes_openConditional ..)
        (Visit.openConditional_follows v node.branches)
    | shortCircuit op conditions =>
      simp only [hk]
      have hstays : node.kind.leaves = false := by
        rw [hk]
        rfl
      have hconditions (c : FlowRef) (hc : c ∈ conditions) :
          s.graph.cost rank width [c] ≤ budget := by
        have hlt := cost_condition hs hnode hstays (c := c) (by rw [hk]; exact hc)
        omega
      refine .bind ((meets_conditionOperands ha v.container conditions s hs hconditions).imp ?_)
      intro operands s₁ hs₁
      refine .bind ((meets_onMachine quiet (Machine.echoes_pushNew ..)
        fun m => meets_trivial _ m).imp ?_)
      rintro _ s₂ ⟨hgraph, -⟩
      rw [← hgraph] at hs₁
      exact meets_pure ⟨hs₁, cost_follow hs hnode hstays (Visit.follow_goOn v node.branches) hs₁⟩
    | loop kind =>
      simp only [hk]
      exact lowers_onMachine quiet hs hnode (by rw [hk]; rfl) (Visit.echoes_openLoop ..)
        (Visit.openLoop_follows v kind node.branches)
    | switch =>
      simp only [hk]
      exact lowers_onMachine quiet hs hnode (by rw [hk]; rfl) (Visit.echoes_openSwitch ..)
        (Visit.openSwitch_follows v node.branches)

/-! ## Walks -/

/-- **A budget that covers the cost lasts to the end.** -/
theorem walk_ends (quiet : cfg.verbosity = none) (budget : Nat) :
    ∀ (pending : List Visit) (s : Assembly), s.graph.Ranked rank width →
      s.graph.cost rank width (pending.map Visit.node) ≤ budget →
      (walk cfg budget pending).Meets s (fun _ s' => s.graph.Shrinks rank width s'.graph)
        (· ≠ .endless) := by
  induction budget with
  | zero =>
    intro pending s hs hcost
    cases pending with
    | nil => exact meets_pure (.of_eq hs rfl)
    | cons v pending =>
      have hpos := weight_singleton_pos rank width v.node
      rw [List.map_cons, ← List.singleton_append, cost_append, cost] at hcost
      omega
  | succ budget ih =>
    intro pending s hs hcost
    cases pending with
    | nil => exact meets_pure (.of_eq hs rfl)
    | cons v pending =>
      rw [List.map_cons, ← List.singleton_append, cost_append] at hcost
      have ha : Assembles rank width budget (fragment cfg budget) := by
        intro s' container node hs' hcost'
        exact meets_onFreshStack (ih [{ container, node }] _ hs' hcost')
      rw [walk_succ_cons]
      refine .bind ((lowers_visit quiet ha hs (by omega)).imp ?_)
      rintro next s' ⟨hs', hlower⟩
      refine (ih (next ++ pending) s' hs'.ranked ?_).imp fun _ _ => hs'.trans
      rw [List.map_append, cost_append]
      omega

theorem assembleInto_apply (cfg : Settings) (container : NodeId) (node : FlowRef) (s : Assembly) :
    assembleInto cfg container node s = fragment cfg s.graph.budget container node s := rfl

/-- With nothing reported, an assembly ends on a graph whose cycles are cut. -/
theorem assembleInto_endsOn_of_quiet (quiet : cfg.verbosity = none) (hg : s.graph.CyclesCut)
    (container : NodeId) (node : FlowRef) : (assembleInto cfg container node).EndsOn s := by
  have hmeets : (fragment cfg s.graph.budget container node).Meets s
      (fun _ s' => s.graph.Shrinks s.graph.rank s.graph.degree s'.graph) (· ≠ .endless) :=
    meets_onFreshStack
      (walk_ends quiet _ [{ container, node }] _ hg.ranked (hg.cost_le_budget node))
  intro hendless
  rw [assembleInto_apply] at hendless
  exact (meets_of_error hendless).mp hmeets rfl

end Assembly

/-! ## Assembly and lifting -/

/-- A report has asked for the text of a node that has none. -/
def Halt.FromReport (cfg : Settings) (t : Tree) (h : Halt) : Prop :=
  cfg.verbosity ≠ none ∧ ∃ id fault, t.text id = .error fault ∧ h = fault.halt

/-- **There is an answer or an error of the function**, unless a report could not be made. -/
def Settles {α : Type} (cfg : Settings) (t : Tree) (result : Except Halt α) : Prop :=
  (∃ a, result = .ok a) ∨ (∃ e, result = .error (.error e)) ∨
    ∃ h, result = .error h ∧ h.FromReport cfg t

theorem Settles.map {α β : Type} {cfg : Settings} {t : Tree} {result : Except Halt α}
    (h : Settles cfg t result) (f : α → β) : Settles cfg t (result.map f) := by
  rcases h with ⟨a, rfl⟩ | ⟨e, rfl⟩ | ⟨h, rfl, hreport⟩
  · exact Or.inl ⟨f a, rfl⟩
  · exact Or.inr (Or.inl ⟨e, rfl⟩)
  · exact Or.inr (Or.inr ⟨h, rfl, hreport⟩)

theorem Action.CutShort.fromReport {cfg : Settings} {t : Tree} {h : Halt}
    (hcut : CutShort cfg { cfg with verbosity := none } t h) : h.FromReport cfg t :=
  ⟨Ne.symm hcut.1, hcut.2⟩

namespace Assembly

variable {cfg : Settings} {s : Assembly} {container : NodeId} {node : FlowRef}

/-- An assembly does what it does with nothing reported, or a report could not be made. -/
theorem assembleInto_quiet (cfg : Settings) (container : NodeId) (node : FlowRef) (s : Assembly) :
    (assembleInto { cfg with verbosity := none } container node s).result =
        (assembleInto cfg container node s).result ∨
      ∃ h, (assembleInto cfg container node s).result = .error h ∧
        h.FromReport cfg (assembleInto cfg container node s).state.machine.tree := by
  rw [assembleInto_apply, assembleInto_apply]
  rcases hushed_fragment cfg.hushes_quiet s.graph.budget container node s with
    ⟨-, hresult⟩ | ⟨h, herror, hcut⟩
  · rw [Halt.mapError_shift_zero] at hresult
    exact Or.inl hresult
  · exact Or.inr ⟨h, herror, hcut.fromReport⟩

/-- With nothing reported, an assembly into a node of a tree finds everything that it looks for. -/
theorem assembleInto_inRange (quiet : cfg.verbosity = none) (ht : s.machine.tree.Closed)
    (hc : s.machine.tree.Holds container) {h : Halt}
    (hresult : (assembleInto cfg container node s).result = .error h) :
    h.IsFault ∨ h = .endless := by
  -- what the tree had before is not the run's own
  let own : NodeId → Prop := fun id => ¬ s.machine.tree.Holds id
  have hlayout : s.machine.tree.Layout cfg own :=
    ⟨ht, fun _ hid => hid, fun id n hown hn => absurd (Tree.holds_of_get? hn) hown⟩
  have hseated : Visit.Seated own s.machine.tree { container, node } :=
    ⟨⟨hc, fun hown => absurd hc hown⟩, nofun, nofun⟩
  have hkept := (Scheme.layout_upkeep quiet own).fragment s.graph.budget hlayout hseated
  rw [assembleInto_apply] at hresult
  exact (meets_of_error hresult).mp hkept

theorem assembleInto_settles (hg : s.graph.CyclesCut) (ht : s.machine.tree.Closed)
    (hc : s.machine.tree.Holds container) (cfg : Settings) (node : FlowRef) :
    Settles cfg (assembleInto cfg container node s).state.machine.tree
      (assembleInto cfg container node s).result := by
  rcases assembleInto_quiet cfg container node s with hsame | hreport
  · cases hresult : (assembleInto cfg container node s).result with
    | ok leftover => exact Or.inl ⟨leftover, rfl⟩
    | error h =>
      rw [hresult] at hsame
      have hends : h ≠ .endless := by
        rintro rfl
        exact assembleInto_endsOn_of_quiet rfl hg container node hsame
      have hfault := (assembleInto_inRange rfl ht hc hsame).resolve_right hends
      obtain ⟨e, rfl⟩ := Halt.isFault_iff.mp hfault
      exact Or.inr (Or.inl ⟨e, rfl⟩)
  · exact Or.inr (Or.inr hreport)

/-- A larger budget changes nothing. -/
theorem fragment_of_endsOn (h : (assembleInto cfg container node).EndsOn s) {budget : Nat}
    (hb : s.graph.budget ≤ budget) :
    fragment cfg budget container node s = assembleInto cfg container node s := by
  unfold EndsOn at h
  rw [assembleInto_apply] at h ⊢
  exact approximates_onFreshStack (walk_mono cfg hb _) s h

end Assembly

/-- **Where pruning cuts every cycle, assembly terminates**: from any node into any container it
ends, unless a text that is reported has no end; it needs no more than the budget of the graph; and
into a node of a tree it ends with an answer or an error. So does lifting the graph. -/
theorem assembly_terminates (cfg : Settings) {s : Assembly} (hg : s.graph.CyclesCut) :
    (∀ container node,
      let o := Assembly.assembleInto cfg container node s
      (o.result = .error .endless → Halt.FromReport cfg o.state.machine.tree .endless) ∧
      (cfg.verbosity = none → ∀ budget, s.graph.budget ≤ budget →
        Assembly.fragment cfg budget container node s = o) ∧
      (s.machine.tree.Closed → s.machine.tree.Holds container →
        Settles cfg o.state.machine.tree o.result)) ∧
    Settles cfg
      (Assembly.assembleInto cfg Tree.root s.graph.entry { graph := s.graph }).state.machine.tree
      (liftGraph cfg s.graph).result := by
  refine ⟨fun container node => ⟨fun hendless => ?_, fun quiet budget hb => ?_, fun ht hc => ?_⟩,
    ?_⟩
  · rcases Assembly.assembleInto_quiet cfg container node s with hsame | ⟨h, herror, hreport⟩
    · rw [hendless] at hsame
      exact absurd hsame (Assembly.assembleInto_endsOn_of_quiet rfl hg container node)
    · rw [hendless] at herror
      cases herror
      exact hreport
  · have hends := Assembly.assembleInto_endsOn_of_quiet quiet hg container node
    exact Assembly.fragment_of_endsOn hends hb
  · exact Assembly.assembleInto_settles hg ht hc cfg node
  · let s₀ : Assembly := { graph := s.graph }
    have hnew : s₀.machine.WellFormed Tree.root := Machine.wellFormed_new
    have hroot := Assembly.assembleInto_settles (s := s₀) hg hnew.closed hnew.container cfg
      s.graph.entry
    rw [(Moment.liftGraph_eq_fragment cfg s.graph).1]
    rw [Assembly.assembleInto_apply] at hroot ⊢
    exact hroot.map _

/-- A loop that is continued over an edge back to its head, and a block that breaks to itself: both
edges are followed once and are gone then. -/
theorem assembly_terminates_continued :
    let one : Instruction := { opcode := .push, type1 := .int16, literal := some (.int16 1) }
    let g : FlowGraph := {
      nodes := #[
        { kind := .loop .whileLoop, branches := [⟨5⟩, ⟨1⟩] },
        { kind := .shortCircuit .and [⟨2⟩, ⟨2⟩], branches := [⟨3⟩] },
        { kind := .block { code := [one] } },
        { kind := .conditional {}, branches := [⟨5⟩, ⟨4⟩] },
        { kind := .block { role := .continueOn }, branches := [⟨0⟩] },
        { kind := .block { role := .breakOut }, branches := [⟨5⟩] }]
      entry := ⟨0⟩ }
    let s : Assembly := { graph := g }
    let inside := Assembly.assembleInto {} Tree.root ⟨3⟩ s
    s.graph.CyclesCut ∧ s.machine.tree.Closed ∧ s.machine.tree.Holds Tree.root ∧
      Settles {} inside.state.machine.tree inside.result ∧
      Settles {}
        (Assembly.assembleInto {} Tree.root s.graph.entry { graph := s.graph }).state.machine.tree
        (liftGraph {} s.graph).result ∧
      (liftGraph {} g).state.branchTable = [[⟨5⟩, ⟨1⟩], [⟨3⟩], [], [⟨5⟩, ⟨4⟩], [], []] := by
  intro one g s inside
  have hnew : s.machine.WellFormed Tree.root := Machine.wellFormed_new
  have hcut : s.graph.CyclesCut := by
    have hforward : ∀ i < 6, ∀ node ∈ g.get? ⟨i⟩, ∀ other ∈ node.branches ++ node.kind.conditions,
        (node.kind.leaves = true → g.leadsNowhere other = true) →
          5 - other.index < 5 - i := by
      decide
    refine FlowGraph.cyclesCut_of_rank (fun ref => 5 - ref.index) ?_
    rintro ref other ⟨node, hnode, hmem, hlast⟩
    exact hforward ref.index (FlowGraph.lt_size_of_get? hnode) node hnode other
      (List.mem_append.mpr hmem) hlast
  obtain ⟨hassembly, hlift⟩ := assembly_terminates {} hcut
  exact ⟨hcut, hnew.closed, hnew.container,
    (hassembly Tree.root ⟨3⟩).2.2 hnew.closed hnew.container, hlift, by decide +kernel⟩

end GmlLift
