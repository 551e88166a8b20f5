import GmlLift.Proofs.Assembly.LoopConditions
import GmlLift.Proofs.Execution.Additions

/-!
# What a switch holds

The cases of a switch are chains of blocks, each block the first branch of the one before. The
visits to the heads of the chains are pending together, but a chain is walked to its end before the
next one is begun, and the switch is the container of all of them. So its statements come in the
order of the cases, and within a case in the order of the chain. A block that breaks loses its
branches when it has run; the visit to the next block has been called for by then, and no other case
leads through it.

* `FlowGraph.CaseChain.nodup`: a chain that ends passes no node twice.
* `Contributes`, `ContributesAll`: what a block adds to the switch, and what a list of blocks adds.
* `walks_chain`, `walks_cases`: the visits of one case, and of all cases.

Result: `switch_in_order`.
-/

namespace GmlLift

/-- Does a block of this role stand in the case of a switch? -/
def Role.inCase : Role → Bool
  | .switchCase | .switchDefault | .plain | .breakOut => true
  | _ => false

/-- The statement that a block of this role is by itself. -/
def Role.marker? : Role → Option Kind
  | .switchDefault => some .switchDefault
  | .breakOut => some .breakStmt
  | _ => none

/-! ## Chains -/

namespace FlowGraph

/-- **A chain of blocks, each the first branch of the one before**; the last one has no branches. -/
inductive CaseChain (g : FlowGraph) : FlowRef → List (FlowRef × Block) → Prop
  | last {ref : FlowRef} {node : FlowNode} {block : Block} (hnode : g.get? ref = some node)
      (hkind : node.kind = .block block) (hrole : block.role.inCase = true)
      (hend : node.branches = []) : CaseChain g ref [(ref, block)]
  | cons {ref next : FlowRef} {node : FlowNode} {block : Block} {chain : List (FlowRef × Block)}
      (hnode : g.get? ref = some node) (hkind : node.kind = .block block)
      (hrole : block.role.inCase = true) (hnext : node.branches[0]? = some next)
      (h : CaseChain g next chain) : CaseChain g ref ((ref, block) :: chain)

variable {g : FlowGraph} {ref other : FlowRef} {chain chain' : List (FlowRef × Block)}

/-- From a node there is one chain only. -/
theorem CaseChain.unique (h : g.CaseChain ref chain) (h' : g.CaseChain ref chain') :
    chain' = chain := by
  induction h generalizing chain' with
  | last hnode hkind _ hend =>
    cases h' with
    | last hnode' hkind' _ _ =>
      obtain rfl := Option.some.inj (hnode.symm.trans hnode')
      cases hkind.symm.trans hkind'
      rfl
    | cons hnode' _ _ hnext' _ =>
      obtain rfl := Option.some.inj (hnode.symm.trans hnode')
      rw [hend] at hnext'
      cases hnext'
  | cons hnode hkind _ hnext _ ih =>
    cases h' with
    | last hnode' _ _ hend' =>
      obtain rfl := Option.some.inj (hnode.symm.trans hnode')
      rw [hend'] at hnext
      cases hnext
    | cons hnode' hkind' _ hnext' hrest' =>
      obtain rfl := Option.some.inj (hnode.symm.trans hnode')
      cases hkind.symm.trans hkind'
      obtain rfl := Option.some.inj (hnext.symm.trans hnext')
      rw [ih hrest']

/-- From each node of a chain there is a chain that is no longer. -/
theorem CaseChain.exists_of_mem (h : g.CaseChain ref chain) (hmem : other ∈ chain.map (·.1)) :
    ∃ chain', g.CaseChain other chain' ∧ chain'.length ≤ chain.length := by
  induction h with
  | last hnode hkind hrole hend =>
    obtain rfl := List.mem_singleton.mp hmem
    exact ⟨_, .last hnode hkind hrole hend, Nat.le_refl _⟩
  | cons hnode hkind hrole hnext h ih =>
    rcases List.mem_cons.mp hmem with rfl | hmem
    · exact ⟨_, .cons hnode hkind hrole hnext h, Nat.le_refl _⟩
    · obtain ⟨chain', hchain', hle⟩ := ih hmem
      exact ⟨chain', hchain', Nat.le_succ_of_le hle⟩

/-- **A chain passes no node twice**: it would come back to it for ever. -/
theorem CaseChain.nodup (h : g.CaseChain ref chain) : (chain.map (·.1)).Nodup := by
  induction h with
  | last _ _ _ _ => exact List.nodup_singleton _
  | @cons ref next node block chain hnode hkind hrole hnext h ih =>
    refine List.nodup_cons.mpr ⟨fun hmem => ?_, ih⟩
    obtain ⟨chain', hchain', hle⟩ := h.exists_of_mem hmem
    have hwhole : (ref, block) :: chain = chain' :=
      hchain'.unique (.cons hnode hkind hrole hnext h)
    rw [← hwhole, List.length_cons] at hle
    omega

end FlowGraph

/-! ## What a block adds -/

namespace Machine

open GmlLift.Action

/-- **The code runs to its end**, and the container gets these statements. -/
structure RunsInto (cfg : Settings) (code : List Instruction) (container : NodeId) (m : Machine)
    (executed : List NodeId) (m' : Machine) : Prop where
  result : (execute cfg code container m).result = .ok ()
  state : (execute cfg code container m).state = m'
  statements : m.tree.Extends container m'.tree executed

theorem execute_runsInto (cfg : Settings) (code : List Instruction) (container : NodeId)
    (m : Machine) :
    (execute cfg code container).Meets m
      (fun _ m' => ∃ executed, RunsInto cfg code container m executed m') fun _ => True := by
  refine (meets_self _ m).imp ?_
  rintro _ _ ⟨hresult, rfl⟩
  obtain ⟨executed, hx⟩ := ((onlyAdds_execute cfg code container).grows m).statements
  exact ⟨executed, hresult, rfl, hx⟩

/-- **What a block adds to a switch**: the statements of its code, and then the case with the value
on top of the stack, the default or the break. -/
inductive Contributes (cfg : Settings) (statement : NodeId) (block : Block) (m : Machine) :
    List NodeId → Machine → Prop
  | plain {executed : List NodeId} {m' : Machine} (hrole : block.role = .plain)
      (hruns : RunsInto cfg block.code statement m executed m') :
      Contributes cfg statement block m executed m'
  | case {executed : List NodeId} {t t' : Tree} {rest : OperandStack} {value : NodeId}
      (hrole : block.role = .switchCase)
      (hruns : RunsInto cfg block.code statement m executed ⟨t, rest.push value⟩)
      (ht : (t.add .switchCase [value]).appendChild? statement t.nextId = some t') :
      Contributes cfg statement block m (executed ++ [t.nextId]) ⟨t', rest⟩
  | marker {executed : List NodeId} {t t' : Tree} {stack : OperandStack} {kind : Kind}
      (hrole : block.role.marker? = some kind)
      (hruns : RunsInto cfg block.code statement m executed ⟨t, stack⟩)
      (ht : (t.add kind []).appendChild? statement t.nextId = some t') :
      Contributes cfg statement block m (executed ++ [t.nextId]) ⟨t', stack⟩

/-- What blocks add to a switch, one after the other. -/
inductive ContributesAll (cfg : Settings) (statement : NodeId) :
    List Block → Machine → List NodeId → Machine → Prop
  | nil {m : Machine} : ContributesAll cfg statement [] m [] m
  | cons {block : Block} {blocks : List Block} {m m₁ m' : Machine} {added more : List NodeId}
      (hblock : Contributes cfg statement block m added m₁)
      (hblocks : ContributesAll cfg statement blocks m₁ more m') :
      ContributesAll cfg statement (block :: blocks) m (added ++ more) m'

variable {cfg : Settings} {statement : NodeId} {block : Block} {blocks blocks' : List Block}
  {m m₁ m' : Machine} {added more : List NodeId}

theorem extends_of_made {t t₁ t' : Tree} {kind : Kind} {children executed : List NodeId}
    (h : t₁.Extends statement t executed)
    (ht : (t.add kind children).appendChild? statement t.nextId = some t') :
    t₁.Extends statement t' (executed ++ [t.nextId]) := by
  have hmade := (Tree.extends_add statement t kind children).trans (Tree.extends_appendChild ht)
  rw [List.nil_append] at hmade
  exact h.trans hmade

theorem Contributes.extends (h : Contributes cfg statement block m added m') :
    m.tree.Extends statement m'.tree added := by
  cases h with
  | plain _ hruns => exact hruns.statements
  | case _ hruns ht => exact extends_of_made hruns.statements ht
  | marker _ hruns ht => exact extends_of_made hruns.statements ht

/-- **Nothing but what the blocks add comes into the switch.** -/
theorem ContributesAll.extends (h : ContributesAll cfg statement blocks m added m') :
    m.tree.Extends statement m'.tree added := by
  induction h with
  | nil => exact .refl statement _
  | cons hblock _ ih => exact hblock.extends.trans ih

theorem ContributesAll.append (h : ContributesAll cfg statement blocks m added m₁)
    (h' : ContributesAll cfg statement blocks' m₁ more m') :
    ContributesAll cfg statement (blocks ++ blocks') m (added ++ more) m' := by
  induction h with
  | nil => exact h'
  | cons hblock _ ih =>
    rw [List.cons_append, List.append_assoc]
    exact .cons hblock (ih h')

/-- **The switch is filled.** It is made as the last child of the container. Its first child is the
value on top of the stack when the code of the expression has run, then come the statements of that
code, and then what the blocks add. -/
structure FillsSwitch (cfg : Settings) (container : NodeId) (code : List Instruction)
    (blocks : List Block) (m m' : Machine) (value : NodeId) (own added : List NodeId) : Prop where
  runs : ∃ t₀ t₁ t₂ rest,
    (m.tree.add .switch []).appendChild? container m.tree.nextId = some t₀ ∧
    RunsInto cfg code m.tree.nextId ⟨t₀, m.stack⟩ own ⟨t₁, rest.push value⟩ ∧
    t₁.insertChild? m.tree.nextId 0 value = some t₂ ∧
    ContributesAll cfg m.tree.nextId blocks ⟨t₂, rest⟩ added m'
  statements : ∃ n, m'.tree.get? m.tree.nextId = some n ∧ n.kind = .switch ∧
    n.children = value :: own ++ added
  last : ∃ children, m.tree.children? container = some children ∧
    m'.tree.children? container = some (children ++ [m.tree.nextId])

/-- **What the parts add is what the switch holds.** -/
theorem fillsSwitch_of_runsInto {container value : NodeId} {code : List Instruction}
    {t₀ t₁ t₂ : Tree} {rest : OperandStack} {own : List NodeId} (hheld : m.tree.Holds container)
    (hopened : (m.tree.add .switch []).appendChild? container m.tree.nextId = some t₀)
    (hruns : RunsInto cfg code m.tree.nextId ⟨t₀, m.stack⟩ own ⟨t₁, rest.push value⟩)
    (hvalue : t₁.insertChild? m.tree.nextId 0 value = some t₂)
    (hcases : ContributesAll cfg m.tree.nextId blocks ⟨t₂, rest⟩ added m') :
    FillsSwitch cfg container code blocks m m' value own added := by
  have hne : container ≠ m.tree.nextId := by
    rintro rfl
    exact m.tree.not_holds_nextId hheld
  obtain ⟨old, hold⟩ := Tree.get?_of_holds hheld
  have hold' : (m.tree.add .switch []).get? container = some old := by
    rw [Tree.get?_add_of_lt hheld, hold]
  have hreplaces := Tree.replaces_appendChild? hopened hold'
  have hnew : t₀.get? m.tree.nextId = some { kind := .switch } := by
    rw [hreplaces.of_ne hne.symm, Tree.get?_add_nextId]
  obtain ⟨n₁, hn₁, hkind₁, hchildren₁, -⟩ := hruns.statements.kept _ _ hnew
  obtain ⟨c₁, hc₁, -, hsame₁, -⟩ := hruns.statements.kept _ _ hreplaces.new
  have hreplaces₂ := Tree.replaces_insertChild? hvalue hn₁
  obtain ⟨n', hn', hkind', hchildren', -⟩ := hcases.extends.kept _ _ hreplaces₂.new
  have hc₂ : t₂.get? container = some c₁ := by rw [hreplaces₂.of_ne hne, hc₁]
  obtain ⟨c', hc', -, hsame', -⟩ := hcases.extends.kept _ _ hc₂
  rw [if_pos rfl, List.nil_append] at hchildren₁
  rw [if_pos rfl, hchildren₁] at hchildren'
  rw [if_neg hne] at hsame₁ hsame'
  refine ⟨⟨t₀, t₁, t₂, rest, hopened, hruns, hvalue, hcases⟩, ⟨n', hn', ?_, hchildren'⟩,
    old.children, ?_, ?_⟩
  · rw [hkind', hkind₁]
  · unfold Tree.children?
    rw [hold, Option.map_some]
  · unfold Tree.children?
    rw [hc', Option.map_some, hsame', hsame₁]

end Machine

/-! ## Visits -/

namespace Visit

open GmlLift.Action GmlLift.Machine

/-- A visit to a part of a statement. -/
def goInto (v : Visit) (statement : NodeId) (node : FlowRef) : Visit :=
  { v with container := statement, node }

variable {cfg : Settings} {v : Visit} {block : Block} {m m₁ : Machine} {executed : List NodeId}

theorem addStatement_contributes {statement : NodeId} {kind : Kind}
    (hrole : block.role.marker? = some kind)
    (hruns : RunsInto cfg block.code statement m executed m₁) :
    (addStatement statement kind).Meets m₁
      (fun _ m' => ∃ added, Contributes cfg statement block m added m') fun _ => True := by
  obtain ⟨t, stack⟩ := m₁
  exact .bind (meets_make (meets_append_any fun t' ht' => ⟨_, .marker hrole hruns ht'⟩))

/-- A block of a case puts its own statement behind those of its code. -/
theorem finishBlock_contributes (hopen : v.openIf = none) (hrole : block.role.inCase = true)
    (hruns : RunsInto cfg block.code v.container m executed m₁) :
    (v.finishBlock cfg block.role).Meets m₁
      (fun _ m' => ∃ added, Contributes cfg v.container block m added m') fun _ => True := by
  cases hblock : block.role with
  | plain =>
    simp only [finishBlock, hopen]
    exact meets_pure ⟨executed, .plain hblock hruns⟩
  | switchCase =>
    obtain ⟨t, stack⟩ := m₁
    refine .bind (meets_popFor_any ?_)
    rintro value rest rfl
    exact .bind (meets_make (meets_append_any fun t' ht' => ⟨_, .case hblock hruns ht'⟩))
  | switchDefault | breakOut => exact addStatement_contributes (by rw [hblock]; rfl) hruns
  | continueOn | loopCondition | switchExpression | ifCondition | withExpression |
    repeatExpression =>
    rw [hblock] at hrole
    cases hrole

/-- The expression of a switch becomes its first child. -/
theorem finishBlock_switchExpression (cfg : Settings) (v : Visit) (m : Machine) :
    (v.finishBlock cfg .switchExpression).Meets m
      (fun _ m' => ∃ rest value, m.stack = rest.push value ∧
        m.tree.insertChild? v.container 0 value = some m'.tree ∧ m'.stack = rest)
      fun _ => True := by
  obtain ⟨t, stack⟩ := m
  refine .bind (meets_popFor_any fun value rest hstack => meets_edit_any fun t' ht' => ?_)
  exact ⟨rest, value, hstack, ht', rfl⟩

/-- A switch is made in the container; its parts go into it and what follows it does not. -/
theorem openSwitch_opens (v : Visit) (branches : List FlowRef) (m : Machine) :
    (v.openSwitch branches).Meets m
      (fun next m' =>
        (m.tree.add .switch []).appendChild? v.container m.tree.nextId = some m'.tree ∧
        m'.stack = m.stack ∧
        next = (branches.drop 1).map (v.goInto m.tree.nextId) ++ v.goOn branches)
      fun _ => True := by
  obtain ⟨t, stack⟩ := m
  exact .bind (meets_make (.bind (meets_append_any fun t' ht' => meets_pure ⟨ht', rfl, rfl⟩)))

end Visit

namespace Assembly

open GmlLift.Action

variable {cfg : Settings} {budget : Nat} {v : Visit} {block : Block} {s s' : Assembly}
  {next pending : List Visit} {node : FlowNode}

/-- Pruning a node leaves the others as they are. -/
theorem prune_elsewhere (hnode : s.graph.get? v.node = some node) :
    (onGraph (FlowGraph.prune cfg v.node)).Meets s
      (fun _ s' => s'.machine = s.machine ∧
        ∀ ref ≠ v.node, s'.graph.get? ref = s.graph.get? ref) fun _ => True := by
  refine Meets.onPart ((meets_self _ s.graph).imp ?_)
  rintro _ g' ⟨-, rfl⟩
  refine ⟨rfl, fun ref hne => ?_⟩
  rw [(FlowGraph.prune_of_get? cfg hnode).2, FlowGraph.get?_setBranches, if_neg hne]

/-- **A visit to a block** runs its code and then does what its role asks for. In between, the graph
changes at most at the block itself, and only if the block breaks or continues. -/
theorem visitBlock_meets {post : List Visit → Assembly → Prop}
    (hnode : s.graph.get? v.node = some node) (branches : List FlowRef)
    (hfinish : ∀ executed s₁,
      Machine.RunsInto cfg block.code v.container s.machine executed s₁.machine →
      (∀ ref ≠ v.node, s₁.graph.get? ref = s.graph.get? ref) →
      (block.role.leaves = false → s₁.graph = s.graph) →
      (onMachine (v.finishBlock cfg block.role)).Meets s₁ (fun _ s' => post (v.goOn branches) s')
        fun _ => True) :
    (visitBlock cfg v block branches).Meets s post fun _ => True := by
  refine .bind (Meets.onPart
    ((Machine.execute_runsInto cfg block.code v.container s.machine).imp ?_))
  rintro ⟨⟩ m₁ ⟨executed, hruns⟩
  have hrest (s₁ : Assembly) (hmachine : s₁.machine = m₁)
      (hgraph : ∀ ref ≠ v.node, s₁.graph.get? ref = s.graph.get? ref)
      (hsame : block.role.leaves = false → s₁.graph = s.graph) : Meets (do
        onMachine (v.finishBlock cfg block.role)
        return v.goOn branches) s₁ post fun _ => True := by
    subst hmachine
    exact .bind ((hfinish executed s₁ hruns hgraph hsame).imp fun _ _ h => meets_pure h)
  have hpruned : Meets (do
      if block.role = .breakOut || block.role = .continueOn then
        onGraph (FlowGraph.prune cfg v.node)
      onMachine (v.finishBlock cfg block.role)
      return v.goOn branches) { s with machine := m₁ } post fun _ => True := by
    split
    · rename_i hleaves
      refine .bind ((prune_elsewhere (s := { s with machine := m₁ }) hnode).imp ?_)
      rintro _ s₁ ⟨hmachine, hgraph⟩
      refine hrest s₁ hmachine hgraph fun hstays => ?_
      rw [Role.leaves, hleaves] at hstays
      cases hstays
    · exact hrest _ rfl (fun _ _ => rfl) fun _ => rfl
  exact hpruned

/-- **A visit to a block of a case** adds what the block contributes, calls for the next block of
the chain, and changes no other node of the graph. -/
theorem visitBlock_contributes (hnode : s.graph.get? v.node = some node) (hopen : v.openIf = none)
    (hrole : block.role.inCase = true) (branches : List FlowRef) :
    (visitBlock cfg v block branches).Meets s
      (fun next s' => next = v.goOn branches ∧
        (∃ added, Machine.Contributes cfg v.container block s.machine added s'.machine) ∧
        ∀ ref ≠ v.node, s'.graph.get? ref = s.graph.get? ref) fun _ => True := by
  refine visitBlock_meets hnode branches fun executed s₁ hruns hgraph _ => ?_
  refine Meets.onPart ((Visit.finishBlock_contributes hopen hrole hruns).imp ?_)
  rintro _ m' hadds
  exact ⟨rfl, hadds, hgraph⟩

/-- A visit to the expression of a switch. -/
theorem visitBlock_switchExpression (hnode : s.graph.get? v.node = some node)
    (code : List Instruction) (branches : List FlowRef) :
    (visitBlock cfg v ⟨code, .switchExpression⟩ branches).Meets s
      (fun next s' => next = v.goOn branches ∧ s'.graph = s.graph ∧ ∃ t rest value own,
        Machine.RunsInto cfg code v.container s.machine own ⟨t, rest.push value⟩ ∧
        t.insertChild? v.container 0 value = some s'.machine.tree ∧ s'.machine.stack = rest)
      fun _ => True := by
  refine visitBlock_meets hnode branches fun executed s₁ hruns _ hsame => ?_
  refine Meets.onPart ((Visit.finishBlock_switchExpression cfg v s₁.machine).imp ?_)
  rintro _ m' ⟨rest, value, hstack, ht', hrest⟩
  refine ⟨rfl, hsame rfl, s₁.machine.tree, rest, value, executed, ?_, ht', hrest⟩
  rw [← hstack]
  exact hruns

/-- A visit to a switch. -/
theorem switch_opens (v : Visit) (branches : List FlowRef) (s : Assembly) :
    (onMachine (v.openSwitch branches)).Meets s
      (fun next s' => s'.graph = s.graph ∧
        (s.machine.tree.add .switch []).appendChild? v.container s.machine.tree.nextId =
          some s'.machine.tree ∧
        s'.machine.stack = s.machine.stack ∧
        next = (branches.drop 1).map (v.goInto s.machine.tree.nextId) ++ v.goOn branches)
      fun _ => True := by
  refine Meets.onPart ((Visit.openSwitch_opens v branches s.machine).imp ?_)
  rintro next m' hopens
  exact ⟨rfl, hopens⟩

/-! ## Walks -/

/-- **The visits of one case**: its blocks add to the switch in the order of the chain. -/
theorem walks_chain {g : FlowGraph} {ref : FlowRef} {chain : List (FlowRef × Block)}
    (hchain : g.CaseChain ref chain) (hv : v.node = ref) (hopen : v.openIf = none)
    (hgraph : ∀ ref ∈ chain.map (·.1), s.graph.get? ref = g.get? ref)
    (hwalks : Walks cfg budget [v] s s') :
    (∃ added, Machine.ContributesAll cfg v.container (chain.map (·.2)) s.machine added
      s'.machine) ∧ ∀ ref ∉ chain.map (·.1), s'.graph.get? ref = s.graph.get? ref := by
  have hnodup := hchain.nodup
  induction hchain generalizing v s budget with
  | @last ref node block hnode hkind hrole hend =>
    subst hv
    have hnode' : s.graph.get? v.node = some node := by
      rw [hgraph _ (List.mem_singleton_self _), hnode]
    obtain ⟨rest, next, s₁, rfl, hvisits, hrest⟩ := walks_cons_iff.mp hwalks
    obtain ⟨rfl, ⟨added, hadds⟩, hkept⟩ := hvisits.meets (.of_eq (visit_block hnode' hkind)
      (visitBlock_contributes hnode' hopen hrole node.branches))
    rw [hend] at hrest
    obtain rfl := walks_nil_iff.mp hrest
    exact ⟨⟨_, .cons hadds .nil⟩, fun ref href => hkept ref fun h => href (by simp [h])⟩
  | @cons ref onward node block chain hnode hkind hrole hnext hchain ih =>
    subst hv
    have hnode' : s.graph.get? v.node = some node := by
      rw [hgraph _ List.mem_cons_self, hnode]
    obtain ⟨rest, next, s₁, rfl, hvisits, hrest⟩ := walks_cons_iff.mp hwalks
    obtain ⟨rfl, ⟨added, hadds⟩, hkept⟩ := hvisits.meets (.of_eq (visit_block hnode' hkind)
      (visitBlock_contributes hnode' hopen hrole node.branches))
    rw [Visit.goOn, List.head?_eq_getElem?, hnext] at hrest
    obtain ⟨hfirst, hnodup⟩ := List.nodup_cons.mp hnodup
    -- Of the nodes of the chain, the visit has changed the first one at most.
    have hgraph' : ∀ ref ∈ chain.map (·.1), s₁.graph.get? ref = g.get? ref := by
      intro ref href
      rw [hkept ref fun h => hfirst (h ▸ href), hgraph ref (List.mem_cons_of_mem _ href)]
    obtain ⟨⟨more, hmore⟩, hkept'⟩ := ih (v := v.goTo onward) rfl hopen hgraph' hrest hnodup
    refine ⟨⟨_, .cons hadds hmore⟩, fun ref href => ?_⟩
    rw [hkept' ref (List.not_mem_of_not_mem_cons href), hkept ref (List.ne_of_not_mem_cons href)]

/-- **The visits of all cases**: the cases add to the switch in their order. -/
theorem walks_cases {g : FlowGraph} {cases : List FlowRef} {chains : List (List (FlowRef × Block))}
    {statement : NodeId} (hchains : List.Forall₂ g.CaseChain cases chains)
    (hdisjoint : chains.Pairwise fun c c' => (c.map (·.1)).Disjoint (c'.map (·.1)))
    (hgraph : ∀ chain ∈ chains, ∀ ref ∈ chain.map (·.1), s.graph.get? ref = g.get? ref)
    (hopen : v.openIf = none)
    (hwalks : Walks cfg budget (cases.map (v.goInto statement)) s s') :
    ∃ added, Machine.ContributesAll cfg statement (chains.flatten.map (·.2)) s.machine added
      s'.machine := by
  induction hchains generalizing s with
  | nil =>
    obtain rfl := walks_nil_iff.mp hwalks
    exact ⟨[], .nil⟩
  | @cons case chain cases chains hchain _ ih =>
    obtain ⟨s₁, hfirst, hrest⟩ := Walks.split_cons hwalks
    obtain ⟨hapart, hdisjoint⟩ := List.pairwise_cons.mp hdisjoint
    obtain ⟨⟨added, hadds⟩, hkept⟩ := walks_chain (v := v.goInto statement case) hchain rfl hopen
      (hgraph chain List.mem_cons_self) hfirst
    -- The other chains do not meet the first one, so their nodes are as they were.
    have hgraph' : ∀ other ∈ chains, ∀ ref ∈ other.map (·.1), s₁.graph.get? ref = g.get? ref := by
      intro other hother ref href
      rw [hkept ref fun h => hapart other hother h href,
        hgraph other (List.mem_cons_of_mem _ hother) ref href]
    obtain ⟨more, hmore⟩ := ih hdisjoint hgraph' hrest
    refine ⟨added ++ more, ?_⟩
    rw [List.flatten_cons, List.map_append]
    exact hadds.append hmore

/-- **A switch holds its parts in the order of its branches.** A walk that answers visits a switch,
outside of any conditional; its second branch is the block with the value and the others are heads
of chains of blocks that do not meet. The walk comes to the moment at which what follows the switch
is the next to be visited, in the container that the switch is in. At this moment the switch is the
last child of that container, and it holds the value, the statements of the block with the value,
and what the blocks of the chains add, chain by chain and block by block, and nothing else. -/
theorem switch_in_order {after expression : FlowRef} {cases : List FlowRef} {part : FlowNode}
    {code : List Instruction} {chains : List (List (FlowRef × Block))}
    (hanswers : (walk cfg budget (v :: pending) s).result = .ok ())
    (hheld : s.machine.tree.Holds v.container) (hopen : v.openIf = none)
    (hnode : s.graph.get? v.node = some node) (hkind : node.kind = .switch)
    (hbranches : node.branches = after :: expression :: cases)
    (hpart : s.graph.get? expression = some part)
    (hcode : part.kind = .block ⟨code, .switchExpression⟩) (halone : part.branches = [])
    (hchains : List.Forall₂ s.graph.CaseChain cases chains)
    (hdisjoint : chains.Pairwise fun c c' => (c.map (·.1)).Disjoint (c'.map (·.1)))
    (waiting : List Waiting) :
    ∃ s₁ s' rest value own added,
      Moment.Leads cfg ⟨s, .walk, v :: pending, waiting⟩
        ⟨s₁, .walk, v.goTo after :: pending, waiting⟩ ∧
      Machine.FillsSwitch cfg v.container code (chains.flatten.map (·.2)) s.machine s₁.machine
        value own added ∧
      Walks cfg rest (v.goTo after :: pending) s₁ s' := by
  have hwalks : Walks cfg budget (v :: pending) s _ := ⟨hanswers, rfl⟩
  obtain ⟨rest, next, s₀, rfl, hvisits, hrest⟩ := walks_cons_iff.mp hwalks
  have hleads := hvisits.leads pending waiting
  obtain ⟨hgraph, hopened, hstack, rfl⟩ := hvisits.meets (.of_eq (visit_switch hnode hkind)
    (switch_opens v node.branches s))
  have hnext : (node.branches.drop 1).map (v.goInto s.machine.tree.nextId) ++
      v.goOn node.branches ++ pending = v.goInto s.machine.tree.nextId expression ::
        (cases.map (v.goInto s.machine.tree.nextId) ++ (v.goTo after :: pending)) := by
    rw [hbranches, List.append_assoc]
    rfl
  rw [hnext] at hleads hrest
  -- The walk from here is that of the expression, that of the cases and that of what follows.
  obtain ⟨s₁, hexpression, hrest⟩ := hrest.split_cons
  obtain ⟨s₂, hcases, hrest⟩ := hrest.split
  have hway := hleads.trans ((hexpression.leads _ waiting).trans (hcases.leads _ waiting))
  obtain ⟨rest', next, s₃, rfl, hvisits', hnil⟩ := walks_cons_iff.mp hexpression
  rw [← hgraph] at hpart
  obtain ⟨rfl, hgraph', t, left, value, own, hruns, hvalue, hleft⟩ :=
    hvisits'.meets (.of_eq (visit_block hpart hcode)
      (visitBlock_switchExpression hpart code part.branches))
  rw [halone] at hnil
  obtain rfl := walks_nil_iff.mp hnil
  obtain ⟨added, hadds⟩ := walks_cases hchains hdisjoint
    (fun _ _ ref _ => by rw [hgraph', hgraph]) hopen hcases
  refine ⟨s₂, _, _, value, own, added, hway, ?_, hrest⟩
  obtain ⟨⟨t₀, stack₀⟩, g₀⟩ := s₀
  obtain ⟨⟨t₂, stack₂⟩, g₂⟩ := s₁
  obtain rfl : stack₀ = s.machine.stack := hstack
  obtain rfl : stack₂ = left := hleft
  exact Machine.fillsSwitch_of_runsInto hheld hopened hruns hvalue hadds

/-- A switch on a number with one case, which exits and breaks, and a default, which exits behind
its block. -/
theorem switch_in_order_default :
    let exit : Instruction := { opcode := .exit }
    let value : Block := ⟨[pushNumber 1], .switchExpression⟩
    let first : Block := ⟨[pushNumber 2], .switchCase⟩
    let leaves : Block := ⟨[exit], .breakOut⟩
    let otherwise : Block := ⟨[], .switchDefault⟩
    let body : Block := ⟨[exit], .plain⟩
    let g : FlowGraph := {
      nodes := #[
        { kind := .switch, branches := [⟨1⟩, ⟨2⟩, ⟨3⟩, ⟨5⟩] },
        { kind := .block {} },
        { kind := .block value },
        { kind := .block first, branches := [⟨4⟩] },
        { kind := .block leaves },
        { kind := .block otherwise, branches := [⟨6⟩] },
        { kind := .block body }]
      entry := ⟨0⟩ }
    let s : Assembly := { graph := g }
    let v : Visit := { container := Tree.root, node := ⟨0⟩ }
    (walk {} 10 [v] s).result = .ok () ∧
      ∃ s₁ s' rest value own added,
        Moment.Leads {} ⟨s, .walk, [v], []⟩ ⟨s₁, .walk, [v.goTo ⟨1⟩], []⟩ ∧
        Machine.FillsSwitch {} Tree.root [pushNumber 1] [first, leaves, otherwise, body] s.machine
          s₁.machine value own added ∧
        Walks {} rest [v.goTo ⟨1⟩] s₁ s' := by
  intro exit value first leaves otherwise body g s v
  have hok : (walk {} 10 [v] s).result = .ok () := by decide +kernel
  have hheld : s.machine.tree.Holds v.container := (by decide +kernel : 0 < s.machine.tree.size)
  have hnode : s.graph.get? v.node = some { kind := .switch, branches := [⟨1⟩, ⟨2⟩, ⟨3⟩, ⟨5⟩] } :=
    rfl
  have hpart : s.graph.get? ⟨2⟩ = some { kind := .block value } := rfl
  have hcase : s.graph.CaseChain ⟨3⟩ [(⟨3⟩, first), (⟨4⟩, leaves)] :=
    .cons rfl rfl rfl rfl (.last rfl rfl rfl rfl)
  have hdefault : s.graph.CaseChain ⟨5⟩ [(⟨5⟩, otherwise), (⟨6⟩, body)] :=
    .cons rfl rfl rfl rfl (.last rfl rfl rfl rfl)
  refine ⟨hok, switch_in_order hok hheld rfl hnode rfl rfl hpart rfl rfl
    (.cons hcase (.cons hdefault .nil)) ?_ []⟩
  simp

end Assembly

end GmlLift
