import GmlLift.Proofs.Assembly.Course
import GmlLift.Proofs.Assembly.Layout
import Mathlib.Control.Monad.Basic

/-!
# Which loop a condition goes to

The value of a loop condition becomes a child of the loop that its visit is in. A body is a chain of
nodes, each the first branch of the one before. Plain blocks and loops that are not `for` loops hand
the loop that they are in on to the next node. A `for` loop does not: what follows it is visited
inside of it. So the condition at the end of a body goes to the last `for` loop on the chain, and to
the loop of the body itself only if there is none.

Result: `loopCondition_owner`, and `condition_behind_for` for a chain with a `for` loop.
-/

namespace GmlLift

/-- **A chain of nodes, each the first branch of the one before**: plain blocks and loops of any
kind, with any bodies, and at its end a block with a loop condition. `fors` are the `for` loops on
it, in their order. -/
inductive FlowGraph.ConditionChain (g : FlowGraph) : FlowRef → List FlowRef → FlowRef → Prop
  | condition {ref : FlowRef} {node : FlowNode} {code : List Instruction}
      (hnode : g.get? ref = some node) (hkind : node.kind = .block ⟨code, .loopCondition⟩) :
      ConditionChain g ref [] ref
  | plain {ref next final : FlowRef} {node : FlowNode} {code : List Instruction}
      {fors : List FlowRef} (hnode : g.get? ref = some node)
      (hkind : node.kind = .block ⟨code, .plain⟩) (hnext : node.branches[0]? = some next)
      (h : ConditionChain g next fors final) : ConditionChain g ref fors final
  | loop {ref next final : FlowRef} {node : FlowNode} {kind : LoopKind} {fors : List FlowRef}
      (hnode : g.get? ref = some node) (hkind : node.kind = .loop kind) (hother : kind ≠ .forLoop)
      (hnext : node.branches[0]? = some next) (h : ConditionChain g next fors final) :
      ConditionChain g ref fors final
  | forLoop {ref next final : FlowRef} {node : FlowNode} {fors : List FlowRef}
      (hnode : g.get? ref = some node) (hkind : node.kind = .loop .forLoop)
      (hnext : node.branches[0]? = some next) (h : ConditionChain g next fors final) :
      ConditionChain g ref (ref :: fors) final

/-- The id is the id of a node of the given kind. -/
def Tree.HasKind (t : Tree) (kind : Kind) (id : NodeId) : Prop :=
  ∃ n, t.get? id = some n ∧ n.kind = kind

namespace Tree

variable {t t' : Tree} {kind : Kind} {id : NodeId}

theorem hasKind_nextId (t : Tree) (kind : Kind) (children : List NodeId) :
    (t.add kind children).HasKind kind t.nextId :=
  ⟨_, t.get?_add_nextId kind children, rfl⟩

theorem HasKind.add (h : t.HasKind kind id) (other : Kind) (children : List NodeId) :
    (t.add other children).HasKind kind id := by
  obtain ⟨n, hn, hkind⟩ := h
  exact ⟨n, by rw [get?_add_of_lt (holds_of_get? hn)]; exact hn, hkind⟩

theorem HasKind.appendChild (h : t.HasKind kind id) {parent child : NodeId}
    (ht : t.appendChild? parent child = some t') : t'.HasKind kind id := by
  obtain ⟨n, hn, hkind⟩ := h
  obtain ⟨n', hn', hkind', -⟩ := (extends_appendChild ht).kept id n hn
  exact ⟨n', hn', hkind'.trans hkind⟩

end Tree

/-! ## What the visits call for -/

namespace Visit

open GmlLift.Action GmlLift.Machine

/-- The statement of a loop is the next node of the tree. -/
theorem makeLoop_makes (kind : LoopKind) (m : Machine) :
    (makeLoop kind).Meets m
      (fun id m' => id = m.tree.nextId ∧ m'.tree.HasKind kind.node id) fun _ => True := by
  obtain ⟨t, stack⟩ := m
  cases kind with
  | whileLoop | forLoop | doUntilLoop => exact meets_make ⟨rfl, t.hasKind_nextId _ _⟩
  | repeatLoop | withLoop =>
    exact .bind (meets_popFor_any fun _ _ _ => meets_make ⟨rfl, t.hasKind_nextId _ _⟩)

theorem openBody_makes (v : Visit) (statement : NodeId) (branches : List FlowRef) {m : Machine}
    {kind : Kind} (h : m.tree.HasKind kind statement) :
    (v.openBody statement branches).Meets m
      (fun w m' => branches[1]? = some w.node ∧ w.loop = some statement ∧
        m'.tree.HasKind kind statement) fun _ => True := by
  obtain ⟨t, stack⟩ := m
  refine .bind (meets_make (.bind (meets_append_any fun t₁ ht₁ => .bind
    (meets_append_any fun t₂ ht₂ => .bind (meets_branch trivial fun node hnode => ?_)))))
  exact meets_pure ⟨hnode, rfl, ((h.add _ _).appendChild ht₁).appendChild ht₂⟩

/-- **A loop calls for its body first and for what follows it last.** The body is in the new loop;
what follows is in it as well if the loop is a `for` loop. -/
theorem openLoop_makes (v : Visit) (kind : LoopKind) (branches : List FlowRef) (m : Machine) :
    (v.openLoop kind branches).Meets m
      (fun next m' => ∃ body inner last, next = body :: inner ++ [last] ∧
        branches[1]? = some body.node ∧ body.loop = some m.tree.nextId ∧
        branches[0]? = some last.node ∧
        last.loop = (if kind = .forLoop then some m.tree.nextId else v.loop) ∧
        m'.tree.HasKind kind.node m.tree.nextId) fun _ => True := by
  refine .bind ((makeLoop_makes kind m).imp ?_)
  rintro statement ⟨t, stack⟩ ⟨rfl, hkind⟩
  cases kind with
  | forLoop =>
    refine .bind (meets_branch trivial fun condition hcondition =>
      .bind (meets_branch trivial fun step hstep => .bind (meets_make
        (.bind (meets_append_any fun t₁ ht₁ => .bind ((openBody_makes v _ branches
          ((hkind.add _ _).appendChild ht₁)).imp ?_))))))
    rintro body m' ⟨hbody, hloop, hkind'⟩
    exact meets_pure ⟨body, [_], _, rfl, hbody, hloop, hcondition, rfl, hkind'⟩
  | whileLoop | doUntilLoop | repeatLoop | withLoop =>
    refine .bind ((openBody_makes v _ branches hkind).imp ?_)
    rintro body m' ⟨hbody, hloop, hkind'⟩
    refine .bind (meets_branch trivial fun continuation hcontinuation => ?_)
    exact meets_pure ⟨body, [], _, rfl, hbody, hloop, hcontinuation, rfl, hkind'⟩

/-- A condition becomes the last child of the loop that the visit is in. -/
theorem finishBlock_loopCondition {cfg : Settings} {v : Visit} {statement : NodeId}
    (hloop : v.loop = some statement) (m : Machine) :
    (v.finishBlock cfg .loopCondition).Meets m
      (fun _ m' => ∃ rest value, m.stack = rest.push value ∧
        m.tree.appendChild? statement value = some m'.tree ∧ m'.stack = rest) fun _ => True := by
  obtain ⟨t, stack⟩ := m
  have hinside : v.enclosingLoop = pure statement := by
    unfold enclosingLoop
    rw [hloop]
  unfold finishBlock
  rw [hinside]
  refine .bind (meets_pure (.bind (meets_popFor_any fun value rest hstack =>
    meets_append_any fun t' ht' => ?_)))
  exact ⟨rest, value, hstack, ht', rfl⟩

end Visit

namespace Assembly

open GmlLift.Action

variable {cfg : Settings} {v : Visit}

/-- A block calls for its first branch. -/
theorem visitBlock_goesOn (cfg : Settings) (v : Visit) (block : Block) (branches : List FlowRef)
    (s : Assembly) :
    (visitBlock cfg v block branches).Meets s (fun next _ => next = v.goOn branches)
      fun _ => True := by
  have hfinish (s' : Assembly) : Meets (do
      onMachine (v.finishBlock cfg block.role)
      return v.goOn branches) s' (fun next _ => next = v.goOn branches) fun _ => True :=
    .bind_any fun _ _ => meets_pure rfl
  refine .bind_any fun _ s₁ => ?_
  have hrest : Meets (do
      if block.role = .breakOut || block.role = .continueOn then
        onGraph (FlowGraph.prune cfg v.node)
      onMachine (v.finishBlock cfg block.role)
      return v.goOn branches) s₁ (fun next _ => next = v.goOn branches) fun _ => True := by
    split
    · exact .bind_any fun _ s₂ => hfinish s₂
    · exact hfinish s₁
  exact hrest

/-- A block with a loop condition runs its code and gives the loop the value on top. -/
theorem visitBlock_loopCondition {statement : NodeId} (hloop : v.loop = some statement)
    (code : List Instruction) (branches : List FlowRef) (s : Assembly) :
    (visitBlock cfg v ⟨code, .loopCondition⟩ branches).Meets s
      (fun next s' => next = v.goOn branches ∧
        (Machine.execute cfg code v.container s.machine).result = .ok () ∧
        ∃ t rest value t', (Machine.execute cfg code v.container s.machine).state =
            ⟨t, rest.push value⟩ ∧
          t.appendChild? statement value = some t' ∧
          s' = { s with machine := ⟨t', rest⟩ }) fun _ => True := by
  refine .bind (Meets.onPart ((meets_self _ s.machine).imp ?_))
  rintro ⟨⟩ m₁ ⟨hok, hstate⟩
  have hfinish : Meets (do
      onMachine (v.finishBlock cfg .loopCondition)
      return v.goOn branches) { s with machine := m₁ }
      (fun next s' => next = v.goOn branches ∧
        (Machine.execute cfg code v.container s.machine).result = .ok () ∧
        ∃ t rest value t', (Machine.execute cfg code v.container s.machine).state =
            ⟨t, rest.push value⟩ ∧
          t.appendChild? statement value = some t' ∧
          s' = { s with machine := ⟨t', rest⟩ }) fun _ => True := by
    refine .bind (Meets.onPart ((Visit.finishBlock_loopCondition hloop m₁).imp ?_))
    rintro _ ⟨t', stack⟩ ⟨rest, value, hstack, ht', hrest⟩
    obtain rfl : stack = rest := hrest
    refine meets_pure ⟨rfl, hok, m₁.tree, stack, value, t', ?_, ht', rfl⟩
    rw [hstate, ← hstack]
  exact hfinish

end Assembly

namespace Moment

open GmlLift.Action GmlLift.Assembly

variable {cfg : Settings} {budget : Nat} {v : Visit} {s s' : Assembly} {next pending : List Visit}
  {waiting : List Waiting} {node : FlowNode}

/-- **The moment at which a node of the graph becomes a loop of the tree**: it is the next to be
visited, and the step makes the statement. -/
structure MakesLoop (cfg : Settings) (m : Moment) (ref : FlowRef) (statement : NodeId) : Prop where
  visit : ∃ v pending, m.task = .walk ∧ m.pending = v :: pending ∧ v.node = ref
  makes : ∃ node kind, m.assembly.graph.get? ref = some node ∧ node.kind = .loop kind ∧
    (step cfg m).assembly.machine.tree.HasKind kind.node statement
  new : ¬ m.assembly.machine.tree.Holds statement

/-- **The moment at which a loop gets the condition of a block**: the block is the next to be
visited, its code leaves a value on top of the stack, and the run comes from here to the moment at
which this value is one more child of the loop, and the tree is otherwise as the code has left
it. -/
structure GivesCondition (cfg : Settings) (m : Moment) (ref : FlowRef) (statement : NodeId) :
    Prop where
  gives : ∃ v pending node code t rest value t',
    m.task = .walk ∧ m.pending = v :: pending ∧ v.node = ref ∧
    m.assembly.graph.get? ref = some node ∧ node.kind = .block ⟨code, .loopCondition⟩ ∧
    (Machine.execute cfg code v.container m.assembly.machine).result = .ok () ∧
    (Machine.execute cfg code v.container m.assembly.machine).state = ⟨t, rest.push value⟩ ∧
    t.appendChild? statement value = some t' ∧
    Leads cfg m ⟨{ m.assembly with machine := ⟨t', rest⟩ }, .walk,
      v.goOn node.branches ++ pending, m.waiting⟩

/-- The step that takes up a loop is the whole visit. -/
theorem step_loop {kind : LoopKind} (h : Visits cfg budget v s next s')
    (hnode : s.graph.get? v.node = some node) (hkind : node.kind = .loop kind)
    (pending : List Visit) (waiting : List Waiting) :
    step cfg ⟨s, .walk, v :: pending, waiting⟩ = ⟨s', .walk, next ++ pending, waiting⟩ := by
  have henter : step cfg ⟨s, .walk, v :: pending, waiting⟩ =
      enter v ⟨s, .walk, pending, waiting⟩ := rfl
  obtain ⟨hresult, hstate⟩ := h
  rw [visit_loop hnode hkind] at hresult hstate
  simp only [enter, hnode, hkind, schedule, act, hresult, hstate] at henter
  exact henter

/-- A visit to a loop. -/
theorem makesLoop_of_visits {kind : LoopKind} (h : Visits cfg budget v s next s')
    (hnode : s.graph.get? v.node = some node) (hkind : node.kind = .loop kind)
    (pending : List Visit) (waiting : List Waiting) :
    MakesLoop cfg ⟨s, .walk, v :: pending, waiting⟩ v.node s.machine.tree.nextId ∧
      ∃ body inner last, next = body :: inner ++ [last] ∧
        node.branches[1]? = some body.node ∧ body.loop = some s.machine.tree.nextId ∧
        node.branches[0]? = some last.node ∧
        last.loop = (if kind = .forLoop then some s.machine.tree.nextId else v.loop) := by
  have hmeets : (visit cfg (fragment cfg budget) v).Meets s
      (fun next s' => ∃ body inner last, next = body :: inner ++ [last] ∧
        node.branches[1]? = some body.node ∧ body.loop = some s.machine.tree.nextId ∧
        node.branches[0]? = some last.node ∧
        last.loop = (if kind = .forLoop then some s.machine.tree.nextId else v.loop) ∧
        s'.machine.tree.HasKind kind.node s.machine.tree.nextId) fun _ => True :=
    .of_eq (visit_loop hnode hkind)
      (Meets.onPart (Visit.openLoop_makes v kind node.branches s.machine))
  obtain ⟨body, inner, last, hnext, hbody, hinside, hlast, hloop, hmade⟩ := h.meets hmeets
  refine ⟨⟨⟨v, pending, rfl, rfl, rfl⟩, ⟨node, kind, hnode, hkind, ?_⟩,
    s.machine.tree.not_holds_nextId⟩, body, inner, last, hnext, hbody, hinside, hlast, hloop⟩
  rw [step_loop h hnode hkind]
  exact hmade

/-- **A walk that starts with a loop comes to what follows the loop**, when the body is done. -/
theorem walks_behind_loop {kind : LoopKind} {following : FlowRef}
    (h : Walks cfg budget (v :: pending) s s') (hnode : s.graph.get? v.node = some node)
    (hkind : node.kind = .loop kind) (hnext : node.branches[0]? = some following)
    (waiting : List Waiting) :
    ∃ rest last s₁, Walks cfg rest (last :: pending) s₁ s' ∧
      Leads cfg ⟨s, .walk, v :: pending, waiting⟩ ⟨s₁, .walk, last :: pending, waiting⟩ ∧
      MakesLoop cfg ⟨s, .walk, v :: pending, waiting⟩ v.node s.machine.tree.nextId ∧
      last.node = following ∧
      last.loop = (if kind = .forLoop then some s.machine.tree.nextId else v.loop) := by
  obtain ⟨rest, next, s₁, rfl, hvisits, hrest⟩ := walks_cons_iff.mp h
  obtain ⟨hmakes, body, inner, last, rfl, -, -, hlast, hinside⟩ :=
    makesLoop_of_visits hvisits hnode hkind pending waiting
  have hleads := hvisits.leads pending waiting
  rw [List.append_assoc, List.singleton_append] at hrest hleads
  obtain ⟨s₂, hinner, hrest⟩ := hrest.split
  exact ⟨rest, last, s₂, hrest, hleads.trans (hinner.leads (last :: pending) waiting), hmakes,
    Option.some.inj (hlast.symm.trans hnext), hinside⟩

/-- A visit to a block with a loop condition. -/
theorem givesCondition_of_visits {code : List Instruction} {statement : NodeId}
    (h : Visits cfg budget v s next s') (hnode : s.graph.get? v.node = some node)
    (hkind : node.kind = .block ⟨code, .loopCondition⟩) (hloop : v.loop = some statement)
    (pending : List Visit) (waiting : List Waiting) :
    GivesCondition cfg ⟨s, .walk, v :: pending, waiting⟩ v.node statement := by
  have hmeets : (visit cfg (fragment cfg budget) v).Meets s
      (fun next s' => next = v.goOn node.branches ∧
        (Machine.execute cfg code v.container s.machine).result = .ok () ∧
        ∃ t rest value t', (Machine.execute cfg code v.container s.machine).state =
            ⟨t, rest.push value⟩ ∧
          t.appendChild? statement value = some t' ∧
          s' = { s with machine := ⟨t', rest⟩ }) fun _ => True :=
    .of_eq (visit_block hnode hkind) (visitBlock_loopCondition hloop code node.branches s)
  obtain ⟨rfl, hok, t, rest, value, t', hstate, ht', rfl⟩ := h.meets hmeets
  exact ⟨v, pending, node, code, t, rest, value, t', rfl, rfl, rfl, hnode, hkind, hok, hstate, ht',
    h.leads pending waiting⟩

/-- **Along a chain the loop changes at `for` loops only.** The run from `m₀` has made the loop
`statement` of the node `loop` at `m₁` and has come to the first node of the chain, inside of that
loop. It comes to the condition at the end inside of the loop that it has made last. -/
theorem givesCondition_of_chain {g : FlowGraph} {loop first final : FlowRef}
    {fors : List FlowRef} {statement : NodeId} {m₀ m₁ : Moment}
    (hchain : g.ConditionChain first fors final) (hv : v.node = first)
    (hgraph : ∀ ref node, g.get? ref = some node → node.kind.leaves = false →
      s.graph.get? ref = some node)
    (hwalks : Walks cfg budget (v :: pending) s s') (hfirst : Leads cfg m₀ m₁)
    (hmakes : MakesLoop cfg m₁ loop statement)
    (hway : Leads cfg m₁ ⟨s, .walk, v :: pending, waiting⟩) (hloop : v.loop = some statement) :
    ∃ m m' owner, Leads cfg m₀ m ∧ MakesLoop cfg m ((loop :: fors).getLast (List.cons_ne_nil _ _))
        owner ∧ Leads cfg m m' ∧ GivesCondition cfg m' final owner ∧ m'.pending.tail = pending ∧
      (fors = [] → m = m₁) ∧ (fors ≠ [] → m.pending.tail = pending) := by
  induction hchain generalizing v s budget loop statement m₁ with
  | condition hnode hkind =>
    subst hv
    obtain ⟨rest, next, s₁, rfl, hvisits, -⟩ := walks_cons_iff.mp hwalks
    have hgives := givesCondition_of_visits hvisits (hgraph _ _ hnode (by rw [hkind]; rfl)) hkind
      hloop pending waiting
    exact ⟨m₁, _, statement, hfirst, hmakes, hway, hgives, rfl, fun _ => rfl, fun h => absurd rfl h⟩
  | @plain first next final node code fors hnode hkind hnext _ ih =>
    subst hv
    obtain ⟨rest, more, s₁, rfl, hvisits, hrest⟩ := walks_cons_iff.mp hwalks
    have hmore : more = v.goOn node.branches := hvisits.meets
      (.of_eq (visit_block (hgraph _ _ hnode (by rw [hkind]; rfl)) hkind)
        (visitBlock_goesOn cfg v _ node.branches s))
    rw [Visit.goOn, List.head?_eq_getElem?, hnext] at hmore
    subst hmore
    have hleads := hvisits.leads pending waiting
    exact ih rfl (fun ref node hg hstays => hleads.get?_kept rfl (hgraph ref node hg hstays) hstays)
      hrest hfirst hmakes (hway.trans hleads) hloop
  | @loop first next final node kind fors hnode hkind hother hnext _ ih =>
    subst hv
    obtain ⟨rest, last, s₁, hrest, hleads, -, hlast, hinside⟩ := walks_behind_loop hwalks
      (hgraph _ _ hnode (by rw [hkind]; rfl)) hkind hnext waiting
    rw [if_neg hother] at hinside
    exact ih hlast
      (fun ref node hg hstays => hleads.get?_kept rfl (hgraph ref node hg hstays) hstays)
      hrest hfirst hmakes (hway.trans hleads) (hinside.trans hloop)
  | @forLoop first next final node fors hnode hkind hnext _ ih =>
    subst hv
    obtain ⟨rest, last, s₁, hrest, hleads, hmakes', hlast, hinside⟩ := walks_behind_loop hwalks
      (hgraph _ _ hnode (by rw [hkind]; rfl)) hkind hnext waiting
    obtain ⟨m, m', owner, hm, hmade, hm', hgives, htail, hnone, hsome⟩ := ih hlast
      (fun ref node hg hstays => hleads.get?_kept rfl (hgraph ref node hg hstays) hstays)
      hrest (hfirst.trans hway) hmakes' hleads hinside
    refine ⟨m, m', owner, hm, hmade, hm', hgives, htail, nofun, fun _ => ?_⟩
    by_cases hfors : fors = []
    · rw [hnone hfors]
      rfl
    · exact hsome hfors

end Moment

open GmlLift.Moment

/-- **A loop condition goes to the last `for` loop before it on the body, or else to the loop of the
body.** From any moment at which a loop is the next node to be visited, in a walk that answers: the
visit to the loop calls for its body first and for others behind it. The run makes the statement of
that loop, or of the last `for` loop on the chain of its body, and then comes to the block at the
end of the chain, with the same visits behind it, and gives this statement, and no other node, the
value that the block leaves on top of the stack. -/
theorem loopCondition_owner {cfg : Settings} {budget : Nat} {s : Assembly} {v : Visit}
    {pending : List Visit} {node : FlowNode} {kind : LoopKind} {body final : FlowRef}
    {fors : List FlowRef} (waiting : List Waiting)
    (hok : (Assembly.walk cfg budget (v :: pending) s).result = .ok ())
    (hnode : s.graph.get? v.node = some node) (hkind : node.kind = .loop kind)
    (hbody : node.branches[1]? = some body) (hchain : s.graph.ConditionChain body fors final) :
    ∃ s₁ first behind m m' owner,
      step cfg ⟨s, .walk, v :: pending, waiting⟩ =
        ⟨s₁, .walk, first :: behind ++ pending, waiting⟩ ∧ first.node = body ∧
      Leads cfg ⟨s, .walk, v :: pending, waiting⟩ m ∧
      MakesLoop cfg m ((v.node :: fors).getLast (List.cons_ne_nil _ _)) owner ∧
      Leads cfg m m' ∧ GivesCondition cfg m' final owner ∧ m'.pending.tail = behind ++ pending ∧
      (fors = [] → m = ⟨s, .walk, v :: pending, waiting⟩) ∧
      (fors ≠ [] → m.pending.tail = m'.pending.tail) := by
  have hwalks : Assembly.Walks cfg budget (v :: pending) s _ := ⟨hok, rfl⟩
  obtain ⟨rest, next, s₁, rfl, hvisits, hrest⟩ := Assembly.walks_cons_iff.mp hwalks
  obtain ⟨hmakes, first, inner, last, rfl, hfirst, hinside, -, -⟩ :=
    makesLoop_of_visits hvisits hnode hkind pending waiting
  have hleads := hvisits.leads pending waiting
  have hnode' : first.node = body := Option.some.inj (hfirst.symm.trans hbody)
  obtain ⟨m, m', owner, hm, hmade, hm', hgives, htail, hnone, hsome⟩ := givesCondition_of_chain
    hchain hnode' (fun ref node hg hstays => hleads.get?_kept rfl hg hstays) hrest (.refl _) hmakes
    hleads hinside
  exact ⟨s₁, first, inner ++ [last], m, m', owner, step_loop hvisits hnode hkind pending waiting,
    hnode', hm, hmade, hm', hgives, htail, hnone, fun h => (hsome h).trans htail.symm⟩

/-- A number on the stack. -/
def pushNumber (n : Int32) : Instruction :=
  { opcode := .push, type1 := .int32, literal := some (.int32 n) }

/-- The body is a block, a `while` loop and a `for` loop, and then the condition: it goes to the
`for` loop. Behind the body there is the visit to the node that follows the `do` loop. -/
theorem loopCondition_owner_nested :
    let condition (n : Int32) : FlowKind := .block ⟨[pushNumber n], .loopCondition⟩
    let g : FlowGraph := {
      nodes := #[
        { kind := .loop .doUntilLoop, branches := [⟨1⟩, ⟨2⟩] },
        { kind := .block {} },
        { kind := .block {}, branches := [⟨3⟩] },
        { kind := .loop .whileLoop, branches := [⟨5⟩, ⟨4⟩] },
        { kind := condition 1 },
        { kind := .loop .forLoop, branches := [⟨8⟩, ⟨6⟩, ⟨7⟩] },
        { kind := condition 2 },
        { kind := .block {} },
        { kind := condition 3 }]
      entry := ⟨0⟩ }
    let s : Assembly := { graph := g }
    let v : Visit := { container := Tree.root, node := ⟨0⟩ }
    (Assembly.walk {} 20 [v] s).result = .ok () ∧ g.ConditionChain ⟨2⟩ [⟨5⟩] ⟨8⟩ ∧
      ∃ m m' owner, Leads {} ⟨s, .walk, [v], []⟩ m ∧ MakesLoop {} m ⟨5⟩ owner ∧
        Leads {} m m' ∧ GivesCondition {} m' ⟨8⟩ owner ∧
        m.pending.tail = m'.pending.tail ∧ m'.pending.tail.map (·.node) = [⟨1⟩] := by
  intro condition g s v
  have hok : (Assembly.walk {} 20 [v] s).result = .ok () := by decide +kernel
  have hchain : g.ConditionChain ⟨2⟩ [⟨5⟩] ⟨8⟩ :=
    .plain rfl rfl rfl (.loop rfl rfl nofun rfl (.forLoop rfl rfl rfl (.condition rfl rfl)))
  have hnode : s.graph.get? v.node =
      some { kind := .loop .doUntilLoop, branches := [⟨1⟩, ⟨2⟩] } := rfl
  obtain ⟨s₁, first, behind, m, m', owner, hstep, -, hm, hmakes, hm', hgives, htail, -, hsame⟩ :=
    loopCondition_owner [] hok hnode rfl rfl hchain
  have hcalled : (step {} ⟨s, .walk, [v], []⟩).pending.map (·.node) = [⟨2⟩, ⟨1⟩] := by
    decide +kernel
  rw [hstep, List.append_nil] at hcalled
  rw [List.append_nil] at htail
  refine ⟨hok, hchain, m, m', owner, hm, hmakes, hm', hgives, hsame (List.cons_ne_nil _ _), ?_⟩
  rw [htail]
  exact (List.cons.inj hcalled).2

/-- **The condition behind a `for` loop goes to the `for` loop**: in a `do` loop whose body is a
`for` loop and a condition behind it, the `do` loop gets no condition, and the `for` loop gets
two. -/
theorem condition_behind_for :
    let condition (n : Int32) : FlowKind := .block ⟨[pushNumber n], .loopCondition⟩
    let g : FlowGraph := {
      nodes := #[
        { kind := .loop .doUntilLoop, branches := [⟨1⟩, ⟨2⟩] },
        { kind := .block {} },
        { kind := .loop .forLoop, branches := [⟨5⟩, ⟨3⟩, ⟨4⟩] },
        { kind := condition 1 },
        { kind := .block {} },
        { kind := condition 2 }]
      entry := ⟨0⟩ }
    g.ConditionChain ⟨2⟩ [⟨2⟩] ⟨5⟩ ∧
      ∃ t, (liftGraph {} g).result = .ok t ∧ t.get? ⟨7⟩ = some { kind := .int32 2 } ∧
        t.get? ⟨1⟩ = some { kind := .doUntilLoop, children := [⟨2⟩] } ∧
        t.get? ⟨3⟩ = some { kind := .forLoop, children := [⟨4⟩, ⟨5⟩, ⟨6⟩, ⟨7⟩] } := by
  intro condition g
  have hnodes : (liftGraph {} g).result.map (fun t => [7, 1, 3].map fun index => t.get? ⟨index⟩) =
      .ok [some { kind := .int32 2 }, some { kind := .doUntilLoop, children := [⟨2⟩] },
        some { kind := .forLoop, children := [⟨4⟩, ⟨5⟩, ⟨6⟩, ⟨7⟩] }] := by decide +kernel
  refine ⟨.forLoop rfl rfl rfl (.condition rfl rfl), ?_⟩
  obtain ⟨t, hok, hlist⟩ := exists_of_map_eq_ok hnodes
  simp only [List.map_cons, List.map_nil, List.cons.injEq, and_true] at hlist
  exact ⟨t, hok, hlist⟩

end GmlLift
