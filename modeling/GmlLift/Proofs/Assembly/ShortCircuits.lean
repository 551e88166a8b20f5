import GmlLift.Proofs.Assembly.Nodes
import GmlLift.Proofs.Lifting.Parallel
import Mathlib.Control.Monad.Basic

/-!
# The operands of short circuits

Each condition of a short circuit is assembled by itself. What stands on the stack outside, the loop
around the short circuit and the conditional in whose arm it is are nothing to it: a condition that
continues a loop finds none. It shares the tree, the graph and the container with the conditions
before it.

* `Isolates`: what the conditions leave, each one alone.
* `Gathers.isolates`: a short circuit gathers what its conditions leave alone, in their order.
* `sameBuild_conditionOperands`: the stack outside does not matter.
* `visitBlock_outside`: outside of every loop there is nothing to continue.

Result: `visit_isolates`.
-/

namespace GmlLift

open GmlLift.Action

namespace Assembly

variable {cfg : Settings} {budget : Nat} {container : NodeId} {t t' : Tree} {g g' : FlowGraph}
  {s s' : Assembly} {v v' : Visit} {node : FlowNode} {conditions : List FlowRef}

/-! ## Conditions by themselves -/

/-- What the assembly of a condition leaves on the stack: an operand, and the expressions beneath
it. -/
structure Yield where
  beneath : List NodeId
  operand : NodeId

/-- **The conditions are assembled one after the other, each by itself**: in the container, on an
empty stack, in no loop and in no arm of a conditional, with the tree and the graph that the ones
before it have left. -/
inductive Isolates (cfg : Settings) (budget : Nat) (container : NodeId) :
    Tree → FlowGraph → List FlowRef → List Yield → Tree → FlowGraph → Prop
  | nil {t : Tree} {g : FlowGraph} : Isolates cfg budget container t g [] [] t g
  | cons {t t₁ t' : Tree} {g g₁ g' : FlowGraph} {condition : FlowRef} {rest : List FlowRef}
      {left : OperandStack} {yield : Yield} {yields : List Yield}
      (hwalks : Walks cfg budget [{ container, node := condition, loop := none, openIf := none }]
        ⟨⟨t, .empty⟩, g⟩ ⟨⟨t₁, left⟩, g₁⟩)
      (hleft : left.toList = yield.beneath ++ [yield.operand])
      (hrest : Isolates cfg budget container t₁ g₁ rest yields t' g') :
      Isolates cfg budget container t g (condition :: rest) (yield :: yields) t' g'

theorem Isolates.holds {yields : List Yield} {id : NodeId}
    (h : Isolates cfg budget container t g conditions yields t' g') (hid : t.Holds id) :
    t'.Holds id := by
  induction h with
  | nil => exact hid
  | cons hwalks _ _ ih => exact ih (hwalks.holds hid)

/-- **What a short circuit gathers is what its conditions leave by themselves**, in their order. -/
theorem Gathers.isolates {operands : List NodeId}
    (h : Gathers cfg budget container s conditions operands s') :
    ∃ yields, Isolates cfg budget container s.machine.tree s.graph conditions yields
        s'.machine.tree s'.graph ∧ operands = yields.map (·.operand) ∧
      s'.machine.stack.toList = s.machine.stack.toList ++ yields.flatMap (·.beneath) := by
  induction h with
  | nil => exact ⟨[], .nil, rfl, (List.append_nil _).symm⟩
  | @cons s s₁ s' condition rest operand others operands hwalks hleft _ ih =>
    obtain ⟨yields, hisolates, rfl, hstack⟩ := ih
    refine ⟨⟨others.toList, operand⟩ :: yields, .cons hwalks ?_ hisolates, rfl, ?_⟩
    · rw [hleft, OperandStack.toList_push]
    · rw [hstack, List.flatMap_cons, ← List.append_assoc]
      exact congrArg (· ++ _) (OperandStack.toList_append _ _)

theorem fragment_of_walks {ref : FlowRef} {left : OperandStack} (stack : OperandStack)
    (h : Walks cfg budget [{ container, node := ref }] ⟨⟨t, .empty⟩, g⟩ ⟨⟨t', left⟩, g'⟩) :
    (fragment cfg budget container ref ⟨⟨t, stack⟩, g⟩).result = .ok left ∧
      (fragment cfg budget container ref ⟨⟨t, stack⟩, g⟩).state = ⟨⟨t', stack⟩, g'⟩ := by
  obtain ⟨hresult, hstate⟩ := h
  have hstart : withStack ⟨⟨t, stack⟩, g⟩ .empty = ⟨⟨t, .empty⟩, g⟩ := rfl
  rw [fragment, onFreshStack_apply, hstart, hresult, hstate]
  exact ⟨rfl, rfl⟩

/-- **Behind conditions that can be assembled, one that cannot stops the short circuit.** -/
theorem Isolates.fails {yields : List Yield} {condition : FlowRef} {e : Halt}
    (h : Isolates cfg budget container t g conditions yields t' g')
    (hfails : ∀ stack,
      (fragment cfg budget container condition ⟨⟨t', stack⟩, g'⟩).result = .error e)
    (more : List FlowRef) (stack : OperandStack) :
    (conditionOperands (fragment cfg budget container) (conditions ++ condition :: more)
      ⟨⟨t, stack⟩, g⟩).result = .error e := by
  induction h generalizing stack with
  | nil =>
    rw [List.nil_append, conditionOperands, bind_of_error (hfails stack)]
  | @cons t t₁ t' g g₁ g' first rest left yield yields hwalks hleft _ ih =>
    obtain ⟨hresult, hstate⟩ := fragment_of_walks stack hwalks
    obtain ⟨items⟩ := left
    cases items with
    | nil => simp [OperandStack.toList] at hleft
    | cons operand others =>
      rw [List.cons_append, conditionOperands, bind_of_ok hresult, hstate]
      have hrest := ih hfails (stack.append ⟨others⟩)
      exact congrArg Outcome.result (bind_of_error (x := conditionOperands _ _) hrest)

/-! ## The stack outside -/

/-- The same tree and the same graph, with any two stacks. -/
structure SameBuild (s s' : Assembly) : Prop where
  tree : s'.machine.tree = s.machine.tree
  graph : s'.graph = s.graph

theorem SameBuild.withStack_eq (h : SameBuild s s') (stack : OperandStack) :
    s'.withStack stack = s.withStack stack := by
  obtain ⟨⟨t, stack₁⟩, g⟩ := s
  obtain ⟨⟨t', stack₂⟩, g'⟩ := s'
  obtain ⟨rfl, rfl⟩ := h
  rfl

/-- **What a condition is assembled to does not depend on the stack outside.** -/
theorem sameBuild_fragment (cfg : Settings) (budget : Nat) (container : NodeId) (ref : FlowRef) :
    Parallel SameBuild Eq (fragment cfg budget container ref)
      (fragment cfg budget container ref) := by
  intro s s' h
  rw [fragment, onFreshStack_apply, onFreshStack_apply, h.withStack_eq]
  exact ⟨⟨rfl, rfl⟩, .refl _⟩

theorem sameBuild_pushBeneath (others : OperandStack) :
    Parallel SameBuild Eq (onMachine (change fun m => { m with stack := m.stack.append others }))
      (onMachine (change fun m => { m with stack := m.stack.append others })) :=
  fun _ _ h => ⟨⟨h.tree, h.graph⟩, .ok rfl⟩

theorem sameBuild_conditionOperands (cfg : Settings) (budget : Nat) (container : NodeId) :
    ∀ conditions, Parallel SameBuild Eq
      (conditionOperands (fragment cfg budget container) conditions)
      (conditionOperands (fragment cfg budget container) conditions)
  | [] => .pure rfl
  | condition :: rest => by
    refine (sameBuild_fragment cfg budget container condition).bind ?_
    rintro inner _ rfl
    cases inner.popFor "short-circuit condition" with
    | error e => exact .halt _
    | ok popped =>
      refine (sameBuild_pushBeneath popped.2).bind fun _ _ _ => ?_
      refine (sameBuild_conditionOperands cfg budget container rest).bind ?_
      rintro operands _ rfl
      exact .pure rfl

/-- The visits lead to the same nodes. -/
def SameNodes (next next' : List Visit) : Prop := next.map (·.node) = next'.map (·.node)

theorem sameNodes_goOn (v v' : Visit) (branches : List FlowRef) :
    SameNodes (v.goOn branches) (v'.goOn branches) := by
  cases branches <;> rfl

theorem parallel_connect (v v' : Visit) (op : Connective) (branches : List FlowRef)
    (operands : List NodeId) :
    Parallel SameBuild SameNodes (connect v op branches operands)
      (connect v' op branches operands) := by
  intro s s' h
  refine ⟨⟨?_, h.graph⟩, .ok (sameNodes_goOn v v' branches)⟩
  have htree : s'.machine.tree.add (.shortCircuit op) operands =
      s.machine.tree.add (.shortCircuit op) operands := by rw [h.tree]
  exact htree

/-! ## Outside of every loop -/

/-- **Outside of every loop there is nothing to continue, and nothing that a condition could go
to.** -/
theorem visitBlock_outside {block : Block} (hloop : v.loop = none)
    (hrole : block.role = .continueOn ∨ block.role = .loopCondition)
    (hnode : s.graph.get? v.node = some node) (hheld : s.machine.tree.Holds v.container)
    (hok : (Machine.execute cfg block.code v.container s.machine).result = .ok ())
    (branches : List FlowRef) :
    (visitBlock cfg v block branches s).result = .error (.error .noEnclosingLoop) := by
  have houtside : v.enclosingLoop = fail .noEnclosingLoop := by
    unfold Visit.enclosingLoop
    rw [hloop]
  have hmeets : (visitBlock cfg v block branches).Meets s (fun _ _ => False)
      (· = .error .noEnclosingLoop) := by
    obtain ⟨m₁, hm₁⟩ : ∃ m₁, (Machine.execute cfg block.code v.container s.machine).state = m₁ :=
      ⟨_, rfl⟩
    have hheld₁ : m₁.tree.Holds v.container := by
      rw [← hm₁]
      exact Nat.lt_of_lt_of_le hheld ((Machine.keepsNodes_execute ..).le s.machine)
    refine .bind (Meets.onPart ((meets_of_ok hok).mpr ?_))
    rw [hm₁]
    rcases hrole with hrole | hrole
    · rw [hrole]
      have hprune : (onGraph (FlowGraph.prune cfg v.node) { s with machine := m₁ }).result =
          .ok () := (FlowGraph.prune_of_get? cfg hnode).1
      refine .bind ((meets_of_ok hprune).mpr ?_)
      refine .bind (Meets.onPart (.bind (.bind (Machine.meets_make ?_))))
      obtain ⟨n, hn⟩ := Tree.get?_of_holds (Nat.lt_of_lt_of_le hheld₁
        ((Machine.keepsNodes_make .continueStmt []).le m₁))
      refine Machine.meets_append hn fun t' _ => ?_
      rw [houtside]
      exact rfl
    · rw [hrole]
      refine .bind (Meets.onPart ?_)
      unfold Visit.finishBlock
      rw [houtside]
      exact rfl
  cases hresult : (visitBlock cfg v block branches s).result with
  | ok next => exact ((meets_of_ok hresult).mp hmeets).elim
  | error e => rw [(meets_of_error hresult).mp hmeets]

/-- **The condition starts with a block that needs a loop**: one that continues it or gives it a
condition, and whose code can be run on an empty stack. -/
structure AsksForLoop (cfg : Settings) (container : NodeId) (t : Tree) (g : FlowGraph)
    (condition : FlowRef) : Prop where
  block : ∃ node block, g.get? condition = some node ∧ node.kind = .block block ∧
    (block.role = .continueOn ∨ block.role = .loopCondition) ∧
    (Machine.execute cfg block.code container ⟨t, .empty⟩).result = .ok ()

theorem AsksForLoop.fragment_fails {condition : FlowRef}
    (h : AsksForLoop cfg container t g condition) (hheld : t.Holds container) (hbudget : 0 < budget)
    (stack : OperandStack) :
    (fragment cfg budget container condition ⟨⟨t, stack⟩, g⟩).result =
      .error (.error .noEnclosingLoop) := by
  obtain ⟨node, block, hnode, hkind, hrole, hok⟩ := h.block
  obtain ⟨budget, rfl⟩ := Nat.exists_eq_add_of_lt hbudget
  let w : Visit := { container, node := condition }
  let s : Assembly := ⟨⟨t, .empty⟩, g⟩
  have hvisit : (visit cfg (fragment cfg budget) w s).result =
      .error (.error .noEnclosingLoop) := by
    rw [visit_block (s := s) hnode hkind]
    exact visitBlock_outside rfl hrole hnode hheld hok node.branches
  have hwalk : (walk cfg (budget + 1) [w] s).result = .error (.error .noEnclosingLoop) := by
    rw [walk_succ_cons, bind_of_error hvisit]
  have hstart : withStack ⟨⟨t, stack⟩, g⟩ .empty = s := rfl
  rw [fragment, onFreshStack_apply, hstart, Nat.zero_add, hwalk]
  rfl

/-! ## The short circuit -/

/-- A short circuit takes its operands and leaves itself on the stack. -/
theorem connect_apply (v : Visit) (op : Connective) (branches : List FlowRef)
    (operands : List NodeId) (s : Assembly) :
    connect v op branches operands s = ⟨.ok (v.goOn branches),
      { s with machine := ⟨s.machine.tree.add (.shortCircuit op) operands,
        s.machine.stack.push s.machine.tree.nextId⟩ }, []⟩ := rfl

/-- **The operands of a short circuit are isolated, and what they leave is spliced in order.** Each
condition is assembled by itself, with the tree and the graph that the ones before it have left. If
the short circuit can be assembled, the stack gets what each condition leaves beneath its operand,
in their order, and then a new node with the operands as its children. The stack that the visit
starts with, its loop and its conditional do not matter for the tree, the graph and the end of the
visit. So a condition that starts by continuing a loop, or with the condition of one, fails, even if
the short circuit is in a loop. -/
theorem visit_isolates {op : Connective} (hnode : s.graph.get? v.node = some node)
    (hkind : node.kind = .shortCircuit op conditions) :
    (∀ next s', Visits cfg budget v s next s' → next = v.goOn node.branches ∧
      ∃ yields t, Isolates cfg budget v.container s.machine.tree s.graph conditions yields t
          s'.graph ∧
        s'.machine.tree = t.add (.shortCircuit op) (yields.map (·.operand)) ∧
        s'.machine.stack.toList =
          s.machine.stack.toList ++ yields.flatMap (·.beneath) ++ [t.nextId]) ∧
    (∀ v' s', v'.container = v.container → v'.node = v.node → SameBuild s s' →
      SameBuild (visit cfg (fragment cfg budget) v s).state
        (visit cfg (fragment cfg budget) v' s').state ∧
      SameEnd SameNodes (visit cfg (fragment cfg budget) v s).result
        (visit cfg (fragment cfg budget) v' s').result) ∧
    (∀ before condition after yields t g, conditions = before ++ condition :: after →
      Isolates cfg budget v.container s.machine.tree s.graph before yields t g →
      AsksForLoop cfg v.container t g condition → s.machine.tree.Holds v.container → 0 < budget →
      (visit cfg (fragment cfg budget) v s).result = .error (.error .noEnclosingLoop)) := by
  refine ⟨fun next s' hvisits => ?_, fun v' s' hcontainer href hbuild => ?_, ?_⟩
  · have hmeets : (visit cfg (fragment cfg budget) v).Meets s
        (fun next s' => next = v.goOn node.branches ∧
          ∃ yields t, Isolates cfg budget v.container s.machine.tree s.graph conditions yields t
              s'.graph ∧
            s'.machine.tree = t.add (.shortCircuit op) (yields.map (·.operand)) ∧
            s'.machine.stack.toList =
              s.machine.stack.toList ++ yields.flatMap (·.beneath) ++ [t.nextId])
        fun _ => True := by
      refine .of_eq (visit_shortCircuit hnode hkind) (.bind
        ((conditionOperands_gathers cfg budget v.container conditions s).imp ?_))
      rintro operands s₁ hgathers
      obtain ⟨yields, hisolates, rfl, hstack⟩ := hgathers.isolates
      refine ⟨rfl, yields, s₁.machine.tree, hisolates, rfl, ?_⟩
      rw [connect_apply, ← hstack]
      exact OperandStack.toList_push _ _
    exact hvisits.meets hmeets
  · have hnode' : s'.graph.get? v'.node = some node := by rw [hbuild.graph, href, hnode]
    rw [visit_shortCircuit hnode hkind, visit_shortCircuit hnode' hkind, hcontainer]
    refine Parallel.bind (sameBuild_conditionOperands cfg budget v.container conditions) ?_ s s'
      hbuild
    rintro operands _ rfl
    exact parallel_connect v v' op node.branches operands
  · rintro before condition after yields t g rfl hbefore hasks hheld hbudget
    rw [visit_shortCircuit hnode hkind]
    have hfails := hbefore.fails
      (hasks.fragment_fails (hbefore.holds hheld) hbudget) after s.machine.stack
    rw [bind_of_error hfails]

/-- Two conditions, of which the first leaves a number beneath its operand, and then one that
continues a loop: the short circuit of the first two splices, in a loop and on a stack with a number
on it, and the one of all three fails. -/
theorem visit_isolates_numbers :
    let push (n : Int32) : Instruction :=
      { opcode := .push, type1 := .int32, literal := some (.int32 n) }
    let g : FlowGraph := {
      nodes := #[
        { kind := .shortCircuit .and [⟨2⟩, ⟨3⟩] },
        { kind := .shortCircuit .or [⟨2⟩, ⟨4⟩, ⟨3⟩] },
        { kind := .block ⟨[push 5, push 6], .plain⟩ },
        { kind := .block ⟨[push 7], .plain⟩ },
        { kind := .block ⟨[], .continueOn⟩ }] }
    let t : Tree := ((Tree.new.add (.whileLoop false) []).add (.int32 4) [])
    let s : Assembly := ⟨⟨t, ⟨[⟨2⟩]⟩⟩, g⟩
    let inside (ref : FlowRef) : Visit := { container := Tree.root, node := ref, loop := some ⟨1⟩ }
    let o := visit {} (fragment {} 3) (inside ⟨0⟩) s
    o.result = .ok [] ∧ o.state.machine.stack.toList = [⟨2⟩, ⟨3⟩, ⟨6⟩] ∧
      (∃ yields t', Isolates {} 3 Tree.root t g [⟨2⟩, ⟨3⟩] yields t' o.state.graph ∧
        o.state.machine.tree = t'.add (.shortCircuit .and) (yields.map (·.operand)) ∧
        o.state.machine.stack.toList = [⟨2⟩] ++ yields.flatMap (·.beneath) ++ [t'.nextId]) ∧
      (visit {} (fragment {} 3) (inside ⟨1⟩) s).result = .error (.error .noEnclosingLoop) := by
  intro push g t s inside o
  have hvisits : Visits {} 3 (inside ⟨0⟩) s [] o.state := ⟨by decide +kernel, rfl⟩
  have hnode : s.graph.get? ⟨0⟩ = some { kind := .shortCircuit .and [⟨2⟩, ⟨3⟩] } := rfl
  have hnode' : s.graph.get? ⟨1⟩ = some { kind := .shortCircuit .or [⟨2⟩, ⟨4⟩, ⟨3⟩] } := rfl
  refine ⟨hvisits.result, by decide +kernel, ?_, ?_⟩
  · exact ((visit_isolates (v := inside ⟨0⟩) hnode rfl).1 [] o.state hvisits).2
  · -- the first condition, and then the one that asks for a loop
    let s₁ := (walk {} 3 [{ container := Tree.root, node := ⟨2⟩ }] ⟨⟨t, .empty⟩, g⟩).state
    have hwalks : Walks {} 3 [{ container := Tree.root, node := ⟨2⟩ }] ⟨⟨t, .empty⟩, g⟩
        ⟨⟨s₁.machine.tree, s₁.machine.stack⟩, s₁.graph⟩ := ⟨by decide +kernel, rfl⟩
    have hleft : s₁.machine.stack.toList = [⟨3⟩] ++ [⟨4⟩] := by decide +kernel
    have hbefore : Isolates {} 3 Tree.root t g [⟨2⟩] [⟨[⟨3⟩], ⟨4⟩⟩] s₁.machine.tree s₁.graph :=
      .cons hwalks hleft .nil
    have hgraph : s₁.graph.get? ⟨4⟩ = some { kind := .block ⟨[], .continueOn⟩ } := by
      decide +kernel
    have hasks : AsksForLoop {} Tree.root s₁.machine.tree s₁.graph ⟨4⟩ :=
      ⟨_, _, hgraph, rfl, Or.inl rfl, rfl⟩
    have hheld : t.Holds Tree.root := (by decide +kernel : 0 < t.size)
    exact (visit_isolates (v := inside ⟨1⟩) hnode' rfl).2.2 [⟨2⟩] ⟨4⟩ [⟨3⟩] _ _ _ rfl hbefore
      hasks hheld (by decide)

end Assembly

end GmlLift
