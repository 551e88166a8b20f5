import GmlLift.Proofs.Assembly.Budget
import GmlLift.Proofs.Execution.Dialect
import GmlLift.Proofs.Flow.Likeness

/-!
# Assemblies of graphs that are alike

Two assemblies go side by side if they have one machine and work on graphs that are alike: a visit
to a node and a visit to its counterpart, in the same place, do the same to the machine and call for
visits to counterparts. The settings of the two may differ, as long as they report the same lines
and run the code of the graph in the same way (`Settings.Accord`).

Results:
* `parallel_walk`, `parallel_fragment`: walks within one budget, and assemblies from counterparts
  on. They go on equally long, also where the budget is spent.
-/

namespace GmlLift

open GmlLift.Action

variable {P : Pairing} {R : FlowRef → FlowRef → Prop} {cfg cfg' : Settings}

/-- **Settings in accord**: they report the same lines and run the code that is allowed in the same
way. -/
structure Settings.Accord (allows : List Instruction → Prop) (cfg cfg' : Settings) : Prop where
  verbosity : cfg'.verbosity = cfg.verbosity
  execute : ∀ code, allows code → ∀ container,
    Machine.execute cfg' code container = Machine.execute cfg code container

theorem Settings.Accord.refl (allows : List Instruction → Prop) (cfg : Settings) :
    Accord allows cfg cfg := ⟨rfl, fun _ _ _ => rfl⟩

/-- Lists of counterparts have a counterpart at each place, or both nothing. -/
theorem rel_getElem? {branches branches' : List FlowRef} (h : List.Forall₂ R branches branches')
    (i : Nat) : Option.Rel R branches[i]? branches'[i]? := by
  induction h generalizing i with
  | nil => exact .none
  | cons hab _ ih =>
    cases i with
    | zero => exact .some hab
    | succ i => exact ih i

namespace Visit

/-- **Visits to counterparts in one place.** -/
structure Alike (R : FlowRef → FlowRef → Prop) (v w : Visit) : Prop where
  node : R v.node w.node
  place : w = v.goTo w.node

variable {v : Visit} {ref ref' : FlowRef} {branches branches' : List FlowRef}

theorem alike_goTo (v : Visit) (h : R ref ref') : Alike R (v.goTo ref) (v.goTo ref') := ⟨h, rfl⟩

theorem alike_goOn (v : Visit) (h : List.Forall₂ R branches branches') :
    List.Forall₂ (Alike R) (v.goOn branches) (v.goOn branches') := by
  cases h with
  | nil => exact .nil
  | cons hab _ => exact .cons (v.alike_goTo hab) .nil

theorem parallel_branch (h : List.Forall₂ R branches branches') (construct : Branching)
    (index : Nat) :
    Parallel (σ := Machine) Eq R (branch branches construct index)
      (branch branches' construct index) := by
  have hrel := rel_getElem? h index
  unfold branch
  generalize branches[index]? = branch at hrel
  generalize branches'[index]? = branch' at hrel
  cases hrel with
  | none => exact .halt _
  | some hab => exact .pure hab

/-! ## Constructs -/

theorem parallel_openConditional (v : Visit) (ref : FlowRef)
    (h : List.Forall₂ R branches branches') :
    Parallel Eq (List.Forall₂ (Alike R)) (v.openConditional branches)
      ((v.goTo ref).openConditional branches') := by
  refine (parallel_branch h _ _).bind fun continuation continuation' hcontinuation => ?_
  refine (parallel_branch h _ _).bind fun trueArm trueArm' htrue => ?_
  refine .same_bind fun _ => .same_bind fun _ => .same_bind fun _ => .same_bind fun _ =>
    .same_bind fun _ => .same_bind fun _ => ?_
  have hrel := rel_getElem? h 2
  generalize branches[2]? = falseArm at hrel
  generalize branches'[2]? = falseArm' at hrel
  cases hrel with
  | none => exact .pure (.cons ⟨htrue, rfl⟩ (.cons ⟨hcontinuation, rfl⟩ .nil))
  | some hfalse =>
    refine .same_bind fun _ => .same_bind fun _ => .pure ?_
    exact .cons ⟨htrue, rfl⟩ (.cons ⟨hfalse, rfl⟩ (.cons ⟨hcontinuation, rfl⟩ .nil))

theorem parallel_openBody (v : Visit) (ref : FlowRef) (statement : NodeId)
    (h : List.Forall₂ R branches branches') :
    Parallel Eq (Alike R) (v.openBody statement branches)
      ((v.goTo ref).openBody statement branches') := by
  refine .same_bind fun _ => .same_bind fun _ => .same_bind fun _ => ?_
  exact (parallel_branch h _ _).bind fun _ _ hnode => .pure ⟨hnode, rfl⟩

theorem parallel_openLoop (v : Visit) (ref : FlowRef) (kind : LoopKind)
    (h : List.Forall₂ R branches branches') :
    Parallel Eq (List.Forall₂ (Alike R)) (v.openLoop kind branches)
      ((v.goTo ref).openLoop kind branches') := by
  refine .same_bind fun statement => ?_
  cases kind with
  | forLoop =>
    refine (parallel_branch h _ _).bind fun condition condition' hcondition => ?_
    refine (parallel_branch h _ _).bind fun step step' hstep => ?_
    refine .same_bind fun _ => .same_bind fun _ => ?_
    refine (parallel_openBody v ref statement h).bind fun body body' hbody => .pure ?_
    exact .cons hbody (.cons ⟨hstep, rfl⟩ (.cons ⟨hcondition, rfl⟩ .nil))
  | whileLoop | doUntilLoop | repeatLoop | withLoop =>
    refine (parallel_openBody v ref statement h).bind fun body body' hbody => ?_
    refine (parallel_branch h _ _).bind fun continuation continuation' hcontinuation => .pure ?_
    exact .cons hbody (.cons ⟨hcontinuation, rfl⟩ .nil)

theorem parallel_openSwitch (v : Visit) (ref : FlowRef) (h : List.Forall₂ R branches branches') :
    Parallel Eq (List.Forall₂ (Alike R)) (v.openSwitch branches)
      ((v.goTo ref).openSwitch branches') := by
  refine .same_bind fun statement => .same_bind fun _ => .pure ?_
  refine List.rel_append ?_ (v.alike_goOn h)
  refine List.rel_map (fun node node' hnode => ?_) (List.forall₂_drop 1 h)
  exact ⟨hnode, rfl⟩

/-- What a block does for the construct around it is the same in both. -/
theorem finishBlock_congr (h : cfg'.verbosity = cfg.verbosity) (v : Visit) (ref : FlowRef)
    (role : Role) : (v.goTo ref).finishBlock cfg' role = v.finishBlock cfg role := by
  cases role with
  | plain =>
    unfold finishBlock foldTernary
    simp only [Machine.describe_congr h]
    rfl
  | _ => rfl

end Visit

/-! ## Walks -/

namespace Assembly

/-- **Assemblies side by side**: with one machine, on graphs that are alike. -/
structure Alike (P : Pairing) (s t : Assembly) : Prop where
  machine : t.machine = s.machine
  graph : s.graph.Alike P t.graph

section Walks

variable {α β : Type}

theorem parallel_onMachine {Q : α → β → Prop} {x : Action Machine α} {y : Action Machine β}
    (h : Parallel Eq Q x y) : Parallel (Alike P) Q (onMachine x) (onMachine y) := by
  rintro s ⟨machine, graph⟩ ⟨rfl, hgraph⟩
  obtain ⟨hstate, hend⟩ := h s.machine s.machine rfl
  exact ⟨⟨hstate.symm, hgraph⟩, hend⟩

theorem parallel_onGraph {Q : α → β → Prop} {x : Action FlowGraph α} {y : Action FlowGraph β}
    (h : Parallel (FlowGraph.Alike P) Q x y) :
    Parallel (Alike P) Q (onGraph x) (onGraph y) := by
  rintro s t ⟨hmachine, hgraph⟩
  obtain ⟨hstate, hend⟩ := h s.graph t.graph hgraph
  exact ⟨⟨hmachine, hstate⟩, hend⟩

theorem parallel_onFreshStack {x y : Action Assembly Unit}
    (h : Parallel (Alike P) Eq x y) :
    Parallel (Alike P) Eq (onFreshStack x) (onFreshStack y) := by
  rintro s ⟨machine, graph⟩ ⟨rfl, hgraph⟩
  obtain ⟨⟨hmachine, hgraph'⟩, hend⟩ := h
    { s with machine := { s.machine with stack := .empty } }
    ⟨{ s.machine with stack := .empty }, graph⟩ ⟨rfl, hgraph⟩
  unfold onFreshStack
  simp only
  rw [hmachine]
  exact ⟨⟨rfl, hgraph'⟩, hend.map fun _ _ _ => rfl⟩

theorem parallel_conditionOperands {assemble assemble' : FlowRef → Action Assembly OperandStack}
    (h : ∀ ref ref', P.Counterparts ref ref' →
      Parallel (Alike P) Eq (assemble ref) (assemble' ref'))
    {conditions conditions' : List FlowRef}
    (hconditions : List.Forall₂ P.Counterparts conditions conditions') :
    Parallel (Alike P) Eq (conditionOperands assemble conditions)
      (conditionOperands assemble' conditions') := by
  induction hconditions with
  | nil => exact .pure rfl
  | cons hab _ ih =>
    unfold conditionOperands
    refine (h _ _ hab).bind ?_
    rintro inner _ rfl
    cases inner.popFor "short-circuit condition" with
    | error e => exact .halt _
    | ok popped =>
      refine (parallel_onMachine (.refl _)).bind fun _ _ _ => ih.bind ?_
      rintro operands _ rfl
      exact .pure rfl

variable {v w : Visit} (hcfg : cfg.Accord P.Allows cfg')

include hcfg

theorem parallel_visitBlock {ref : FlowRef} (href : P.Counterparts v.node ref) {block : Block}
    (hblock : P.Allows block.code) {branches branches' : List FlowRef}
    (h : List.Forall₂ P.Counterparts branches branches') :
    Parallel (Alike P) (List.Forall₂ (Visit.Alike P.Counterparts)) (visitBlock cfg v block branches)
      (visitBlock cfg' (v.goTo ref) block branches') := by
  have hend : Parallel (Alike P) (List.Forall₂ (Visit.Alike P.Counterparts))
      (onMachine (v.finishBlock cfg block.role) >>= fun _ => pure (v.goOn branches))
      (onMachine ((v.goTo ref).finishBlock cfg' block.role) >>= fun _ =>
        pure ((v.goTo ref).goOn branches')) := by
    rw [Visit.finishBlock_congr hcfg.verbosity]
    exact (parallel_onMachine (.refl _)).bind fun _ _ _ => .pure (v.alike_goOn h)
  unfold visitBlock
  rw [hcfg.execute block.code hblock]
  refine (parallel_onMachine (.refl _)).bind fun _ _ _ => ?_
  split
  · exact (parallel_onGraph (FlowGraph.parallel_prune cfg cfg' href)).bind fun _ _ _ => hend
  · exact hend

/-- **One visit.** -/
theorem parallel_visit {assemble assemble' : Assembler}
    (ha : ∀ container ref ref', P.Counterparts ref ref' →
      Parallel (Alike P) Eq (assemble container ref) (assemble' container ref'))
    (hvw : v.Alike P.Counterparts w) :
    Parallel (Alike P) (List.Forall₂ (Visit.Alike P.Counterparts)) (visit cfg assemble v)
      (visit cfg' assemble' w) := by
  obtain ⟨href, hplace⟩ := hvw
  generalize w.node = ref at href hplace
  subst hplace
  refine .state_bind fun s t hst => ?_
  cases hst.graph.nodes href with
  | missing hg hg' _ heq =>
    rw [hg, show t.graph.get? (v.goTo ref).node = none from hg']
    subst heq
    exact .halt _
  | @found node node' hg hg' halike =>
    rw [hg, show t.graph.get? (v.goTo ref).node = some node' from hg']
    obtain ⟨hkind, hbranches, -⟩ := halike
    obtain ⟨kind, branches, _⟩ := node
    obtain ⟨kind', branches', _⟩ := node'
    cases hkind with
    | block hblock => exact parallel_visitBlock hcfg href hblock hbranches
    | conditional hheader =>
      simp only
      rw [hcfg.execute _ hheader]
      exact (parallel_onMachine (.refl _)).bind fun _ _ _ =>
        parallel_onMachine (v.parallel_openConditional ref hbranches)
    | shortCircuit op hconditions =>
      refine (parallel_conditionOperands (ha v.container) hconditions).bind ?_
      rintro operands _ rfl
      exact (parallel_onMachine (.refl _)).bind fun _ _ _ => .pure (v.alike_goOn hbranches)
    | loop kind => exact parallel_onMachine (v.parallel_openLoop ref kind hbranches)
    | switch => exact parallel_onMachine (v.parallel_openSwitch ref hbranches)

/-- **Walks go side by side**, within one budget. -/
theorem parallel_walk (budget : Nat) :
    ∀ {pending pending' : List Visit}, List.Forall₂ (Visit.Alike P.Counterparts) pending pending' →
      Parallel (Alike P) Eq (walk cfg budget pending) (walk cfg' budget pending') := by
  induction budget with
  | zero =>
    intro pending pending' h
    cases h with
    | nil => exact .pure rfl
    | cons _ _ => exact .halt _
  | succ budget ih =>
    intro pending pending' h
    cases h with
    | nil => exact .pure rfl
    | cons hvw hrest =>
      rw [walk_succ_cons, walk_succ_cons]
      refine (parallel_visit hcfg (fun container ref ref' href => ?_) hvw).bind
        fun next next' hnext => ih (List.rel_append hnext hrest)
      exact parallel_onFreshStack (ih (.cons ⟨href, rfl⟩ .nil))

theorem parallel_fragment (budget : Nat) (container : NodeId) {ref ref' : FlowRef}
    (href : P.Counterparts ref ref') :
    Parallel (Alike P) Eq (fragment cfg budget container ref)
      (fragment cfg' budget container ref') :=
  parallel_onFreshStack (parallel_walk hcfg budget (.cons ⟨href, rfl⟩ .nil))

end Walks

end Assembly

end GmlLift
