import GmlLift.Proofs.Lifted.Graph
import GmlLift.Proofs.Lifting.Meets

/-!
# The course of a walk

A walk that answers has made all of its visits. `Visits` and `Walks` say of a visit and of a walk
that they answer, and what they leave. `walks_cons_iff` and `Walks.split` take a walk apart: into
its first visit and the rest, and into the visits of one group and those of another.

What a walk goes through are moments of the run (`Visits.leads`, `Walks.leads`), also where it
assembles a condition of a short circuit (`leads_condition`). On the way only blocks that break or
continue change in the graph (`Moment.Leads.get?_kept`).
-/

namespace GmlLift

/-! ## What comes of an answer -/

/-- An action that answers does what it does. -/
theorem Action.meets_self {σ α : Type} (x : Action σ α) (s : σ) :
    x.Meets s (fun a s' => (x s).result = .ok a ∧ (x s).state = s') fun _ => True := by
  cases h : (x s).result with
  | ok a => exact (meets_of_ok h).mpr ⟨rfl, rfl⟩
  | error e => exact (meets_of_error h).mpr trivial

/-- What an action meets depends on what it does at the state. -/
theorem Action.Meets.of_eq {σ α : Type} {x y : Action σ α} {s : σ} {post : α → σ → Prop}
    {halts : Halt → Prop} (heq : x s = y s) (h : y.Meets s post halts) : x.Meets s post halts := by
  unfold Meets at h ⊢
  rw [heq]
  exact h

namespace Machine

open GmlLift.Action

variable {t : Tree} {stack : OperandStack}

/-- The tree is changed, if it can be. -/
theorem meets_edit_any {f : Tree → Option Tree} {post : Unit → Machine → Prop}
    (h : ∀ t', f t = some t' → post () ⟨t', stack⟩) :
    (edit f).Meets ⟨t, stack⟩ post fun _ => True := by
  cases hf : f t with
  | some t' => exact meets_edit hf (h t' hf)
  | none =>
    have hhalts : (edit f ⟨t, stack⟩).result = .error .outOfRange :=
      congrArg Outcome.result (edit_of_none (m := ⟨t, stack⟩) hf)
    exact (meets_of_error hhalts).mpr trivial

/-- A node gets a child, if it is there. -/
theorem meets_append_any {parent child : NodeId} {post : Unit → Machine → Prop}
    (h : ∀ t', t.appendChild? parent child = some t' → post () ⟨t', stack⟩) :
    (append parent child).Meets ⟨t, stack⟩ post fun _ => True :=
  meets_edit_any h

/-- An operand is taken, if there is one. -/
theorem meets_popFor_any {construct : String} {post : NodeId → Machine → Prop}
    (h : ∀ id rest, stack = rest.push id → post id ⟨t, rest⟩) :
    (popFor construct).Meets ⟨t, stack⟩ post fun _ => True :=
  (meets_popFor h).mono (fun _ _ h => h) fun _ _ => trivial

end Machine

namespace Assembly

open GmlLift.Action

variable {cfg : Settings} {budget : Nat} {v : Visit} {s s' : Assembly} {next pending : List Visit}
  {node : FlowNode}

/-! ## Visits by the kind of the node -/

section Kinds

variable {assemble : Assembler} (hnode : s.graph.get? v.node = some node)

include hnode

theorem visit_block {block : Block} (hkind : node.kind = .block block) :
    visit cfg assemble v s = visitBlock cfg v block node.branches s := by
  unfold visit
  rw [Machine.bind_quiet (state_apply s)]
  simp only [hnode, hkind]

theorem visit_conditional {header : Block} (hkind : node.kind = .conditional header) :
    visit cfg assemble v s =
      (onMachine (Machine.execute cfg header.code v.container) >>= fun _ =>
        onMachine (v.openConditional node.branches)) s := by
  unfold visit
  rw [Machine.bind_quiet (state_apply s)]
  simp only [hnode, hkind]

theorem visit_shortCircuit {op : Connective} {conditions : List FlowRef}
    (hkind : node.kind = .shortCircuit op conditions) :
    visit cfg assemble v s =
      (conditionOperands (assemble v.container) conditions >>= connect v op node.branches) s := by
  unfold visit
  rw [Machine.bind_quiet (state_apply s)]
  simp only [hnode, hkind]
  rfl

theorem visit_loop {kind : LoopKind} (hkind : node.kind = .loop kind) :
    visit cfg assemble v s = onMachine (v.openLoop kind node.branches) s := by
  unfold visit
  rw [Machine.bind_quiet (state_apply s)]
  simp only [hnode, hkind]

theorem visit_switch (hkind : node.kind = .switch) :
    visit cfg assemble v s = onMachine (v.openSwitch node.branches) s := by
  unfold visit
  rw [Machine.bind_quiet (state_apply s)]
  simp only [hnode, hkind]

end Kinds

/-! ## Visits and walks that answer -/

/-- **The visit answers**: it calls for more visits and leaves an assembly. -/
structure Visits (cfg : Settings) (budget : Nat) (v : Visit) (s : Assembly) (next : List Visit)
    (s' : Assembly) : Prop where
  result : (visit cfg (fragment cfg budget) v s).result = .ok next
  state : (visit cfg (fragment cfg budget) v s).state = s'

/-- **The walk answers**: every visit is made, and so is every visit that one of them calls for. -/
structure Walks (cfg : Settings) (budget : Nat) (pending : List Visit) (s s' : Assembly) :
    Prop where
  result : (walk cfg budget pending s).result = .ok ()
  state : (walk cfg budget pending s).state = s'

/-- What comes of a visit. -/
theorem Visits.meets (h : Visits cfg budget v s next s') {post : List Visit → Assembly → Prop}
    (hpost : (visit cfg (fragment cfg budget) v).Meets s post fun _ => True) : post next s' := by
  obtain ⟨hresult, rfl⟩ := h
  exact (meets_of_ok hresult).mp hpost

theorem walks_nil_iff : Walks cfg budget [] s s' ↔ s' = s := by
  constructor
  · rintro ⟨-, hstate⟩
    rw [walk_nil] at hstate
    exact hstate.symm
  · rintro rfl
    refine ⟨?_, ?_⟩ <;> rw [walk_nil] <;> rfl

/-- **A walk is its first visit and the walk from there.** -/
theorem walks_cons_iff : Walks cfg budget (v :: pending) s s' ↔
    ∃ rest next s₁, budget = rest + 1 ∧ Visits cfg rest v s next s₁ ∧
      Walks cfg rest (next ++ pending) s₁ s' := by
  constructor
  · rintro ⟨hresult, rfl⟩
    cases budget with
    | zero => cases hresult
    | succ rest =>
      rw [walk_succ_cons] at hresult ⊢
      obtain ⟨next, hvisit, hwalk⟩ := result_bind_eq_ok_iff.mp hresult
      refine ⟨rest, next, _, rfl, ⟨hvisit, rfl⟩, hwalk, ?_⟩
      rw [bind_of_ok hvisit]
  · rintro ⟨rest, next, s₁, rfl, ⟨hvisit, rfl⟩, ⟨hwalk, rfl⟩⟩
    refine ⟨?_, ?_⟩ <;> rw [walk_succ_cons, bind_of_ok hvisit]
    exact hwalk

/-- **The visits of two groups are made group by group.** -/
theorem Walks.split {first second : List Visit} (h : Walks cfg budget (first ++ second) s s') :
    ∃ s₁, Walks cfg budget first s s₁ ∧ Walks cfg budget second s₁ s' := by
  obtain ⟨hresult, rfl⟩ := h
  have hends : (walk cfg budget (first ++ second)).EndsOn s := by
    unfold EndsOn
    rw [hresult]
    nofun
  have hboth := walk_append cfg budget first second s hends
  rw [← hboth] at hresult ⊢
  obtain ⟨⟨⟩, hfirst, hsecond⟩ := result_bind_eq_ok_iff.mp hresult
  refine ⟨_, ⟨hfirst, rfl⟩, hsecond, ?_⟩
  rw [bind_of_ok hfirst]

/-- The first visit is made, with all that descend from it, and then the others. -/
theorem Walks.split_cons (h : Walks cfg budget (v :: pending) s s') :
    ∃ s₁, Walks cfg budget [v] s s₁ ∧ Walks cfg budget pending s₁ s' := by
  rw [← List.singleton_append] at h
  exact h.split

/-! ## Conditions -/

/-- **The conditions of a short circuit are assembled one after the other**, each on a stack of its
own: its last value is the operand, and what else it leaves goes on the stack. -/
inductive Gathers (cfg : Settings) (budget : Nat) (container : NodeId) :
    Assembly → List FlowRef → List NodeId → Assembly → Prop
  | nil {s : Assembly} : Gathers cfg budget container s [] [] s
  | cons {s s₁ s' : Assembly} {condition : FlowRef} {rest : List FlowRef} {operand : NodeId}
      {others : OperandStack} {operands : List NodeId}
      (hwalks : Walks cfg budget [{ container, node := condition }] (s.withStack .empty) s₁)
      (hleft : s₁.machine.stack = others.push operand)
      (hrest : Gathers cfg budget container (s₁.withStack (s.machine.stack.append others)) rest
        operands s') :
      Gathers cfg budget container s (condition :: rest) (operand :: operands) s'

theorem fragment_walks (cfg : Settings) (budget : Nat) (container : NodeId) (node : FlowRef)
    (s : Assembly) :
    (fragment cfg budget container node).Meets s
      (fun inner s' => ∃ s₁, Walks cfg budget [{ container, node }] (s.withStack .empty) s₁ ∧
        s₁.machine.stack = inner ∧ s' = s₁.withStack s.machine.stack) fun _ => True := by
  unfold Meets
  rw [fragment, onFreshStack_apply]
  cases hwalk : (walk cfg budget [{ container, node }] (s.withStack .empty)).result with
  | ok _ => exact ⟨_, ⟨hwalk, rfl⟩, rfl, rfl⟩
  | error e => trivial

theorem conditionOperands_gathers (cfg : Settings) (budget : Nat) (container : NodeId)
    (conditions : List FlowRef) (s : Assembly) :
    (conditionOperands (fragment cfg budget container) conditions).Meets s
      (fun operands s' => Gathers cfg budget container s conditions operands s')
      fun _ => True := by
  induction conditions generalizing s with
  | nil => exact meets_pure .nil
  | cons condition rest ih =>
    rw [conditionOperands]
    refine .bind ((fragment_walks cfg budget container condition s).imp ?_)
    rintro ⟨items⟩ _ ⟨s₁, hwalks, hleft, rfl⟩
    cases items with
    | nil => trivial
    | cons operand others =>
      refine .bind (Meets.onPart (meets_change (.bind ((ih _).imp fun operands s' hrest => ?_))))
      exact meets_pure (.cons hwalks hleft hrest)

/-! ## Moments -/

section Moments

variable {waiting : List Waiting}

theorem Visits.leads (h : Visits cfg budget v s next s') (pending : List Visit)
    (waiting : List Waiting) :
    Moment.Leads cfg ⟨s, .walk, v :: pending, waiting⟩ ⟨s', .walk, next ++ pending, waiting⟩ := by
  obtain ⟨hresult, rfl⟩ := h
  have hvisit := Moment.realizes_visit (Moment.realizes_walk cfg budget) v pending waiting s
  unfold Moment.Realizes at hvisit
  rw [hresult] at hvisit
  exact hvisit

theorem Walks.leads (h : Walks cfg budget pending s s') (rest : List Visit)
    (waiting : List Waiting) :
    Moment.Leads cfg ⟨s, .walk, pending ++ rest, waiting⟩ ⟨s', .walk, rest, waiting⟩ := by
  obtain ⟨hresult, rfl⟩ := h
  have hwalk := Moment.realizes_walk cfg budget pending rest waiting s
  unfold Moment.Realizes at hwalk
  rw [hresult] at hwalk
  exact hwalk

/-- A short circuit that has assembled some of its conditions. -/
theorem Gathers.leads {container : NodeId} {conditions : List FlowRef} {operands : List NodeId}
    (h : Gathers cfg budget container s conditions operands s') (hv : v.container = container)
    (op : Connective) (branches : List FlowRef) (before : List NodeId) (more : List FlowRef)
    (pending : List Visit) (waiting : List Waiting) :
    Moment.Leads cfg ⟨s, .gather v op branches before (conditions ++ more), pending, waiting⟩
      ⟨s', .gather v op branches (before ++ operands) more, pending, waiting⟩ := by
  induction h generalizing before with
  | nil =>
    rw [List.append_nil]
    exact .refl _
  | @cons s s₁ s' condition rest operand others operands hwalks hleft _ ih =>
    subst hv
    let w : Waiting := ⟨v, op, branches, before, rest ++ more, s.machine.stack, pending⟩
    have henter : Moment.step cfg
        ⟨s, .gather v op branches before (condition :: rest ++ more), pending, waiting⟩ =
        ⟨s.withStack .empty, .walk, [{ container := v.container, node := condition }],
          w :: waiting⟩ := rfl
    have hresume : Moment.step cfg ⟨s₁, .walk, [], w :: waiting⟩ =
        ⟨s₁.withStack (s.machine.stack.append others),
          .gather v op branches (before ++ [operand]) (rest ++ more), pending, waiting⟩ :=
      Moment.resume_of_ok (m := ⟨s₁, .walk, [], w :: waiting⟩) (by rw [hleft]; rfl) w waiting
    have honward := ih (before ++ [operand])
    rw [List.append_assoc, List.singleton_append] at honward
    exact (Moment.Leads.of_step henter).trans
      ((hwalks.leads [] _).trans ((Moment.Leads.of_step hresume).trans honward))

/-- **A run comes to each condition of a short circuit**, with an empty stack. -/
theorem Gathers.leads_condition {op : Connective} {before after : List FlowRef}
    {condition : FlowRef} {operands : List NodeId} (hnode : s.graph.get? v.node = some node)
    (hkind : node.kind = .shortCircuit op (before ++ condition :: after))
    (h : Gathers cfg budget v.container s before operands s') (pending : List Visit)
    (waiting : List Waiting) :
    ∃ w, Moment.Leads cfg ⟨s, .walk, v :: pending, waiting⟩
      ⟨s'.withStack .empty, .walk, [{ container := v.container, node := condition }],
        w :: waiting⟩ := by
  have henter : Moment.step cfg ⟨s, .walk, v :: pending, waiting⟩ =
      Moment.enter v ⟨s, .walk, pending, waiting⟩ := rfl
  simp only [Moment.enter, hnode, hkind] at henter
  have hgathers := h.leads rfl op node.branches [] (condition :: after) pending waiting
  exact ⟨_, (Moment.Leads.of_step henter).trans (hgathers.trans (.of_step rfl))⟩

end Moments

end Assembly

/-- **On the way of a run, a node of the graph stays as it is**, unless it is a block that breaks or
continues. -/
theorem Moment.Leads.get?_kept {cfg : Settings} {m m' : Moment} (h : Leads cfg m m')
    (htask : m.task = .walk) {ref : FlowRef} {node : FlowNode}
    (hnode : m.assembly.graph.get? ref = some node) (hstays : node.kind.leaves = false) :
    m'.assembly.graph.get? ref = some node := by
  obtain ⟨n, rfl⟩ := h
  have htraces : ∃ ran, Traces m.assembly.graph ran ((step cfg)^[n] m) := by
    induction n with
    | zero =>
      refine ⟨_, FlowGraph.PrunedAt.refl m.assembly.graph, ?_⟩
      rw [Function.iterate_zero, id_eq, htask]
      trivial
    | succ n ih =>
      obtain ⟨ran, hran⟩ := ih
      rw [Function.iterate_succ_apply']
      exact ⟨_, traces_step cfg hran⟩
  obtain ⟨ran, hran⟩ := htraces
  refine hran.graph.kept ref node hnode ?_
  rintro ⟨hleaves, -⟩
  rw [hstays] at hleaves
  cases hleaves

end GmlLift
