import GmlLift.Proofs.Assembly.Recursion
import GmlLift.Proofs.Execution.Effect
import Mathlib.Logic.Function.Iterate

/-!
# The moments of a run

A walk calls itself for the conditions of short circuits, so what a run holds at one time is spread
over several calls. Here the same run is cut into steps: a step takes the next visit, runs one
instruction, does what a node calls for, or enters or leaves a condition. A `Moment` is what there
is between two steps; the calls that are still open are the list `Moment.waiting`.

A step has no budget, and a run that has stopped stays where it is, so every graph has a moment for
every number of steps.

Result: `liftGraph_stops`. Where lifting ends, the moments of the run stop, with the same result, on
the same graph and, if it is a tree, with the same tree.
-/

namespace GmlLift

/-- A short circuit that waits for one of its conditions, with the walk around it. -/
structure Waiting where
  visit : Visit
  op : Connective
  branches : List FlowRef
  /-- What the conditions before this one have given. -/
  operands : List NodeId
  /-- The conditions after this one. -/
  conditions : List FlowRef
  stack : OperandStack
  pending : List Visit

/-- What follows the code of a node. -/
inductive Sequel where
  /-- The end of a block. -/
  | finish (role : Role)
  /-- The arms of a conditional. -/
  | fork

/-- What a run is about to do. -/
inductive Task where
  /-- To take the next visit, or to leave a condition. -/
  | walk
  /-- To run the code of a node. -/
  | run (v : Visit) (sequel : Sequel) (branches : List FlowRef) (skip : Nat)
      (behind ahead : List Instruction)
  /-- To assemble the conditions of a short circuit. -/
  | gather (v : Visit) (op : Connective) (branches : List FlowRef) (operands : List NodeId)
      (conditions : List FlowRef)
  /-- Nothing more. -/
  | stopped (result : Except Halt Unit)

/-- **What there is between two steps of a run.** -/
structure Moment where
  assembly : Assembly
  task : Task := .walk
  pending : List Visit
  waiting : List Waiting := []

namespace Assembly

/-- What is done for a node when its code has run. -/
def leave (cfg : Settings) (v : Visit) (branches : List FlowRef) :
    Sequel → Action Assembly (List Visit)
  | .finish role => do
    if role = .breakOut || role = .continueOn then onGraph (FlowGraph.prune cfg v.node)
    onMachine (v.finishBlock cfg role)
    return v.goOn branches
  | .fork => onMachine (v.openConditional branches)

/-- Puts a short circuit of the given operands on the stack. -/
def connect (v : Visit) (op : Connective) (branches : List FlowRef) (operands : List NodeId) :
    Action Assembly (List Visit) := do
  onMachine (Machine.pushNew (.shortCircuit op) operands)
  return v.goOn branches

/-- The assembly with another operand stack. -/
def withStack (s : Assembly) (stack : OperandStack) : Assembly :=
  { s with machine := { s.machine with stack } }

theorem onFreshStack_apply (x : Action Assembly Unit) (s : Assembly) :
    onFreshStack x s =
      ⟨(x (s.withStack .empty)).result.map fun _ => (x (s.withStack .empty)).state.machine.stack,
        (x (s.withStack .empty)).state.withStack s.machine.stack,
        (x (s.withStack .empty)).notes⟩ := rfl

end Assembly

namespace Moment

open GmlLift.Action GmlLift.Assembly

/-! ## Steps -/

/-- Does an action and goes on; the run stops if the action halts. -/
def act {α : Type} (m : Moment) (x : Action Assembly α) (next : α → Moment → Moment) : Moment :=
  match (x m.assembly).result with
  | .ok a => next a { m with assembly := (x m.assembly).state }
  | .error h => { m with assembly := (x m.assembly).state, task := .stopped (.error h) }

/-- Does an action and puts the visits that it calls for in front of the pending ones. -/
def schedule (m : Moment) (x : Action Assembly (List Visit)) : Moment :=
  m.act x fun next m => { m with task := .walk, pending := next ++ m.pending }

/-- Takes a visit up. -/
def enter (v : Visit) (m : Moment) : Moment :=
  match m.assembly.graph.get? v.node with
  | none => { m with task := .stopped (.error (.error (.unknownNode v.node))) }
  | some node =>
    match node.kind with
    | .block block => { m with task := .run v (.finish block.role) node.branches 0 [] block.code }
    | .conditional header => { m with task := .run v .fork node.branches 0 [] header.code }
    | .shortCircuit op conditions => { m with task := .gather v op node.branches [] conditions }
    | .loop kind => m.schedule (onMachine (v.openLoop kind node.branches))
    | .switch => m.schedule (onMachine (v.openSwitch node.branches))

/-- Goes on with a short circuit whose condition has been assembled. -/
def resume (m : Moment) (w : Waiting) (waiting : List Waiting) : Moment :=
  match m.assembly.machine.stack.popFor "short-circuit condition" with
  | .error e => { m with task := .stopped (.error (.error e)) }
  | .ok (operand, others) =>
    { assembly := m.assembly.withStack (w.stack.append others)
      task := .gather w.visit w.op w.branches (w.operands ++ [operand]) w.conditions
      pending := w.pending
      waiting }

theorem resume_of_error {m : Moment} {e : LiftError}
    (h : m.assembly.machine.stack.popFor "short-circuit condition" = .error e) (w : Waiting)
    (waiting : List Waiting) :
    m.resume w waiting = { m with task := .stopped (.error (.error e)) } := by
  unfold resume
  rw [h]

theorem resume_of_ok {m : Moment} {operand : NodeId} {others : OperandStack}
    (h : m.assembly.machine.stack.popFor "short-circuit condition" = .ok (operand, others))
    (w : Waiting) (waiting : List Waiting) :
    m.resume w waiting =
      ⟨m.assembly.withStack (w.stack.append others),
        .gather w.visit w.op w.branches (w.operands ++ [operand]) w.conditions, w.pending,
        waiting⟩ := by
  unfold resume
  rw [h]

/-- **One step of a run.** -/
def step (cfg : Settings) (m : Moment) : Moment :=
  match m.task with
  | .stopped _ => m
  | .walk =>
    match m.pending, m.waiting with
    | v :: pending, _ => enter v { m with pending }
    | [], w :: waiting => m.resume w waiting
    | [], [] => { m with task := .stopped (.ok ()) }
  | .run v sequel branches _ _ [] => m.schedule (leave cfg v branches sequel)
  | .run v sequel branches (skip + 1) behind (i :: ahead) =>
    { m with task := .run v sequel branches skip (i :: behind) ahead }
  | .run v sequel branches 0 behind (i :: ahead) =>
    m.act (onMachine (Machine.step cfg v.container behind i ahead)) fun skip m =>
      { m with task := .run v sequel branches skip (i :: behind) ahead }
  | .gather v op branches operands [] => m.schedule (connect v op branches operands)
  | .gather v op branches operands (condition :: conditions) =>
    { assembly := m.assembly.withStack .empty
      pending := [{ container := v.container, node := condition }]
      waiting := { visit := v, op, branches, operands, conditions,
                   stack := m.assembly.machine.stack, pending := m.pending } :: m.waiting }

/-- The first moment of a run through a graph. -/
def start (g : FlowGraph) : Moment where
  assembly := { graph := g }
  pending := [{ container := Tree.root, node := g.entry }]

/-- The moment of a run through a graph after a number of steps. -/
def after (cfg : Settings) (g : FlowGraph) (n : Nat) : Moment := (step cfg)^[n] (start g)

theorem after_succ (cfg : Settings) (g : FlowGraph) (n : Nat) :
    after cfg g (n + 1) = step cfg (after cfg g n) :=
  Function.iterate_succ_apply' _ _ _

/-- What holds first and is kept by every step holds at every moment. -/
theorem after_induction {cfg : Settings} {g : FlowGraph} {P : Moment → Prop} (h0 : P (start g))
    (hstep : ∀ m, P m → P (step cfg m)) (n : Nat) : P (after cfg g n) := by
  induction n with
  | zero => exact h0
  | succ n ih =>
    rw [after_succ]
    exact hstep _ ih

/-! ## From one moment to another -/

/-- Some steps lead from one moment to the other. -/
def Leads (cfg : Settings) (m m' : Moment) : Prop := ∃ n, (step cfg)^[n] m = m'

variable {cfg : Settings} {m m' m'' : Moment} {α β : Type}

namespace Leads

protected theorem refl (m : Moment) : Leads cfg m m := ⟨0, rfl⟩

protected theorem trans : Leads cfg m m' → Leads cfg m' m'' → Leads cfg m m''
  | ⟨n, hn⟩, ⟨k, hk⟩ => ⟨k + n, by rw [Function.iterate_add_apply, hn, hk]⟩

theorem of_step (h : step cfg m = m') : Leads cfg m m' := ⟨1, h⟩

end Leads

/-- **The moments from `m` on do what an outcome says**: they come to what follows the answer, or
they stop for the same reason and on the same graph. Nothing is said of an outcome that has no
end. -/
def Realizes (cfg : Settings) (m : Moment) (o : Outcome Assembly α)
    (next : α → Assembly → Moment) : Prop :=
  match o.result with
  | .ok a => Leads cfg m (next a o.state)
  | .error h => h ≠ .endless →
    ∃ m', Leads cfg m m' ∧ m'.task = .stopped (.error h) ∧ m'.assembly.graph = o.state.graph

namespace Realizes

variable {o : Outcome Assembly α} {next : α → Assembly → Moment}

theorem leads (h : Leads cfg m m') (h' : Realizes cfg m' o next) : Realizes cfg m o next := by
  unfold Realizes at h' ⊢
  split at h'
  · exact h.trans h'
  · intro he
    obtain ⟨m'', hm, hstop⟩ := h' he
    exact ⟨m'', h.trans hm, hstop⟩

theorem bind {x : Action Assembly α} {f : α → Action Assembly β} {s : Assembly}
    {next' : β → Assembly → Moment} (hx : Realizes cfg m (x s) next)
    (hf : ∀ a, (x s).result = .ok a →
      Realizes cfg (next a (x s).state) (f a (x s).state) next') :
    Realizes cfg m ((x >>= f) s) next' := by
  cases h : (x s).result with
  | ok a =>
    unfold Realizes at hx
    rw [h] at hx
    rw [bind_of_ok h]
    exact (hf a h).leads hx
  | error e =>
    unfold Realizes at hx ⊢
    rw [h] at hx
    rw [bind_of_error h]
    exact hx

/-- An action that a step does. -/
theorem act (m' : Moment) {x : Action Assembly α} (follow : α → Moment → Moment)
    (h : step cfg m = m'.act x follow)
    (hnext : ∀ a s, follow a { m' with assembly := s } = next a s) :
    Realizes cfg m (x m'.assembly) next := by
  unfold Moment.act at h
  unfold Realizes
  cases hx : (x m'.assembly).result with
  | ok a =>
    rw [hx] at h
    exact .of_step (h.trans (hnext a _))
  | error e =>
    rw [hx] at h
    exact fun _ => ⟨_, .of_step h, rfl, rfl⟩

theorem schedule (m' : Moment) {x : Action Assembly (List Visit)} (h : step cfg m = m'.schedule x) :
    Realizes cfg m (x m'.assembly)
      fun more s => ⟨s, .walk, more ++ m'.pending, m'.waiting⟩ :=
  act m' _ h fun _ _ => rfl

theorem onFreshStack {x : Action Assembly Unit} {s : Assembly} (follow : Assembly → Moment)
    (h : Realizes cfg m (x (s.withStack .empty)) fun _ => follow) :
    Realizes cfg m (Assembly.onFreshStack x s) fun inner s' => follow (s'.withStack inner) := by
  unfold Realizes at h ⊢
  rw [onFreshStack_apply]
  cases hx : (x (s.withStack .empty)).result with
  | ok _ =>
    rw [hx] at h
    exact h
  | error e =>
    rw [hx] at h
    exact h

end Realizes

/-! ## Runs of code and visits -/

section Visits

variable (cfg)

/-- The code of a node and what follows it. -/
theorem realizes_run (v : Visit) (sequel : Sequel) (branches : List FlowRef) (pending : List Visit)
    (waiting : List Waiting) : ∀ (ahead : List Instruction) (skip : Nat)
    (behind : List Instruction) (s : Assembly),
    Realizes cfg ⟨s, .run v sequel branches skip behind ahead, pending, waiting⟩
      ((onMachine (Machine.executeFrom cfg v.container skip behind ahead) >>= fun _ =>
        leave cfg v branches sequel) s)
      fun more s => ⟨s, .walk, more ++ pending, waiting⟩
  | [], skip, behind, s => by
    rw [Machine.executeFrom]
    exact .schedule ⟨s, .run v sequel branches skip behind [], pending, waiting⟩ rfl
  | i :: ahead, skip + 1, behind, s => by
    rw [Machine.executeFrom]
    exact (realizes_run v sequel branches pending waiting ahead skip (i :: behind) s).leads
      (.of_step rfl)
  | i :: ahead, 0, behind, s => by
    rw [Machine.executeFrom, onMachine_bind, bind_assoc]
    refine Realizes.bind (Realizes.act
      ⟨s, .run v sequel branches 0 behind (i :: ahead), pending, waiting⟩
      (fun skip m => { m with task := .run v sequel branches skip (i :: behind) ahead })
      rfl fun _ _ => rfl) fun skip _ => ?_
    exact realizes_run v sequel branches pending waiting ahead skip (i :: behind) _

/-- Walks of one budget, before any visits that are left for later. -/
def RealizesWalks (budget : Nat) : Prop :=
  ∀ (visits rest : List Visit) (waiting : List Waiting) (s : Assembly),
    Realizes cfg ⟨s, .walk, visits ++ rest, waiting⟩ (walk cfg budget visits s)
      fun _ s => ⟨s, .walk, rest, waiting⟩

variable {cfg} {budget : Nat}

/-- The conditions of a short circuit and what follows them. -/
theorem realizes_gather (hwalk : RealizesWalks cfg budget) (v : Visit) (op : Connective)
    (branches : List FlowRef) (pending : List Visit) (waiting : List Waiting) :
    ∀ (conditions : List FlowRef) (operands : List NodeId) (s : Assembly),
    Realizes cfg ⟨s, .gather v op branches operands conditions, pending, waiting⟩
      ((conditionOperands (fragment cfg budget v.container) conditions >>= fun more =>
        connect v op branches (operands ++ more)) s)
      fun more s => ⟨s, .walk, more ++ pending, waiting⟩
  | [], operands, s => by
    rw [conditionOperands, pure_bind, List.append_nil]
    exact .schedule ⟨s, .gather v op branches operands [], pending, waiting⟩ rfl
  | condition :: conditions, operands, s => by
    -- the step into the condition, and then the walk that assembles it
    let w : Waiting := ⟨v, op, branches, operands, conditions, s.machine.stack, pending⟩
    have hinner := (hwalk [{ container := v.container, node := condition }] [] (w :: waiting)
      (s.withStack .empty)).onFreshStack
    rw [conditionOperands, bind_assoc]
    refine (Realizes.bind hinner fun inner _ => ?_).leads (.of_step rfl)
    -- the step out of it, with the operand that it has left
    cases hp : inner.popFor "short-circuit condition" with
    | error e =>
      have hstep (s' : Assembly) : step cfg ⟨s'.withStack inner, .walk, [], w :: waiting⟩ =
          ⟨s'.withStack inner, .stopped (.error (.error e)), [], w :: waiting⟩ :=
        resume_of_error hp w waiting
      exact fun _ => ⟨_, .of_step (hstep _), rfl, rfl⟩
    | ok popped =>
      obtain ⟨operand, others⟩ := popped
      have hstep (s' : Assembly) : step cfg ⟨s'.withStack inner, .walk, [], w :: waiting⟩ =
          ⟨s'.withStack (s.machine.stack.append others),
            .gather v op branches (operands ++ [operand]) conditions, pending, waiting⟩ :=
        resume_of_ok hp w waiting
      refine Realizes.leads (.of_step (hstep _)) ?_
      have hrest := realizes_gather hwalk v op branches pending waiting conditions
        (operands ++ [operand])
      simp only [List.append_assoc, List.cons_append, List.nil_append] at hrest
      simp only [bind_assoc, pure_bind]
      exact hrest _

/-- A visit. -/
theorem realizes_visit (hwalk : RealizesWalks cfg budget) (v : Visit) (pending : List Visit)
    (waiting : List Waiting) (s : Assembly) :
    Realizes cfg ⟨s, .walk, v :: pending, waiting⟩ (visit cfg (fragment cfg budget) v s)
      fun more s => ⟨s, .walk, more ++ pending, waiting⟩ := by
  have henter : step cfg ⟨s, .walk, v :: pending, waiting⟩ =
      enter v ⟨s, .walk, pending, waiting⟩ := rfl
  unfold visit
  rw [Machine.bind_quiet (state_apply s)]
  cases hnode : s.graph.get? v.node with
  | none =>
    simp only [enter, hnode] at henter
    exact fun _ => ⟨_, .of_step henter, rfl, rfl⟩
  | some node =>
    simp only [enter, hnode] at henter
    cases hkind : node.kind with
    | block block =>
      simp only [hkind] at henter ⊢
      have hrun := realizes_run cfg v (.finish block.role) node.branches pending waiting block.code
        0 [] s
      exact hrun.leads (.of_step henter)
    | conditional header =>
      simp only [hkind] at henter ⊢
      have hrun := realizes_run cfg v .fork node.branches pending waiting header.code 0 [] s
      exact hrun.leads (.of_step henter)
    | shortCircuit op conditions =>
      simp only [hkind] at henter ⊢
      have hgather := realizes_gather hwalk v op node.branches pending waiting conditions [] s
      exact hgather.leads (.of_step henter)
    | loop kind =>
      simp only [hkind] at henter ⊢
      exact .schedule _ henter
    | switch =>
      simp only [hkind] at henter ⊢
      exact .schedule _ henter

/-- **A walk is made of the moments of a run**, whatever is left for later. -/
theorem realizes_walk (cfg : Settings) (budget : Nat) : RealizesWalks cfg budget := by
  induction budget with
  | zero =>
    intro visits rest waiting s
    cases visits with
    | nil => exact .refl _
    | cons v visits => exact fun h => absurd rfl h
  | succ budget ih =>
    intro visits rest waiting s
    cases visits with
    | nil => exact .refl _
    | cons v visits =>
      rw [walk_succ_cons]
      refine Realizes.bind (realizes_visit ih v (visits ++ rest) waiting s) fun more _ => ?_
      rw [← List.append_assoc]
      exact ih (more ++ visits) rest waiting _

end Visits

/-! ## Whole runs -/

/-- Lifting a graph is assembling its entry into the root. -/
theorem liftGraph_eq_fragment (cfg : Settings) (g : FlowGraph) :
    let o := fragment cfg g.budget Tree.root g.entry { graph := g }
    (liftGraph cfg g).result = o.result.map (fun _ => o.state.machine.tree) ∧
      (liftGraph cfg g).state = o.state.graph := by
  intro o
  have hinto : assembleInto cfg Tree.root g.entry { graph := g } = o := rfl
  unfold liftGraph
  cases ho : o.result with
  | error e =>
    rw [← hinto] at ho
    simp only
    rw [bind_of_error ho, hinto]
    exact ⟨rfl, rfl⟩
  | ok leftover =>
    rw [← hinto] at ho
    simp only
    rw [bind_of_ok ho, hinto]
    cases leftover.isEmpty <;> exact ⟨rfl, rfl⟩

/-- Where the assembly of the entry ends within a budget, the moments stop in the same way. -/
theorem fragment_stops {cfg : Settings} {g : FlowGraph} {budget : Nat}
    (h : (fragment cfg budget Tree.root g.entry).EndsOn { graph := g }) :
    let o := fragment cfg budget Tree.root g.entry { graph := g }
    ∃ n r, (after cfg g n).task = .stopped r ∧
      o.result.map (fun _ => o.state.machine.tree) =
        r.map (fun _ => (after cfg g n).assembly.machine.tree) ∧
      o.state.graph = (after cfg g n).assembly.graph := by
  intro o
  have hwalk : Realizes cfg (start g) o fun leftover s => ⟨s.withStack leftover, .walk, [], []⟩ :=
    Realizes.onFreshStack (fun s => ⟨s, .walk, [], []⟩)
      (realizes_walk cfg budget [{ container := Tree.root, node := g.entry }] [] [] { graph := g })
  unfold Realizes at hwalk
  cases ho : o.result with
  | ok leftover =>
    rw [ho] at hwalk
    obtain ⟨n, hn⟩ := hwalk.trans (.of_step rfl)
    have hafter : after cfg g n = ⟨o.state.withStack leftover, .stopped (.ok ()), [], []⟩ := hn
    exact ⟨n, .ok (), by rw [hafter], by rw [hafter]; rfl, by rw [hafter]; rfl⟩
  | error e =>
    rw [ho] at hwalk
    obtain ⟨m', ⟨n, rfl⟩, htask, hgraph⟩ := hwalk fun he => h (ho.trans (congrArg _ he))
    exact ⟨n, .error e, htask, rfl, hgraph.symm⟩

/-- **Where lifting ends, its moments stop**: with the same result, on the same graph and, if the
result is a tree, with that tree. -/
theorem liftGraph_stops {cfg : Settings} {g : FlowGraph} (h : (liftGraph cfg).EndsOn g) :
    ∃ n r, (after cfg g n).task = .stopped r ∧
      (liftGraph cfg g).result = r.map (fun _ => (after cfg g n).assembly.machine.tree) ∧
      (liftGraph cfg g).state = (after cfg g n).assembly.graph := by
  obtain ⟨hresult, hstate⟩ := liftGraph_eq_fragment cfg g
  rw [hresult, hstate]
  refine fragment_stops fun ho => h ?_
  rw [hresult, ho]
  rfl

end Moment

end GmlLift
