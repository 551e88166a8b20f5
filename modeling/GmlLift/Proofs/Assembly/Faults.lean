import GmlLift.Assembly.Visit
import GmlLift.Proofs.Execution.Faults

/-!
# The faults of constructs

What is done for a node besides running its code fails for want of an operand or of a loop around
it, and a conditional or a loop also for want of a branch. `Branching.needs` says how many branches
a construct cannot do without; a branch that is missing is one of these (`Visit.Lacks`).
-/

namespace GmlLift

open GmlLift.Action GmlLift.Machine

/-- The halt is for want of an operand or of a loop, or it is no error. -/
def Halt.IsOfConstruct : Halt → Prop
  | .error (.missingExpression _) | .error .noEnclosingLoop => True
  | .error (.unsupported _ _ _) | .error (.underflow _) | .error (.missingReference _)
  | .error (.malformedLiteral _ _) | .error (.missingBranch _ _) | .error (.unknownNode _) => False
  | .outOfRange | .endless => True

/-- How many branches a construct cannot do without. -/
def Branching.needs : Branching → Nat
  | .conditional => 2
  | .forLoop => 3
  | .loop => 2

/-- What a loop is called when a branch is missing. -/
def LoopKind.branching : LoopKind → Branching
  | .forLoop => .forLoop
  | .whileLoop | .doUntilLoop | .repeatLoop | .withLoop => .loop

/-- What a node is called when a branch is missing; other nodes need none. -/
def FlowKind.branching? : FlowKind → Option Branching
  | .conditional _ => some .conditional
  | .loop kind => some kind.branching
  | .block _ | .switch | .shortCircuit .. => none

namespace Machine

theorem haltsOnly_popFor (construct : String) :
    HaltsOnly Halt.IsOfConstruct (popFor construct) := by
  constructor
  rintro ⟨t, ⟨items⟩⟩
  cases items <;> trivial

end Machine

namespace Visit

/-! ## Blocks -/

theorem haltsOnly_foldTernary (cfg : Settings) (arm : OpenIf) :
    HaltsOnly Halt.IsOfConstruct (foldTernary cfg arm) := by
  refine .state_bind fun m => ?_
  cases m.tree.get? arm.statement with
  | none => exact .halt trivial
  | some n =>
    obtain ⟨kind, children, duplicated⟩ := n
    cases kind with
    | conditional depth =>
      refine .ite ?_ (.pure ())
      refine (haltsOnly_popFor _).bind fun value => (haltsOnly_append trivial ..).bind fun _ => ?_
      refine .ite ?_ (.pure ())
      exact (haltsOnly_edit trivial _).bind fun _ => (haltsOnly_push _).bind fun _ =>
        haltsOnly_describe trivial trivial ..
    | _ => exact .pure ()

theorem haltsOnly_addStatement (container : NodeId) (kind : Kind) :
    HaltsOnly Halt.IsOfConstruct (addStatement container kind) :=
  (haltsOnly_make ..).bind fun _ => haltsOnly_append trivial ..

theorem haltsOnly_enclosingLoop (v : Visit) : HaltsOnly Halt.IsOfConstruct v.enclosingLoop := by
  unfold enclosingLoop
  cases v.loop with
  | none => exact .halt trivial
  | some statement => exact .pure statement

theorem haltsOnly_markContinued (statement : NodeId) :
    HaltsOnly Halt.IsOfConstruct (markContinued statement) := by
  refine .state_bind fun m => ?_
  cases m.tree.get? statement with
  | none => exact .halt trivial
  | some n =>
    obtain ⟨kind, children, duplicated⟩ := n
    cases kind with
    | whileLoop continued => exact haltsOnly_edit trivial _
    | _ => exact .pure ()

theorem haltsOnly_finishBlock (cfg : Settings) (v : Visit) (role : Role) :
    HaltsOnly Halt.IsOfConstruct (v.finishBlock cfg role) := by
  cases role with
  | breakOut | switchDefault => exact haltsOnly_addStatement ..
  | continueOn =>
    exact (haltsOnly_addStatement ..).bind fun _ => (haltsOnly_enclosingLoop v).bind fun _ =>
      haltsOnly_markContinued _
  | loopCondition =>
    exact (haltsOnly_enclosingLoop v).bind fun _ => (haltsOnly_popFor _).bind fun _ =>
      haltsOnly_append trivial ..
  | switchExpression => exact (haltsOnly_popFor _).bind fun _ => haltsOnly_edit trivial _
  | switchCase =>
    exact (haltsOnly_popFor _).bind fun _ => (haltsOnly_make ..).bind fun _ =>
      haltsOnly_append trivial ..
  | ifCondition | withExpression | repeatExpression => exact .pure ()
  | plain =>
    unfold finishBlock
    cases v.openIf with
    | none => exact .pure ()
    | some arm => exact haltsOnly_foldTernary cfg arm

/-! ## Conditionals, loops and switches -/

/-- **A branch that the construct needs is missing**, or something else than a branch. -/
def Lacks (construct : Branching) (branches : List FlowRef) (h : Halt) : Prop :=
  h.IsOfConstruct ∨ ∃ index, h = .error (.missingBranch construct index) ∧
    branches.length ≤ index ∧ index < construct.needs

variable {branches : List FlowRef} {construct : Branching} {index : Nat}

theorem lacks_missingBranch (hneeds : index < construct.needs)
    (h : branches.length ≤ index) :
    Lacks construct branches (.error (.missingBranch construct index)) :=
  Or.inr ⟨index, rfl, h, hneeds⟩

theorem haltsOnly_branch (hneeds : index < construct.needs) :
    HaltsOnly (Lacks construct branches) (branch branches construct index) := by
  unfold branch
  cases h : branches[index]? with
  | none => exact .halt (lacks_missingBranch hneeds (List.getElem?_eq_none_iff.mp h))
  | some ref => exact .pure ref

theorem haltsOnly_openConditional (v : Visit) (branches : List FlowRef) :
    HaltsOnly (Lacks .conditional branches) (v.openConditional branches) := by
  have hpop : HaltsOnly (Lacks .conditional branches) (popFor "if condition") :=
    (haltsOnly_popFor _).mono fun _ => Or.inl
  have happend (parent child : NodeId) :
      HaltsOnly (Lacks .conditional branches) (append parent child) :=
    haltsOnly_append (Or.inl trivial) parent child
  refine (haltsOnly_branch (by decide)).bind fun _ => (haltsOnly_branch (by decide)).bind fun _ =>
    hpop.bind fun _ => .state_bind fun _ => (haltsOnly_make ..).bind fun _ =>
      (happend ..).bind fun _ => (haltsOnly_make ..).bind fun _ => (happend ..).bind fun _ => ?_
  cases branches[2]? with
  | none => exact .pure _
  | some falseArm => exact (haltsOnly_make ..).bind fun _ => (happend ..).bind fun _ => .pure _

theorem haltsOnly_makeLoop (kind : LoopKind) : HaltsOnly Halt.IsOfConstruct (makeLoop kind) := by
  cases kind with
  | whileLoop | forLoop | doUntilLoop => exact haltsOnly_make ..
  | repeatLoop | withLoop => exact (haltsOnly_popFor _).bind fun _ => haltsOnly_make ..

/-- The body of a loop is always asked for by the same name. -/
theorem haltsOnly_openBody (v : Visit) (statement : NodeId) (branches : List FlowRef) :
    HaltsOnly (Lacks .loop branches) (v.openBody statement branches) :=
  (haltsOnly_make ..).bind fun _ => (haltsOnly_append (Or.inl trivial) ..).bind fun _ =>
    (haltsOnly_append (Or.inl trivial) ..).bind fun _ =>
      (haltsOnly_branch (by decide)).bind fun _ => .pure _

theorem haltsOnly_openLoop (v : Visit) (kind : LoopKind) (branches : List FlowRef) :
    HaltsOnly (Lacks kind.branching branches) (v.openLoop kind branches) := by
  refine ((haltsOnly_makeLoop kind).mono fun _ => Or.inl).bind fun statement => ?_
  cases kind with
  | whileLoop | doUntilLoop | repeatLoop | withLoop =>
    exact (haltsOnly_openBody ..).bind fun _ => (haltsOnly_branch (by decide)).bind fun _ =>
      .pure _
  | forLoop =>
    refine (haltsOnly_branch (by decide)).bind fun condition => ?_
    by_cases hlen : branches.length ≤ 2
    · have hstep : branch branches .forLoop 2 = fail (.missingBranch .forLoop 2) := by
        unfold branch
        rw [List.getElem?_eq_none_iff.mpr hlen]
      rw [hstep]
      exact ⟨fun m => lacks_missingBranch (by decide) hlen⟩
    · -- a loop that has its step has its body as well
      have hbody : HaltsOnly (Lacks .forLoop branches) (v.openBody statement branches) := by
        refine (haltsOnly_openBody v statement branches).mono fun e he => Or.inl ?_
        rcases he with he | ⟨index, -, hle, hlt⟩
        · exact he
        · have hneeds : Branching.loop.needs = 2 := rfl
          omega
      exact (haltsOnly_branch (by decide)).bind fun _ => (haltsOnly_make ..).bind fun _ =>
        (haltsOnly_append (Or.inl trivial) ..).bind fun _ => hbody.bind fun _ => .pure _

theorem haltsOnly_openSwitch (v : Visit) (branches : List FlowRef) :
    HaltsOnly Halt.IsOfConstruct (v.openSwitch branches) :=
  (haltsOnly_make ..).bind fun _ => (haltsOnly_append trivial ..).bind fun _ => .pure _

end Visit

end GmlLift
