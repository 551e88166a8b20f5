import GmlLift.Proofs.Assembly.Course
import GmlLift.Proofs.Execution.Additions
import Mathlib.Control.Monad.Basic

/-!
# Conditionals that become expressions

The arms of a conditional are lifted one after the other, on one stack. An arm that ends with one
value more on the stack than there was before gives this value to the conditional. If both arms do,
the conditional has a value itself: it leaves its container and goes on the stack. If none does, it
stays the last statement of its container.

Here the arms are single blocks. What their code does to the stack is assumed, and what becomes of
the conditional follows: `conditional_arms`. Of the tree nothing is assumed but that the container
is there, since code only adds to it (`Machine.onlyAdds_execute`).
-/

namespace GmlLift

namespace Tree

variable {t t' : Tree} {id : NodeId} {kind : Kind} {children : List NodeId}

/-- The node with the id is of the kind and has the children. -/
def Shows (t : Tree) (id : NodeId) (kind : Kind) (children : List NodeId) : Prop :=
  ∃ n, t.get? id = some n ∧ n.kind = kind ∧ n.children = children

theorem shows_nextId (t : Tree) (kind : Kind) (children : List NodeId) :
    (t.add kind children).Shows t.nextId kind children :=
  ⟨_, t.get?_add_nextId kind children, rfl, rfl⟩

namespace Shows

theorem holds (h : t.Shows id kind children) : t.Holds id := by
  obtain ⟨n, hn, -⟩ := h
  exact holds_of_get? hn

theorem children?_eq (h : t.Shows id kind children) : t.children? id = some children := by
  obtain ⟨n, hn, -, rfl⟩ := h
  unfold children?
  rw [hn]
  rfl

theorem ne_nextId (h : t.Shows id kind children) : id ≠ t.nextId := by
  rintro rfl
  exact t.not_holds_nextId h.holds

/-- Code for another container changes neither kind nor children. -/
theorem growsIn (h : t.Shows id kind children) {container : NodeId}
    (hgrows : t.GrowsIn container t') (hne : id ≠ container) : t'.Shows id kind children := by
  obtain ⟨n, hn, rfl, rfl⟩ := h
  obtain ⟨statements, hx⟩ := hgrows.statements
  obtain ⟨n', hn', hkind, hchildren, -⟩ := hx.kept id n hn
  rw [if_neg hne] at hchildren
  exact ⟨n', hn', hkind, hchildren⟩

theorem add (h : t.Shows id kind children) (other : Kind) (others : List NodeId) :
    (t.add other others).Shows id kind children := by
  have hsame := get?_add_of_lt h.holds other others
  obtain ⟨n, hn, hshown⟩ := h
  exact ⟨n, hsame.trans hn, hshown⟩

theorem update_ne (h : t.Shows id kind children) {other : NodeId} {change : Node → Node}
    (ht : t.update? other change = some t') (hne : id ≠ other) : t'.Shows id kind children := by
  obtain ⟨n, hn, hshown⟩ := h
  refine ⟨n, ?_, hshown⟩
  rw [get?_update? ht, if_neg hne]
  exact hn

theorem appendChild (h : t.Shows id kind children) {child : NodeId}
    (ht : t.appendChild? id child = some t') : t'.Shows id kind (children ++ [child]) := by
  obtain ⟨n, hn, rfl, rfl⟩ := h
  exact ⟨_, (replaces_appendChild? ht hn).new, rfl, rfl⟩

/-- The last child goes, and the other nodes stay. -/
theorem removeChild {child : NodeId} (h : t.Shows id kind (children ++ [child])) :
    ∃ t', (t.removeChild? id child).map (·.2) = some t' ∧ t'.Shows id kind children ∧
      ∀ other kind' children', other ≠ id → t.Shows other kind' children' →
        t'.Shows other kind' children' := by
  obtain ⟨n, hn, rfl, hchildren⟩ := h
  obtain ⟨t', ht'⟩ := removeChild?_of_get? hn child
  have hr := replaces_removeChild? ht' hn
  refine ⟨t', congrArg (Option.map (·.2)) ht', ⟨_, hr.new, rfl, ?_⟩, ?_⟩
  · simp [hchildren, eraseLast]
  · rintro other _ _ hne ⟨m, hm, hshown⟩
    exact ⟨m, (hr.of_ne hne).trans hm, hshown⟩

end Shows

end Tree

/-! ## Opening and folding -/

namespace Machine

/-- A node that is there gets a child, and the others stay. -/
theorem append_shows {t : Tree} {id : NodeId} {kind : Kind} {children : List NodeId}
    (h : t.Shows id kind children) (child : NodeId) (stack : OperandStack) :
    ∃ t', append id child ⟨t, stack⟩ = ⟨.ok (), ⟨t', stack⟩, []⟩ ∧
      t'.Shows id kind (children ++ [child]) ∧ t'.size = t.size ∧
      ∀ other kind' children', other ≠ id → t.Shows other kind' children' →
        t'.Shows other kind' children' := by
  obtain ⟨t', ht'⟩ := Tree.appendChild?_of_holds h.holds child
  exact ⟨t', append_of_some ht', h.appendChild ht', Tree.size_update? ht',
    fun other _ _ hne hother => hother.update_ne ht' hne⟩

/-- **An arm gives its value to the conditional**: the one value that there is on the stack above a
depth. Without exactly one such value nothing happens. -/
inductive Gives (statement : NodeId) (depth : Nat) (m : Machine) : Machine → Prop
  | value {value : NodeId} {rest : OperandStack} {t : Tree} (hstack : m.stack = rest.push value)
      (hdepth : rest.depth = depth) (ht : m.tree.appendChild? statement value = some t) :
      Gives statement depth m ⟨t, rest⟩
  | nothing (h : m.stack.depth ≠ depth + 1) : Gives statement depth m m

/-- The code runs to its end, and the machine changes as told. -/
structure RunsTo (cfg : Settings) (code : List Instruction) (container : NodeId) (m m' : Machine) :
    Prop where
  result : (execute cfg code container m).result = .ok ()
  state : (execute cfg code container m).state = m'

theorem RunsTo.growsIn {cfg : Settings} {code : List Instruction} {container : NodeId}
    {m m' : Machine} (h : RunsTo cfg code container m m') : m.tree.GrowsIn container m'.tree := by
  rw [← h.state]
  exact (onlyAdds_execute cfg code container).grows m

/-- Code adds to the children of its container. -/
theorem RunsTo.shows {cfg : Settings} {code : List Instruction} {container : NodeId}
    {m m' : Machine} (h : RunsTo cfg code container m m') {old : List NodeId}
    (hold : m.tree.children? container = some old) :
    ∃ kind inside, m'.tree.Shows container kind (old ++ inside) := by
  obtain ⟨n, hn, rfl⟩ := Option.map_eq_some_iff.mp hold
  obtain ⟨statements, hx⟩ := h.growsIn.statements
  obtain ⟨n', hn', -, hchildren, -⟩ := hx.kept container n hn
  rw [if_pos rfl] at hchildren
  exact ⟨n'.kind, statements, n', hn', rfl, hchildren⟩

end Machine

namespace Visit

open GmlLift.Action GmlLift.Machine GmlLift.Tree

variable {cfg : Settings} {v : Visit} {t : Tree} {kind : Kind} {inside : List NodeId}

theorem branch_of_getElem? {branches : List FlowRef} {construct : Branching} {index : Nat}
    {ref : FlowRef} (h : branches[index]? = some ref) (m : Machine) :
    branch branches construct index m = ⟨.ok ref, m, []⟩ := by
  unfold branch
  rw [h]
  rfl

/-- The visit of an arm of a conditional that a visit has opened. -/
def armOf (v : Visit) (statement block : NodeId) (node : FlowRef) : Visit :=
  { v with container := block, node, openIf := some ⟨statement, v.container⟩ }

/-- **A conditional with two arms is opened**: three nodes are made, and the container gets the
first of them. -/
theorem openConditional_opens {continuation trueArm falseArm : FlowRef} {base : OperandStack}
    {condition : NodeId} (hcontainer : t.Shows v.container kind inside) :
    let statement : NodeId := ⟨t.size⟩
    let trueBlock : NodeId := ⟨t.size + 1⟩
    let falseBlock : NodeId := ⟨t.size + 2⟩
    ∃ t', v.openConditional [continuation, trueArm, falseArm] ⟨t, base.push condition⟩ =
        ⟨.ok [v.armOf statement trueBlock trueArm, v.armOf statement falseBlock falseArm,
          v.goTo continuation], ⟨t', base⟩, []⟩ ∧
      t'.Shows statement (.conditional base.depth) [condition, trueBlock, falseBlock] ∧
      t'.Shows v.container kind (inside ++ [statement]) := by
  intro statement trueBlock falseBlock
  have hapart : v.container ≠ statement := hcontainer.ne_nextId
  have hmake : make (.conditional base.depth) [condition] ⟨t, base⟩ =
      ⟨.ok statement, ⟨t.add (.conditional base.depth) [condition], base⟩, []⟩ := rfl
  obtain ⟨t₁, happend₁, hcontainer₁, hsize₁, hkept₁⟩ :=
    append_shows (hcontainer.add (.conditional base.depth) [condition]) statement base
  have hstatement₁ :=
    hkept₁ _ _ _ hapart.symm (t.shows_nextId (.conditional base.depth) [condition])
  obtain ⟨t₂, happend₂, hstatement₂, hsize₂, hkept₂⟩ :=
    append_shows (hstatement₁.add .block []) trueBlock base
  have hcontainer₂ := hkept₂ _ _ _ hapart (hcontainer₁.add .block [])
  obtain ⟨t₃, happend₃, hstatement₃, -, hkept₃⟩ :=
    append_shows (hstatement₂.add .block []) falseBlock base
  have hcontainer₃ := hkept₃ _ _ _ hapart (hcontainer₂.add .block [])
  rw [size_add] at hsize₁ hsize₂
  have htrue : t₁.nextId = trueBlock := congrArg NodeId.mk hsize₁
  have hfalse : t₂.nextId = falseBlock := congrArg NodeId.mk (by rw [hsize₂, hsize₁])
  refine ⟨t₃, ?_, hstatement₃, hcontainer₃⟩
  unfold openConditional
  rw [bind_quiet (branch_of_getElem? rfl _), bind_quiet (branch_of_getElem? rfl _),
    bind_quiet (popFor_push ..), bind_quiet (state_apply _), bind_quiet hmake,
    bind_quiet happend₁, bind_quiet (make_apply ..), htrue, bind_quiet happend₂]
  simp only [List.getElem?_cons_succ, List.getElem?_cons_zero]
  rw [bind_quiet (make_apply ..), hfalse, bind_quiet happend₃]
  rfl

/-- A conditional without values gets the value of an arm. -/
theorem foldTernary_gives {arm : OpenIf} {m m' : Machine} {depth : Nat} {children : List NodeId}
    (hstatement : m.tree.Shows arm.statement (.conditional depth) children)
    (hlength : children.length = 3) (h : m.Gives arm.statement depth m') :
    foldTernary cfg arm m = ⟨.ok (), m', []⟩ := by
  obtain ⟨⟨_, _, _⟩, hn, rfl, rfl⟩ := hstatement
  unfold foldTernary
  rw [bind_quiet (state_apply m)]
  simp only [hn]
  cases h with
  | nothing h =>
    rw [if_neg (by simp [h])]
    rfl
  | @value value rest t hstack hdepth ht =>
    obtain ⟨tree, stack⟩ := m
    obtain rfl : stack = rest.push value := hstack
    rw [if_pos (by simp [← hdepth, hlength, OperandStack.depth, OperandStack.push, ternarySize]),
      bind_quiet (popFor_push ..), bind_quiet (append_of_some ht),
      if_neg (by simp [hlength, ternarySize])]
    rfl

/-- **A conditional with one value gets the second one and becomes an expression.** -/
theorem foldTernary_folds (quiet : cfg.verbosity = none) (arm : OpenIf) {depth : Nat}
    {rest : OperandStack} {children : List NodeId} (value : NodeId) (hdepth : rest.depth = depth)
    (hstatement : t.Shows arm.statement (.conditional depth) children)
    (hlength : children.length = 4)
    (hcontainer : t.Shows arm.container kind (inside ++ [arm.statement]))
    (hapart : arm.container ≠ arm.statement) :
    ∃ t', foldTernary cfg arm ⟨t, rest.push value⟩ =
        ⟨.ok (), ⟨t', rest.push arm.statement⟩, []⟩ ∧
      t'.Shows arm.statement (.conditional depth) (children ++ [value]) ∧
      t'.Shows arm.container kind inside := by
  obtain ⟨t₁, happend, hstatement₁, -, hkept⟩ := append_shows hstatement value rest
  obtain ⟨t₂, hremove, hcontainer₂, hkept₂⟩ := (hkept _ _ _ hapart hcontainer).removeChild
  refine ⟨t₂, ?_, hkept₂ _ _ _ hapart.symm hstatement₁, hcontainer₂⟩
  obtain ⟨⟨_, _, _⟩, hget, rfl, rfl⟩ := hstatement
  unfold foldTernary
  rw [bind_quiet (state_apply _)]
  simp only [hget]
  rw [if_pos (by simp [← hdepth, hlength, OperandStack.depth, OperandStack.push, ternarySize]),
    bind_quiet (popFor_push ..), bind_quiet happend, if_pos (by simp [hlength, ternarySize]),
    bind_quiet (edit_of_some (m := ⟨t₁, rest⟩) hremove), bind_quiet (push_apply ..)]
  exact describe_quiet quiet ..

end Visit

/-! ## Visits of the conditional and its arms -/

/-- The node is a block without a part in a construct and without branches. -/
def FlowGraph.PlainBlock (g : FlowGraph) (ref : FlowRef) (code : List Instruction) : Prop :=
  ∃ node, g.get? ref = some node ∧ node.kind = .block ⟨code, .plain⟩ ∧ node.branches = []

namespace Assembly

open GmlLift.Action GmlLift.Machine

variable {cfg : Settings} {v : Visit} {s s' : Assembly} {m : Machine} {next : List Visit}

/-- A visit that does not halt. -/
theorem visits_of_meets {budget : Nat}
    (h : (visit cfg (fragment cfg budget) v).Meets s
      (fun answer after => answer = next ∧ after = s') fun _ => False) :
    Visits cfg budget v s next s' := by
  cases hresult : (visit cfg (fragment cfg budget) v s).result with
  | ok answer =>
    obtain ⟨rfl, hstate⟩ := (meets_of_ok hresult).mp h
    exact ⟨hresult, hstate⟩
  | error e => exact ((meets_of_error hresult).mp h).elim

/-- A conditional is opened once its header has run. -/
theorem visits_conditional {node : FlowNode} {header : Block} {opened : Machine}
    (hnode : s.graph.get? v.node = some node) (hkind : node.kind = .conditional header)
    (hruns : RunsTo cfg header.code v.container s.machine m)
    (hopen : v.openConditional node.branches m = ⟨.ok next, opened, []⟩) :
    Visits cfg 0 v s next { s with machine := opened } := by
  obtain ⟨hheader, rfl⟩ := hruns
  refine visits_of_meets (.of_eq (visit_conditional hnode hkind) ?_)
  refine .bind (Meets.onPart ((meets_of_ok hheader).mpr (Meets.onPart ?_)))
  refine (meets_of_ok (congrArg Outcome.result hopen)).mpr ⟨rfl, ?_⟩
  rw [hopen]

/-- An arm that is a plain block runs its code and gives the conditional its value. -/
theorem visits_arm {code : List Instruction} {arm : OpenIf} {m' : Machine}
    (hblock : s.graph.PlainBlock v.node code) (hopen : v.openIf = some arm)
    (hruns : RunsTo cfg code v.container s.machine m)
    (hfold : Visit.foldTernary cfg arm m = ⟨.ok (), m', []⟩) :
    Visits cfg 0 v s [] { s with machine := m' } := by
  obtain ⟨node, hnode, hkind, hbranches⟩ := hblock
  obtain ⟨hcode, rfl⟩ := hruns
  have hplain : v.finishBlock cfg .plain = Visit.foldTernary cfg arm := by
    rw [Visit.finishBlock, hopen]
  refine visits_of_meets (.of_eq (visit_block hnode hkind) ?_)
  rw [hbranches]
  refine .bind (Meets.onPart ((meets_of_ok hcode).mpr ?_))
  have hfinish : Meets (do
      onMachine (v.finishBlock cfg .plain)
      return v.goOn []) { s with machine := (execute cfg code v.container s.machine).state }
      (fun answer after => answer = [] ∧ after = { s with machine := m' }) fun _ => False := by
    rw [hplain]
    refine .bind (Meets.onPart ((meets_of_ok (congrArg Outcome.result hfold)).mpr ?_))
    rw [hfold]
    exact meets_pure ⟨rfl, rfl⟩
  exact hfinish

end Assembly

/-! ## What becomes of the conditional -/

open GmlLift.Machine GmlLift.Moment GmlLift.Assembly

/-- **Arms with values fold into one expression, other arms leave a statement.**

A conditional with two arms is visited, and each arm is a plain block. The header leaves `condition`
on top of `base`; the code of the true arm leads from there to `afterTrue`, and the code of the
false arm to `afterFalse`, once the conditional has got what the true arm gives. The run comes to
the continuation. If each arm has left the stack one value deeper than `base`, the conditional is
the top of the stack, has the values of both arms behind its blocks, and is not in the container. If
none has, the conditional has three children and is the last statement of the container. -/
theorem conditional_arms {cfg : Settings} (quiet : cfg.verbosity = none) {s : Assembly} {v : Visit}
    {node : FlowNode} {header : Block} {continuation trueArm falseArm : FlowRef}
    {trueCode falseCode : List Instruction} {old : List NodeId} {t : Tree} {base : OperandStack}
    {condition : NodeId} {opened afterTrue between afterFalse : Machine}
    (hnode : s.graph.get? v.node = some node) (hkind : node.kind = .conditional header)
    (hbranches : node.branches = [continuation, trueArm, falseArm])
    (htrueArm : s.graph.PlainBlock trueArm trueCode)
    (hfalseArm : s.graph.PlainBlock falseArm falseCode)
    (hold : s.machine.tree.children? v.container = some old)
    (hheader : RunsTo cfg header.code v.container s.machine ⟨t, base.push condition⟩)
    (hopened : (v.openConditional node.branches ⟨t, base.push condition⟩).state = opened)
    (htrue : RunsTo cfg trueCode ⟨t.size + 1⟩ opened afterTrue)
    (hgives : afterTrue.Gives ⟨t.size⟩ base.depth between)
    (hfalse : RunsTo cfg falseCode ⟨t.size + 2⟩ between afterFalse)
    (pending : List Visit) (waiting : List Waiting) :
    let statement : NodeId := ⟨t.size⟩
    let trueBlock : NodeId := ⟨t.size + 1⟩
    let falseBlock : NodeId := ⟨t.size + 2⟩
    ∃ kind inside, t.Shows v.container kind (old ++ inside) ∧
      (afterTrue.stack.depth = base.depth + 1 → afterFalse.stack.depth = base.depth + 1 →
        ∃ (rest₁ rest₂ : OperandStack) (value₁ value₂ : NodeId) (t' : Tree),
          afterTrue.stack = rest₁.push value₁ ∧ afterFalse.stack = rest₂.push value₂ ∧
          Leads cfg ⟨s, .walk, v :: pending, waiting⟩
            ⟨{ s with machine := ⟨t', rest₂.push statement⟩ }, .walk,
              v.goTo continuation :: pending, waiting⟩ ∧
          t'.Shows statement (.conditional base.depth)
            [condition, trueBlock, falseBlock, value₁, value₂] ∧
          t'.Shows v.container kind (old ++ inside)) ∧
      (afterTrue.stack.depth ≠ base.depth + 1 → afterFalse.stack.depth ≠ base.depth + 1 →
        ∃ t', Leads cfg ⟨s, .walk, v :: pending, waiting⟩
            ⟨{ s with machine := ⟨t', afterFalse.stack⟩ }, .walk,
              v.goTo continuation :: pending, waiting⟩ ∧
          t'.Shows statement (.conditional base.depth) [condition, trueBlock, falseBlock] ∧
          t'.Shows v.container kind (old ++ inside ++ [statement])) := by
  intro statement trueBlock falseBlock
  rw [hbranches] at hopened
  obtain ⟨kind, inside, hcontainer⟩ : ∃ kind inside, t.Shows v.container kind (old ++ inside) :=
    hheader.shows hold
  obtain ⟨t₁, hopen, hstatement₁, hcontainer₁⟩ := v.openConditional_opens hcontainer
  obtain rfl : (⟨t₁, base⟩ : Machine) = opened := (congrArg Outcome.state hopen).symm.trans hopened
  -- The blocks are made after the container and the statement.
  have hfresh (id : NodeId) (h : id.index ≤ t.size) : id ≠ trueBlock ∧ id ≠ falseBlock := by
    refine ⟨fun heq => ?_, fun heq => ?_⟩ <;> rw [heq] at h
    · exact Nat.not_succ_le_self t.size h
    · exact Nat.not_succ_le_self t.size (Nat.le_of_succ_le h)
  have hstatement := hfresh statement (Nat.le_refl t.size)
  have hheld := hfresh v.container (Nat.le_of_lt hcontainer.holds)
  have hapart : v.container ≠ statement := hcontainer.ne_nextId
  have hstatement₂ := hstatement₁.growsIn htrue.growsIn hstatement.1
  have hcontainer₂ := hcontainer₁.growsIn htrue.growsIn hheld.1
  have hvisits := visits_conditional hnode hkind hheader (hbranches ▸ hopen)
  have hvisitsTrue : Visits cfg 0 (v.armOf statement trueBlock trueArm)
      { s with machine := ⟨t₁, base⟩ } [] { s with machine := between } :=
    visits_arm htrueArm rfl htrue (Visit.foldTernary_gives hstatement₂ rfl hgives)
  have hleads (m : Machine) (hfold : Visit.foldTernary cfg ⟨statement, v.container⟩ afterFalse =
      ⟨.ok (), m, []⟩) : Leads cfg ⟨s, .walk, v :: pending, waiting⟩
        ⟨{ s with machine := m }, .walk, v.goTo continuation :: pending, waiting⟩ := by
    have hvisitsFalse : Visits cfg 0 (v.armOf statement falseBlock falseArm)
        { s with machine := between } [] { s with machine := m } :=
      visits_arm hfalseArm rfl hfalse hfold
    exact (hvisits.leads pending waiting).trans
      ((hvisitsTrue.leads _ waiting).trans (hvisitsFalse.leads _ waiting))
  refine ⟨kind, inside, hcontainer, ?_, ?_⟩
  · intro hdepth₁ hdepth₂
    cases hgives with
    | nothing h => exact absurd hdepth₁ h
    | @value value₁ rest₁ t₂ hstack₁ hrest₁ ht₂ =>
      have hstatement₃ := (hstatement₂.appendChild ht₂).growsIn hfalse.growsIn hstatement.2
      have hcontainer₃ := (hcontainer₂.update_ne ht₂ hapart).growsIn hfalse.growsIn hheld.2
      obtain ⟨t₃, ⟨items⟩⟩ := afterFalse
      cases items with
      | nil => cases hdepth₂
      | cons value₂ rest₂ =>
        have hrest₂ : OperandStack.depth ⟨rest₂⟩ = base.depth := Nat.succ.inj hdepth₂
        obtain ⟨t', hfold, hstatement', hcontainer'⟩ := Visit.foldTernary_folds quiet
          ⟨statement, v.container⟩ value₂ hrest₂ hstatement₃ rfl hcontainer₃ hapart
        exact ⟨rest₁, ⟨rest₂⟩, value₁, value₂, t', hstack₁, rfl, hleads _ hfold, hstatement',
          hcontainer'⟩
  · intro hdepth₁ hdepth₂
    cases hgives with
    | value hstack hrest =>
      refine absurd ?_ hdepth₁
      rw [hstack, ← hrest]
      rfl
    | nothing =>
      have hstatement₃ := hstatement₂.growsIn hfalse.growsIn hstatement.2
      exact ⟨_, hleads _ (Visit.foldTernary_gives hstatement₃ rfl (.nothing hdepth₂)), hstatement₃,
        hcontainer₂.growsIn hfalse.growsIn hheld.2⟩

/-- Above another value, a conditional whose arms are the numbers 5 and 6. -/
theorem conditional_arms_numbers :
    let push (n : Int32) : Instruction :=
      { opcode := .push, type1 := .int32, literal := some (.int32 n) }
    let g : FlowGraph := {
      nodes := #[
        { kind := .conditional ⟨[push 9, push 0], .plain⟩, branches := [⟨1⟩, ⟨2⟩, ⟨3⟩] },
        { kind := .block {} },
        { kind := .block ⟨[push 5], .plain⟩ },
        { kind := .block ⟨[push 6], .plain⟩ }]
      entry := ⟨0⟩ }
    let s : Assembly := { graph := g }
    let v : Visit := { container := Tree.root, node := ⟨0⟩ }
    ∃ t, Leads {} ⟨s, .walk, [v], []⟩
        ⟨{ s with machine := ⟨t, ⟨[⟨3⟩, ⟨1⟩]⟩⟩ }, .walk, [v.goTo ⟨1⟩], []⟩ ∧
      t.Shows ⟨3⟩ (.conditional 1) [⟨2⟩, ⟨4⟩, ⟨5⟩, ⟨6⟩, ⟨7⟩] ∧ t.children? Tree.root = some [] := by
  intro push g s v
  let t : Tree := (Tree.new.add (.int32 9) []).add (.int32 0) []
  let base : OperandStack := ⟨[⟨1⟩]⟩
  let tree (children : List NodeId) (values : List Node) : Tree :=
    ⟨List.toArray ({ kind := .block, children := [⟨3⟩] } :: { kind := .int32 9 } ::
      { kind := .int32 0 } :: { kind := .conditional 1, children } :: { kind := .block } ::
      { kind := .block } :: values)⟩
  let opened : Machine := ⟨tree [⟨2⟩, ⟨4⟩, ⟨5⟩] [], base⟩
  let afterTrue : Machine := ⟨tree [⟨2⟩, ⟨4⟩, ⟨5⟩] [{ kind := .int32 5 }], base.push ⟨6⟩⟩
  let between : Machine := ⟨tree [⟨2⟩, ⟨4⟩, ⟨5⟩, ⟨6⟩] [{ kind := .int32 5 }], base⟩
  let afterFalse : Machine :=
    ⟨tree [⟨2⟩, ⟨4⟩, ⟨5⟩, ⟨6⟩] [{ kind := .int32 5 }, { kind := .int32 6 }], base.push ⟨7⟩⟩
  have hnode : s.graph.get? v.node =
      some { kind := .conditional ⟨[push 9, push 0], .plain⟩, branches := [⟨1⟩, ⟨2⟩, ⟨3⟩] } := rfl
  have hheader : RunsTo {} [push 9, push 0] v.container s.machine ⟨t, base.push ⟨2⟩⟩ :=
    ⟨by decide +kernel, by decide +kernel⟩
  have hopened : (v.openConditional [⟨1⟩, ⟨2⟩, ⟨3⟩] ⟨t, base.push ⟨2⟩⟩).state = opened := by
    decide +kernel
  have htrue : RunsTo {} [push 5] ⟨4⟩ opened afterTrue := ⟨by decide +kernel, by decide +kernel⟩
  have hgives : afterTrue.Gives ⟨3⟩ base.depth between := .value rfl rfl (by decide +kernel)
  have hfalse : RunsTo {} [push 6] ⟨5⟩ between afterFalse := ⟨by decide +kernel, by decide +kernel⟩
  obtain ⟨kind, inside, ⟨n, hn, -, hinside⟩, hfolds, -⟩ := conditional_arms rfl hnode rfl rfl
    ⟨_, rfl, rfl, rfl⟩ ⟨_, rfl, rfl, rfl⟩ rfl hheader hopened htrue hgives hfalse [] []
  obtain ⟨rest₁, rest₂, value₁, value₂, t', hstack₁, hstack₂, hleads, hstatement, hcontainer⟩ :=
    hfolds rfl rfl
  obtain rfl : ({ kind := .block } : Node) = n := Option.some.inj hn
  obtain rfl : [] = inside := hinside
  obtain ⟨rfl, -⟩ : (⟨6⟩ : NodeId) = value₁ ∧ _ := List.cons.inj (congrArg (·.items) hstack₁)
  obtain ⟨rfl, hrest⟩ : (⟨7⟩ : NodeId) = value₂ ∧ _ := List.cons.inj (congrArg (·.items) hstack₂)
  obtain rfl : base = rest₂ := congrArg OperandStack.mk hrest
  exact ⟨t', hleads, hstatement, hcontainer.children?_eq⟩

end GmlLift
