import GmlLift.Proofs.Assembly.Course
import GmlLift.Proofs.Assembly.Folding
import GmlLift.Proofs.Tree.Conditionals

/-!
# What visits do to conditionals

A visit has nodes to which it adds: its container, its loop and the container of its conditional.
None of them is a conditional (`Visit.Apart`). So only one conditional is touched, the one whose arm
the visit is in (`Visit.Feeds`): the end of a block may give it a value. A visit of a conditional
opens a new one, for its own arms. `Visits.effect` says all that a visit can do.
-/

namespace GmlLift

open GmlLift.Action

namespace Machine

variable {own : NodeId → Prop} {α β : Type} {m : Machine}

/-- The action serves the conditionals, if it answers, and its answer is as wanted. -/
def Serves (own : NodeId → Prop) (x : Action Machine α) (m : Machine) (answer : α → Tree → Prop) :
    Prop :=
  x.Meets m (fun a m' => m.tree.Serves own m'.tree ∧ answer a m'.tree) fun _ => True

namespace Serves

variable {x : Action Machine α} {f : α → Action Machine β} {a : α} {answer : α → Tree → Prop}
  {answer' : β → Tree → Prop}

protected theorem pure (h : answer a m.tree) : Serves own (pure a) m answer := ⟨.refl own _, h⟩

/-- **One action after the other.** -/
protected theorem bind (hx : Serves own x m answer)
    (hf : ∀ a m', m.tree.Serves own m'.tree → answer a m'.tree → Serves own (f a) m' answer') :
    Serves own (x >>= f) m answer' := by
  refine Meets.bind (hx.imp ?_)
  rintro a m' ⟨hserves, ha⟩
  refine (hf a m' hserves ha).imp ?_
  rintro b m'' ⟨hserves', hb⟩
  exact ⟨hserves.trans hserves', hb⟩

theorem state_bind {f : Machine → Action Machine β} (h : Serves own (f m) m answer') :
    Serves own (state >>= f) m answer' :=
  Meets.bind (meets_state h)

theorem branch_bind {branches : List FlowRef} {construct : Branching} {index : Nat}
    {f : FlowRef → Action Machine β} (h : ∀ node, Serves own (f node) m answer') :
    Serves own (Visit.branch branches construct index >>= f) m answer' :=
  Meets.bind (Visit.meets_branch trivial fun node _ => h node)

end Serves

theorem serves_make {kind : Kind} (children : List NodeId) (h : kind.sort ≠ .conditional) :
    Serves own (make kind children) m fun id t => t.Unconditional id := by
  obtain ⟨t, stack⟩ := m
  exact meets_make ⟨t.serves_add own children h,
    Tree.unconditional_of_get? (t.get?_add_nextId kind children) h⟩

theorem serves_popFor (construct : String) :
    Serves own (popFor construct) m fun _ t => t = m.tree := by
  obtain ⟨t, stack⟩ := m
  exact meets_popFor_any fun _ _ _ => ⟨.refl own t, rfl⟩

theorem serves_push (id : NodeId) : Serves own (push id) m fun _ _ => True :=
  ⟨.refl own _, trivial⟩

/-- A change of the tree, if it can be made. -/
theorem serves_edit {f : Tree → Option Tree}
    (h : ∀ t', f m.tree = some t' → m.tree.Serves own t') :
    Serves own (edit f) m fun _ _ => True := by
  obtain ⟨t, stack⟩ := m
  exact meets_edit_any fun t' hf => ⟨h t' hf, trivial⟩

theorem serves_append {parent : NodeId} (child : NodeId) (h : m.tree.Unconditional parent) :
    Serves own (append parent child) m fun _ _ => True := by
  refine serves_edit fun t' ht' => ?_
  obtain ⟨n, hn⟩ := Tree.get?_of_holds h.1
  exact (Tree.replaces_appendChild? ht' hn).serves own h rfl

theorem serves_describe (cfg : Settings) (level : Level) (id : NodeId) (line : String → String) :
    Serves own (describe cfg level id line) m fun _ _ => True := by
  have hstate : (describe cfg level id line m).state = m := by
    unfold describe
    split
    · split <;> rfl
    · rfl
  refine (meets_self _ m).imp ?_
  rintro _ m' ⟨-, rfl⟩
  rw [hstate]
  exact ⟨.refl own _, trivial⟩

theorem serves_pushNew (own : NodeId → Prop) {kind : Kind} (children : List NodeId)
    (h : kind.sort ≠ .conditional) : Serves own (pushNew kind children) m fun _ _ => True :=
  (serves_make children h).bind fun _ _ _ _ => serves_push _

theorem serves_execute (own : NodeId → Prop) (cfg : Settings) (code : List Instruction)
    {container : NodeId} (h : m.tree.Unconditional container) :
    Serves own (execute cfg code container) m fun _ _ => True := by
  refine (meets_self _ m).imp ?_
  rintro _ m' ⟨-, rfl⟩
  exact ⟨((onlyAdds_execute cfg code container).grows m).serves own h, trivial⟩

end Machine

namespace Visit

open GmlLift.Machine

variable {own : NodeId → Prop} {cfg : Settings} {m : Machine} {t t' : Tree} {v : Visit}

/-- What the visit adds to is no conditional. -/
structure Apart (t : Tree) (v : Visit) : Prop where
  container : t.Unconditional v.container
  loop : ∀ statement, v.loop = some statement → t.Unconditional statement
  openIf : ∀ arm, v.openIf = some arm → t.Holds arm.statement ∧ t.Unconditional arm.container

/-- The visit is in an arm of the conditional. -/
def Feeds (v : Visit) (statement : NodeId) : Prop :=
  ∃ arm, v.openIf = some arm ∧ arm.statement = statement

namespace Apart

theorem later (h : v.Apart t) (hx : t.Develops own t') : v.Apart t' where
  container := hx.unconditional h.container
  loop statement hs := hx.unconditional (h.loop statement hs)
  openIf arm ha := ⟨hx.holds (h.openIf arm ha).1, hx.unconditional (h.openIf arm ha).2⟩

theorem goTo (h : v.Apart t) (node : FlowRef) : (v.goTo node).Apart t :=
  ⟨h.container, h.loop, h.openIf⟩

/-- The same visit with another container. -/
theorem into (h : v.Apart t) {block : NodeId} (hblock : t.Unconditional block) (node : FlowRef) :
    ({ v.goTo node with container := block } : Visit).Apart t :=
  ⟨hblock, h.loop, h.openIf⟩

theorem holds_of_feeds (h : v.Apart t) {statement : NodeId} (hs : v.Feeds statement) :
    t.Holds statement := by
  obtain ⟨arm, ha, rfl⟩ := hs
  exact (h.openIf arm ha).1

end Apart

/-- A visit outside of loops and arms. -/
theorem apart_of_container {container : NodeId} (h : t.Unconditional container) (node : FlowRef) :
    ({ container, node } : Visit).Apart t :=
  ⟨h, nofun, nofun⟩

/-- The visits that are called for are apart from conditionals, and in the same arm. -/
def Calls (v : Visit) (next : List Visit) (t : Tree) : Prop :=
  ∀ w ∈ next, w.Apart t ∧ w.openIf = v.openIf

theorem calls_goOn (hv : v.Apart t) (branches : List FlowRef) : v.Calls (v.goOn branches) t := by
  intro w hw
  cases branches with
  | nil => cases hw
  | cons node rest =>
    rw [List.mem_singleton.mp hw]
    exact ⟨hv.goTo node, rfl⟩

/-! ## Blocks -/

theorem serves_addStatement {container : NodeId} {kind : Kind} (hsort : kind.sort ≠ .conditional)
    (hcontainer : m.tree.Unconditional container) :
    Serves own (addStatement container kind) m fun _ _ => True :=
  (serves_make [] hsort).bind fun id _ hx _ => serves_append id (hx.unconditional hcontainer)

theorem serves_enclosingLoop (hv : v.Apart m.tree) :
    Serves own v.enclosingLoop m fun id t => t.Unconditional id := by
  unfold enclosingLoop
  cases hloop : v.loop with
  | none => trivial
  | some statement => exact .pure (hv.loop statement hloop)

theorem serves_markContinued (statement : NodeId) :
    Serves own (markContinued statement) m fun _ _ => True := by
  refine .state_bind ?_
  cases hn : m.tree.get? statement with
  | none => trivial
  | some n =>
    obtain ⟨kind, children, duplicated⟩ := n
    cases kind with
    | whileLoop continued =>
      have hloop := Tree.unconditional_of_get? hn (by nofun)
      exact serves_edit fun t' ht' => (Tree.replaces_update? ht' hn).serves own hloop rfl
    | _ => exact Serves.pure trivial

/-- **An arm gives its conditional a value**, if it has one to give. -/
theorem serves_foldTernary {arm : OpenIf} (hown : own arm.statement)
    (hcontainer : m.tree.Unconditional arm.container) :
    Serves own (foldTernary cfg arm) m fun _ _ => True := by
  refine .state_bind ?_
  cases hn : m.tree.get? arm.statement with
  | none => trivial
  | some n =>
    obtain ⟨kind, children, duplicated⟩ := n
    cases kind with
    | conditional depth =>
      simp only
      split
      · rename_i hroom
        simp only [Bool.and_eq_true, decide_eq_true_eq] at hroom
        refine (serves_popFor _).bind fun value m₁ hx₁ htree => ?_
        rw [← htree] at hn
        have hvalue : Serves own (append arm.statement value) m₁ fun _ _ => True :=
          serves_edit fun t' ht' =>
            (Tree.replaces_appendChild? ht' hn).serves_value hown hroom.1.2
        refine hvalue.bind fun _ m₂ hx₂ _ => ?_
        split
        · have hremove : Serves own (edit fun t =>
              (t.removeChild? arm.container arm.statement).map (·.2)) m₂ fun _ _ => True := by
            refine serves_edit fun t' ht' => ?_
            have hcontainer₂ := hx₂.unconditional (hx₁.unconditional hcontainer)
            obtain ⟨n, hn⟩ := Tree.get?_of_holds hcontainer₂.1
            obtain ⟨⟨found, _⟩, hfound, rfl⟩ := Option.map_eq_some_iff.mp ht'
            exact (Tree.replaces_removeChild? hfound hn).serves own hcontainer₂ rfl
          refine hremove.bind fun _ m₃ _ _ => (serves_push _).bind fun _ m₄ _ _ => ?_
          exact serves_describe ..
        · exact .pure trivial
      · exact .pure trivial
    | _ => exact Serves.pure trivial

theorem serves_finishBlock (hv : v.Apart m.tree) (role : Role) :
    Serves v.Feeds (v.finishBlock cfg role) m fun _ _ => True := by
  cases role with
  | breakOut | switchDefault => exact serves_addStatement (by decide) hv.container
  | continueOn =>
    refine (serves_addStatement (by decide) hv.container).bind fun _ m₁ hx₁ _ => ?_
    refine (serves_enclosingLoop (hv.later hx₁.toDevelops)).bind fun statement m₂ _ _ => ?_
    exact serves_markContinued statement
  | loopCondition =>
    refine (serves_enclosingLoop hv).bind fun statement m₁ _ hstatement => ?_
    refine (serves_popFor _).bind fun condition m₂ hx₂ _ => ?_
    exact serves_append condition (hx₂.unconditional hstatement)
  | switchExpression =>
    refine (serves_popFor _).bind fun expression m₁ hx₁ _ => serves_edit fun t' ht' => ?_
    have hcontainer := hx₁.unconditional hv.container
    obtain ⟨n, hn⟩ := Tree.get?_of_holds hcontainer.1
    exact (Tree.replaces_insertChild? ht' hn).serves _ hcontainer rfl
  | switchCase =>
    refine (serves_popFor _).bind fun expression m₁ hx₁ _ => ?_
    refine (serves_make [expression] (by decide)).bind fun statement m₂ hx₂ _ => ?_
    exact serves_append statement (hx₂.unconditional (hx₁.unconditional hv.container))
  | ifCondition | withExpression | repeatExpression => exact .pure trivial
  | plain =>
    unfold finishBlock
    cases hopen : v.openIf with
    | none => exact .pure trivial
    | some arm => exact serves_foldTernary ⟨arm, hopen, rfl⟩ (hv.openIf arm hopen).2

/-! ## Loops and switches -/

theorem serves_makeLoop (kind : LoopKind) :
    Serves own (makeLoop kind) m fun id t => t.Unconditional id := by
  cases kind with
  | whileLoop | forLoop | doUntilLoop => exact serves_make [] (by decide)
  | repeatLoop | withLoop => exact (serves_popFor _).bind fun _ _ _ _ => serves_make _ (by decide)

theorem serves_openBody (hv : v.Apart m.tree) {statement : NodeId}
    (hs : m.tree.Unconditional statement) (branches : List FlowRef) :
    Serves own (v.openBody statement branches) m fun w t => w.Apart t ∧ w.openIf = v.openIf := by
  refine (serves_make [] (by decide)).bind fun body m₁ hx₁ hbody => ?_
  refine (serves_append body (hx₁.unconditional hs)).bind fun _ m₂ hx₂ _ => ?_
  have hv₂ := hv.later (hx₁.trans hx₂).toDevelops
  refine (serves_append statement hv₂.container).bind fun _ m₃ hx₃ _ => ?_
  have hs₃ := hx₃.unconditional (hx₂.unconditional (hx₁.unconditional hs))
  refine .branch_bind fun node => .pure ⟨⟨?_, ?_, (hv₂.later hx₃.toDevelops).openIf⟩, rfl⟩
  · exact hx₃.unconditional (hx₂.unconditional hbody)
  · rintro _ ⟨rfl⟩
    exact hs₃

theorem serves_openLoop (hv : v.Apart m.tree) (kind : LoopKind) (branches : List FlowRef) :
    Serves v.Feeds (v.openLoop kind branches) m v.Calls := by
  refine (serves_makeLoop kind).bind fun statement m₁ hx₁ hs₁ => ?_
  have hv₁ := hv.later hx₁.toDevelops
  have hother : Serves v.Feeds (do
      let body ← v.openBody statement branches
      let continuation ← branch branches .loop 0
      return [body, v.goTo continuation]) m₁ v.Calls := by
    refine (serves_openBody hv₁ hs₁ branches).bind fun body m₂ hx₂ hbody => ?_
    refine .branch_bind fun continuation => .pure ?_
    have hv₂ := hv₁.later hx₂.toDevelops
    exact List.forall_mem_cons.mpr ⟨hbody, List.forall_mem_singleton.mpr ⟨hv₂.goTo _, rfl⟩⟩
  cases kind with
  | whileLoop | doUntilLoop | repeatLoop | withLoop => exact hother
  | forLoop =>
    refine .branch_bind fun condition => .branch_bind fun step => ?_
    refine (serves_make [] (by decide)).bind fun stepBlock m₂ hx₂ hstep => ?_
    have hs₂ := hx₂.unconditional hs₁
    refine (serves_append stepBlock hs₂).bind fun _ m₃ hx₃ _ => ?_
    have hv₃ := hv₁.later (hx₂.trans hx₃).toDevelops
    have hs₃ := hx₃.unconditional hs₂
    refine (serves_openBody hv₃ hs₃ branches).bind fun body m₄ hx₄ hbody => .pure ?_
    have hv₄ := hv₃.later hx₄.toDevelops
    have hstep₄ := hx₄.unconditional (hx₃.unconditional hstep)
    simp only [Calls, List.forall_mem_cons]
    refine ⟨hbody, ⟨hv₄.into hstep₄ step, rfl⟩, ⟨⟨hv₄.container, ?_, hv₄.openIf⟩, rfl⟩, nofun⟩
    rintro _ ⟨rfl⟩
    exact hx₄.unconditional hs₃

theorem serves_openSwitch (hv : v.Apart m.tree) (branches : List FlowRef) :
    Serves v.Feeds (v.openSwitch branches) m v.Calls := by
  refine (serves_make [] (by decide)).bind fun statement m₁ hx₁ hs₁ => ?_
  refine (serves_append statement (hx₁.unconditional hv.container)).bind fun _ m₂ hx₂ _ => ?_
  have hv₂ := hv.later (hx₁.trans hx₂).toDevelops
  refine .pure fun w hw => ?_
  rcases List.mem_append.mp hw with hw | hw
  · obtain ⟨node, -, rfl⟩ := List.mem_map.mp hw
    exact ⟨hv₂.into (hx₂.unconditional hs₁) node, rfl⟩
  · exact calls_goOn hv₂ branches w hw

/-! ## Conditionals -/

/-- The arms of a conditional that a visit opens, and the children that it has then. -/
inductive Forks (v : Visit) (branches : List FlowRef) (statement : NodeId) :
    List Visit → List NodeId → Prop
  | one {condition trueBlock : NodeId} {trueArm continuation : FlowRef}
      (htrue : branches[1]? = some trueArm) :
      Forks v branches statement [v.armOf statement trueBlock trueArm, v.goTo continuation]
        [condition, trueBlock]
  | two {condition trueBlock falseBlock : NodeId} {trueArm falseArm continuation : FlowRef}
      (htrue : branches[1]? = some trueArm) (hfalse : branches[2]? = some falseArm) :
      Forks v branches statement
        [v.armOf statement trueBlock trueArm, v.armOf statement falseBlock falseArm,
          v.goTo continuation] [condition, trueBlock, falseBlock]

/-- The arms feed the new conditional, and the continuation feeds what the visit feeds. -/
theorem Forks.feeds {branches : List FlowRef} {statement id : NodeId} {next : List Visit}
    {children : List NodeId} (h : v.Forks branches statement next children) {w : Visit}
    (hw : w ∈ next) (hfeeds : w.Feeds id) : v.Feeds id ∨ id = statement := by
  have harm {block : NodeId} {node : FlowRef} (h : (v.armOf statement block node).Feeds id) :
      id = statement := by
    obtain ⟨_, ⟨rfl⟩, rfl⟩ := h
    rfl
  cases h with
  | one htrue =>
    simp only [List.mem_cons, List.not_mem_nil, or_false] at hw
    rcases hw with rfl | rfl
    · exact .inr (harm hfeeds)
    · exact .inl hfeeds
  | two htrue hfalse =>
    simp only [List.mem_cons, List.not_mem_nil, or_false] at hw
    rcases hw with rfl | rfl | rfl
    · exact .inr (harm hfeeds)
    · exact .inr (harm hfeeds)
    · exact .inl hfeeds

/-- An arm is apart from conditionals, as the visit is that opens it. -/
theorem Apart.armOf (h : v.Apart t) {statement block : NodeId} (hs : t.Holds statement)
    (hblock : t.Unconditional block) (node : FlowRef) : (v.armOf statement block node).Apart t where
  container := hblock
  loop := h.loop
  openIf := by
    rintro _ ⟨rfl⟩
    exact ⟨hs, h.container⟩

/-- A conditional that is being opened gets a block. -/
theorem meets_openBlock {t : Tree} {stack : OperandStack} {statement : NodeId}
    {children : List NodeId} {α : Type} {f : NodeId → Action Machine α}
    {post : α → Machine → Prop} (hopens : t.Opens t' statement children)
    (h : ∀ block t'', t.Opens t'' statement (children ++ [block]) → t''.Unconditional block →
      (∀ id, t'.Unconditional id → t''.Unconditional id) →
      (f block).Meets ⟨t'', stack⟩ post fun _ => True) :
    (make .block >>= fun block => append statement block >>= fun _ => f block).Meets ⟨t', stack⟩
      post fun _ => True := by
  refine .bind (meets_make (.bind (meets_append_any fun t'' ht'' => ?_)))
  have hx := t'.serves_add (fun _ => False) [] (by decide : Kind.block.sort ≠ .conditional)
  have hopens' := hopens.serves hx
  have hblock := Tree.unconditional_of_get? (t'.get?_add_nextId .block []) (by decide)
  refine h t'.nextId t'' (hopens'.append ht'') (hopens'.unconditional_append ht'' hblock) ?_
  exact fun id hid => hopens'.unconditional_append ht'' (hx.unconditional hid)

/-- **A visit opens a conditional**, and calls for its arms. -/
theorem openConditional_forks (hv : v.Apart m.tree) (branches : List FlowRef) :
    (v.openConditional branches).Meets m (fun next m' => ∃ statement children,
      m.tree.Opens m'.tree statement children ∧ v.Forks branches statement next children ∧
      ∀ w ∈ next, w.Apart m'.tree) fun _ => True := by
  obtain ⟨t, stack⟩ := m
  refine .bind (meets_branch trivial fun continuation _ => ?_)
  refine .bind (meets_branch trivial fun trueArm htrue => ?_)
  refine .bind (meets_popFor_any fun condition rest _ => ?_)
  refine .bind (meets_state (.bind (meets_make (.bind (meets_append_any fun t₁ ht₁ => ?_)))))
  have hopens : t.Opens t₁ t.nextId [condition] := by
    have hadd := t.opens_add rest.depth [condition]
    have hcontainer := (hadd.develops fun _ => False).unconditional hv.container
    obtain ⟨n, hn⟩ := Tree.get?_of_holds hcontainer.1
    exact hadd.serves ((Tree.replaces_appendChild? ht₁ hn).serves _ hcontainer rfl)
  refine meets_openBlock hopens fun trueBlock t₂ hopens₂ htrueBlock _ => ?_
  cases hfalse : branches[2]? with
  | none =>
    have hv₂ := hv.later (hopens₂.develops fun _ => False)
    refine meets_pure ⟨_, _, hopens₂, .one htrue, ?_⟩
    exact List.forall_mem_cons.mpr ⟨hv₂.armOf hopens₂.holds htrueBlock trueArm,
      List.forall_mem_singleton.mpr (hv₂.goTo continuation)⟩
  | some falseArm =>
    refine meets_openBlock hopens₂ fun falseBlock t₃ hopens₃ hfalseBlock hkept => ?_
    have hv₃ := hv.later (hopens₃.develops fun _ => False)
    refine meets_pure ⟨_, _, hopens₃, .two htrue hfalse, ?_⟩
    simp only [List.forall_mem_cons]
    exact ⟨hv₃.armOf hopens₃.holds (hkept trueBlock htrueBlock) trueArm,
      hv₃.armOf hopens₃.holds hfalseBlock falseArm, hv₃.goTo continuation, nofun⟩

end Visit

/-! ## All that a visit can do -/

namespace Assembly

open GmlLift.Machine

variable {cfg : Settings} {budget : Nat} {v : Visit} {s s' : Assembly} {next pending : List Visit}

/-- **What a visit does to the conditionals.** -/
inductive Effect (cfg : Settings) (budget : Nat) (v : Visit) (s : Assembly) (next : List Visit)
    (s' : Assembly) : Prop
  /-- It serves the one that it feeds. -/
  | serves (hserves : s.machine.tree.Serves v.Feeds s'.machine.tree)
      (hnext : v.Calls next s'.machine.tree)
  /-- It opens a new one. -/
  | opens {node : FlowNode} {header : Block} {statement : NodeId} {children : List NodeId}
      (hnode : s.graph.get? v.node = some node) (hkind : node.kind = .conditional header)
      (hopens : s.machine.tree.Opens s'.machine.tree statement children)
      (hforks : v.Forks node.branches statement next children)
      (hnext : ∀ w ∈ next, w.Apart s'.machine.tree)
  /-- It has the conditions of a short circuit assembled. -/
  | gathers {node : FlowNode} {op : Connective} {conditions : List FlowRef}
      {operands : List NodeId} {s₁ : Assembly} (hnode : s.graph.get? v.node = some node)
      (hkind : node.kind = .shortCircuit op conditions)
      (hgathers : Gathers cfg budget v.container s conditions operands s₁)
      (hserves : s₁.machine.tree.Serves (fun _ => False) s'.machine.tree)
      (hnext : next = v.goOn node.branches)

theorem visitBlock_serves (hv : v.Apart s.machine.tree) (block : Block) (branches : List FlowRef) :
    (visitBlock cfg v block branches).Meets s (fun next s' =>
      s.machine.tree.Serves v.Feeds s'.machine.tree ∧ v.Calls next s'.machine.tree)
      fun _ => True := by
  refine .bind (Meets.onPart ((serves_execute v.Feeds cfg block.code hv.container).imp ?_))
  rintro _ m₁ ⟨hx₁, -⟩
  have hv₁ := hv.later hx₁.toDevelops
  have hfinish (s₁ : Assembly) (hs₁ : s₁.machine = m₁) : Meets (do
      onMachine (v.finishBlock cfg block.role)
      return v.goOn branches) s₁ (fun next s' =>
        s.machine.tree.Serves v.Feeds s'.machine.tree ∧ v.Calls next s'.machine.tree)
        fun _ => True := by
    subst hs₁
    refine .bind (Meets.onPart ((Visit.serves_finishBlock hv₁ block.role).imp ?_))
    rintro _ m₂ ⟨hx₂, -⟩
    exact meets_pure ⟨hx₁.trans hx₂, Visit.calls_goOn (hv₁.later hx₂.toDevelops) branches⟩
  have hrest : Meets (do
      if block.role = .breakOut || block.role = .continueOn then
        onGraph (FlowGraph.prune cfg v.node)
      onMachine (v.finishBlock cfg block.role)
      return v.goOn branches) { s with machine := m₁ } (fun next s' =>
        s.machine.tree.Serves v.Feeds s'.machine.tree ∧ v.Calls next s'.machine.tree)
        fun _ => True := by
    split
    · exact .bind (Meets.onPart ((meets_trivial _ _).imp fun _ _ _ => hfinish _ rfl))
    · exact hfinish _ rfl
  exact hrest

theorem Visits.effect (h : Visits cfg budget v s next s') (hv : v.Apart s.machine.tree) :
    Effect cfg budget v s next s' := by
  refine h.meets ?_
  cases hnode : s.graph.get? v.node with
  | none =>
    unfold visit
    refine .bind (meets_state ?_)
    rw [hnode]
    trivial
  | some node =>
    cases hkind : node.kind with
    | block block =>
      refine .of_eq (visit_block hnode hkind) ((visitBlock_serves hv block _).imp ?_)
      exact fun _ _ ⟨hserves, hnext⟩ => .serves hserves hnext
    | conditional header =>
      refine .of_eq (visit_conditional hnode hkind) (.bind (Meets.onPart ?_))
      refine (serves_execute (fun _ => False) cfg header.code hv.container).imp ?_
      rintro _ m₁ ⟨hx₁, -⟩
      have hv₁ := hv.later hx₁.toDevelops
      refine Meets.onPart ((Visit.openConditional_forks hv₁ node.branches).imp ?_)
      rintro _ m₂ ⟨statement, children, hopens, hforks, hnext⟩
      exact .opens hnode hkind (hopens.after_serves hx₁) hforks hnext
    | shortCircuit op conditions =>
      refine .of_eq (visit_shortCircuit hnode hkind) (.bind ?_)
      refine (conditionOperands_gathers cfg budget v.container conditions s).imp ?_
      intro operands s₁ hgathers
      refine .bind (Meets.onPart ((serves_pushNew (fun _ => False) operands (by nofun)).imp ?_))
      rintro _ m₂ ⟨hserves, -⟩
      exact meets_pure (.gathers hnode hkind hgathers hserves rfl)
    | loop kind =>
      refine .of_eq (visit_loop hnode hkind) (Meets.onPart ?_)
      refine (Visit.serves_openLoop hv kind _).imp ?_
      exact fun _ _ ⟨hserves, hnext⟩ => .serves hserves hnext
    | switch =>
      refine .of_eq (visit_switch hnode hkind) (Meets.onPart ?_)
      refine (Visit.serves_openSwitch hv _).imp ?_
      exact fun _ _ ⟨hserves, hnext⟩ => .serves hserves hnext

/-! ## Walks -/

/-- Some of the visits feeds the conditional. -/
def Fed (pending : List Visit) (statement : NodeId) : Prop := ∃ v ∈ pending, v.Feeds statement

/-- A new conditional is not fed by visits that were there before. -/
theorem not_fed {t : Tree} {statement : NodeId} (hpending : ∀ v ∈ pending, v.Apart t)
    (hnew : ¬ t.Holds statement) : ¬ Fed pending statement := by
  rintro ⟨v, hv, hfeeds⟩
  exact hnew ((hpending v hv).holds_of_feeds hfeeds)

/-- With this budget, walks leave all conditionals alone but those that their visits feed. -/
def Tends (cfg : Settings) (budget : Nat) : Prop :=
  ∀ {pending : List Visit} {s s' : Assembly}, Walks cfg budget pending s s' →
    (∀ v ∈ pending, v.Apart s.machine.tree) →
    s.machine.tree.Develops (Fed pending) s'.machine.tree

/-- Conditions are assembled outside of all arms. -/
theorem Gathers.develops (htends : Tends cfg budget) {container : NodeId}
    {conditions : List FlowRef} {operands : List NodeId}
    (h : Gathers cfg budget container s conditions operands s')
    (hcontainer : s.machine.tree.Unconditional container) :
    s.machine.tree.Develops (fun _ => False) s'.machine.tree := by
  induction h with
  | nil => exact .refl _ _
  | @cons s s₁ s' condition rest operand others operands hwalks hleft hrest ih =>
    have hcondition : s.machine.tree.Develops (fun _ => False) s₁.machine.tree := by
      refine (htends hwalks ?_).mono ?_
      · exact List.forall_mem_singleton.mpr (Visit.apart_of_container hcontainer condition)
      · rintro id ⟨v, hv, arm, harm, -⟩
        rw [List.mem_singleton.mp hv] at harm
        cases harm
    exact hcondition.trans (ih (hcondition.unconditional hcontainer)) fun _ _ h => h

/-- **A visit leaves all conditionals alone but the one that it feeds.** The visits that it calls
for feed this one or a new one. -/
theorem Effect.develops (h : Effect cfg budget v s next s') (htends : Tends cfg budget)
    (hv : v.Apart s.machine.tree) :
    s.machine.tree.Develops v.Feeds s'.machine.tree ∧
      (∀ w ∈ next, w.Apart s'.machine.tree) ∧
      ∀ id, s.machine.tree.Holds id → Fed next id → v.Feeds id := by
  have hcalls (hnext : v.Calls next s'.machine.tree) :
      (∀ w ∈ next, w.Apart s'.machine.tree) ∧
        ∀ id, s.machine.tree.Holds id → Fed next id → v.Feeds id := by
    refine ⟨fun w hw => (hnext w hw).1, ?_⟩
    rintro id - ⟨w, hw, arm, harm, hid⟩
    exact ⟨arm, (hnext w hw).2.symm.trans harm, hid⟩
  cases h with
  | serves hserves hnext => exact ⟨hserves.toDevelops, hcalls hnext⟩
  | opens hnode hkind hopens hforks hnext =>
    refine ⟨hopens.develops v.Feeds, hnext, ?_⟩
    rintro id hid ⟨w, hw, hfeeds⟩
    exact (hforks.feeds hw hfeeds).resolve_right fun heq => hopens.new (heq ▸ hid)
  | gathers hnode hkind hgathers hserves hnext =>
    have hx := (hgathers.develops htends hv.container).trans hserves.toDevelops fun _ _ h => h
    refine ⟨hx.mono fun _ => False.elim, hcalls ?_⟩
    rw [hnext]
    exact Visit.calls_goOn (hv.later hx) _

/-- **A walk leaves all conditionals alone but those that its visits feed.** -/
theorem walks_tend (cfg : Settings) (budget : Nat) : Tends cfg budget := by
  induction budget using Nat.strongRecOn with
  | ind budget ih =>
    intro pending s s' h hpending
    cases pending with
    | nil =>
      rw [walks_nil_iff.mp h]
      exact .refl _ _
    | cons v pending =>
      obtain ⟨budget, next, s₁, rfl, hvisits, hwalks⟩ := walks_cons_iff.mp h
      have htends : Tends cfg budget := ih budget (Nat.lt_succ_self budget)
      obtain ⟨hv, hpending⟩ := List.forall_mem_cons.mp hpending
      obtain ⟨hx, hnext, hfed⟩ := (hvisits.effect hv).develops htends hv
      have hall : ∀ w ∈ next ++ pending, w.Apart s₁.machine.tree :=
        List.forall_mem_append.mpr ⟨hnext, fun w hw => (hpending w hw).later hx⟩
      refine (hx.mono fun id hid => ⟨v, List.mem_cons_self, hid⟩).trans (htends hwalks hall) ?_
      rintro id hid ⟨w, hw, hfeeds⟩
      rcases List.mem_append.mp hw with hw | hw
      · exact ⟨v, List.mem_cons_self, hfed id hid ⟨w, hw, hfeeds⟩⟩
      · exact ⟨w, List.mem_cons_of_mem v hw, hfeeds⟩

end Assembly

end GmlLift
