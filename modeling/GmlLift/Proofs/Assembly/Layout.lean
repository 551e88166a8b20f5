import GmlLift.Proofs.Assembly.Upkeep
import GmlLift.Proofs.Execution.Layout
import GmlLift.Proofs.Execution.Progress

/-!
# Assembly lays out what it makes

With nothing reported, everything of which a walk is made keeps the layout of the tree
(`layout_upkeep`), whatever nodes the tree had before and wherever its statements go: a conditional,
a loop or a switch is laid out when its visits are called for, and what the visits add to it later
has a place there.

A conditional or a loop gets its blocks one after the other. Until it has all of them it is
`Opening`.
-/

namespace GmlLift

open GmlLift.Action GmlLift.Machine

/-- What a visit adds to has a place for it. -/
structure Visit.Seated (own : NodeId → Prop) (t : Tree) (v : Visit) : Prop where
  container : t.Takes own .container v.container
  loop : ∀ statement, v.loop = some statement → t.Takes own .loop statement
  openIf : ∀ arm, v.openIf = some arm → own arm.statement ∧
    t.Takes own .conditional arm.statement ∧ t.Takes own .container arm.container

theorem Visit.Seated.later {own : NodeId → Prop} {t t' : Tree} {v : Visit} (h : v.Seated own t)
    (hx : t.Retains own t') : v.Seated own t' where
  container := hx.takes h.container
  loop statement hs := hx.takes (h.loop statement hs)
  openIf arm ha := by
    obtain ⟨hown, hstatement, hcontainer⟩ := h.openIf arm ha
    exact ⟨hown, hx.takes hstatement, hx.takes hcontainer⟩

/-- The node of a loop. -/
def LoopKind.node : LoopKind → Kind
  | .whileLoop => .whileLoop false
  | .forLoop => .forLoop
  | .doUntilLoop => .doUntilLoop
  | .repeatLoop => .repeatLoop
  | .withLoop => .withLoop

/-- What the node of a loop is made with. -/
def LoopKind.operands : LoopKind → List Place
  | .whileLoop | .forLoop | .doUntilLoop => []
  | .repeatLoop | .withLoop => [.operand]

theorem LoopKind.sort_node (kind : LoopKind) : kind.node.sort = .loop := by
  cases kind <;> rfl

theorem LoopKind.isVar_node (kind : LoopKind) : kind.node.isVar = false := by
  cases kind <;> rfl

/-- The operand of a loop comes first and then its body; only a `for` loop has one more block. -/
theorem LoopKind.arrangement_mem {kind : LoopKind} (h : kind ≠ .forLoop) (cfg : Settings) :
    { places := kind.operands ++ [.block], limit := none } ∈ kind.node.arrangements cfg := by
  cases kind with
  | forLoop => exact absurd rfl h
  | whileLoop | doUntilLoop | repeatLoop | withLoop => exact List.mem_cons_self

/-- The run's own nodes are laid out, and what is on the stack are values. -/
def Scheme.layout (cfg : Settings) (own : NodeId → Prop) : Scheme where
  Tidy := Tree.Layout cfg own
  Value t := t.FillsOwn own .operand
  Fits t v := v.Seated own t
  Later := Tree.Retains own
  refl := .refl
  trans h h' := h.trans h'
  value h := h.fillsOwn
  fits h hv := hv.later h
  goTo _ hv := ⟨hv.container, hv.loop, hv.openIf⟩
  condition _ hv := ⟨hv.container, nofun, nofun⟩

namespace Scheme

variable {cfg : Settings} {own : NodeId → Prop} {m : Machine} {v : Visit}

/-! ## The moves of the machine -/

theorem layout_make (hm : (layout cfg own).Kept m) {kind : Kind} {children : List NodeId}
    (hn : Node.LaidOut cfg (m.tree.FillsOwn own) { kind, children }) :
    (layout cfg own).Keeps (make kind children) m fun id t => own id ∧
      t.get? id = some { kind, children } := by
  obtain ⟨t, stack⟩ := m
  have hx := Tree.retains_add own t kind children
  exact meets_make ⟨⟨hm.tidy.add hn, fun id hid => hx.fillsOwn (hm.values id hid)⟩, hx,
    hm.tidy.own_nextId, t.get?_add_nextId kind children⟩

theorem layout_push (hm : (layout cfg own).Kept m) {id : NodeId}
    (hid : m.tree.FillsOwn own .operand id) :
    (layout cfg own).Keeps (push id) m fun _ _ => True :=
  ⟨⟨hm.tidy, List.forall_mem_cons.mpr ⟨hid, hm.values⟩⟩, .refl _, trivial⟩

theorem layout_popFor (hm : (layout cfg own).Kept m) (construct : String) :
    (layout cfg own).Keeps (popFor construct) m fun id t =>
      t = m.tree ∧ t.FillsOwn own .operand id := by
  obtain ⟨t, stack⟩ := m
  refine meets_popFor fun id rest hstack => ?_
  have hvalues := hm.values
  rw [hstack] at hvalues
  obtain ⟨hid, hrest⟩ := List.forall_mem_cons.mp hvalues
  exact ⟨⟨hm.tidy, hrest⟩, .refl _, rfl, hid⟩

/-- A change that leaves the tree laid out. -/
theorem layout_edit (hm : (layout cfg own).Kept m) {f : Tree → Option Tree} {t' : Tree}
    (hf : f m.tree = some t') (ht' : t'.Layout cfg own) (hx : m.tree.Retains own t') :
    (layout cfg own).Keeps (edit f) m fun _ _ => True := by
  obtain ⟨t, stack⟩ := m
  exact meets_edit hf ⟨⟨ht', fun id hid => hx.fillsOwn (hm.values id hid)⟩, hx, trivial⟩

theorem layout_append (hm : (layout cfg own).Kept m) {container child : NodeId}
    (hc : m.tree.Takes own .container container) (hchild : m.tree.Holds child) :
    (layout cfg own).Keeps (append container child) m fun _ _ => True := by
  obtain ⟨t', ht'⟩ := Tree.appendChild?_of_holds hc.1 child
  exact layout_edit hm ht' (hm.tidy.appendChild hc hchild ht')
    (Tree.extends_appendChild ht').retains

/-- A statement or a value goes behind the children of a node that has a place for it. -/
theorem layout_give (hm : (layout cfg own).Kept m) {parent child : NodeId} {n : Node}
    (hn : m.tree.get? parent = some n) (hchild : m.tree.Holds child)
    (hlaid : own parent → Node.LaidOut cfg (m.tree.FillsOwn own)
      { n with children := n.children ++ [child] }) :
    (layout cfg own).Keeps (append parent child) m fun _ t =>
      t.get? parent = some { n with children := n.children ++ [child] } := by
  obtain ⟨t, stack⟩ := m
  refine meets_append hn fun t' hr => ?_
  obtain ⟨hlayout, hx⟩ := hm.tidy.give hr hchild hlaid
  exact ⟨⟨hlayout, fun id hid => hx.fillsOwn (hm.values id hid)⟩, hx, hr.new⟩

/-- A child leaves its container. -/
theorem layout_remove (hm : (layout cfg own).Kept m) {container : NodeId}
    (hc : m.tree.Takes own .container container) (child : NodeId) :
    (layout cfg own).Keeps (edit fun t => (t.removeChild? container child).map (·.2)) m
      fun _ _ => True := by
  obtain ⟨n, hn⟩ := Tree.get?_of_holds hc.1
  obtain ⟨t', ht'⟩ := Tree.removeChild?_of_get? hn child
  obtain ⟨hlayout, hx⟩ := hm.tidy.container hc (Tree.replaces_removeChild? ht' hn) fun ref href =>
    hm.tidy.holds_of_child hn ref (Tree.mem_of_mem_eraseLast href)
  exact layout_edit hm (congrArg (Option.map _) ht') hlayout hx

theorem layout_execute (quiet : cfg.verbosity = none) (code : List Instruction)
    (hm : (layout cfg own).Kept m) (hv : v.Seated own m.tree) :
    (layout cfg own).Keeps (execute cfg code v.container) m fun _ _ => True := by
  have hwell : m.WellFormed v.container :=
    ⟨hm.tidy.closed, fun id hid => (hm.values id hid).1.holds, hv.container.1⟩
  refine (execute_meets quiet (P := fun m' => m'.Arranged cfg own ∧ m.tree.Retains own m'.tree)
    ?_ code hwell ⟨⟨hm.tidy, hm.values⟩, .refl _⟩).imp ?_
  · rintro behind i ahead m₁ skip m₂ hadv - ⟨harranged, hx⟩
    obtain ⟨statements, hext⟩ := hadv.extends
    exact ⟨hadv.arranged harranged (hx.takes hv.container), hx.trans hext.retains⟩
  · rintro _ m' ⟨-, harranged, hx⟩
    exact ⟨⟨harranged.layout, harranged.values⟩, hx, trivial⟩

/-! ## Blocks -/

theorem layout_addStatement (hm : (layout cfg own).Kept m) {container : NodeId}
    (hc : m.tree.Takes own .container container) {kind : Kind}
    (hn : Node.LaidOut cfg (m.tree.FillsOwn own) { kind }) :
    (layout cfg own).Keeps (Visit.addStatement container kind) m fun _ _ => True := by
  refine (layout_make hm hn).bind fun id m' hm' hx hid => ?_
  exact layout_append hm' (hx.takes hc) (Tree.holds_of_get? hid.2)

theorem layout_enclosingLoop (hm : (layout cfg own).Kept m) (hv : v.Seated own m.tree) :
    (layout cfg own).Keeps v.enclosingLoop m fun id t => t.Takes own .loop id := by
  unfold Visit.enclosingLoop
  cases hl : v.loop with
  | none => exact .fail _
  | some statement => exact .pure hm (hv.loop statement hl)

theorem layout_markContinued (hm : (layout cfg own).Kept m) {statement : NodeId}
    (hs : m.tree.Holds statement) :
    (layout cfg own).Keeps (Visit.markContinued statement) m fun _ _ => True := by
  obtain ⟨n, hn⟩ := Tree.get?_of_holds hs
  refine Keeps.state_bind ?_
  rw [hn]
  obtain ⟨kind, children, duplicated⟩ := n
  cases kind with
  | whileLoop continued =>
    obtain ⟨t', ht'⟩ : ∃ t', m.tree.setKind? statement (.whileLoop true) = some t' :=
      Option.isSome_iff_exists.mp (Tree.isSome_update?_iff.mpr hs)
    have hr := Tree.replaces_update? ht' hn
    have hx : m.tree.Retains own t' := hr.retains fun _ => by
      refine ⟨rfl, fun place ha => ?_⟩
      cases place with
      | block => cases ha
      | any | operand | owner | target => exact ha
    -- the table does not ask whether a loop is continued
    refine layout_edit hm ht' (hm.tidy.replaces hr hx (fun ref href => ?_) fun hown => ?_) hx
    · exact hm.tidy.closed statement _ hn ref href
    · have hlaid := hm.tidy.laidOut statement _ hown hn
      exact hlaid
  | _ => exact Keeps.pure hm trivial

/-- An arm gives its value to the conditional, which may become a value by that. -/
theorem layout_foldTernary (quiet : cfg.verbosity = none) (hm : (layout cfg own).Kept m)
    {arm : OpenIf} (hown : own arm.statement) (hs : m.tree.Takes own .conditional arm.statement)
    (hc : m.tree.Takes own .container arm.container) :
    (layout cfg own).Keeps (Visit.foldTernary cfg arm) m fun _ _ => True := by
  obtain ⟨n, hn⟩ := Tree.get?_of_holds hs.1
  refine Keeps.state_bind ?_
  rw [hn]
  obtain ⟨kind, children, duplicated⟩ := n
  cases kind with
  | conditional depth =>
    simp only
    split
    · rename_i hroom
      simp only [Bool.and_eq_true, decide_eq_true_eq] at hroom
      obtain ⟨⟨-, harms⟩, hroom⟩ := hroom
      refine (layout_popFor hm _).bind fun value m₁ hm₁ _ ⟨htree, hvalue⟩ => ?_
      rw [← htree] at hn hc
      refine (layout_give hm₁ hn hvalue.1.holds fun _ => ?_).bind fun _ m₂ hm₂ hx₂ hn₂ => ?_
      · exact (hm₁.tidy.laidOut _ _ hown hn).append_conditional rfl hvalue harms hroom
      · split
        · rename_i hlast
          -- with the second value the conditional is a value itself
          have hternary : m₂.tree.FillsOwn own .operand arm.statement := by
            refine ⟨⟨_, hn₂, ?_, rfl⟩, fun _ => hown⟩
            rw [Node.not_isStatement_iff]
            refine Or.inr ⟨rfl, ?_⟩
            rw [List.length_append, List.length_singleton]
            exact hlast
          refine (layout_remove hm₂ (hx₂.takes hc) arm.statement).bind fun _ m₃ hm₃ hx₃ _ => ?_
          refine (layout_push hm₃ (hx₃.fillsOwn hternary)).bind fun _ m₄ hm₄ _ _ => ?_
          unfold Keeps Meets
          rw [describe_quiet quiet]
          exact ⟨hm₄, .refl _, trivial⟩
        · exact .pure hm₂ trivial
    · exact .pure hm trivial
  | _ => exact Keeps.pure hm trivial

theorem layout_finishBlock (quiet : cfg.verbosity = none) (role : Role)
    (hm : (layout cfg own).Kept m) (hv : v.Seated own m.tree) :
    (layout cfg own).Keeps (v.finishBlock cfg role) m fun _ _ => True := by
  cases role with
  | breakOut | switchDefault =>
    exact layout_addStatement hm hv.container (Node.laidOut_of_places List.mem_cons_self rfl .nil)
  | continueOn =>
    refine (layout_addStatement hm hv.container
      (Node.laidOut_of_places List.mem_cons_self rfl .nil)).bind fun _ m₁ hm₁ hx₁ _ => ?_
    refine (layout_enclosingLoop hm₁ (hv.later hx₁)).bind fun statement m₂ hm₂ _ hs => ?_
    exact layout_markContinued hm₂ hs.1
  | loopCondition =>
    refine (layout_enclosingLoop hm hv).bind fun statement m₁ hm₁ _ hs => ?_
    refine (layout_popFor hm₁ _).bind fun condition m₂ hm₂ _ ⟨htree, hcondition⟩ => ?_
    rw [← htree] at hs
    obtain ⟨n, hn⟩ := Tree.get?_of_holds hs.1
    refine (layout_give hm₂ hn hcondition.1.holds fun hown => ?_).imp
      fun _ _ h => ⟨h.1, h.2.1, trivial⟩
    obtain ⟨n', hn', hsort⟩ := hs.2 hown
    cases hn.symm.trans hn'
    exact (hm₂.tidy.laidOut _ _ hown hn).append_loop hsort hcondition
  | switchExpression =>
    refine (layout_popFor hm _).bind fun expression m₁ hm₁ hx₁ ⟨_, hexpression⟩ => ?_
    have hc := hx₁.takes hv.container
    obtain ⟨n, hn⟩ := Tree.get?_of_holds hc.1
    obtain ⟨t', ht'⟩ := Tree.insertChild?_of_get? hn expression
    obtain ⟨hlayout, hx⟩ := hm₁.tidy.container hc (Tree.replaces_insertChild? ht' hn)
      (List.forall_mem_cons.mpr ⟨hexpression.1.holds, hm₁.tidy.holds_of_child hn⟩)
    exact layout_edit hm₁ ht' hlayout hx
  | switchCase =>
    refine (layout_popFor hm _).bind fun expression m₁ hm₁ hx₁ ⟨_, hexpression⟩ => ?_
    refine (layout_make hm₁ (Node.laidOut_of_places List.mem_cons_self rfl
      (.cons hexpression .nil))).bind fun statement m₂ hm₂ hx₂ hs => ?_
    exact layout_append hm₂ ((hx₁.trans hx₂).takes hv.container) (Tree.holds_of_get? hs.2)
  | ifCondition | withExpression | repeatExpression => exact .pure hm trivial
  | plain =>
    unfold Visit.finishBlock
    cases harm : v.openIf with
    | none => exact Keeps.pure hm trivial
    | some arm =>
      obtain ⟨hown, hs, hc⟩ := hv.openIf arm harm
      exact layout_foldTernary quiet hm hown hs hc

/-! ## Conditionals, loops and switches -/

/-- **A statement that has got some of its blocks**, since the tree was `t₀`. -/
structure Opening (cfg : Settings) (own : NodeId → Prop) (t₀ : Tree) (statement : NodeId)
    (kind : Kind) (children : List NodeId) (t : Tree) : Prop where
  others : t.Layout cfg fun id => own id ∧ id ≠ statement
  node : t.get? statement = some { kind, children }
  own_statement : own statement
  sort : kind.sort = .conditional ∨ kind.sort = .loop
  retains : t₀.Retains own t

namespace Opening

variable {α : Type} {t₀ t : Tree} {statement container : NodeId} {kind : Kind}
  {children : List NodeId} {stack : OperandStack} {halts : Halt → Prop}

theorem of_make (ht : t.Layout cfg own) (hc : ∀ id ∈ children, t.Holds id)
    (hsort : kind.sort = .conditional ∨ kind.sort = .loop) :
    Opening cfg own t t.nextId kind children (t.add kind children) where
  others := ht.begin fun ref href => hc ref <| by
    rwa [Node.references_of_sort] at href
    rintro (hs : kind.sort = .expression)
    rw [hs] at hsort
    exact hsort.elim nofun nofun
  node := t.get?_add_nextId kind children
  own_statement := ht.own_nextId
  sort := hsort
  retains := Tree.retains_add own t kind children

/-- The statement has all of its blocks. -/
theorem complete (h : Opening cfg own t₀ statement kind children t)
    (hlaid : Node.LaidOut cfg (t.FillsOwn own) { kind, children }) : t.Layout cfg own :=
  h.others.complete h.node hlaid

/-- It gets one more block. -/
theorem meets_block (h : Opening cfg own t₀ statement kind children t)
    {f : NodeId → Action Machine α} {post : α → Machine → Prop}
    (hf : ∀ block t', Opening cfg own t₀ statement kind (children ++ [block]) t' →
      t.Retains own t' → t'.FillsOwn own .block block → (f block).Meets ⟨t', stack⟩ post halts) :
    (make .block >>= fun block => append statement block >>= fun _ => f block).Meets ⟨t, stack⟩
      post halts := by
  have hblock : t.nextId ≠ statement := by
    rintro rfl
    exact t.not_holds_nextId (Tree.holds_of_get? h.node)
  have hnode : (t.add .block []).get? statement = some { kind, children } :=
    (Tree.get?_add_of_lt (Tree.holds_of_get? h.node) ..).trans h.node
  have hlayout := h.others.add (Node.laidOut_of_container (n := { kind := .block }) rfl (by simp))
  have hblock : (t.add .block []).FillsOwn own .block t.nextId :=
    ⟨⟨_, t.get?_add_nextId .block [], rfl⟩, fun _ => h.others.own_nextId.1⟩
  refine .bind (meets_make (.bind (meets_append hnode fun t' hr => ?_)))
  have happend : (t.add .block []).Retains own t' := hr.retains fun _ =>
    ⟨rfl, fun place ha => ha.mono rfl fun _ => by simp⟩
  have hx := (Tree.retains_add own t .block []).trans happend
  refine hf t.nextId t' ⟨?_, hr.new, h.own_statement, h.sort, h.retains.trans hx⟩ hx
    (happend.fillsOwn hblock)
  exact (hlayout.give hr hblock.1.holds fun hown => absurd rfl hown.2).1

/-- It is put into its container. -/
theorem meets_place (h : Opening cfg own t₀ statement kind children t)
    (hc : t.Takes own .container container) {post : Unit → Machine → Prop}
    (hf : ∀ t', Opening cfg own t₀ statement kind children t' → t.Retains own t' →
      post () ⟨t', stack⟩) : (append container statement).Meets ⟨t, stack⟩ post halts := by
  have hne : statement ≠ container := by
    rintro rfl
    obtain ⟨n, hn, hsort⟩ := hc.2 h.own_statement
    cases hn.symm.trans h.node
    rcases h.sort with hs | hs <;> cases hs.symm.trans hsort
  obtain ⟨n, hn⟩ := Tree.get?_of_holds hc.1
  obtain ⟨t', ht'⟩ := Tree.appendChild?_of_holds hc.1 statement
  have hr := Tree.replaces_appendChild? ht' hn
  have hx : t.Retains own t' := (Tree.extends_appendChild ht').retains
  refine meets_edit ht' (hf t' ⟨?_, (hr.of_ne hne).trans h.node, h.own_statement, h.sort,
    h.retains.trans hx⟩ hx)
  refine h.others.appendChild ⟨hc.1, fun hown => hc.2 hown.1⟩ (Tree.holds_of_get? h.node) ht'

end Opening

/-- A block is a container. -/
theorem takes_block {t : Tree} {id : NodeId} (h : t.FillsOwn own .block id) :
    t.Takes own .container id := by
  obtain ⟨n, hn, hk⟩ := h.1
  exact ⟨Tree.holds_of_get? hn, fun _ => ⟨n, hn, congrArg Kind.sort hk⟩⟩

theorem Opening.takes {t₀ t : Tree} {statement : NodeId} {kind : Kind} {children : List NodeId}
    (h : Opening cfg own t₀ statement kind children t) : t.Takes own kind.sort statement :=
  ⟨Tree.holds_of_get? h.node, fun _ => ⟨_, h.node, rfl⟩⟩

theorem Opening.kept {t₀ t : Tree} {stack : OperandStack} {statement : NodeId} {kind : Kind}
    {children : List NodeId} (h : Opening cfg own t₀ statement kind children t)
    (hm : (layout cfg own).Kept ⟨t₀, stack⟩)
    (hlaid : Node.LaidOut cfg (t.FillsOwn own) { kind, children }) :
    (layout cfg own).Kept ⟨t, stack⟩ where
  tidy := h.complete hlaid
  values id hid := h.retains.fillsOwn (hm.values id hid)

/-- A visit to an arm of a conditional. -/
theorem Opening.seated_arm {t₀ t : Tree} {statement block : NodeId} {depth : Nat}
    {children : List NodeId} (h : Opening cfg own t₀ statement (.conditional depth) children t)
    (hv : v.Seated own t₀) (node : FlowRef) (hblock : t.FillsOwn own .block block) :
    Visit.Seated own t
      { v with container := block, node, openIf := some ⟨statement, v.container⟩ } where
  container := takes_block hblock
  loop := (hv.later h.retains).loop
  openIf arm ha := by
    cases ha
    exact ⟨h.own_statement, h.takes, (hv.later h.retains).container⟩

theorem Opening.seated_goTo {t₀ t : Tree} {statement : NodeId} {kind : Kind}
    {children : List NodeId} (h : Opening cfg own t₀ statement kind children t)
    (hv : v.Seated own t₀) (node : FlowRef) : (v.goTo node).Seated own t :=
  (layout cfg own).goTo node (hv.later h.retains)

theorem layout_openConditional (branches : List FlowRef) (hm : (layout cfg own).Kept m)
    (hv : v.Seated own m.tree) :
    (layout cfg own).Keeps (v.openConditional branches) m
      fun next t => ∀ w ∈ next, w.Seated own t := by
  refine Keeps.branch_bind fun continuation => Keeps.branch_bind fun trueArm => ?_
  refine (layout_popFor hm _).bind fun condition m₁ hm₁ hx₁ ⟨_, hcondition⟩ => ?_
  replace hv := hv.later hx₁
  obtain ⟨t, stack⟩ := m₁
  refine Keeps.state_bind (Meets.bind (meets_make ?_))
  have hopen : Opening cfg own t t.nextId (.conditional stack.depth) [condition] _ :=
    .of_make hm₁.tidy (by simpa using hcondition.1.holds) (Or.inl rfl)
  refine .bind (hopen.meets_place (hopen.retains.takes hv.container) fun t₁ hopen₁ _ => ?_)
  refine hopen₁.meets_block fun trueBlock t₂ hopen₂ hx hblock => ?_
  cases branches[2]? with
  | none =>
    have hlaid : Node.LaidOut cfg (t₂.FillsOwn own)
        { kind := .conditional stack.depth, children := [condition, trueBlock] } :=
      Node.laidOut_of_places List.mem_cons_self rfl
        (.cons (hopen₂.retains.fillsOwn hcondition) (.cons hblock .nil))
    refine meets_pure ⟨hopen₂.kept hm₁ hlaid, hopen₂.retains, ?_⟩
    simp only [List.forall_mem_cons]
    exact ⟨hopen₂.seated_arm hv trueArm hblock, hopen₂.seated_goTo hv continuation, by simp⟩
  | some falseArm =>
    refine hopen₂.meets_block fun falseBlock t₃ hopen₃ hx₃ hfalse => ?_
    have hlaid : Node.LaidOut cfg (t₃.FillsOwn own)
        { kind := .conditional stack.depth, children := [condition, trueBlock, falseBlock] } :=
      Node.laidOut_of_places (List.mem_cons_of_mem _ List.mem_cons_self) rfl
        (.cons (hopen₃.retains.fillsOwn hcondition)
          (.cons (hx₃.fillsOwn hblock) (.cons hfalse .nil)))
    refine meets_pure ⟨hopen₃.kept hm₁ hlaid, hopen₃.retains, ?_⟩
    simp only [List.forall_mem_cons]
    exact ⟨hopen₃.seated_arm hv trueArm (hx₃.fillsOwn hblock), hopen₃.seated_arm hv falseArm hfalse,
      hopen₃.seated_goTo hv continuation, by simp⟩

/-- The statement of a loop is made, with its operand if it has one. -/
theorem meets_makeLoop (kind : LoopKind) (hm : (layout cfg own).Kept m) :
    (Visit.makeLoop kind).Meets m (fun statement m' => ∃ t₀ operands,
      (layout cfg own).Kept ⟨t₀, m'.stack⟩ ∧ m.tree.Retains own t₀ ∧
        Opening cfg own t₀ statement kind.node operands m'.tree ∧
        List.Forall₂ (m'.tree.FillsOwn own) kind.operands operands) Halt.IsFault := by
  obtain ⟨t, stack⟩ := m
  cases kind with
  | whileLoop | forLoop | doUntilLoop =>
    exact meets_make ⟨t, [], hm, .refl t, .of_make hm.tidy (by simp) (Or.inr rfl), .nil⟩
  | repeatLoop | withLoop =>
    refine Meets.bind ((layout_popFor hm _).imp ?_)
    rintro operand ⟨t', stack'⟩ ⟨hm', hx, -, hoperand⟩
    refine meets_make ⟨t', [operand], hm', hx, .of_make hm'.tidy ?_ (Or.inr rfl), .cons ?_ .nil⟩
    · simpa using hoperand.1.holds
    · exact (Tree.retains_add ..).fillsOwn hoperand

/-- A loop gets its body and is put into its container. -/
theorem Opening.meets_openBody {t₀ t : Tree} {statement : NodeId} {kind : Kind}
    {children : List NodeId} {stack : OperandStack}
    (h : Opening cfg own t₀ statement kind children t) (hloop : kind.sort = .loop)
    (hv : v.Seated own t₀) (branches : List FlowRef) :
    (v.openBody statement branches).Meets ⟨t, stack⟩ (fun w m' => m'.stack = stack ∧
      w.Seated own m'.tree ∧ t.Retains own m'.tree ∧ ∃ body, m'.tree.FillsOwn own .block body ∧
        Opening cfg own t₀ statement kind (children ++ [body]) m'.tree) Halt.IsFault := by
  refine h.meets_block fun body t₁ hopen₁ hx₁ hbody => ?_
  refine .bind (hopen₁.meets_place (hv.later hopen₁.retains).container fun t₂ hopen₂ hx₂ => ?_)
  refine .bind (Visit.meets_branch trivial fun node _ => ?_)
  have hbody₂ := hx₂.fillsOwn hbody
  refine meets_pure ⟨rfl, ⟨takes_block hbody₂, fun s hs => ?_, ?_⟩, hx₁.trans hx₂, body, hbody₂,
    hopen₂⟩
  · cases hs
    rw [← hloop]
    exact hopen₂.takes
  · exact (hv.later hopen₂.retains).openIf

theorem layout_openLoop (kind : LoopKind) (branches : List FlowRef)
    (hm : (layout cfg own).Kept m) (hv : v.Seated own m.tree) :
    (layout cfg own).Keeps (v.openLoop kind branches) m
      fun next t => ∀ w ∈ next, w.Seated own t := by
  refine Meets.bind ((meets_makeLoop kind hm).imp ?_)
  rintro statement ⟨t, stack⟩ ⟨t₀, operands, hm₀, hx₀, hopen, hoperands⟩
  replace hv := hv.later hx₀
  by_cases hfor : kind = .forLoop
  · subst hfor
    cases hoperands
    refine .bind (Visit.meets_branch trivial fun condition _ => ?_)
    refine .bind (Visit.meets_branch trivial fun step _ => ?_)
    refine hopen.meets_block fun stepBlock t₁ hopen₁ _ hstep => ?_
    refine Meets.bind ((hopen₁.meets_openBody rfl hv branches).imp ?_)
    rintro body ⟨t₂, _⟩ ⟨rfl, hbody, hx₂, bodyBlock, hblock, hopen₂⟩
    replace hstep := hx₂.fillsOwn hstep
    have hlaid : Node.LaidOut cfg (t₂.FillsOwn own)
        { kind := .forLoop, children := [stepBlock, bodyBlock] } :=
      Node.laidOut_of_places List.mem_cons_self rfl (.cons hstep (.cons hblock .nil))
    have hgoOn := hopen₂.seated_goTo hv
    refine meets_pure ⟨hopen₂.kept hm₀ hlaid, hx₀.trans hopen₂.retains, ?_⟩
    simp only [List.forall_mem_cons]
    refine ⟨hbody, ⟨takes_block hstep, (hgoOn step).loop, (hgoOn step).openIf⟩,
      ⟨(hgoOn condition).container, fun s hs => ?_, (hgoOn condition).openIf⟩, by simp⟩
    cases hs
    exact hopen₂.takes
  · -- any other loop has its operand, if it takes one, and then its body
    have hrest : (do
        let body ← v.openBody statement branches
        let continuation ← Visit.branch branches .loop 0
        return [body, v.goTo continuation]).Meets ⟨t, stack⟩
          (fun next m' => (layout cfg own).Kept m' ∧ m.tree.Retains own m'.tree ∧
            ∀ w ∈ next, w.Seated own m'.tree) Halt.IsFault := by
      refine Meets.bind ((hopen.meets_openBody kind.sort_node hv branches).imp ?_)
      rintro body ⟨t₁, _⟩ ⟨rfl, hbody, hx₁, bodyBlock, hblock, hopen₁⟩
      refine Meets.bind (Visit.meets_branch trivial fun continuation _ => ?_)
      have hlaid : Node.LaidOut cfg (t₁.FillsOwn own)
          { kind := kind.node, children := operands ++ [bodyBlock] } := by
        refine Node.laidOut_of_places (LoopKind.arrangement_mem hfor cfg) kind.isVar_node ?_
        exact List.rel_append (hoperands.imp fun _ _ => hx₁.fillsOwn) (.cons hblock .nil)
      refine meets_pure ⟨hopen₁.kept hm₀ hlaid, hx₀.trans hopen₁.retains, ?_⟩
      simp only [List.forall_mem_cons]
      exact ⟨hbody, hopen₁.seated_goTo hv continuation, by simp⟩
    cases kind with
    | forLoop => exact absurd rfl hfor
    | whileLoop | doUntilLoop | repeatLoop | withLoop => exact hrest

theorem layout_openSwitch (branches : List FlowRef) (hm : (layout cfg own).Kept m)
    (hv : v.Seated own m.tree) :
    (layout cfg own).Keeps (v.openSwitch branches) m
      fun next t => ∀ w ∈ next, w.Seated own t := by
  have hlaid : Node.LaidOut cfg (m.tree.FillsOwn own) { kind := .switch } :=
    Node.laidOut_of_container rfl (by simp)
  refine (layout_make hm hlaid).bind fun statement m₁ hm₁ hx₁ hs => ?_
  have htakes : m₁.tree.Takes own .container statement :=
    ⟨Tree.holds_of_get? hs.2, fun _ => ⟨_, hs.2, rfl⟩⟩
  refine (layout_append hm₁ (hx₁.takes hv.container) htakes.1).bind fun _ m₂ hm₂ hx₂ _ => ?_
  have hv₂ := hv.later (hx₁.trans hx₂)
  refine .pure hm₂ fun w hw => ?_
  rcases List.mem_append.mp hw with hw | hw
  · obtain ⟨node, -, rfl⟩ := List.mem_map.mp hw
    exact ⟨hx₂.takes htakes, hv₂.loop, hv₂.openIf⟩
  · exact (layout cfg own).goOn hv₂ branches w hw

theorem layout_connect (op : Connective) (operands : List NodeId) (hm : (layout cfg own).Kept m)
    (ho : ∀ id ∈ operands, m.tree.FillsOwn own .operand id) :
    (layout cfg own).Keeps (pushNew (.shortCircuit op) operands) m fun _ _ => True := by
  have hlaid : Node.LaidOut cfg (m.tree.FillsOwn own)
      { kind := .shortCircuit op, children := operands } :=
    Node.laidOut_of_suits List.mem_cons_self rfl (Arrangement.suits_of_rest rfl ho nofun)
  refine (layout_make hm hlaid).bind fun id m' hm' _ hid => ?_
  exact layout_push hm' ⟨⟨_, hid.2, Place.admits_operand rfl rfl _⟩, fun _ => hid.1⟩

/-- **Everything of which a walk is made keeps the tree laid out.** -/
theorem layout_upkeep (quiet : cfg.verbosity = none) (own : NodeId → Prop) :
    (layout cfg own).Upkeep cfg where
  execute code hm hv := layout_execute quiet code hm hv
  finishBlock role hm hv := layout_finishBlock quiet role hm hv
  openConditional branches hm hv := layout_openConditional branches hm hv
  openLoop kind branches hm hv := layout_openLoop kind branches hm hv
  openSwitch branches hm hv := layout_openSwitch branches hm hv
  connect op operands hm ho := layout_connect op operands hm ho

end Scheme

end GmlLift
