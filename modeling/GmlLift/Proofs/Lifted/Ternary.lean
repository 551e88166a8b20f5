import GmlLift.Proofs.Assembly.Conditionals
import GmlLift.Proofs.Lifted.Budget
import Mathlib.Control.Monad.Basic

/-!
# The values of a conditional

A conditional with two arms has its condition and two blocks when it is opened, and what comes
behind them are values of its arms. The visits of the true arm come first, with all that descend
from them, and then those of the false arm; no other visit gives the conditional a value. So the
values of the true arm are followed by those of the false arm (`liftGraph_armValues`).

How many values there are of either arm is another matter. A conditional does not ask whose value it
gets: it may have two of its true arm (`conditional_takes_both`).
-/

namespace GmlLift

open GmlLift.Assembly

/-- The visit is made, and so is every visit that descends from it. -/
def Assembly.Completes (cfg : Settings) (v : Visit) (s s' : Assembly) : Prop :=
  ∃ budget, Walks cfg budget [v] s s'

namespace Moment

/-- **The next visit opens a conditional**: it is at a conditional of the graph with two arms, it
calls for the visits of the arms, and `statement` is new and has no values yet. -/
structure OpensArms (cfg : Settings) (m : Moment) (statement condition : NodeId)
    (trueArm falseArm : Visit) (s : Assembly) : Prop where
  task : m.task = .walk
  visits : ∃ v rest node header continuation budget, m.pending = v :: rest ∧
    m.assembly.graph.get? v.node = some node ∧ node.kind = .conditional header ∧
    node.branches[1]? = some trueArm.node ∧ node.branches[2]? = some falseArm.node ∧
    Visits cfg budget v m.assembly [trueArm, falseArm, continuation] s
  new : ¬ m.assembly.machine.tree.Holds statement
  children : s.machine.tree.conditional? statement =
    some [condition, trueArm.container, falseArm.container]

/-- **The next visit opens the conditional, and the visits of its arms fill it**: those of the true
arm add `fromTrue` to its children, and then those of the false arm add `fromFalse`. -/
structure FillsArms (cfg : Settings) (m : Moment) (statement : NodeId)
    (blocks fromTrue fromFalse : List NodeId) : Prop where
  arms : ∃ condition trueArm falseArm s₀ s₁ s₂,
    blocks = [condition, trueArm.container, falseArm.container] ∧
    m.OpensArms cfg statement condition trueArm falseArm s₀ ∧
    Completes cfg trueArm s₀ s₁ ∧
    s₁.machine.tree.conditional? statement = some (blocks ++ fromTrue) ∧
    Completes cfg falseArm s₁ s₂ ∧
    s₂.machine.tree.conditional? statement = some (blocks ++ fromTrue ++ fromFalse)

/-- The run comes to a moment from which on the conditional is filled, with these children. -/
def ComesToFill (cfg : Settings) (m : Moment) (statement : NodeId) (children : List NodeId) :
    Prop :=
  ∃ m' blocks fromTrue fromFalse, Leads cfg m m' ∧ children = blocks ++ fromTrue ++ fromFalse ∧
    m'.FillsArms cfg statement blocks fromTrue fromFalse

theorem ComesToFill.of_leads {cfg : Settings} {m m' : Moment} {statement : NodeId}
    {children : List NodeId} (hleads : Leads cfg m m')
    (h : ComesToFill cfg m' statement children) : ComesToFill cfg m statement children := by
  obtain ⟨m'', blocks, fromTrue, fromFalse, hleads', hfills⟩ := h
  exact ⟨m'', blocks, fromTrue, fromFalse, hleads.trans hleads', hfills⟩

end Moment

namespace Assembly

open GmlLift.Moment

variable {cfg : Settings} {budget : Nat} {s s' : Assembly} {pending : List Visit}
  {statement : NodeId} {children : List NodeId}

/-- A conditional that is new after the conditions of a short circuit is made for one of them, and
the conditions behind it leave it alone. -/
theorem Gathers.makes {container : NodeId} {conditions : List FlowRef} {operands : List NodeId}
    (h : Gathers cfg budget container s conditions operands s')
    (hcontainer : s.machine.tree.Unconditional container)
    (hnew : ¬ s.machine.tree.Holds statement)
    (hs : s'.machine.tree.conditional? statement = some children) :
    ∃ before condition after operands' s₁ s₂, conditions = before ++ condition :: after ∧
      Gathers cfg budget container s before operands' s₁ ∧
      Walks cfg budget [{ container, node := condition }] (s₁.withStack .empty) s₂ ∧
      s₁.machine.tree.Unconditional container ∧ ¬ s₁.machine.tree.Holds statement ∧
      s₂.machine.tree.conditional? statement = some children := by
  induction h with
  | nil =>
    rw [Tree.conditional?_of_not_holds hnew] at hs
    cases hs
  | @cons s s₁ s' condition rest operand others operands hwalks hleft hrest ih =>
    have hfirst : Gathers cfg budget container s [condition] [operand]
        (s₁.withStack (s.machine.stack.append others)) := .cons hwalks hleft .nil
    have hcontainer₁ :=
      (hfirst.develops (walks_tend cfg budget) hcontainer).unconditional hcontainer
    by_cases hnew₁ : s₁.machine.tree.Holds statement
    · have hlater := hrest.develops (walks_tend cfg budget) hcontainer₁
      refine ⟨[], condition, rest, [], s, s₁, rfl, .nil, hwalks, hcontainer, hnew, ?_⟩
      exact (hlater.kept hnew₁ not_false).symm.trans hs
    · obtain ⟨before, condition', after, operands', s₂, s₃, rfl, hbefore, hrest⟩ :=
        ih hcontainer₁ hnew₁ hs
      exact ⟨condition :: before, condition', after, operand :: operands', s₂, s₃, rfl,
        .cons hwalks hleft hbefore, hrest⟩

/-- A walk adds to the children of a conditional with both of its blocks. -/
theorem Walks.gains (h : Walks cfg budget pending s s')
    (hpending : ∀ v ∈ pending, v.Apart s.machine.tree)
    (hs : s.machine.tree.conditional? statement = some children) :
    ∃ values, s'.machine.tree.conditional? statement = some (children ++ values) ∧
      (children.length < 3 → values = []) := by
  obtain ⟨values, heq, hvalues⟩ :=
    (walks_tend cfg budget h hpending).gains statement (Tree.holds_of_conditional? hs)
  rw [hs] at heq
  refine ⟨values, heq, fun hlength => ?_⟩
  by_contra hne
  exact Nat.not_le_of_lt hlength ((hvalues hne).2 children hs)

/-- **A conditional that a visit opens is filled by the visits of its arms**, first by those of the
true arm and then by those of the false arm. -/
theorem comesToFill_of_opens {v : Visit} {next : List Visit} {node : FlowNode} {header : Block}
    {s₀ : Assembly} {waiting : List Waiting} (hvisits : Visits cfg budget v s next s₀)
    (hnode : s.graph.get? v.node = some node) (hkind : node.kind = .conditional header)
    {opened : List NodeId} (hopens : s.machine.tree.Opens s₀.machine.tree statement opened)
    (hforks : v.Forks node.branches statement next opened)
    (hnext : ∀ w ∈ next, w.Apart s₀.machine.tree) (hv : v.Apart s.machine.tree)
    (hpending : ∀ w ∈ pending, w.Apart s.machine.tree)
    (hwalks : Walks cfg budget (next ++ pending) s₀ s')
    (hs : s'.machine.tree.conditional? statement = some children) (harms : 3 ≤ children.length) :
    ComesToFill cfg ⟨s, .walk, v :: pending, waiting⟩ statement children := by
  have hpending₀ : ∀ w ∈ pending, w.Apart s₀.machine.tree := fun w hw =>
    (hpending w hw).later (hopens.develops v.Feeds)
  cases hforks with
  | one htrue =>
    -- without a false arm there is no place for values
    obtain ⟨values, heq, hvalues⟩ := hwalks.gains
      (List.forall_mem_append.mpr ⟨hnext, hpending₀⟩) hopens.conditional?_statement
    rw [hvalues (Nat.lt_succ_self 2), hs] at heq
    obtain rfl := Option.some.inj heq
    simp at harms
  | @two condition trueBlock falseBlock trueArm falseArm continuation htrue hfalse =>
    obtain ⟨htrueApart, hnext⟩ := List.forall_mem_cons.mp hnext
    obtain ⟨hfalseApart, -⟩ := List.forall_mem_cons.mp hnext
    obtain ⟨s₁, hwalksTrue, hwalks⟩ := hwalks.split_cons
    obtain ⟨s₂, hwalksFalse, hwalks⟩ := hwalks.split_cons
    have htrueApart := List.forall_mem_singleton.mpr htrueApart
    have hx₁ := walks_tend cfg budget hwalksTrue htrueApart
    have hfalseApart := List.forall_mem_singleton.mpr (hfalseApart.later hx₁)
    have hx₂ := walks_tend cfg budget hwalksFalse hfalseApart
    obtain ⟨fromTrue, heq₁, -⟩ := hwalksTrue.gains htrueApart hopens.conditional?_statement
    obtain ⟨fromFalse, heq₂, -⟩ := hwalksFalse.gains hfalseApart heq₁
    -- what comes behind the arms was there before the conditional
    have hbehind : ∀ w ∈ v.goTo continuation :: pending, w.Apart s.machine.tree :=
      List.forall_mem_cons.mpr ⟨hv.goTo continuation, hpending⟩
    have hbehind₂ : ∀ w ∈ v.goTo continuation :: pending, w.Apart s₂.machine.tree := fun w hw =>
      (((hbehind w hw).later (hopens.develops v.Feeds)).later hx₁).later hx₂
    have hkept := (walks_tend cfg budget hwalks hbehind₂).kept (Tree.holds_of_conditional? heq₂)
      (not_fed hbehind hopens.new)
    refine ⟨_, [condition, trueBlock, falseBlock], fromTrue, fromFalse, .refl _, ?_, ?_⟩
    · rw [hs] at hkept
      exact Option.some.inj (hkept.trans heq₂)
    · refine ⟨condition, _, _, s₀, s₁, s₂, rfl, ?_, ⟨budget, hwalksTrue⟩, heq₁,
        ⟨budget, hwalksFalse⟩, heq₂⟩
      exact ⟨rfl, ⟨v, pending, node, header, _, budget, rfl, hnode, hkind, htrue, hfalse, hvisits⟩,
        hopens.new, hopens.conditional?_statement⟩

/-- With this budget, a walk that leaves a new conditional with two arms comes to fill it. -/
def Fills (cfg : Settings) (budget : Nat) (statement : NodeId) (children : List NodeId) : Prop :=
  ∀ {pending : List Visit} {s s' : Assembly} (waiting : List Waiting),
    Walks cfg budget pending s s' → (∀ v ∈ pending, v.Apart s.machine.tree) →
    ¬ s.machine.tree.Holds statement →
    s'.machine.tree.conditional? statement = some children →
    ComesToFill cfg ⟨s, .walk, pending, waiting⟩ statement children

/-- A conditional that is made for a condition of a short circuit. -/
theorem Gathers.comesToFill {v : Visit} {node : FlowNode} {op : Connective}
    {conditions : List FlowRef} {operands : List NodeId}
    (h : Gathers cfg budget v.container s conditions operands s')
    (hnode : s.graph.get? v.node = some node) (hkind : node.kind = .shortCircuit op conditions)
    (hv : v.Apart s.machine.tree) (hnew : ¬ s.machine.tree.Holds statement)
    (hs : s'.machine.tree.conditional? statement = some children)
    (hfills : Fills cfg budget statement children) (waiting : List Waiting) :
    ComesToFill cfg ⟨s, .walk, v :: pending, waiting⟩ statement children := by
  obtain ⟨before, condition, after, operands', s₁, s₂, rfl, hbefore, hwalks, hcontainer, hnew₁,
    hs₂⟩ := h.makes hv.container hnew hs
  obtain ⟨w, hleads⟩ := hbefore.leads_condition hnode hkind pending waiting
  refine .of_leads hleads (hfills (w :: waiting) hwalks ?_ hnew₁ hs₂)
  exact List.forall_mem_singleton.mpr (Visit.apart_of_container hcontainer condition)

/-- **A conditional with two arms that a walk leaves has been opened on the way**, and the visits of
its arms have filled it. -/
theorem walks_fill (cfg : Settings) (budget : Nat) (harms : 3 ≤ children.length) :
    Fills cfg budget statement children := by
  -- the conditional is made in the first visit, in a condition that it assembles, or later
  induction budget using Nat.strongRecOn with
  | ind budget ih =>
    intro pending s s' waiting h hpending hnew hs
    cases pending with
    | nil =>
      rw [walks_nil_iff.mp h, Tree.conditional?_of_not_holds hnew] at hs
      cases hs
    | cons v pending =>
      obtain ⟨budget, next, s₁, rfl, hvisits, hwalks⟩ := walks_cons_iff.mp h
      have hfills : Fills cfg budget statement children := ih budget (Nat.lt_succ_self budget)
      obtain ⟨hv, hpending⟩ := List.forall_mem_cons.mp hpending
      have heffect := hvisits.effect hv
      obtain ⟨hx, hnext, -⟩ := heffect.develops (walks_tend cfg budget) hv
      have hall : ∀ w ∈ next ++ pending, w.Apart s₁.machine.tree :=
        List.forall_mem_append.mpr ⟨hnext, fun w hw => (hpending w hw).later hx⟩
      by_cases hnew₁ : s₁.machine.tree.Holds statement
      · -- the node is made in this visit, and it is a conditional from then on
        have hlater := walks_tend cfg budget hwalks hall
        have hmade : s₁.machine.tree.conditional? statement ≠ none := by
          intro hnone
          rw [(hlater.unconditional ⟨hnew₁, hnone⟩).2] at hs
          cases hs
        cases heffect with
        | serves hserves hnext => exact absurd (hserves.fresh statement hnew) hmade
        | @opens node header opened _ hnode hkind hopens hforks hnext =>
          obtain rfl : statement = opened := by
            by_contra hne
            rw [hopens.conditional?_of_ne hne, Tree.conditional?_of_not_holds hnew] at hmade
            exact hmade rfl
          exact comesToFill_of_opens hvisits hnode hkind hopens hforks hnext hv hpending hwalks hs
            harms
        | gathers hnode hkind hgathers hserves hnext =>
          have hbefore : ∀ w ∈ next ++ pending, w.Apart s.machine.tree := by
            rw [hnext]
            refine List.forall_mem_append.mpr ⟨fun w hw => ?_, hpending⟩
            exact (Visit.calls_goOn hv _ w hw).1
          have hkept := hlater.kept hnew₁ (not_fed hbefore hnew)
          rw [hs, hserves.conditional?_eq] at hkept
          exact hgathers.comesToFill hnode hkind hv hnew hkept.symm hfills waiting
      · exact .of_leads (hvisits.leads pending waiting) (hfills waiting hwalks hall hnew₁ hs)

end Assembly

/-- **The values of a conditional come from its arms, in the order of the arms.** A conditional with
two arms, in the tree of a function, has its condition and two blocks as children, then the values
that it has got from the visits of its true arm, and then those that it has got from the visits of
its false arm. -/
theorem liftGraph_armValues {cfg : Settings} {g : FlowGraph} {t : Tree}
    (hok : (liftGraph cfg g).result = .ok t ∨ ∃ g', LiftsTo cfg g (.ok t) g')
    {statement : NodeId} {children : List NodeId}
    (hs : t.conditional? statement = some children) (harms : 3 ≤ children.length) :
    ∃ n blocks fromTrue fromFalse, children = blocks ++ fromTrue ++ fromFalse ∧
      (Moment.after cfg g n).FillsArms cfg statement blocks fromTrue fromFalse := by
  obtain ⟨budget, hok⟩ := exists_liftWithin hok
  obtain ⟨leftover, hresult, rfl⟩ := fragment_of_liftWithin hok
  obtain ⟨s, hwalks, -, hstate⟩ := (Action.meets_of_ok hresult).mp
    (fragment_walks cfg budget Tree.root g.entry { graph := g })
  rw [hstate] at hs
  have hroot : Tree.new.Unconditional Tree.root := ⟨Machine.wellFormed_new.container, rfl⟩
  have hpending : ∀ v ∈ [({ container := Tree.root, node := g.entry } : Visit)],
      v.Apart Tree.new :=
    List.forall_mem_singleton.mpr (Visit.apart_of_container hroot g.entry)
  -- the one node of the first tree is a block, and stays one
  have hnew : ¬ Tree.new.Holds statement := by
    intro hheld
    obtain rfl : statement = Tree.root := congrArg NodeId.mk (Nat.lt_one_iff.mp hheld)
    have hlater := (walks_tend cfg budget hwalks hpending).unconditional hroot
    exact Option.some_ne_none children (hs.symm.trans hlater.2)
  obtain ⟨_, blocks, fromTrue, fromFalse, ⟨n, rfl⟩, heq, hfills⟩ :=
    walks_fill cfg budget harms [] hwalks hpending hnew hs
  exact ⟨n, blocks, fromTrue, fromFalse, heq, hfills⟩

/-- Each arm is a number. -/
theorem liftGraph_armValues_numbers :
    let push (n : Int32) : Instruction :=
      { opcode := .push, type1 := .int32, literal := some (.int32 n) }
    let g : FlowGraph := {
      nodes := #[
        { kind := .conditional ⟨[push 0], .plain⟩, branches := [⟨1⟩, ⟨2⟩, ⟨3⟩] },
        { kind := .block {} },
        { kind := .block ⟨[push 5], .plain⟩ },
        { kind := .block ⟨[push 6], .plain⟩ }]
      entry := ⟨0⟩ }
    ∃ t, (liftGraph {} g).result = .ok t ∧
      t.conditional? ⟨2⟩ = some [⟨1⟩, ⟨3⟩, ⟨4⟩, ⟨5⟩, ⟨6⟩] ∧
      ∃ n blocks fromTrue fromFalse, [⟨1⟩, ⟨3⟩, ⟨4⟩, ⟨5⟩, ⟨6⟩] = blocks ++ fromTrue ++ fromFalse ∧
        (Moment.after {} g n).FillsArms {} ⟨2⟩ blocks fromTrue fromFalse := by
  intro push g
  have hchildren : (liftGraph {} g).result.map (·.conditional? ⟨2⟩) =
      .ok (some [⟨1⟩, ⟨3⟩, ⟨4⟩, ⟨5⟩, ⟨6⟩]) := by decide +kernel
  obtain ⟨t, hok, hs⟩ := exists_of_map_eq_ok hchildren
  exact ⟨t, hok, hs, liftGraph_armValues (Or.inl hok) hs (by decide)⟩

/-- **A conditional takes two values of one arm.** The true arm is two blocks with a number each.
The conditional has both of its values when the visits of this arm are made, and the false arm has
none to give. -/
theorem conditional_takes_both :
    let push (n : Int32) : Instruction :=
      { opcode := .push, type1 := .int32, literal := some (.int32 n) }
    let g : FlowGraph := {
      nodes := #[
        { kind := .conditional ⟨[push 0], .plain⟩, branches := [⟨1⟩, ⟨2⟩, ⟨4⟩] },
        { kind := .block {} },
        { kind := .block ⟨[push 5], .plain⟩, branches := [⟨3⟩] },
        { kind := .block ⟨[push 6], .plain⟩ },
        { kind := .block ⟨[], .ifCondition⟩ }]
      entry := ⟨0⟩ }
    (∃ t, (liftGraph {} g).result = .ok t ∧
      t.conditional? ⟨2⟩ = some [⟨1⟩, ⟨3⟩, ⟨4⟩, ⟨5⟩, ⟨6⟩]) ∧
      (Moment.after {} g 0).FillsArms {} ⟨2⟩ [⟨1⟩, ⟨3⟩, ⟨4⟩] [⟨5⟩, ⟨6⟩] [] := by
  intro push g
  have hchildren : (liftGraph {} g).result.map (·.conditional? ⟨2⟩) =
      .ok (some [⟨1⟩, ⟨3⟩, ⟨4⟩, ⟨5⟩, ⟨6⟩]) := by decide +kernel
  refine ⟨exists_of_map_eq_ok hchildren, ?_⟩
  let s : Assembly := { graph := g }
  let v : Visit := { container := Tree.root, node := ⟨0⟩ }
  let trueArm := v.armOf ⟨2⟩ ⟨3⟩ ⟨2⟩
  let falseArm := v.armOf ⟨2⟩ ⟨4⟩ ⟨4⟩
  let s₀ := (visit {} (fragment {} 0) v s).state
  let s₁ := (walk {} 5 [trueArm] s₀).state
  let s₂ := (walk {} 5 [falseArm] s₁).state
  have hvisits : Visits {} 0 v s [trueArm, falseArm, v.goTo ⟨1⟩] s₀ := ⟨by decide +kernel, rfl⟩
  have htrue : Walks {} 5 [trueArm] s₀ s₁ := ⟨by decide +kernel, rfl⟩
  have hfalse : Walks {} 5 [falseArm] s₁ s₂ := ⟨by decide +kernel, rfl⟩
  have hnew : ¬ Tree.new.Holds ⟨2⟩ := (by decide : ¬ 2 < 1)
  refine ⟨⟨1⟩, trueArm, falseArm, s₀, s₁, s₂, rfl, ?_, ⟨5, htrue⟩, by decide +kernel, ⟨5, hfalse⟩,
    by decide +kernel⟩
  exact ⟨rfl, ⟨v, [], _, _, _, 0, rfl, rfl, rfl, rfl, rfl, hvisits⟩, hnew, by decide +kernel⟩

end GmlLift
