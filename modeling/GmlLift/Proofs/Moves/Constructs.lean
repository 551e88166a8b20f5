import GmlLift.Proofs.Moves.Instructions

/-!
# Constructs as moves

A visit is `Placed` when its container takes statements, its loop is a loop, and the conditional
around it is a child of its container or has become an expression. A later tree keeps this. What is
done for a construct is made of moves and calls for visits that are placed.
-/

namespace GmlLift

namespace Tree

/-- The conditional of an arm stands in its container, unless it has become an expression. -/
def Awaits (t : Tree) (arm : OpenIf) : Prop :=
  t.IsSort .conditional arm.statement ∧ ∃ n, t.get? arm.container = some n ∧
    n.kind.sort = .container ∧ (arm.statement ∈ n.children ∨ t.Ternary arm.statement)

theorem Awaits.mono {t t' : Tree} {arm : OpenIf} (h : t.Awaits arm) (hx : Evolves t t') :
    t'.Awaits arm := by
  obtain ⟨hs, n, hn, hsort, hinside⟩ := h
  obtain ⟨n', hn', hsort', -, hkept⟩ := hx.kept _ n hn
  refine ⟨hs.mono hx, n', hn', hsort'.trans hsort, ?_⟩
  rcases hinside with hmem | hternary
  · exact hkept _ hmem
  · exact Or.inr (hternary.mono hx)

end Tree

namespace Visit

/-- **What a visit needs of the tree.** -/
structure Placed (t : Tree) (v : Visit) : Prop where
  container : t.IsSort .container v.container
  loop : ∀ statement, v.loop = some statement → t.IsSort .loop statement
  openIf : ∀ arm, v.openIf = some arm → t.Awaits arm

namespace Placed

variable {t t' : Tree} {v : Visit}

theorem mono (h : v.Placed t) (hx : Tree.Evolves t t') : v.Placed t' where
  container := h.container.mono hx
  loop statement hs := (h.loop statement hs).mono hx
  openIf arm ha := (h.openIf arm ha).mono hx

/-- A visit without a construct around it. -/
theorem plain {container : NodeId} (h : t.IsSort .container container) (node : FlowRef) :
    Placed t { container, node } where
  container := h
  loop _ hs := nomatch hs
  openIf _ ha := nomatch ha

theorem goTo (h : v.Placed t) (node : FlowRef) : (v.goTo node).Placed t :=
  ⟨h.container, h.loop, h.openIf⟩

theorem goOn (h : v.Placed t) (branches : List FlowRef) : ∀ w ∈ v.goOn branches, w.Placed t := by
  intro w hw
  rw [Visit.goOn, Option.mem_toList, Option.map_eq_some_iff] at hw
  obtain ⟨node, -, rfl⟩ := hw
  exact h.goTo node

end Placed

open GmlLift.Action GmlLift.Machine Scene

variable {L : Licence} {cfg : Settings} {t : Tree} {held loose : Multiset NodeId}
  {container : NodeId} {v : Visit}

theorem does_branch {s : Scene} (branches : List FlowRef) (construct : Branching) (index : Nat) :
    Does L cfg (branch branches construct index) s fun _ s' => s' = s := by
  unfold branch
  split
  · exact .pure rfl
  · exact .fail _

theorem does_enclosingLoop {s : Scene} (v : Visit) :
    Does L cfg v.enclosingLoop s fun statement s' => v.loop = some statement ∧ s' = s := by
  unfold enclosingLoop
  split
  · exact .pure ⟨‹_›, rfl⟩
  · exact .fail _

/-! ## Blocks -/

/-- The second value of a conditional makes it an expression. -/
theorem does_foldTernary {arm : OpenIf} (h : t.Awaits arm) :
    Does L cfg (foldTernary cfg arm) ⟨t, held, loose⟩ fun _ => Has held loose := by
  obtain ⟨⟨statement, hstatement, hsort⟩, n, hn, hcontainer, hinside⟩ := h
  have hne : arm.container ≠ arm.statement := by
    intro heq
    rw [heq, hstatement] at hn
    cases hn
    rw [hsort] at hcontainer
    cases hcontainer
  refine .state_bind fun stack => ?_
  simp only [hstatement]
  split
  · rename_i heq
    cases heq
  · rename_i depth children duplicated heq
    cases heq
    split
    · rename_i hcond
      simp only [Bool.and_eq_true, decide_eq_true_eq] at hcond
      obtain ⟨⟨-, hlow⟩, hhigh⟩ := hcond
      refine (does_popFor "ternary value").bind ?_
      rintro value _ rfl - -
      refine (does_give hstatement (Or.inr (Or.inr ⟨hsort, hlow, hhigh⟩))).bind ?_
      rintro _ ⟨t₁, _, _⟩ ⟨⟨rfl, rfl⟩, hreplaces⟩ - -
      split
      · rename_i hsize
        -- the conditional was no expression before, so it is still in its container
        have hn₁ : t₁.get? arm.container = some n := (hreplaces.of_ne hne).trans hn
        have hternary : t₁.Ternary arm.statement :=
          ⟨_, hreplaces.new, hsort, by simpa using hsize⟩
        have hmem : arm.statement ∈ n.children := by
          rcases hinside with hmem | ⟨m, hm, -, hlen⟩
          · exact hmem
          · cases hstatement.symm.trans hm
            exact absurd hlen (Nat.not_le.mpr hhigh)
        obtain ⟨t₂, ht₂⟩ := Tree.removeChild?_of_get? hn₁ arm.statement
        refine (does_edit ⟨t₂, arm.statement ::ₘ _, _⟩ (by rw [ht₂]; rfl)
          (.rewire (.fold hternary hn₁ hcontainer hmem ht₂))).bind ?_
        rintro _ _ rfl - -
        refine (does_push arm.statement).bind ?_
        rintro _ _ rfl - -
        exact (does_describe _ _ _).has
      · exact .pure ⟨rfl, rfl⟩
    · exact .pure ⟨rfl, rfl⟩
  · exact .pure ⟨rfl, rfl⟩

theorem does_markContinued {statement : NodeId} (h : t.IsSort .loop statement) :
    Does L cfg (markContinued statement) ⟨t, held, loose⟩ fun _ => Has held loose := by
  obtain ⟨n, hn, hsort⟩ := h
  refine .state_bind fun stack => ?_
  simp only [hn]
  split
  · rename_i heq
    cases heq
  · rename_i continued children duplicated heq
    cases heq
    have hsome : (t.setKind? statement (.whileLoop true)).isSome :=
      Tree.isSome_update?_iff.mpr (Tree.holds_of_get? hn)
    obtain ⟨t₁, ht₁⟩ := Option.isSome_iff_exists.mp hsome
    exact (does_edit ⟨t₁, held, loose⟩ ht₁ (.rewire (.note hn rfl ht₁))).has
  · exact .pure ⟨rfl, rfl⟩

/-- **What a block does for the construct around it is made of moves.** -/
theorem does_finishBlock (hv : v.Placed t) (role : Role) :
    Does L cfg (v.finishBlock cfg role) ⟨t, held, loose⟩ fun _ => Has held loose := by
  cases role with
  | breakOut => exact does_makeEmpty hv.container .breakStmt (by decide)
  | switchDefault => exact does_makeEmpty hv.container .switchDefault (by decide)
  | ifCondition | withExpression | repeatExpression => exact .pure ⟨rfl, rfl⟩
  | continueOn =>
    refine (does_makeEmpty hv.container .continueStmt (by decide)).bind ?_
    rintro _ ⟨t₁, _, _⟩ ⟨rfl, rfl⟩ hx -
    refine (does_enclosingLoop v).bind ?_
    rintro statement _ ⟨hloop, rfl⟩ - -
    exact does_markContinued ((hv.loop statement hloop).mono hx)
  | loopCondition =>
    refine (does_enclosingLoop v).bind ?_
    rintro statement _ ⟨hloop, rfl⟩ - -
    obtain ⟨n, hn, hsort⟩ := hv.loop statement hloop
    refine (does_popFor "loop condition").bind ?_
    rintro condition _ rfl - -
    exact (does_give hn (Or.inr (Or.inl hsort))).mono fun _ _ h => h.1
  | switchExpression =>
    obtain ⟨n, hn, hsort⟩ := hv.container
    refine (does_popFor "switch expression").bind ?_
    rintro expression _ rfl - -
    obtain ⟨t₁, ht₁⟩ := Tree.insertChild?_of_get? hn expression
    exact (does_edit ⟨t₁, held, loose⟩ ht₁ (.rewire (.lead hn hsort ht₁))).has
  | switchCase =>
    refine (does_popFor "switch case").bind ?_
    rintro expression _ rfl - -
    rw [← coe_singleton_add]
    exact does_makeIn hv.container .switchCase [expression] (by decide) (Nat.le_succ 1)
  | plain =>
    simp only [finishBlock]
    split
    · rename_i arm harm
      exact does_foldTernary (hv.openIf arm harm)
    · exact .pure ⟨rfl, rfl⟩

/-! ## Conditionals, loops and switches -/

/-- A statement is made and gets its place at once. -/
theorem does_new_bind {α : Type} {parent : NodeId} {n : Node} (hn : t.get? parent = some n)
    (hp : n.TakesStatement L) (kind : Kind) (children : List NodeId)
    (hs : kind.sort ≠ .expression) (hlen : children.length ≤ 2)
    {f : NodeId → Action Machine α} {post : α → Scene → Prop}
    (hf : ∀ t', Tree.Evolves t t' → t'.get? t.nextId = some { kind, children } →
      t'.get? parent = some { n with children := n.children ++ [t.nextId] } →
      Does L cfg (f t.nextId) ⟨t', held, loose⟩ post) :
    Does L cfg (do let id ← make kind children; append parent id; f id)
      ⟨t, children + held, loose⟩ post := by
  have hparent : t.Holds parent := Tree.holds_of_get? hn
  refine (does_make_statement kind children hs hlen).bind ?_
  rintro _ _ ⟨rfl, rfl⟩ hx -
  have hn₁ := (Tree.get?_add_of_lt hparent kind children).trans hn
  refine (does_attach hn₁ hp hparent).bind ?_
  rintro _ ⟨t', _, _⟩ ⟨⟨rfl, rfl⟩, hreplaces⟩ hx' -
  have hne : t.nextId ≠ parent := by
    rintro rfl
    exact t.not_holds_nextId hparent
  refine hf t' (hx.trans hx') ?_ hreplaces.new
  exact (hreplaces.of_ne hne).trans (Tree.get?_add_nextId t kind children)

/-- The same for a block. -/
theorem does_newBlock_bind {α : Type} {parent : NodeId} {n : Node} (hn : t.get? parent = some n)
    (hp : n.TakesStatement L) {f : NodeId → Action Machine α} {post : α → Scene → Prop}
    (hf : ∀ t', Tree.Evolves t t' → t'.IsSort .container t.nextId →
      t'.get? parent = some { n with children := n.children ++ [t.nextId] } →
      Does L cfg (f t.nextId) ⟨t', held, loose⟩ post) :
    Does L cfg (do let id ← make .block; append parent id; f id) ⟨t, held, loose⟩ post := by
  refine .of_eq ?_ (does_new_bind hn hp .block [] (by decide) (Nat.zero_le 2)
    fun t' hx hnew hn' => hf t' hx ⟨_, hnew, rfl⟩ hn')
  rw [Multiset.coe_nil, zero_add]

/-- The visits that a construct calls for: they are placed, and the hand is as it was. -/
def Called (held loose : Multiset NodeId) (next : List Visit) (s : Scene) : Prop :=
  s.Has held loose ∧ ∀ w ∈ next, w.Placed s.tree

theorem does_openConditional (hv : v.Placed t) {branches : List FlowRef}
    (hL : 3 ≤ branches.length → L.elses) :
    Does L cfg (v.openConditional branches) ⟨t, held, loose⟩ (Called held loose) := by
  obtain ⟨n, hn, hsort⟩ := hv.container
  refine (does_branch branches .conditional 0).bind ?_
  rintro continuation _ rfl - -
  refine (does_branch branches .conditional 1).bind ?_
  rintro trueArm _ rfl - -
  refine (does_popFor "if condition").bind ?_
  rintro condition _ rfl - -
  refine .state_bind fun stack => ?_
  rw [← coe_singleton_add]
  refine does_new_bind hn (Or.inl hsort) (.conditional stack.depth) [condition]
    (fun h => nomatch h) (Nat.le_succ 1) fun t₁ hx₁ hnew hn₁ => ?_
  have hawaits : t₁.Awaits ⟨t.nextId, v.container⟩ :=
    ⟨⟨_, hnew, rfl⟩, _, hn₁, hsort, Or.inl (List.mem_append_right _ List.mem_cons_self)⟩
  -- an arm goes to a block of its own
  have harm {t' : Tree} (hx : Tree.Evolves t t') (ha : t'.Awaits ⟨t.nextId, v.container⟩)
      {block : NodeId} (hb : t'.IsSort .container block) (node : FlowRef) :
      Placed t' { v with container := block, node, openIf := some ⟨t.nextId, v.container⟩ } :=
    ⟨hb, (hv.mono hx).loop, fun _ h => Option.some.inj h ▸ ha⟩
  refine does_newBlock_bind hnew (Or.inr (Or.inr ⟨rfl, Or.inl Nat.one_lt_two⟩))
    fun t₂ hx₂ htrue hn₂ => ?_
  split
  · rename_i falseArm hfalse
    have hlen : 3 ≤ branches.length := (List.getElem?_eq_some_iff.mp hfalse).1
    refine does_newBlock_bind hn₂ (Or.inr (Or.inr ⟨rfl, Or.inr ⟨hL hlen, by simp⟩⟩))
      fun t₃ hx₃ hfalse hn₃ => ?_
    have hx := hx₁.trans (hx₂.trans hx₃)
    refine .pure ⟨⟨rfl, rfl⟩, fun w hw => ?_⟩
    simp only [List.mem_cons, List.not_mem_nil, or_false] at hw
    rcases hw with rfl | rfl | rfl
    · exact harm hx (hawaits.mono (hx₂.trans hx₃)) (htrue.mono hx₃) trueArm
    · exact harm hx (hawaits.mono (hx₂.trans hx₃)) hfalse falseArm
    · exact (hv.mono hx).goTo continuation
  · refine .pure ⟨⟨rfl, rfl⟩, fun w hw => ?_⟩
    simp only [List.mem_cons, List.not_mem_nil, or_false] at hw
    rcases hw with rfl | rfl
    · exact harm (hx₁.trans hx₂) (hawaits.mono hx₂) htrue trueArm
    · exact (hv.mono (hx₁.trans hx₂)).goTo continuation

theorem does_makeLoop (kind : LoopKind) :
    Does L cfg (makeLoop kind) ⟨t, held, loose⟩
      fun id s => id = t.nextId ∧ s.Has held (id ::ₘ loose) ∧ s.tree.IsSort .loop id := by
  have hmake {kind : Kind} (hs : kind.sort = .loop) (operands : List NodeId)
      (hlen : operands.length ≤ 2) : Does L cfg (make kind operands) ⟨t, operands + held, loose⟩
        fun id s => id = t.nextId ∧ s.Has held (id ::ₘ loose) ∧ s.tree.IsSort .loop id := by
    refine (does_make_statement kind operands (by rw [hs]; decide) hlen).mono ?_
    rintro _ _ ⟨rfl, rfl⟩
    exact ⟨rfl, ⟨rfl, rfl⟩, _, Tree.get?_add_nextId t kind operands, hs⟩
  have hoperand {kind : Kind} (hs : kind.sort = .loop) (construct : String) :
      Does L cfg (do let operand ← popFor construct; make kind [operand]) ⟨t, held, loose⟩
        fun id s => id = t.nextId ∧ s.Has held (id ::ₘ loose) ∧ s.tree.IsSort .loop id := by
    refine (does_popFor construct).bind ?_
    rintro operand _ rfl - -
    rw [← coe_singleton_add]
    exact hmake hs [operand] (Nat.le_succ 1)
  cases kind with
  | whileLoop | forLoop | doUntilLoop =>
    exact .of_eq (by rw [Multiset.coe_nil, zero_add]) (hmake rfl [] (Nat.zero_le 2))
  | repeatLoop => exact hoperand rfl "repeat count"
  | withLoop => exact hoperand rfl "with target"

/-- A loop without a place gets its body and then its place. -/
theorem does_openBody (hv : v.Placed t) {statement : NodeId} (hs : t.IsSort .loop statement)
    (hlt : v.container.index < statement.index) (branches : List FlowRef) :
    Does L cfg (v.openBody statement branches) ⟨t, held, statement ::ₘ loose⟩
      fun body s => s.Has held loose ∧ body.Placed s.tree := by
  obtain ⟨n, hn, hsort⟩ := hs
  refine does_newBlock_bind hn (Or.inr (Or.inl hsort)) fun t₁ hx₁ hbody hn₁ => ?_
  obtain ⟨c, hc, hcontainer⟩ := hv.container.mono hx₁
  refine (does_attach hc (Or.inl hcontainer) hlt).bind ?_
  rintro _ ⟨t₂, _, _⟩ ⟨⟨rfl, rfl⟩, -⟩ hx₂ -
  refine (does_branch branches .loop 1).bind ?_
  rintro node _ rfl - -
  refine .pure ⟨⟨rfl, rfl⟩, hbody.mono hx₂, ?_, (hv.mono (hx₁.trans hx₂)).openIf⟩
  intro _ h
  cases h
  exact Tree.IsSort.mono ⟨_, hn₁, hsort⟩ hx₂

theorem does_openLoop (hv : v.Placed t) (kind : LoopKind) (branches : List FlowRef) :
    Does L cfg (v.openLoop kind branches) ⟨t, held, loose⟩ (Called held loose) := by
  refine (does_makeLoop kind).bind ?_
  rintro _ ⟨t₁, _, _⟩ ⟨rfl, ⟨rfl, rfl⟩, hloop⟩ hx₁ -
  have hlt : v.container.index < t.nextId.index := hv.container.holds
  split
  · refine (does_branch branches .forLoop 0).bind ?_
    rintro condition _ rfl - -
    refine (does_branch branches .forLoop 2).bind ?_
    rintro step _ rfl - -
    obtain ⟨n, hn, hsort⟩ := hloop
    refine does_newBlock_bind hn (Or.inr (Or.inl hsort)) fun t₂ hx₂ hstep hn₂ => ?_
    refine (does_openBody (hv.mono (hx₁.trans hx₂)) ⟨_, hn₂, hsort⟩ hlt branches).bind ?_
    rintro body ⟨t₃, _, _⟩ ⟨⟨rfl, rfl⟩, hbody⟩ hx₃ -
    have hx := hx₁.trans (hx₂.trans hx₃)
    refine .pure ⟨⟨rfl, rfl⟩, fun w hw => ?_⟩
    simp only [List.mem_cons, List.not_mem_nil, or_false] at hw
    rcases hw with rfl | rfl | rfl
    · exact hbody
    · exact ⟨hstep.mono hx₃, (hv.mono hx).loop, (hv.mono hx).openIf⟩
    · refine ⟨(hv.mono hx).container, fun _ h => ?_, (hv.mono hx).openIf⟩
      cases h
      exact Tree.IsSort.mono ⟨_, hn₂, hsort⟩ hx₃
  · refine (does_openBody (hv.mono hx₁) hloop hlt branches).bind ?_
    rintro body ⟨t₂, _, _⟩ ⟨⟨rfl, rfl⟩, hbody⟩ hx₂ -
    refine (does_branch branches .loop 0).bind ?_
    rintro continuation _ rfl - -
    refine .pure ⟨⟨rfl, rfl⟩, fun w hw => ?_⟩
    simp only [List.mem_cons, List.not_mem_nil, or_false] at hw
    rcases hw with rfl | rfl
    · exact hbody
    · exact (hv.mono (hx₁.trans hx₂)).goTo continuation

theorem does_openSwitch (hv : v.Placed t) (branches : List FlowRef) :
    Does L cfg (v.openSwitch branches) ⟨t, held, loose⟩ (Called held loose) := by
  obtain ⟨n, hn, hsort⟩ := hv.container
  refine .of_eq ?_ (does_new_bind hn (Or.inl hsort) .switch [] (by decide) (Nat.zero_le 2)
    fun t₁ hx hnew hn₁ => .pure ⟨⟨rfl, rfl⟩, fun w hw => ?_⟩)
  · rw [Multiset.coe_nil, zero_add]
  · have hv₁ := hv.mono hx
    rcases List.mem_append.mp hw with hw | hw
    · obtain ⟨node, -, rfl⟩ := List.mem_map.mp hw
      exact ⟨⟨_, hnew, rfl⟩, hv₁.loop, hv₁.openIf⟩
    · exact hv₁.goOn branches w hw

end Visit

end GmlLift
