import Mathlib.Data.List.Forall2
import GmlLift.Proofs.Execution.Cursor
import GmlLift.Proofs.Source.Trees

/-!
# Running the code of expressions

`Passes` says that the machine goes through a piece of code, whatever comes before and after it.
Results, for code between tame code:
* `Place.reached`: a variable is reached through the operands of its place.
* `Expr.evaluates`: the code of an expression leaves its tree on the stack.
* `Place.prepares`: the code of the operands of a place leaves their trees there.
-/

namespace GmlLift

namespace Source

open Machine

variable {cfg : Settings} {container : NodeId} {base : Nat}

/-! ## Pieces of code -/

/-- **The machine goes through a piece of code** that stands between other code. -/
def Passes (cfg : Settings) (container : NodeId) (behind code rest : List Instruction)
    (m m' : Machine) : Prop :=
  executeFrom cfg container 0 behind (code ++ rest) m =
    executeFrom cfg container 0 (code.reverse ++ behind) rest m'

theorem Passes.append {behind code more rest : List Instruction} {m m₁ m' : Machine}
    (h : Passes cfg container behind code (more ++ rest) m m₁)
    (h' : Passes cfg container (code.reverse ++ behind) more rest m₁ m') :
    Passes cfg container behind (code ++ more) rest m m' := by
  unfold Passes at h h' ⊢
  rw [List.append_assoc, h, h', List.reverse_append, List.append_assoc]

section Quiet

variable (quiet : cfg.verbosity = none)

include quiet

theorem passes_of_advances {behind window rest : List Instruction} {i : Instruction} {skip : Nat}
    {m m' : Machine} (h : Advances cfg container behind i (window ++ rest) m skip m')
    (hs : skip = window.length) : Passes cfg container behind (i :: window) rest m m' := by
  subst hs
  show executeFrom cfg container 0 behind (i :: (window ++ rest)) m = _
  rw [executeFrom, bind_quiet (step_of_advances quiet h), executeFrom_skip, List.take_left,
    List.drop_left, List.reverse_cons, List.append_assoc]
  rfl

theorem passes_of_performs {behind rest : List Instruction} {i : Instruction} {m m' : Machine}
    (hi : incrementAt? cfg behind i rest = none) (h : Performs cfg container i m m') :
    Passes cfg container behind [i] rest m m' :=
  passes_of_advances quiet (.performed hi h) rfl

/-- An instruction that does not push a 1 is the centre of no window. -/
theorem passes_of_not_isOne {i : Instruction} {m m' : Machine} (hone : Increment.isOne i = false)
    (h : Performs cfg container i m m') (behind rest : List Instruction) :
    Passes cfg container behind [i] rest m m' := by
  refine passes_of_performs quiet ?_ h
  unfold incrementAt? Increment.find?
  rw [hone]
  simp

end Quiet

theorem clear_of_opcode {i : Instruction} (hd : i.opcode ≠ .dup) (hp : i.opcode ≠ .pop)
    (ha : i.opcode ≠ .add) (hs : i.opcode ≠ .sub) (rest : List Instruction) :
    Clear (i :: rest) :=
  StartsWell.clear ⟨i, [], rfl, isTame_of_opcode hd hp, stepOp?_of_opcode ha hs⟩ rest

/-! ## Variables -/

/-- The trees of the expressions through which a place is reached, the last one first. -/
def Place.OperandsShown (cfg : Settings) (t : Tree) (base : Nat) : Place → List NodeId → Prop
  | .named _ _, ids => ids = []
  | .member _ _ object, ids => ∃ o, ids = [o] ∧ object.Shown cfg t base o
  | .element _ _ object index, ids =>
    ∃ i o, ids = [i, o] ∧ object.Shown cfg t base o ∧ index.Shown cfg t base i

theorem Place.OperandsShown.length_eq {t : Tree} {place : Place} {ids : List NodeId}
    (h : place.OperandsShown cfg t base ids) : ids.length = place.width := by
  cases place with
  | named x hx =>
    rw [h]
    rfl
  | member x hx object =>
    obtain ⟨o, rfl, -⟩ := h
    rfl
  | element x hx object index =>
    obtain ⟨i, o, rfl, -, -⟩ := h
    rfl

theorem Place.OperandsShown.mono {t t' : Tree} {place : Place} {ids statements : List NodeId}
    (hc : container.index < base) (hx : t.Extends container t' statements)
    (h : place.OperandsShown cfg t base ids) : place.OperandsShown cfg t' base ids := by
  cases place with
  | named x hx => exact h
  | member x _ object =>
    obtain ⟨o, rfl, ho⟩ := h
    exact ⟨o, rfl, ho.mono hc hx⟩
  | element x _ object index =>
    obtain ⟨i, o, rfl, ho, hi⟩ := h
    exact ⟨i, o, rfl, ho.mono hc hx, hi.mono hc hx⟩

theorem Place.Shown.isVar {t : Tree} {place : Place} {id : NodeId}
    (h : place.Shown cfg t base id) :
    ∃ target addressing left children mark,
      t.get? id = some ⟨.var target addressing left, children, mark⟩ := by
  cases h with
  | named h _ | member h _ | element _ h _ _ | cell _ h _ _ _ =>
    obtain ⟨-, mark, hn⟩ := h
    exact ⟨_, _, _, _, mark, hn⟩

/-- **A variable is reached through its operands**, and gets a node. -/
structure Place.Reached (cfg : Settings) (base : Nat) (place : Place) (i : Instruction) (t : Tree)
    (ids items : List NodeId) (a : Access) (t' : Tree) : Prop where
  accesses : Accesses cfg i ⟨t, ⟨ids ++ items⟩⟩ a ⟨t', ⟨items⟩⟩
  grows : t.Grows t'
  shown : place.Shown cfg t' base a.node
  unmarked : t'.Unmarked a.node
  fresh : ¬ t.Holds a.node
  addressing : a.addressing = place.variable.addressing
  plainOwner : (∀ id ∈ ids, t.Unmarked id) → t'.Unmarked a.owner
  owner : 0 < place.width → a.owner ∈ ids

theorem Place.reached {t : Tree} {place : Place} {ids : List NodeId} {i : Instruction}
    (href : i.reference = some ⟨place.variable.target, place.variable.addressing⟩)
    (howner : i.owner = place.variable.owner) (hc : container.index < base) (hbase : base ≤ t.size)
    (h : place.OperandsShown cfg t base ids) (items : List NodeId) :
    ∃ a t', place.Reached cfg base i t ids items a t' := by
  cases place with
  | named x hx =>
    cases h
    have hbase₁ : base ≤ (t.add (.owner x.owner.code) []).size := by
      rw [Tree.size_add]
      omega
    have hr : Reaches cfg i.owner x.addressing ⟨t, ⟨items⟩⟩ t.nextId []
        ⟨t.add (.owner x.owner.code) [], ⟨items⟩⟩ := by
      rw [howner]
      exact .named hx.1 hx.2.1 hx.2.2
    have hgrows := Tree.grows_add (t.add (.owner x.owner.code) [])
      (.var x.target x.addressing (some t.nextId)) []
    have hfresh : ¬ t.Holds (t.add (.owner x.owner.code) []).nextId := fun h =>
      Tree.not_holds_nextId _ ((Tree.extends_add container ..).holds h)
    refine ⟨_, _, .intro href hr, (Tree.grows_add ..).trans hgrows, ?_, Tree.unmarked_add ..,
      hfresh, rfl, fun _ => (Tree.unmarked_add ..).mono hgrows, fun h => absurd h (Nat.lt_irrefl 0)⟩
    exact .named (Tree.hasNode_add hbase₁ ..)
      ((Tree.hasNode_add hbase ..).mono hc (hgrows.extends container))
  | member x hx object =>
    obtain ⟨o, rfl, ho⟩ := h
    have hr : Reaches cfg i.owner x.addressing ⟨t, ⟨o :: items⟩⟩ o [] ⟨t, ⟨items⟩⟩ := by
      rw [howner]
      exact .member hx
    have hgrows := Tree.grows_add t (.var x.target x.addressing (some o)) []
    refine ⟨_, _, .intro href hr, hgrows, ?_, Tree.unmarked_add .., t.not_holds_nextId, rfl,
      fun hu => (hu o List.mem_cons_self).mono hgrows, fun _ => List.mem_cons_self⟩
    exact .member (Tree.hasNode_add hbase ..) (ho.mono hc (hgrows.extends container))
  | element x hx object index =>
    obtain ⟨j, o, rfl, ho, hi⟩ := h
    have hr : Reaches cfg i.owner x.addressing ⟨t, ⟨j :: o :: items⟩⟩ o
        (Machine.indexParts cfg t j) ⟨t, ⟨items⟩⟩ := by
      rw [howner]
      exact .element hx.1 hx.2
    have hmem : o ∈ [j, o] := List.mem_cons_of_mem _ List.mem_cons_self
    have hgrows := Tree.grows_add t (.var x.target x.addressing (some o))
      (Machine.indexParts cfg t j)
    refine ⟨_, _, .intro href hr, hgrows, ?_, Tree.unmarked_add .., t.not_holds_nextId, rfl,
      fun hu => (hu o hmem).mono hgrows, fun _ => hmem⟩
    have hx' := hgrows.extends container
    have hnode := Tree.hasNode_add hbase (.var x.target x.addressing (some o))
      (Machine.indexParts cfg t j)
    rcases hi.indexParts with ⟨hp, hparts⟩ | ⟨row, column, r, c, hp, hparts, hrow, hcolumn⟩
    · rw [hparts] at hnode hx' ⊢
      exact .element hp hnode (ho.mono hc hx') (hi.mono hc hx')
    · rw [hparts] at hnode hx' ⊢
      exact .cell hp hnode (ho.mono hc hx') (hrow.mono hc hx') (hcolumn.mono hc hx')

/-! ## Expressions -/

/-- **The code of an expression leaves its tree on the stack**, as a new node that has not been
copied, and changes nothing that was there. -/
def Expr.Evaluates (cfg : Settings) (container : NodeId) (base : Nat) (e : Expr) : Prop :=
  ∀ ⦃behind rest : List Instruction⦄ ⦃t : Tree⦄ (items : List NodeId), base ≤ t.size →
    HeadTame behind → Clear rest →
    ∃ t' id, Passes cfg container behind e.code rest ⟨t, ⟨items⟩⟩ ⟨t', ⟨id :: items⟩⟩ ∧
      t.Grows t' ∧ e.Shown cfg t' base id ∧ t'.Unmarked id

/-- The code of the operands of a place leaves their trees on the stack. -/
def Place.Prepares (cfg : Settings) (container : NodeId) (base : Nat) (place : Place) : Prop :=
  ∀ ⦃behind rest : List Instruction⦄ ⦃t : Tree⦄ (items : List NodeId), base ≤ t.size →
    HeadTame behind → Clear rest →
    ∃ t' ids, Passes cfg container behind place.operands rest ⟨t, ⟨items⟩⟩ ⟨t', ⟨ids ++ items⟩⟩ ∧
      t.Grows t' ∧ place.OperandsShown cfg t' base ids ∧ ∀ id ∈ ids, t'.Unmarked id

section Expressions

variable (quiet : cfg.verbosity = none) (hc : container.index < base)

include quiet hc

omit hc in
theorem Constant.evaluates (c : Constant) : (Expr.constant c).Evaluates cfg container base := by
  intro behind rest t items hbase hb hr
  refine ⟨_, _, passes_of_performs quiet (incrementAt?_of_tame hb hr cfg _)
    (.pushLiteral c.fits rfl rfl), Tree.grows_add .., ?_, Tree.unmarked_add ..⟩
  exact .constant (Tree.hasNode_add hbase ..)

theorem Place.Prepares.read {place : Place} (h : place.Prepares cfg container base)
    (via : PushOp) : (Expr.read via place).Evaluates cfg container base := by
  intro behind rest t items hbase hb hr
  obtain ⟨t₁, ids, hpass, hg, hshown, -⟩ :=
    h items hbase hb ((startsWell_push place.variable via []).clear rest)
  obtain ⟨a, t', ha⟩ := Place.reached (i := place.variable.push via) rfl rfl hc
    (Nat.le_trans hbase hg.size_le) hshown items
  refine ⟨t', a.node, hpass.append ?_, hg.trans ha.grows, .read ha.shown, ha.unmarked⟩
  exact passes_of_not_isOne quiet rfl (.pushVariable via.2 rfl ha.accesses) _ _

theorem Expr.Evaluates.unary {e : Expr} (h : e.Evaluates cfg container base) (op : UnaryOp)
    (type : DataType) : (Expr.unary op type e).Evaluates cfg container base := by
  intro behind rest t items hbase hb hr
  have hclear : Clear ({ opcode := op.opcode, type1 := type } :: rest) := by
    apply clear_of_opcode <;> cases op <;> simp [UnaryOp.opcode]
  obtain ⟨t₁, a, hpass, hg, hshown, -⟩ := h items hbase hb hclear
  have hg' := Tree.grows_add t₁ (.unary op type) [a]
  refine ⟨_, _, hpass.append (passes_of_not_isOne quiet ?_ (.operateOne rfl) _ _),
    hg.trans hg', ?_, Tree.unmarked_add ..⟩
  · exact Bool.and_false _
  · exact .unary (Tree.hasNode_add (Nat.le_trans hbase hg.size_le) ..)
      (hshown.mono hc (hg'.extends container))

omit quiet hc in
theorem performs_operator (op : BinaryOp) (t : Tree) (left right : NodeId)
    (items : List NodeId) :
    Performs cfg container (operator op) ⟨t, ⟨right :: left :: items⟩⟩
      ⟨t.add (.binary op) [left, right], ⟨t.nextId :: items⟩⟩ := by
  refine .operate ?_ ?_
  · cases op <;> rfl
  · cases op with
    | compare c => cases c <;> rfl
    | _ => rfl

theorem Expr.Evaluates.binary {left right : Expr} (hl : left.Evaluates cfg container base)
    (hr : right.Evaluates cfg container base) (op : BinaryOp) :
    (Expr.binary op left right).Evaluates cfg container base := by
  intro behind rest t items hbase hb hrest
  have hclear : Clear (operator op :: rest) := clear_cons (isTame_operator op) hrest.1
  obtain ⟨t₁, a, hpass₁, hg₁, ha, -⟩ := hl items hbase hb (right.startsWell.clear _)
  have hbase₁ := Nat.le_trans hbase hg₁.size_le
  obtain ⟨t₂, b, hpass₂, hg₂, hb', -⟩ := hr (a :: items) hbase₁ (left.endsWell.headTame _) hclear
  have hbase₂ := Nat.le_trans hbase₁ hg₂.size_le
  have hg₃ := Tree.grows_add t₂ (.binary op) [a, b]
  refine ⟨_, _, (Passes.append hpass₁ hpass₂).append ?_, (hg₁.trans hg₂).trans hg₃, ?_,
    Tree.unmarked_add ..⟩
  · exact passes_of_not_isOne quiet rfl (performs_operator op ..) _ _
  · exact .binary (Tree.hasNode_add hbase₂ ..)
      (ha.mono hc ((hg₂.trans hg₃).extends container)) (hb'.mono hc (hg₃.extends container))

omit quiet hc in
theorem headTame_arguments (es : List Expr) {behind : List Instruction} (hb : HeadTame behind) :
    HeadTame ((es.reverse.flatMap Expr.code).reverse ++ behind) := by
  cases es with
  | nil => exact hb
  | cons e es =>
    rw [List.reverse_cons, List.flatMap_append]
    refine (EndsWell.append ?_ _).headTame _
    rw [List.flatMap_singleton]
    exact e.endsWell

omit quiet in
/-- Arguments are evaluated from the last one to the first one, which ends on top. -/
theorem evaluates_arguments : ∀ {es : List Expr},
    (∀ e ∈ es, e.Evaluates cfg container base) →
    ∀ {behind rest : List Instruction} {t : Tree} (items : List NodeId), base ≤ t.size →
      HeadTame behind → Clear rest →
      ∃ t' ids, Passes cfg container behind (es.reverse.flatMap Expr.code) rest ⟨t, ⟨items⟩⟩
          ⟨t', ⟨ids ++ items⟩⟩ ∧
        t.Grows t' ∧ List.Forall₂ (Expr.Shown cfg t' base) es ids
  | [], _, _, _, t, _, _, _, _ => ⟨t, [], rfl, .refl t, .nil⟩
  | e :: es, h, behind, rest, t, items, hbase, hb, hr => by
    obtain ⟨he, hes⟩ := List.forall_mem_cons.mp h
    obtain ⟨t₁, ids, hpass₁, hg₁, hids⟩ :=
      evaluates_arguments hes items hbase hb (e.startsWell.clear rest)
    obtain ⟨t₂, id, hpass₂, hg₂, hid, -⟩ :=
      he (ids ++ items) (Nat.le_trans hbase hg₁.size_le) (headTame_arguments es hb) hr
    refine ⟨t₂, id :: ids, ?_, hg₁.trans hg₂,
      .cons hid (hids.imp fun _ _ hs => hs.mono hc (hg₂.extends container))⟩
    rw [List.reverse_cons, List.flatMap_append, List.flatMap_singleton]
    exact hpass₁.append hpass₂

omit quiet hc in
theorem forall₂_ofFn {α β : Type} {R : α → β → Prop} : ∀ {n : Nat} {f : Fin n → α} {l : List β},
    List.Forall₂ R (List.ofFn f) l → ∃ g : Fin n → β, l = List.ofFn g ∧ ∀ k, R (f k) (g k)
  | 0, f, l, h => by
    rw [List.ofFn_zero] at h
    cases h
    exact ⟨fun k => k.elim0, rfl, fun k => k.elim0⟩
  | n + 1, f, l, h => by
    rw [List.ofFn_succ] at h
    obtain ⟨b, bs, hb, hbs, rfl⟩ := List.forall₂_cons_left_iff.mp h
    obtain ⟨g, rfl, hg⟩ := forall₂_ofFn hbs
    refine ⟨Fin.cases b g, ?_, fun k => ?_⟩
    · rw [List.ofFn_succ]
      rfl
    · cases k using Fin.cases with
      | zero => exact hb
      | succ k => exact hg k

theorem evaluates_call {count : UInt16} {arguments : Fin count.toNat → Expr}
    (h : ∀ k, (arguments k).Evaluates cfg container base) (target : UInt32) :
    (Expr.call target count arguments).Evaluates cfg container base := by
  intro behind rest t items hbase hb hr
  have hcode : (Expr.call target count arguments).code =
      (List.ofFn arguments).reverse.flatMap Expr.code ++
        [{ opcode := .call, function := some target, argumentCount := count }] := by
    rw [Expr.code, List.flatMap_def, List.map_reverse, List.map_ofFn]
    rfl
  have hall : ∀ e ∈ List.ofFn arguments, e.Evaluates cfg container base := by
    intro e he
    obtain ⟨k, rfl⟩ := List.mem_ofFn.mp he
    exact h k
  obtain ⟨t₁, ids, hpass, hg, hids⟩ := evaluates_arguments hc hall items hbase hb
    (clear_of_opcode (i := { opcode := .call, function := some target, argumentCount := count })
      (by simp) (by simp) (by simp) (by simp) rest)
  have hlen : ids.length = count.toNat := by
    rw [← hids.length_eq, List.length_ofFn]
  obtain ⟨args, rfl, hargs⟩ := forall₂_ofFn hids
  have hg' := Tree.grows_add t₁ (.call target) (List.ofFn args)
  refine ⟨_, _, ?_, hg.trans hg', ?_, Tree.unmarked_add ..⟩
  · rw [hcode]
    exact hpass.append (passes_of_not_isOne quiet rfl (.call rfl rfl hlen) _ _)
  · exact .call (Tree.hasNode_add (Nat.le_trans hbase hg.size_le) ..)
      fun k => (hargs k).mono hc (hg'.extends container)

theorem evaluates_increment (step : Step) (side : Side) (via : PushOp) {x : Variable}
    (named : x.IsNamed) :
    (Expr.increment step side via x named).Evaluates cfg container base := by
  intro behind rest t items hbase hb hr
  have hops : (Place.named x named).OperandsShown cfg t base [] := rfl
  obtain ⟨a, t₁, ha⟩ := Place.reached (i := x.push via) rfl rfl hc hbase hops items
  have hpush : ∀ rest, Passes cfg container behind [x.push via] rest ⟨t, ⟨items⟩⟩
      ⟨t₁, ⟨a.node :: items⟩⟩ :=
    passes_of_not_isOne quiet rfl (.pushVariable via.2 rfl ha.accesses) behind
  cases side with
  | pre =>
    have htame : HeadTame (x.push via :: behind) := headTame_cons (isTame_push x via)
    have hpermuted := congrArg Window.permuted (preWindow_increment step x rest)
    have hspan := congrArg Window.span (preWindow_increment step x rest)
    have hwindow : Advances cfg container (x.push via :: behind) one
        ([operator step.op, copy .variant 0, x.pop .variant] ++ rest)
        ⟨t₁, ⟨a.node :: items⟩⟩ _ _ :=
      .pre (incrementAt?_pre htame cfg step x rest) hpermuted
    have hg := Tree.grows_add t₁ (.assign (.increment step.op .pre)) [a.node]
    refine ⟨_, _, (hpush _).append (passes_of_advances quiet hwindow hspan),
      ha.grows.trans hg, ?_, Tree.unmarked_add ..⟩
    exact .increment (Tree.hasNode_add (Nat.le_trans hbase ha.grows.size_le) ..)
      (ha.shown.mono hc (hg.extends container))
  | post =>
    obtain ⟨n, hn, -⟩ := ha.unmarked
    have hholds : ∀ id ∈ [a.node], t₁.Holds id := by simpa using Tree.holds_of_get? hn
    obtain ⟨t₂, hmark⟩ := markAll?_of_holds hholds
    obtain ⟨_, hset, hnil⟩ := markAll?_cons hmark
    cases hnil
    have hcopy : Performs cfg container (copy .variant 0) ⟨t₁, ⟨a.node :: items⟩⟩
        ⟨t₂, ⟨a.node :: a.node :: items⟩⟩ :=
      .duplicate rfl rfl (Nat.le_add_left 1 items.length) hmark
    have hspan := congrArg Window.span (postWindow_increment hr.1 step x)
    have hwindow : Advances cfg container (copy .variant 0 :: x.push via :: behind) one
        ([operator step.op, x.pop .variant] ++ rest) ⟨t₂, ⟨a.node :: a.node :: items⟩⟩ _ _ :=
      .post (incrementAt?_post cfg (x.push via) behind step x rest)
    -- the copy marks the variable, which is a new node
    have hg₂ := ha.grows.setDuplicated ha.fresh hset
    have hg := Tree.grows_add t₂ (.assign (.increment step.op .post)) [a.node]
    refine ⟨_, _, ((hpush _).append (passes_of_not_isOne quiet rfl hcopy _ _)).append
      (passes_of_advances quiet hwindow hspan), hg₂.trans hg, ?_, Tree.unmarked_add ..⟩
    have hshown := ha.shown.mono hc (Tree.extends_setDuplicated container hset)
    exact .increment (Tree.hasNode_add (Nat.le_trans hbase hg₂.size_le) ..)
      (hshown.mono hc (hg.extends container))

omit quiet hc in
theorem Expr.Evaluates.prepares {object : Expr} (h : object.Evaluates cfg container base)
    {x : Variable} (hx : x.IsMember) :
    (Place.member x hx object).Prepares cfg container base := by
  intro behind rest t items hbase hb hr
  obtain ⟨t', o, hpass, hg, ho, hu⟩ := h items hbase hb hr
  exact ⟨t', [o], hpass, hg, ⟨o, rfl, ho⟩, by simpa using hu⟩

omit quiet in
theorem Expr.Evaluates.prepares_element {object index : Expr}
    (ho : object.Evaluates cfg container base) (hi : index.Evaluates cfg container base)
    {x : Variable} (hx : x.IsElement) :
    (Place.element x hx object index).Prepares cfg container base := by
  intro behind rest t items hbase hb hr
  obtain ⟨t₁, o, hpass₁, hg₁, ho, hu⟩ := ho items hbase hb (index.startsWell.clear rest)
  obtain ⟨t₂, i, hpass₂, hg₂, hi, hv⟩ :=
    hi (o :: items) (Nat.le_trans hbase hg₁.size_le) (object.endsWell.headTame _) hr
  refine ⟨t₂, [i, o], hpass₁.append hpass₂, hg₁.trans hg₂,
    ⟨i, o, rfl, ho.mono hc (hg₂.extends container), hi⟩, ?_⟩
  simpa using ⟨hv, hu.mono hg₂⟩

end Expressions

mutual
/-- **The code of every expression leaves its tree on the stack.** -/
theorem Expr.evaluates (quiet : cfg.verbosity = none) (hc : container.index < base) :
    ∀ e : Expr, e.Evaluates cfg container base
  | .constant c => c.evaluates quiet
  | .read via place => (Place.prepares quiet hc place).read quiet hc via
  | .unary op type operand => (Expr.evaluates quiet hc operand).unary quiet hc op type
  | .binary op left right =>
    (Expr.evaluates quiet hc left).binary quiet hc (Expr.evaluates quiet hc right) op
  | .call target _ arguments =>
    evaluates_call quiet hc (fun k => Expr.evaluates quiet hc (arguments k)) target
  | .increment step side via _ named => evaluates_increment quiet hc step side via named
/-- **The code of the operands of every place leaves their trees on the stack.** -/
theorem Place.prepares (quiet : cfg.verbosity = none) (hc : container.index < base) :
    ∀ place : Place, place.Prepares cfg container base
  | .named _ _ => fun _ _ t _ _ _ _ => ⟨t, [], rfl, .refl t, rfl, by simp⟩
  | .member _ hx object => (Expr.evaluates quiet hc object).prepares hx
  | .element _ hx object index =>
    (Expr.evaluates quiet hc object).prepares_element hc (Expr.evaluates quiet hc index) hx
end

end Source

end GmlLift
