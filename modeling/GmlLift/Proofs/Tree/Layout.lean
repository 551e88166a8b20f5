import GmlLift.Proofs.Moves.Move
import Mathlib.Data.List.Forall2

/-!
# How the children of a node are laid out

Each kind of node gives its children their places. `Kind.arrangements` is the table: how many
children there are, and which place is for a value, for a block or for a variable.

A tree is lifted piece by piece, and it may have had nodes before. `Tree.Layout cfg own t` says that
every node that is the run's `own` is laid out. What a node needs to fill its place it keeps in
every later tree (`Tree.Retains`), so the layout of all other nodes outlives a new node
(`Layout.add`) and a change of one node (`Layout.replaces`).
-/

namespace GmlLift

/-- Is the node the owner of variables that an instruction names? -/
def Kind.isOwner : Kind → Bool
  | .owner _ => true
  | _ => false

def Kind.isVar : Kind → Bool
  | .var .. => true
  | _ => false

/-! ## The table -/

/-- A place among what a node refers to. -/
inductive Place where
  | any
  /-- For an expression. A conditional is one when it has the values of both of its arms. -/
  | operand
  /-- For an expression, or for an owner that an instruction names. -/
  | owner
  | target
  | block
  deriving DecidableEq, Repr

/-- The node can stand in the place. -/
def Place.Admits : Place → Node → Prop
  | .any, _ => True
  | .operand, n => ¬ n.IsStatement ∧ n.kind.isOwner = false
  | .owner, n => ¬ n.IsStatement
  | .target, n => n.kind.isVar = true
  | .block, n => n.kind = .block

instance : (place : Place) → (n : Node) → Decidable (place.Admits n)
  | .any, _ => inferInstanceAs (Decidable True)
  | .operand, _ => inferInstanceAs (Decidable (_ ∧ _))
  | .owner, _ => inferInstanceAs (Decidable (¬ _))
  | .target, _ | .block, _ => inferInstanceAs (Decidable (_ = _))

/-- Children in the given places, one for each, and behind them some more, all in the same kind of
place. -/
structure Arrangement where
  places : List Place := []
  rest : Place := .operand
  /-- How many more there can be. -/
  limit : Option Nat := some 0

/-- **The ways in which the children of a node can be arranged.** -/
def Kind.arrangements (cfg : Settings) : Kind → List Arrangement
  | .int16 .. | .int32 _ | .int64 _ | .double _ | .float _ | .boolean _ | .string _ => [{}]
  | .owner _ | .switchDefault | .breakStmt | .continueStmt | .exitStmt => [{}]
  | .var _ .array _ => [{ limit := some (if cfg.isLegacy then 2 else 1) }]
  | .var .. => [{}]
  | .binary _ => [{ places := [.operand, .operand] }]
  | .unary .. | .returnStmt | .switchCase => [{ places := [.operand] }]
  | .assign (.increment ..) => [{ places := [.operand] }]
  | .assign .plain | .assign (.compound _) => [{ places := [.target, .operand] }]
  | .call _ | .shortCircuit _ => [{ limit := none }]
  | .conditional _ =>
    [{ places := [.operand, .block] }, { places := [.operand, .block, .block], limit := some 2 }]
  | .whileLoop _ | .doUntilLoop => [{ places := [.block], limit := none }]
  | .forLoop => [{ places := [.block, .block], limit := none }]
  | .repeatLoop | .withLoop => [{ places := [.operand, .block], limit := none }]
  | .block | .switch => [{ rest := .any, limit := none }]

/-- The children are arranged in this way, where `fills` says what stands in a place. -/
def Arrangement.Suits (a : Arrangement) (fills : Place → NodeId → Prop) (children : List NodeId) :
    Prop :=
  ∃ front back, children = front ++ back ∧ List.Forall₂ fills a.places front ∧
    (∀ id ∈ back, fills a.rest id) ∧ ∀ most ∈ a.limit, back.length ≤ most

/-- A variable has an owner. -/
def Kind.Owned (fills : Place → NodeId → Prop) : Kind → Prop
  | .var _ _ left => ∃ owner, left = some owner ∧ fills .owner owner
  | _ => True

/-- **Everything that the node refers to is in its place.** -/
def Node.LaidOut (cfg : Settings) (fills : Place → NodeId → Prop) (n : Node) : Prop :=
  (∃ a ∈ n.kind.arrangements cfg, a.Suits fills n.children) ∧ n.kind.Owned fills

/-- The id is the id of a node that can stand in the place. -/
def Tree.Fills (t : Tree) (place : Place) (id : NodeId) : Prop :=
  ∃ n, t.get? id = some n ∧ place.Admits n

theorem Tree.Fills.holds {t : Tree} {place : Place} {id : NodeId} (h : t.Fills place id) :
    t.Holds id := by
  obtain ⟨n, hn, -⟩ := h
  exact Tree.holds_of_get? hn

/-- A node that still admits what it did: its kind is the same, and a conditional has not lost
children. -/
theorem Place.Admits.mono {place : Place} {n n' : Node} (h : place.Admits n)
    (hk : n'.kind = n.kind)
    (hlen : n.kind.sort = .conditional → n.children.length ≤ n'.children.length) :
    place.Admits n' := by
  have hvalue (hv : ¬ n.IsStatement) : ¬ n'.IsStatement := by
    rw [Node.not_isStatement_iff] at hv ⊢
    rw [Node.IsTernary, hk]
    exact hv.imp_right fun h => ⟨h.1, Nat.le_trans h.2 (hlen h.1)⟩
  cases place with
  | any => trivial
  | operand => exact ⟨hvalue h.1, hk ▸ h.2⟩
  | owner => exact hvalue h
  | target => exact (congrArg Kind.isVar hk).trans h
  | block => exact hk.trans h

/-- A node that is an expression of itself. -/
theorem Place.admits_operand {kind : Kind} (hs : kind.sort = .expression)
    (ho : kind.isOwner = false) (children : List NodeId) :
    Place.operand.Admits { kind, children } :=
  ⟨fun hstatement => hstatement.1 hs, ho⟩

/-! ## Arranging children -/

namespace Arrangement.Suits

variable {a : Arrangement} {fills fills' : Place → NodeId → Prop} {children : List NodeId}
  {id : NodeId}

theorem mono (h : a.Suits fills children) (hf : ∀ place id, fills place id → fills' place id) :
    a.Suits fills' children := by
  obtain ⟨front, back, rfl, hfront, hback, hmost⟩ := h
  exact ⟨front, back, rfl, hfront.imp (fun _ _ => hf _ _), fun id hid => hf _ _ (hback id hid),
    hmost⟩

/-- Every child fills some place. -/
theorem fills_of_mem (h : a.Suits fills children) (hid : id ∈ children) :
    ∃ place, fills place id := by
  obtain ⟨front, back, rfl, hfront, hback, -⟩ := h
  rcases List.mem_append.mp hid with hid | hid
  · obtain ⟨i, hi, rfl⟩ := List.mem_iff_getElem.mp hid
    exact ⟨_, hfront.get (hfront.length_eq ▸ hi) hi⟩
  · exact ⟨_, hback id hid⟩

/-- There is room for one more child. -/
theorem append (h : a.Suits fills children) (hid : fills a.rest id)
    (hroom : ∀ most ∈ a.limit, children.length < a.places.length + most) :
    a.Suits fills (children ++ [id]) := by
  obtain ⟨front, back, rfl, hfront, hback, -⟩ := h
  refine ⟨front, back ++ [id], List.append_assoc .., hfront, fun other ho => ?_,
    fun most hmost => ?_⟩
  · rcases List.mem_append.mp ho with ho | ho
    · exact hback other ho
    · rw [List.mem_singleton.mp ho]
      exact hid
  · have hlen := hroom most hmost
    rw [List.length_append, ← hfront.length_eq] at hlen
    rw [List.length_append, List.length_singleton]
    omega

end Arrangement.Suits

/-- Nothing but more children. -/
theorem Arrangement.suits_of_rest {a : Arrangement} {fills : Place → NodeId → Prop}
    {children : List NodeId} (hp : a.places = []) (h : ∀ id ∈ children, fills a.rest id)
    (hmost : ∀ most ∈ a.limit, children.length ≤ most) : a.Suits fills children :=
  ⟨[], children, rfl, hp ▸ .nil, h, hmost⟩

/-! ## Nodes that are laid out -/

namespace Node

variable {cfg : Settings} {fills fills' : Place → NodeId → Prop} {n : Node} {id : NodeId}

theorem LaidOut.mono (h : n.LaidOut cfg fills) (hf : ∀ place id, fills place id → fills' place id) :
    n.LaidOut cfg fills' := by
  obtain ⟨⟨a, ha, hsuits⟩, howned⟩ := h
  refine ⟨⟨a, ha, hsuits.mono hf⟩, ?_⟩
  unfold Kind.Owned at howned ⊢
  split at howned
  · obtain ⟨owner, hleft, hfills⟩ := howned
    exact ⟨owner, hleft, hf _ _ hfills⟩
  · trivial

/-- All that a node refers to fills some place. -/
theorem LaidOut.fills_of_mem (h : n.LaidOut cfg fills) (hid : id ∈ n.references) :
    ∃ place, fills place id := by
  obtain ⟨⟨a, -, hsuits⟩, howned⟩ := h
  rcases List.mem_append.mp hid with hid | hid
  · obtain ⟨kind, children, duplicated⟩ := n
    cases kind with
    | var target addressing left =>
      obtain ⟨owner, rfl, hfills⟩ := howned
      rw [List.mem_singleton.mp hid]
      exact ⟨_, hfills⟩
    | _ => cases hid
  · exact hsuits.fills_of_mem hid

/-- One arrangement of the table. -/
theorem laidOut_of_suits {a : Arrangement} (ha : a ∈ n.kind.arrangements cfg)
    (hleft : n.kind.isVar = false) (h : a.Suits fills n.children) : n.LaidOut cfg fills := by
  refine ⟨⟨a, ha, h⟩, ?_⟩
  unfold Kind.Owned
  split
  · rename_i heq
    rw [heq] at hleft
    cases hleft
  · trivial

/-- A variable with its owner and its indices. -/
theorem laidOut_var {target : UInt32} {addressing : Addressing} {left : NodeId}
    {indices : List NodeId} (hleft : fills .owner left) (hi : ∀ id ∈ indices, fills .operand id)
    (harray : indices ≠ [] → addressing = .array)
    (hlen : indices.length ≤ if cfg.isLegacy then 2 else 1) :
    LaidOut cfg fills { kind := .var target addressing (some left), children := indices } := by
  refine ⟨?_, left, rfl, hleft⟩
  by_cases ha : addressing = .array
  · subst ha
    refine ⟨_, List.mem_cons_self, Arrangement.suits_of_rest rfl hi fun most hmost => ?_⟩
    cases hmost
    exact hlen
  · have hnone : indices = [] := by_contra fun h => ha (harray h)
    subst hnone
    have hplain :
        ({} : Arrangement) ∈ (Kind.var target addressing (some left)).arrangements cfg := by
      cases addressing with
      | array => exact absurd rfl ha
      | stackTop | normal | instanced | multiPush | multiPushPop => exact List.mem_cons_self
    exact ⟨_, hplain, Arrangement.suits_of_rest rfl (by simp) (by simp)⟩

/-- The places of the arrangement are all taken, and there is nothing more. -/
theorem laidOut_of_places {a : Arrangement} (ha : a ∈ n.kind.arrangements cfg)
    (hleft : n.kind.isVar = false) (h : List.Forall₂ fills a.places n.children) :
    n.LaidOut cfg fills :=
  laidOut_of_suits ha hleft
    ⟨n.children, [], (List.append_nil _).symm, h, by simp, by simp⟩

/-- A container takes everything. -/
theorem laidOut_of_container (hs : n.kind.sort = .container)
    (h : ∀ id ∈ n.children, fills .any id) : n.LaidOut cfg fills := by
  obtain ⟨kind, children, duplicated⟩ := n
  cases kind with
  | block | switch =>
    refine laidOut_of_suits List.mem_cons_self rfl ?_
    exact Arrangement.suits_of_rest rfl h nofun
  | assign op => cases op <;> cases hs
  | _ => cases hs

/-- The operands of an operator. -/
theorem LaidOut.operands {op : BinaryOp} (h : n.LaidOut cfg fills) (hk : n.kind = .binary op) :
    ∃ left right, n.children = [left, right] ∧ fills .operand left ∧ fills .operand right := by
  obtain ⟨⟨a, ha, front, back, hchildren, hfront, -, hmost⟩, -⟩ := h
  rw [hk] at ha
  cases List.mem_singleton.mp ha
  have hback : back = [] := List.eq_nil_of_length_eq_zero (Nat.le_zero.mp (hmost 0 rfl))
  subst hback
  obtain _ | ⟨hleft, _ | ⟨hright, _ | _⟩⟩ := hfront
  exact ⟨_, _, hchildren, hleft, hright⟩

/-- A loop takes one operand more. -/
theorem LaidOut.append_loop (h : n.LaidOut cfg fills) (hs : n.kind.sort = .loop)
    (hid : fills .operand id) : LaidOut cfg fills { n with children := n.children ++ [id] } := by
  obtain ⟨⟨a, ha, hsuits⟩, howned⟩ := h
  refine ⟨⟨a, ha, ?_⟩, howned⟩
  obtain ⟨hrest, hlimit⟩ : a.rest = .operand ∧ a.limit = none := by
    obtain ⟨kind, children, duplicated⟩ := n
    cases kind with
    | whileLoop _ | forLoop | doUntilLoop | repeatLoop | withLoop =>
      cases List.mem_singleton.mp ha
      exact ⟨rfl, rfl⟩
    | assign op => cases op <;> cases hs
    | _ => cases hs
  refine hsuits.append (hrest ▸ hid) fun most hmost => ?_
  rw [hlimit] at hmost
  cases hmost

/-- A conditional with two arms takes their values. -/
theorem LaidOut.append_conditional {depth : Nat} (h : n.LaidOut cfg fills)
    (hk : n.kind = .conditional depth) (hid : fills .operand id) (harms : 3 ≤ n.children.length)
    (hroom : n.children.length < Visit.ternarySize) :
    LaidOut cfg fills { n with children := n.children ++ [id] } := by
  obtain ⟨⟨a, ha, hsuits⟩, howned⟩ := h
  refine ⟨⟨a, ha, ?_⟩, howned⟩
  rw [hk] at ha
  obtain rfl | rfl := List.mem_pair.mp ha
  · -- with one arm there are only two children
    obtain ⟨front, back, hchildren, hfront, -, hmost⟩ := hsuits
    have hlen := congrArg List.length hchildren
    have hback : back.length ≤ 0 := hmost 0 rfl
    have hfront : 2 = front.length := hfront.length_eq
    rw [List.length_append] at hlen
    omega
  · refine hsuits.append hid fun most hmost => ?_
    cases hmost
    exact hroom

end Node

/-! ## What a later tree retains -/

namespace Tree

variable {cfg : Settings} {own : NodeId → Prop} {t t' t'' : Tree} {place : Place} {id : NodeId}

/-- The id fills the place, and it is the run's own if that matters. -/
def FillsOwn (own : NodeId → Prop) (t : Tree) (place : Place) (id : NodeId) : Prop :=
  t.Fills place id ∧ (place ≠ .any → own id)

/-- The id is the id of a node, of the given sort if it is the run's own. -/
def Takes (own : NodeId → Prop) (t : Tree) (sort : NodeSort) (id : NodeId) : Prop :=
  t.Holds id ∧ (own id → t.IsSort sort id)

/-- **A later tree**: the run's own nodes are of the same sorts and fill the same places. -/
structure Retains (own : NodeId → Prop) (t t' : Tree) : Prop where
  size_le : t.size ≤ t'.size
  kept : ∀ id n, own id → t.get? id = some n →
    ∃ n', t'.get? id = some n' ∧ n'.kind.sort = n.kind.sort ∧
      ∀ place : Place, place.Admits n → place.Admits n'

namespace Retains

protected theorem refl (t : Tree) : Retains own t t where
  size_le := Nat.le_refl _
  kept _ n _ hn := ⟨n, hn, rfl, fun _ h => h⟩

protected theorem trans (h : Retains own t t') (h' : Retains own t' t'') : Retains own t t'' where
  size_le := Nat.le_trans h.size_le h'.size_le
  kept id n hown hn := by
    obtain ⟨n₁, hn₁, hs₁, ha₁⟩ := h.kept id n hown hn
    obtain ⟨n₂, hn₂, hs₂, ha₂⟩ := h'.kept id n₁ hown hn₁
    exact ⟨n₂, hn₂, hs₂.trans hs₁, fun place ha => ha₂ place (ha₁ place ha)⟩

theorem holds (h : Retains own t t') (hid : t.Holds id) : t'.Holds id :=
  Nat.lt_of_lt_of_le hid h.size_le

theorem fillsOwn (h : Retains own t t') (hf : t.FillsOwn own place id) :
    t'.FillsOwn own place id := by
  obtain ⟨⟨n, hn, ha⟩, hown⟩ := hf
  refine ⟨?_, hown⟩
  by_cases hplace : place = .any
  · subst hplace
    obtain ⟨n', hn'⟩ := get?_of_holds (h.holds (holds_of_get? hn))
    exact ⟨n', hn', trivial⟩
  · obtain ⟨n', hn', -, ha'⟩ := h.kept id n (hown hplace) hn
    exact ⟨n', hn', ha' place ha⟩

theorem isSort (h : Retains own t t') {sort : NodeSort} (hown : own id) (hs : t.IsSort sort id) :
    t'.IsSort sort id := by
  obtain ⟨n, hn, hsort⟩ := hs
  obtain ⟨n', hn', hsort', -⟩ := h.kept id n hown hn
  exact ⟨n', hn', hsort'.trans hsort⟩

theorem takes (h : Retains own t t') {sort : NodeSort} (ht : t.Takes own sort id) :
    t'.Takes own sort id :=
  ⟨h.holds ht.1, fun hown => h.isSort hown (ht.2 hown)⟩

end Retains

theorem retains_add (own : NodeId → Prop) (t : Tree) (kind : Kind) (children : List NodeId) :
    Retains own t (t.add kind children) where
  size_le := (extends_add t.nextId t kind children).size_le
  kept _ n _ hn := ⟨n, (get?_add_of_lt (holds_of_get? hn) ..).trans hn, rfl, fun _ h => h⟩

/-- Growing changes nothing that counts. -/
theorem Extends.retains {container : NodeId} {statements : List NodeId}
    (h : t.Extends container t' statements) : Retains own t t' where
  size_le := h.size_le
  kept id n _ hn := by
    obtain ⟨n', hn', hk, hc, -⟩ := h.kept id n hn
    refine ⟨n', hn', congrArg Kind.sort hk, fun place ha => ha.mono hk fun _ => ?_⟩
    rw [hc]
    split
    · simp
    · exact Nat.le_refl _

theorem Replaces.retains {n n' : Node} (h : Replaces t t' id n n')
    (hn : own id → n'.kind.sort = n.kind.sort ∧ ∀ place : Place, place.Admits n → place.Admits n') :
    Retains own t t' where
  size_le := Nat.le_of_eq h.size_eq.symm
  kept other m hown hm := by
    by_cases hid : other = id
    · subst hid
      cases h.old.symm.trans hm
      exact ⟨n', h.new, hn hown⟩
    · exact ⟨m, (h.of_ne hid).trans hm, rfl, fun _ h => h⟩

/-! ## Trees that are laid out -/

/-- **Every node of the run's own is laid out**; nodes to come are its own. -/
structure Layout (cfg : Settings) (own : NodeId → Prop) (t : Tree) : Prop where
  closed : t.Closed
  fresh : ∀ id, ¬ t.Holds id → own id
  laidOut : ∀ id n, own id → t.get? id = some n → n.LaidOut cfg (t.FillsOwn own)

namespace Layout

theorem own_nextId (h : t.Layout cfg own) : own t.nextId := h.fresh _ t.not_holds_nextId

theorem fresh_of_size_le (h : t.Layout cfg own) (hsize : t.size ≤ t'.size) :
    ∀ id, ¬ t'.Holds id → own id :=
  fun id hid => h.fresh id fun hold => hid (Nat.lt_of_lt_of_le hold hsize)

/-- What a node that is laid out refers to is there. -/
theorem holds_of_laidOut {n : Node} (hn : n.LaidOut cfg (t.FillsOwn own)) {ref : NodeId}
    (href : ref ∈ n.references) : t.Holds ref := by
  obtain ⟨place, hf, -⟩ := hn.fills_of_mem href
  exact hf.holds

/-- The node that is made next is the run's own. -/
theorem fillsOwn_add (h : t.Layout cfg own) {kind : Kind} {children : List NodeId}
    (ha : place.Admits { kind, children }) : (t.add kind children).FillsOwn own place t.nextId :=
  ⟨⟨_, t.get?_add_nextId kind children, ha⟩, fun _ => h.own_nextId⟩

/-- **One node more.** -/
theorem add (h : t.Layout cfg own) {kind : Kind} {children : List NodeId}
    (hn : Node.LaidOut cfg (t.FillsOwn own) { kind, children }) :
    (t.add kind children).Layout cfg own where
  closed := h.closed.add fun _ => holds_of_laidOut hn
  fresh := h.fresh_of_size_le (retains_add own t kind children).size_le
  laidOut id n hown hget := by
    refine Node.LaidOut.mono ?_ fun _ _ => (retains_add own t kind children).fillsOwn
    rcases get?_add_cases hget with hold | ⟨-, rfl⟩
    · exact h.laidOut id n hown hold
    · exact hn

/-- **Another node in one place.** -/
theorem replaces {n n' : Node} (h : t.Layout cfg own) (hr : t.Replaces t' id n n')
    (hretains : t.Retains own t') (hrefs : ∀ ref ∈ n'.references, t.Holds ref)
    (hn' : own id → n'.LaidOut cfg (t.FillsOwn own)) : t'.Layout cfg own where
  closed := h.closed.replaces hr hrefs
  fresh := h.fresh_of_size_le hretains.size_le
  laidOut other m hown hm := by
    refine Node.LaidOut.mono ?_ fun _ _ => hretains.fillsOwn
    rcases hr.cases_get? hm with ⟨rfl, rfl⟩ | ⟨-, hm⟩
    · exact hn' hown
    · exact h.laidOut other m hown hm

/-- **A node gets one child more**, for which it has a place. -/
theorem give {n : Node} {child : NodeId} (h : t.Layout cfg own)
    (hr : t.Replaces t' id n { n with children := n.children ++ [child] }) (hchild : t.Holds child)
    (hlaid : own id → Node.LaidOut cfg (t.FillsOwn own)
      { n with children := n.children ++ [child] }) : t'.Layout cfg own ∧ t.Retains own t' := by
  have hretains : t.Retains own t' := hr.retains fun _ =>
    ⟨rfl, fun place ha => ha.mono rfl fun _ => by simp⟩
  refine ⟨h.replaces hr hretains (fun ref href => ?_) hlaid, hretains⟩
  have href : ref ∈ n.references ∨ ref = child := by
    simpa [Node.references, or_assoc] using href
  rcases href with href | rfl
  · exact h.closed id n hr.old ref href
  · exact hchild

/-- **The children of a container change.** -/
theorem container {n : Node} {children : List NodeId} (h : t.Layout cfg own)
    (hid : t.Takes own .container id) (hr : t.Replaces t' id n { n with children })
    (hc : ∀ child ∈ children, t.Holds child) : t'.Layout cfg own ∧ t.Retains own t' := by
  have hsort (hown : own id) : n.kind.sort = .container := by
    obtain ⟨n', hn', hsort⟩ := hid.2 hown
    cases hr.old.symm.trans hn'
    exact hsort
  have hretains : t.Retains own t' := hr.retains fun hown => by
    refine ⟨rfl, fun place ha => ha.mono rfl fun hconditional => ?_⟩
    cases (hsort hown).symm.trans hconditional
  refine ⟨h.replaces hr hretains (fun ref href => ?_) fun hown => ?_, hretains⟩
  · rcases List.mem_append.mp href with href | href
    · exact h.closed id n hr.old ref (List.mem_append_left _ href)
    · exact hc ref href
  · refine Node.laidOut_of_container (hsort hown) fun ref href => ⟨?_, fun hany => absurd rfl hany⟩
    obtain ⟨m, hm⟩ := get?_of_holds (hc ref href)
    exact ⟨m, hm, trivial⟩

theorem holds_of_child (h : t.Layout cfg own) {n : Node} (hn : t.get? id = some n) :
    ∀ child ∈ n.children, t.Holds child :=
  fun child hchild => h.closed id n hn child (List.mem_append_right _ hchild)

/-- A container gets one child more. -/
theorem appendChild {child : NodeId} (h : t.Layout cfg own) (hid : t.Takes own .container id)
    (hchild : t.Holds child) (ht : t.appendChild? id child = some t') : t'.Layout cfg own := by
  obtain ⟨n, hn⟩ := get?_of_holds hid.1
  refine (h.container hid (replaces_appendChild? ht hn) fun ref href => ?_).1
  rcases List.mem_append.mp href with href | href
  · exact h.holds_of_child hn ref href
  · rw [List.mem_singleton.mp href]
    exact hchild

/-- Marking a node changes nothing that counts. -/
theorem setDuplicated {mark : Bool} (h : t.Layout cfg own)
    (ht : t.setDuplicated? id mark = some t') : t'.Layout cfg own := by
  obtain ⟨n, hn⟩ := get?_of_holds (isSome_update?_iff.mp (Option.isSome_of_eq_some ht))
  have hr := replaces_update? ht hn
  refine h.replaces hr (hr.retains fun _ => ⟨rfl, fun place ha => ?_⟩) (h.closed id n hn)
    fun hown => h.laidOut id n hown hn
  exact ha.mono rfl fun _ => Nat.le_refl _

/-- A statement that is still being put together: a new node that is not yet laid out. -/
theorem begin (h : t.Layout cfg own) {kind : Kind} {children : List NodeId}
    (hrefs : ∀ ref ∈ Node.references { kind, children }, t.Holds ref) :
    (t.add kind children).Layout cfg fun id => own id ∧ id ≠ t.nextId where
  closed := h.closed.add hrefs
  fresh id hid := by
    refine ⟨h.fresh_of_size_le (retains_add own t kind children).size_le id hid, ?_⟩
    rintro rfl
    exact hid (t.holds_nextId_add kind children)
  laidOut id n hown hget := by
    rcases get?_add_cases hget with hold | ⟨heq, -⟩
    · refine (h.laidOut id n hown.1 hold).mono fun place ref hf => ?_
      obtain ⟨hfills, hown'⟩ := (retains_add own t kind children).fillsOwn hf
      refine ⟨hfills, fun hplace => ⟨hown' hplace, ?_⟩⟩
      rintro rfl
      exact t.not_holds_nextId hf.1.holds
    · exact absurd heq hown.2

/-- The statement is complete. -/
theorem complete {n : Node} (h : t.Layout cfg fun other => own other ∧ other ≠ id)
    (hn : t.get? id = some n) (hlaid : n.LaidOut cfg (t.FillsOwn own)) : t.Layout cfg own where
  closed := h.closed
  fresh other ho := (h.fresh other ho).1
  laidOut other m hown hm := by
    by_cases hid : other = id
    · subst hid
      cases hn.symm.trans hm
      exact hlaid
    · exact (h.laidOut other m ⟨hown, hid⟩ hm).mono fun _ _ hf =>
        ⟨hf.1, fun hplace => (hf.2 hplace).1⟩

end Layout

end Tree

end GmlLift
