import GmlLift.Proofs.Execution.Range
import GmlLift.Proofs.Source.Language

/-!
# The trees of source programs

`Expr.Shown cfg t base e id` says that the tree of the expression `e` stands at `id`, and
`Stmt.Shown` says the same of a statement. All nodes are new: their places are not below `base`.
Marks of copying are not looked at.

An index that has the shape of a flattened one stands for its row and its column in the dialects
that flatten indices, and for itself in all others (`Expr.Shown.indexParts`). An update shows as a
compound assignment, unless its variable is one that the lifter does not recognise.
-/

namespace GmlLift

namespace Tree

/-! ## New nodes -/

/-- The node is of the given kind, has the given children, and is not among the first `base`. -/
def HasNode (t : Tree) (base : Nat) (id : NodeId) (kind : Kind) (children : List NodeId) : Prop :=
  base ≤ id.index ∧ ∃ mark, t.get? id = some ⟨kind, children, mark⟩

theorem hasNode_add {t : Tree} {base : Nat} (h : base ≤ t.size) (kind : Kind)
    (children : List NodeId) : (t.add kind children).HasNode base t.nextId kind children :=
  ⟨h, false, t.get?_add_nextId kind children⟩

theorem HasNode.mono {t t' : Tree} {base : Nat} {container id : NodeId} {kind : Kind}
    {children statements : List NodeId} (hc : container.index < base)
    (hx : t.Extends container t' statements) (h : t.HasNode base id kind children) :
    t'.HasNode base id kind children := by
  obtain ⟨hbase, mark, hn⟩ := h
  have hne : id ≠ container := by
    rintro rfl
    omega
  obtain ⟨⟨kind', children', mark'⟩, hn', hk', hc', -⟩ := hx.kept id _ hn
  rw [if_neg hne] at hc'
  simp only at hk' hc'
  subst hk' hc'
  exact ⟨hbase, mark', hn'⟩

end Tree

namespace Source

/-! ## Trees of expressions -/

/-- Row and column of a flattened index. -/
def Expr.flattened? : Expr → Option (Expr × Expr)
  | .binary .add (.binary .mul row (.constant c)) column =>
    if c.value = .int32 Tree.rowStride then some (row, column) else none
  | _ => none

/-- Row and column of an index, in a dialect that flattens indices. -/
def Expr.rowAndColumn? (cfg : Settings) (index : Expr) : Option (Expr × Expr) :=
  if cfg.flattensIndices then index.flattened? else none

mutual
/-- **The tree of an expression stands at an id.** -/
inductive Expr.Shown (cfg : Settings) (t : Tree) (base : Nat) : Expr → NodeId → Prop
  | constant {c : Constant} {id : NodeId} (h : t.HasNode base id (c.value.kind c.opcode) []) :
      Expr.Shown cfg t base (.constant c) id
  | read {via : PushOp} {place : Place} {id : NodeId} (h : Place.Shown cfg t base place id) :
      Expr.Shown cfg t base (.read via place) id
  | unary {op : UnaryOp} {type : DataType} {e : Expr} {id a : NodeId}
      (h : t.HasNode base id (.unary op type) [a]) (ha : Expr.Shown cfg t base e a) :
      Expr.Shown cfg t base (.unary op type e) id
  | binary {op : BinaryOp} {left right : Expr} {id a b : NodeId}
      (h : t.HasNode base id (.binary op) [a, b]) (ha : Expr.Shown cfg t base left a)
      (hb : Expr.Shown cfg t base right b) : Expr.Shown cfg t base (.binary op left right) id
  | call {target : UInt32} {count : UInt16} {arguments : Fin count.toNat → Expr} {id : NodeId}
      {ids : Fin count.toNat → NodeId} (h : t.HasNode base id (.call target) (List.ofFn ids))
      (ha : ∀ k, Expr.Shown cfg t base (arguments k) (ids k)) :
      Expr.Shown cfg t base (.call target count arguments) id
  | increment {step : Step} {side : Side} {via : PushOp} {x : Variable} {named : x.IsNamed}
      {id a : NodeId} (h : t.HasNode base id (.assign (.increment step.op side)) [a])
      (ha : Place.Shown cfg t base (.named x named) a) :
      Expr.Shown cfg t base (.increment step side via x named) id
/-- **The tree of a variable stands at an id.** -/
inductive Place.Shown (cfg : Settings) (t : Tree) (base : Nat) : Place → NodeId → Prop
  | named {x : Variable} {hx : x.IsNamed} {id left : NodeId}
      (h : t.HasNode base id (.var x.target x.addressing (some left)) [])
      (hl : t.HasNode base left (.owner x.owner.code) []) :
      Place.Shown cfg t base (.named x hx) id
  | member {x : Variable} {hx : x.IsMember} {object : Expr} {id left : NodeId}
      (h : t.HasNode base id (.var x.target x.addressing (some left)) [])
      (ho : Expr.Shown cfg t base object left) : Place.Shown cfg t base (.member x hx object) id
  | element {x : Variable} {hx : x.IsElement} {object index : Expr} {id left i : NodeId}
      (hp : index.rowAndColumn? cfg = none)
      (h : t.HasNode base id (.var x.target x.addressing (some left)) [i])
      (ho : Expr.Shown cfg t base object left) (hi : Expr.Shown cfg t base index i) :
      Place.Shown cfg t base (.element x hx object index) id
  | cell {x : Variable} {hx : x.IsElement} {object index row column : Expr}
      {id left r c : NodeId} (hp : index.rowAndColumn? cfg = some (row, column))
      (h : t.HasNode base id (.var x.target x.addressing (some left)) [r, c])
      (ho : Expr.Shown cfg t base object left) (hr : Expr.Shown cfg t base row r)
      (hc : Expr.Shown cfg t base column c) :
      Place.Shown cfg t base (.element x hx object index) id
end

variable {cfg : Settings} {t t' : Tree} {base : Nat} {container : NodeId}
  {statements : List NodeId}

mutual
/-- Growing trees keep the trees of expressions. -/
theorem Expr.Shown.mono (hbase : container.index < base)
    (hx : t.Extends container t' statements) :
    ∀ {e : Expr} {id : NodeId}, e.Shown cfg t base id → e.Shown cfg t' base id
  | _, _, .constant h => .constant (h.mono hbase hx)
  | _, _, .read h => .read (Place.Shown.mono hbase hx h)
  | _, _, .unary h ha => .unary (h.mono hbase hx) (Expr.Shown.mono hbase hx ha)
  | _, _, .binary h ha hb =>
    .binary (h.mono hbase hx) (Expr.Shown.mono hbase hx ha) (Expr.Shown.mono hbase hx hb)
  | _, _, .call h ha => .call (h.mono hbase hx) fun k => Expr.Shown.mono hbase hx (ha k)
  | _, _, .increment h ha => .increment (h.mono hbase hx) (Place.Shown.mono hbase hx ha)
theorem Place.Shown.mono (hbase : container.index < base)
    (hx : t.Extends container t' statements) :
    ∀ {place : Place} {id : NodeId}, place.Shown cfg t base id → place.Shown cfg t' base id
  | _, _, .named h hl => .named (h.mono hbase hx) (hl.mono hbase hx)
  | _, _, .member h ho => .member (h.mono hbase hx) (Expr.Shown.mono hbase hx ho)
  | _, _, .element hp h ho hi =>
    .element hp (h.mono hbase hx) (Expr.Shown.mono hbase hx ho) (Expr.Shown.mono hbase hx hi)
  | _, _, .cell hp h ho hr hc =>
    .cell hp (h.mono hbase hx) (Expr.Shown.mono hbase hx ho) (Expr.Shown.mono hbase hx hr)
      (Expr.Shown.mono hbase hx hc)
end

/-! ### Flattened indices -/

section Index

variable {e : Expr} {id a b : NodeId} {op : BinaryOp}

theorem operands?_of_hasNode {op' : BinaryOp} (h : t.HasNode base id (.binary op) [a, b]) :
    t.operands? id op' = if op = op' then some (a, b) else none := by
  obtain ⟨-, mark, hn⟩ := h
  unfold Tree.operands?
  rw [hn]

/-- Literals and operations are told apart from all other expressions. -/
theorem Expr.Shown.cases_get? {n : Node} (h : e.Shown cfg t base id) (hn : t.get? id = some n) :
    (∃ c, e = .constant c ∧ n.kind = c.value.kind c.opcode) ∨
      (∃ op left right a b, e = .binary op left right ∧ n.kind = .binary op ∧
        n.children = [a, b] ∧ left.Shown cfg t base a ∧ right.Shown cfg t base b) ∨
      ((∀ op, n.kind ≠ .binary op) ∧ ∀ v, n.kind ≠ .int32 v) := by
  have hnode : ∀ {kind : Kind} {children : List NodeId}, t.HasNode base id kind children →
      n.kind = kind ∧ n.children = children := by
    rintro kind children ⟨-, mark, hn'⟩
    rw [hn] at hn'
    cases hn'
    exact ⟨rfl, rfl⟩
  cases h with
  | constant h => exact Or.inl ⟨_, rfl, (hnode h).1⟩
  | binary h ha hb =>
    obtain ⟨hk, hc⟩ := hnode h
    exact Or.inr (Or.inl ⟨_, _, _, _, _, rfl, hk, hc, ha, hb⟩)
  | read h =>
    refine Or.inr (Or.inr ?_)
    cases h with
    | named h _ | member h _ | element _ h _ _ | cell _ h _ _ _ => simp [(hnode h).1]
  | unary h _ | call h _ | increment h _ =>
    refine Or.inr (Or.inr ?_)
    simp [(hnode h).1]

/-- Only an operation has two operands. -/
theorem Expr.Shown.of_operands? (h : e.Shown cfg t base id)
    (ho : t.operands? id op = some (a, b)) :
    ∃ left right, e = .binary op left right ∧ left.Shown cfg t base a ∧
      right.Shown cfg t base b := by
  obtain ⟨more, mark, hn⟩ := Tree.get?_of_operands? ho
  rcases h.cases_get? hn with
    ⟨c, rfl, hk⟩ | ⟨_, left, right, _, _, rfl, hk, hc, ha, hb⟩ | ⟨hk, -⟩
  · cases hv : c.value <;> rw [hv] at hk <;> cases hk
  · cases hk
    cases hc
    exact ⟨left, right, rfl, ha, hb⟩
  · exact absurd rfl (hk _)

/-- Only a literal is a 32-bit integer. -/
theorem Expr.Shown.of_int32 {v : Int32} {children : List NodeId} {mark : Bool}
    (h : e.Shown cfg t base id) (hn : t.get? id = some ⟨.int32 v, children, mark⟩) :
    ∃ c, e = .constant c ∧ c.value = .int32 v := by
  rcases h.cases_get? hn with ⟨c, rfl, hk⟩ | ⟨_, _, _, _, _, _, hk, _⟩ | ⟨-, hk⟩
  · refine ⟨c, rfl, ?_⟩
    cases hv : c.value <;> rw [hv] at hk <;> cases hk
    rfl
  · cases hk
  · exact absurd rfl (hk v)

theorem Expr.Shown.of_flattened? (h : e.Shown cfg t base id)
    (hf : t.flattened? id = some (a, b)) :
    ∃ row column, e.flattened? = some (row, column) ∧ row.Shown cfg t base a ∧
      column.Shown cfg t base b := by
  obtain ⟨product, stride, hadd, hmul, children, mark, hn⟩ := Tree.operands?_of_flattened? hf
  obtain ⟨left, right, rfl, hleft, hright⟩ := h.of_operands? hadd
  obtain ⟨factor, width, rfl, hfactor, hwidth⟩ := hleft.of_operands? hmul
  obtain ⟨c, rfl, hc⟩ := hwidth.of_int32 hn
  exact ⟨factor, right, if_pos hc, hfactor, hright⟩

theorem Expr.Shown.flattened? {row column : Expr} (h : e.Shown cfg t base id)
    (hf : e.flattened? = some (row, column)) : ∃ a b, t.flattened? id = some (a, b) := by
  unfold Expr.flattened? at hf
  split at hf
  · rename_i row' c column'
    split at hf
    · rename_i hc
      cases h with
      | @binary _ _ _ _ product b h ha hb =>
        cases ha with
        | @binary _ _ _ _ a stride h' ha' hb' =>
          cases hb' with
          | constant h'' =>
            obtain ⟨-, mark, hn⟩ := h''
            rw [hc] at hn
            refine ⟨a, b, ?_⟩
            unfold Tree.flattened?
            rw [operands?_of_hasNode h, if_pos rfl]
            simp only [Option.bind_eq_bind, Option.bind_some]
            rw [operands?_of_hasNode h', if_pos rfl, Option.bind_some]
            simp only [hn, Literal.kind, if_true]
    · cases hf
  · cases hf

/-- **The indices that an index stands for** are its row and its column, or itself. -/
theorem Expr.Shown.indexParts (h : e.Shown cfg t base id) :
    (e.rowAndColumn? cfg = none ∧ Machine.indexParts cfg t id = [id]) ∨
      ∃ row column a b, e.rowAndColumn? cfg = some (row, column) ∧
        Machine.indexParts cfg t id = [a, b] ∧ row.Shown cfg t base a ∧
        column.Shown cfg t base b := by
  unfold Machine.indexParts Machine.rowAndColumn? Expr.rowAndColumn?
  by_cases hflat : cfg.flattensIndices = true
  · rw [if_pos hflat, if_pos hflat]
    cases ht : t.flattened? id with
    | some parts =>
      obtain ⟨a, b⟩ := parts
      obtain ⟨row, column, hf, ha, hb⟩ := h.of_flattened? ht
      exact Or.inr ⟨row, column, a, b, hf, rfl, ha, hb⟩
    | none =>
      refine Or.inl ⟨?_, rfl⟩
      cases hf : e.flattened? with
      | none => rfl
      | some parts =>
        obtain ⟨a, b, hab⟩ := h.flattened? hf
        rw [ht] at hab
        cases hab
  · rw [if_neg hflat, if_neg hflat]
    exact Or.inl ⟨rfl, rfl⟩

end Index

/-! ## Trees of statements -/

/-- Updates of the variable are recognised: its addressing mode takes the owner from the stack. An
owner that only its own code puts there is not enough. -/
def Variable.IsRecognised (x : Variable) : Prop :=
  x.addressing = .stackTop ∨ x.addressing = .array

/-- **The tree of a statement stands at an id.** An update of a variable that is not recognised is
spelled out: `place = place op value`. -/
inductive Stmt.Shown (cfg : Settings) (t : Tree) (base : Nat) : Stmt → NodeId → Prop
  | storeBelow {place : Place} {value : Expr} {id a v : NodeId}
      (h : t.HasNode base id (.assign .plain) [a, v]) (ha : place.Shown cfg t base a)
      (hv : value.Shown cfg t base v) : Stmt.Shown cfg t base (.storeBelow place value) id
  | storeAbove {place : Place} {value : Expr} {id a v : NodeId}
      (h : t.HasNode base id (.assign .plain) [a, v]) (ha : place.Shown cfg t base a)
      (hv : value.Shown cfg t base v) : Stmt.Shown cfg t base (.storeAbove place value) id
  | update {via : PushOp} {place : Place} {onStack : 0 < place.width} {op : BinaryOp}
      {value : Expr} {id a v : NodeId} (hx : place.variable.IsRecognised)
      (h : t.HasNode base id (.assign (.compound op)) [a, v]) (ha : place.Shown cfg t base a)
      (hv : value.Shown cfg t base v) :
      Stmt.Shown cfg t base (.update via place onStack op value) id
  | spelledOut {via : PushOp} {place : Place} {onStack : 0 < place.width} {op : BinaryOp}
      {value : Expr} {id a b v w : NodeId} (hx : ¬ place.variable.IsRecognised)
      (h : t.HasNode base id (.assign .plain) [a, w]) (ha : place.Shown cfg t base a)
      (hw : t.HasNode base w (.binary op) [b, v]) (hb : place.Shown cfg t base b)
      (hv : value.Shown cfg t base v) :
      Stmt.Shown cfg t base (.update via place onStack op value) id
  | ret {value : Expr} {id v : NodeId} (h : t.HasNode base id .returnStmt [v])
      (hv : value.Shown cfg t base v) : Stmt.Shown cfg t base (.ret value) id
  | exit {id : NodeId} (h : t.HasNode base id .exitStmt []) : Stmt.Shown cfg t base .exit id
  | discard {value : Expr} {id : NodeId} (hv : value.Shown cfg t base id) :
      Stmt.Shown cfg t base (.discard value) id

theorem Stmt.Shown.mono (hbase : container.index < base)
    (hx : t.Extends container t' statements) {s : Stmt} {id : NodeId}
    (h : s.Shown cfg t base id) : s.Shown cfg t' base id := by
  cases h with
  | storeBelow h ha hv =>
    exact .storeBelow (h.mono hbase hx) (ha.mono hbase hx) (hv.mono hbase hx)
  | storeAbove h ha hv =>
    exact .storeAbove (h.mono hbase hx) (ha.mono hbase hx) (hv.mono hbase hx)
  | update hr h ha hv =>
    exact .update hr (h.mono hbase hx) (ha.mono hbase hx) (hv.mono hbase hx)
  | spelledOut hr h ha hw hb hv =>
    exact .spelledOut hr (h.mono hbase hx) (ha.mono hbase hx) (hw.mono hbase hx)
      (hb.mono hbase hx) (hv.mono hbase hx)
  | ret h hv => exact .ret (h.mono hbase hx) (hv.mono hbase hx)
  | exit h => exact .exit (h.mono hbase hx)
  | discard hv => exact .discard (hv.mono hbase hx)

end Source

end GmlLift
