import Mathlib.Data.List.Forall2
import GmlLift.Proofs.Execution.Range

/-!
# The meaning of trees

An `Interpretation` gives the operations of the tree language a meaning: expressions get values in
`V` and statements get effects in `E`. It may do so in any way, as long as the numbers 0 and 1 are
the truth values and, where the dialect flattens indices, a flattened index is its row and column.

`Denotes I t id v` says that the expression at `id` has the value `v`, and `Causes I t id e` that
the statement at `id` has the effect `e`. Ids may be cyclic, so these are relations; they are
partial functions of the id (`Denotes.unique`, `Causes.unique`), and growing trees keep them
(`Denotes.mono`, `Causes.mono`).
-/

namespace GmlLift

/-- Values for expressions and effects for statements. -/
structure Interpretation (cfg : Settings) (V E : Type) where
  int16 : Int16 → Opcode → V
  int32 : Int32 → V
  int64 : Int64 → V
  double : UInt64 → V
  float : UInt32 → V
  boolean : Bool → V
  string : UInt32 → V
  owner : Int16 → V
  unary : UnaryOp → DataType → V → V
  binary : BinaryOp → V → V → V
  call : UInt32 → List V → V
  /-- The variable, its addressing, its owner and its indices. -/
  read : UInt32 → Addressing → V → List V → V
  /-- As `read`, with the value that is stored. -/
  store : UInt32 → Addressing → V → List V → V → E
  ret : V → E
  exit : E
  discard : V → E
  int16_zero : ∀ op, int16 0 op = boolean false
  int16_one : ∀ op, int16 1 op = boolean true
  read_flat : cfg.flattensIndices = true → ∀ target o row column,
    read target .array o [binary .add (binary .mul row (int32 Tree.rowStride)) column] =
      read target .array o [row, column]
  store_flat : cfg.flattensIndices = true → ∀ target o row column v,
    store target .array o [binary .add (binary .mul row (int32 Tree.rowStride)) column] v =
      store target .array o [row, column] v

/-- The node is a block. -/
def Tree.IsBlock (t : Tree) (id : NodeId) : Prop := ∃ n, t.get? id = some n ∧ n.kind = .block

theorem Tree.IsBlock.mono {t t' : Tree} {container id : NodeId} {statements : List NodeId}
    (h : t.IsBlock id) (hx : t.Extends container t' statements) : t'.IsBlock id := by
  obtain ⟨n, hn, hk⟩ := h
  obtain ⟨n', hn', hk', -⟩ := hx.kept id n hn
  exact ⟨n', hn', hk'.trans hk⟩

/-- A node that is no block is not changed by what goes into a block. -/
theorem Tree.IsBlock.kept {t t' : Tree} {container id : NodeId} {statements : List NodeId}
    (h : t.IsBlock container) (hx : t.Extends container t' statements) {n : Node}
    (hn : t.get? id = some n) (hk : n.kind ≠ .block) :
    ∃ mark, t'.get? id = some { n with duplicated := mark } := by
  obtain ⟨block, hblock, hkind⟩ := h
  have hne : id ≠ container := by
    rintro rfl
    rw [hn] at hblock
    cases hblock
    exact hk hkind
  obtain ⟨⟨kind, children, mark⟩, hn', hk', hc', -⟩ := hx.kept id n hn
  rw [if_neg hne] at hc'
  simp only at hk' hc'
  subst hk' hc'
  exact ⟨mark, hn'⟩

namespace Interpretation

variable {cfg : Settings} {V E : Type} (I : Interpretation cfg V E)

/-! ## Expressions -/

/-- The value of an expression that is not a variable, by the values of its children. -/
def operation : Kind → List V → Option V
  | .int16 v pushedBy, [] => some (I.int16 v pushedBy)
  | .int32 v, [] => some (I.int32 v)
  | .int64 v, [] => some (I.int64 v)
  | .double bits, [] => some (I.double bits)
  | .float bits, [] => some (I.float bits)
  | .boolean v, [] => some (I.boolean v)
  | .string index, [] => some (I.string index)
  | .owner code, [] => some (I.owner code)
  | .unary op type, [v] => some (I.unary op type v)
  | .binary op, [v, w] => some (I.binary op v w)
  | .call target, vs => some (I.call target vs)
  | _, _ => none

/-- **The expression at an id has a value.** -/
inductive Denotes (t : Tree) : NodeId → V → Prop
  | operation {id : NodeId} {n : Node} {vs : List V} {v : V} (hn : t.get? id = some n)
      (hc : List.Forall₂ (Denotes t) n.children vs) (hv : I.operation n.kind vs = some v) :
      Denotes t id v
  | read {id left : NodeId} {target : UInt32} {addressing : Addressing}
      {indices : List NodeId} {mark : Bool} {o : V} {vs : List V}
      (hn : t.get? id = some ⟨.var target addressing (some left), indices, mark⟩)
      (ho : Denotes t left o) (hi : List.Forall₂ (Denotes t) indices vs) :
      Denotes t id (I.read target addressing o vs)

variable {I} {t t' : Tree} {container id : NodeId} {statements : List NodeId} {v w : V}

/-- Growing trees keep the values of expressions. -/
theorem Denotes.mono (hb : t.IsBlock container) (hx : t.Extends container t' statements)
    (h : I.Denotes t id v) : I.Denotes t' id v := by
  refine @Denotes.rec cfg V E I t (fun id v _ => I.Denotes t' id v)
    (fun ids vs _ => List.Forall₂ (I.Denotes t') ids vs) ?_ ?_ .nil ?_ id v h
  · intro id n vs v hn _ hv ihc
    have hk : n.kind ≠ .block := by
      intro hk
      rw [hk] at hv
      cases hv
    obtain ⟨mark, hn'⟩ := hb.kept hx hn hk
    exact .operation hn' ihc hv
  · intro id left target addressing indices mark o vs hn _ _ iho ihi
    obtain ⟨mark', hn'⟩ := hb.kept hx hn (by simp)
    exact .read hn' iho ihi
  · intro id v ids vs _ _ ih ihs
    exact .cons ih ihs

/-- An expression has one value. -/
theorem Denotes.unique (h : I.Denotes t id v) (h' : I.Denotes t id w) : v = w := by
  revert w
  refine @Denotes.rec cfg V E I t (fun id v _ => ∀ {w}, I.Denotes t id w → v = w)
    (fun ids vs _ => ∀ {ws}, List.Forall₂ (I.Denotes t) ids ws → vs = ws) ?_ ?_ ?_ ?_ id v h
  · intro id n vs v hn _ hv ihc w h'
    cases h' with
    | operation hn' hc' hv' =>
      rw [hn] at hn'
      cases hn'
      rw [ihc hc', hv'] at hv
      exact (Option.some.inj hv).symm
    | read hn' _ _ =>
      rw [hn] at hn'
      cases hn'
      cases hv
  · intro id left target addressing indices mark o vs hn _ _ iho ihi w h'
    cases h' with
    | operation hn' _ hv' =>
      rw [hn] at hn'
      cases hn'
      cases hv'
    | read hn' ho' hi' =>
      rw [hn] at hn'
      cases hn'
      rw [iho ho', ihi hi']
  · intro ws h'
    cases h'
    rfl
  · intro id v ids vs _ _ ih ihs ws h'
    cases h' with
    | cons hd tl => rw [ih hd, ihs tl]

/-! ### The shapes that lifting looks for -/

theorem Denotes.of_get? {n : Node} (h : I.Denotes t id v) (hn : t.get? id = some n)
    (hk : n.kind.left? = none) :
    ∃ vs, List.Forall₂ (I.Denotes t) n.children vs ∧ I.operation n.kind vs = some v := by
  cases h with
  | operation hn' hc hv =>
    rw [hn] at hn'
    cases hn'
    exact ⟨_, hc, hv⟩
  | read hn' _ _ =>
    rw [hn] at hn'
    cases hn'
    cases hk

theorem Denotes.of_operands? {op : BinaryOp} {left right : NodeId}
    (h : t.operands? id op = some (left, right)) (hd : I.Denotes t id v) :
    ∃ a b, I.Denotes t left a ∧ I.Denotes t right b ∧ v = I.binary op a b := by
  obtain ⟨more, mark, hn⟩ := Tree.get?_of_operands? h
  obtain ⟨vs, hc, hv⟩ := hd.of_get? hn rfl
  obtain ⟨a, vs₁, ha, hc₁, rfl⟩ := List.forall₂_cons_left_iff.mp hc
  obtain ⟨b, vs₂, hb, -, rfl⟩ := List.forall₂_cons_left_iff.mp hc₁
  cases vs₂ with
  | nil =>
    cases hv
    exact ⟨a, b, ha, hb, rfl⟩
  | cons _ _ => cases hv

/-- A flattened index is computed from its row and its column. -/
theorem Denotes.of_flattened? {row column : NodeId} (h : t.flattened? id = some (row, column))
    (hd : I.Denotes t id v) :
    ∃ a b, I.Denotes t row a ∧ I.Denotes t column b ∧
      v = I.binary .add (I.binary .mul a (I.int32 Tree.rowStride)) b := by
  obtain ⟨product, stride, hadd, hmul, children, mark, hn⟩ := Tree.operands?_of_flattened? h
  obtain ⟨p, b, hp, hb, rfl⟩ := hd.of_operands? hadd
  obtain ⟨a, s, ha, hs, rfl⟩ := hp.of_operands? hmul
  obtain ⟨vs, -, hv⟩ := hs.of_get? hn rfl
  cases vs with
  | nil =>
    cases hv
    exact ⟨a, b, ha, hb, rfl⟩
  | cons _ _ => cases hv

theorem Denotes.of_booleanLiteral? {value : Bool} (h : t.booleanLiteral? id = some value)
    (hd : I.Denotes t id v) : v = I.boolean value := by
  unfold Tree.booleanLiteral? at h
  split at h
  · rename_i k pushedBy children mark hn
    obtain ⟨vs, -, hv⟩ := hd.of_get? hn rfl
    cases vs with
    | cons _ _ => cases hv
    | nil =>
      cases hv
      split at h
      · rename_i hk
        cases h
        rw [hk, I.int16_zero]
      · split at h
        · rename_i hk
          cases h
          rw [hk, I.int16_one]
        · cases h
  · cases h

/-- The indices that an index expression stands for lead to the same place. -/
theorem Denotes.indexParts {index : NodeId} (h : I.Denotes t index w) :
    ∃ vs, List.Forall₂ (I.Denotes t) (Machine.indexParts cfg t index) vs ∧
      (∀ target o, I.read target .array o [w] = I.read target .array o vs) ∧
      ∀ target o x, I.store target .array o [w] x = I.store target .array o vs x := by
  unfold Machine.indexParts Machine.rowAndColumn?
  by_cases hflat : cfg.flattensIndices = true
  · rw [if_pos hflat]
    cases hp : t.flattened? index with
    | none => exact ⟨[w], .cons h .nil, fun _ _ => rfl, fun _ _ _ => rfl⟩
    | some parts =>
      obtain ⟨row, column⟩ := parts
      obtain ⟨a, b, ha, hb, rfl⟩ := h.of_flattened? hp
      exact ⟨[a, b], .cons ha (.cons hb .nil), fun target o => I.read_flat hflat target o a b,
        fun target o x => I.store_flat hflat target o a b x⟩
  · rw [if_neg hflat]
    exact ⟨[w], .cons h .nil, fun _ _ => rfl, fun _ _ _ => rfl⟩

/-! ## Statements -/

variable (I) in
/-- **The statement at an id has an effect.** An expression that stands as a statement is
discarded. -/
inductive Causes (t : Tree) : NodeId → E → Prop
  | store {id node left value : NodeId} {target : UInt32} {addressing : Addressing}
      {indices : List NodeId} {mark mark' : Bool} {o v : V} {vs : List V}
      (hn : t.get? id = some ⟨.assign .plain, [node, value], mark⟩)
      (ht : t.get? node = some ⟨.var target addressing (some left), indices, mark'⟩)
      (ho : I.Denotes t left o) (hi : List.Forall₂ (I.Denotes t) indices vs)
      (hv : I.Denotes t value v) : Causes t id (I.store target addressing o vs v)
  | ret {id value : NodeId} {mark : Bool} {v : V}
      (hn : t.get? id = some ⟨.returnStmt, [value], mark⟩) (hv : I.Denotes t value v) :
      Causes t id (I.ret v)
  | exit {id : NodeId} {mark : Bool} (hn : t.get? id = some ⟨.exitStmt, [], mark⟩) :
      Causes t id I.exit
  | discard {id : NodeId} {v : V} (hv : I.Denotes t id v) : Causes t id (I.discard v)

variable {e e' : E}

/-- Growing trees keep the effects of statements. -/
theorem Causes.mono (hb : t.IsBlock container) (hx : t.Extends container t' statements)
    (h : I.Causes t id e) : I.Causes t' id e := by
  cases h with
  | store hn ht ho hi hv =>
    obtain ⟨_, hn'⟩ := hb.kept hx hn (by simp)
    obtain ⟨_, ht'⟩ := hb.kept hx ht (by simp)
    exact .store hn' ht' (ho.mono hb hx) (hi.imp fun _ _ h => h.mono hb hx) (hv.mono hb hx)
  | ret hn hv =>
    obtain ⟨_, hn'⟩ := hb.kept hx hn (by simp)
    exact .ret hn' (hv.mono hb hx)
  | exit hn =>
    obtain ⟨_, hn'⟩ := hb.kept hx hn (by simp)
    exact .exit hn'
  | discard hv => exact .discard (hv.mono hb hx)

/-- Statements are no expressions. -/
theorem Denotes.kind_ne {n : Node} (h : I.Denotes t id v) (hn : t.get? id = some n) :
    n.kind ≠ .assign .plain ∧ n.kind ≠ .returnStmt ∧ n.kind ≠ .exitStmt := by
  cases h with
  | operation hn' _ hv =>
    rw [hn] at hn'
    cases hn'
    refine ⟨?_, ?_, ?_⟩ <;> intro hk <;> rw [hk] at hv <;> cases hv
  | read hn' _ _ =>
    rw [hn] at hn'
    cases hn'
    simp

theorem Denotes.all_unique {ids : List NodeId} {vs ws : List V}
    (h : List.Forall₂ (I.Denotes t) ids vs) (h' : List.Forall₂ (I.Denotes t) ids ws) : vs = ws :=
  List.right_unique_forall₂' (fun _ _ _ h h' => h.unique h') h h'

/-- A statement has one effect. -/
theorem Causes.unique (h : I.Causes t id e) (h' : I.Causes t id e') : e = e' := by
  cases h with
  | store hn ht ho hi hv =>
    cases h' with
    | store hn' ht' ho' hi' hv' =>
      rw [hn] at hn'
      cases hn'
      rw [ht] at ht'
      cases ht'
      rw [ho.unique ho', Denotes.all_unique hi hi', hv.unique hv']
    | ret hn' _ => rw [hn] at hn'; cases hn'
    | exit hn' => rw [hn] at hn'; cases hn'
    | discard hv' => exact absurd rfl (hv'.kind_ne hn).1
  | ret hn hv =>
    cases h' with
    | ret hn' hv' =>
      rw [hn] at hn'
      cases hn'
      rw [hv.unique hv']
    | store hn' _ _ _ _ => rw [hn] at hn'; cases hn'
    | exit hn' => rw [hn] at hn'; cases hn'
    | discard hv' => exact absurd rfl (hv'.kind_ne hn).2.1
  | exit hn =>
    cases h' with
    | exit _ => rfl
    | store hn' _ _ _ _ => rw [hn] at hn'; cases hn'
    | ret hn' _ => rw [hn] at hn'; cases hn'
    | discard hv' => exact absurd rfl (hv'.kind_ne hn).2.2
  | discard hv =>
    cases h' with
    | discard hv' => rw [hv.unique hv']
    | store hn' _ _ _ _ => exact absurd rfl (hv.kind_ne hn').1
    | ret hn' _ => exact absurd rfl (hv.kind_ne hn').2.1
    | exit hn' => exact absurd rfl (hv.kind_ne hn').2.2

end Interpretation

end GmlLift
