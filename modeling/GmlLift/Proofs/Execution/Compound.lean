import GmlLift.Proofs.Execution.Layout
import GmlLift.Proofs.Execution.Trace

/-!
# Compound assignments

A store becomes a compound assignment by its shape alone. The variable is one whose owner is on the
stack, a duplication has copied that owner, and the value is an operation whose left operand is a
variable (`Recognised`). That the operand is the variable that is stored is not looked at, nor which
operation it is: a comparison with another variable is recognised as well
(`compound_of_other_variable`).

Result: `store_recognised`. A store that is executed becomes a compound assignment if it is
recognised, and a plain one if not.
-/

namespace GmlLift

/-! ## Updates -/

namespace Tree

variable {t t' : Tree} {owner value right : NodeId} {addressing : Addressing} {op : BinaryOp}

/-- **The value has the shape of an update**: an operation whose left operand is a variable. -/
def IsUpdate (t : Tree) (value : NodeId) (op : BinaryOp) (right : NodeId) : Prop :=
  ∃ n left leftNode, t.get? value = some n ∧ n.kind = .binary op ∧ n.children = [left, right] ∧
    t.get? left = some leftNode ∧ leftNode.kind.isVar = true

/-- **What is recognised**, among values of which operations have two operands. -/
theorem compound?_eq_iff (hpair : ∀ n op, t.get? value = some n → n.kind = .binary op →
      ∃ left right, n.children = [left, right]) :
    t.compound? owner addressing value = some (some (op, right)) ↔
      t.Marked owner ∧ (addressing = .stackTop ∨ addressing = .array) ∧
        t.IsUpdate value op right := by
  unfold compound?
  constructor
  · intro h
    split at h
    · cases h
    · rename_i ownerNode howner
      split at h
      · rename_i hcopied
        simp only [Bool.and_eq_true, Bool.or_eq_true, decide_eq_true_eq] at hcopied
        refine ⟨⟨ownerNode, howner, hcopied.1⟩, hcopied.2, ?_⟩
        split at h
        · cases h
        · rename_i op' left right' more mark hvalue
          split at h
          · cases h
          · rename_i hleft
            cases h
            obtain ⟨_, _, hchildren⟩ := hpair _ _ hvalue rfl
            cases hchildren
            exact ⟨_, left, _, hvalue, rfl, rfl, hleft, rfl⟩
          · cases h
        · cases h
      · cases h
  · rintro ⟨⟨ownerNode, howner, hmark⟩, haddressing, ⟨kind, children, mark⟩, left,
      ⟨leftKind, leftChildren, leftMark⟩, hvalue, hkind, hchildren, hleft, hvar⟩
    simp only at hkind hchildren hvar
    subst hkind hchildren
    cases leftKind with
    | var => simp only [howner, hmark, haddressing, hvalue, hleft, Bool.true_and, Bool.or_eq_true,
        decide_eq_true_eq, if_true]
    | _ => cases hvar

theorem Grows.get?_eq (h : t.Grows t') {id : NodeId} (hid : t.Holds id) :
    t'.get? id = t.get? id := by
  obtain ⟨n, hn⟩ := get?_of_holds hid
  rw [hn, h.kept id n hn]

/-- New nodes do not change what an old one is. -/
theorem Grows.isUpdate_iff (h : t.Grows t') (ht : t.Closed) (hv : t.Holds value) :
    t'.IsUpdate value op right ↔ t.IsUpdate value op right := by
  unfold IsUpdate
  rw [h.get?_eq hv]
  refine exists_congr fun n => exists_congr fun left => exists_congr fun leftNode =>
    and_congr_right fun hn => and_congr_right fun _ => and_congr_right fun hchildren => ?_
  rw [h.get?_eq (ht value n hn left (by simp [Node.references, hchildren]))]

end Tree

/-- How far down the stack a store finds its value. -/
def Instruction.valueDepth (i : Instruction) : Nat :=
  if i.type1 = .int32 then 0 else i.operandPops

namespace Machine

open GmlLift.Action

/-! ## One store -/

section Store

variable {cfg : Settings} {container : NodeId} {i : Instruction} {ref : VariableRef}
  {m m' : Machine}

theorem Accesses.grows {a : Access} (h : Accesses cfg i m a m') : m.tree.Grows m'.tree := by
  cases h with
  | intro _ hr =>
    cases hr with
    | member _ | element _ _ => exact Tree.grows_add ..
    | named _ _ _ => exact (Tree.grows_add ..).trans (Tree.grows_add ..)

/-- The operands of the variable are above what is left. -/
theorem Accesses.items {a : Access} (h : Accesses cfg i m a m') :
    ∃ operands, m.stack.items = operands ++ m'.stack.items ∧ operands.length = i.operandPops := by
  have hsuffix : ∃ operands, m.stack.items = operands ++ m'.stack.items := by
    cases h with
    | intro _ hr =>
      cases hr with
      | member _ => exact ⟨[_], rfl⟩
      | element _ _ => exact ⟨[_, _], rfl⟩
      | named _ _ _ => exact ⟨[], rfl⟩
  obtain ⟨operands, hitems⟩ := hsuffix
  have hdepth := h.depth
  simp only [OperandStack.depth, hitems, List.length_append] at hdepth
  exact ⟨operands, hitems, by omega⟩

/-- The variable gets a new node. -/
theorem Accesses.new {a : Access} (h : Accesses cfg i m a m') (href : i.reference = some ref) :
    a.addressing = ref.addressing ∧ ¬ m.tree.Holds a.node ∧
      ∃ n, m'.tree.get? a.node = some n ∧
        n.kind = .var ref.target ref.addressing (some a.owner) := by
  cases h with
  | @intro ref' left indices t items href' hr =>
    obtain rfl : ref' = ref := Option.some.inj (href'.symm.trans href)
    refine ⟨rfl, ?_, _, t.get?_add_nextId .., rfl⟩
    have hgrows : m.tree.Grows t := by
      cases hr with
      | member _ | element _ _ => exact .refl _
      | named _ _ _ => exact Tree.grows_add ..
    exact fun hold => t.not_holds_nextId (Nat.lt_of_lt_of_le hold hgrows.size_le)

/-- **A store reaches its variable and makes a statement**, of a value from the stack. -/
theorem Performs.assigns (h : Performs cfg container i m m') (hop : i.opcode = .pop)
    (href : i.reference = some ref) :
    ∃ (a : Access) (value : NodeId) (t : Tree), m.stack.items[i.valueDepth]? = some value ∧
      a.addressing = ref.addressing ∧ ¬ m.tree.Holds a.node ∧
      (∃ n, t.get? a.node = some n ∧ n.kind = .var ref.target ref.addressing (some a.owner)) ∧
      m.tree.Grows t ∧ (∀ id, t.Marked id ↔ m.tree.Marked id) ∧
      Assigns container a value t m'.tree := by
  cases h with
  | @storeAbove _ t₁ _ _ _ value a _ hty ha hs =>
    obtain ⟨haddressing, hnew, hnode⟩ := ha.new href
    refine ⟨a, value, t₁, ?_, haddressing, hnew, hnode, ha.grows, fun _ => ha.marked_iff, hs⟩
    rw [Instruction.valueDepth, if_pos hty]
    rfl
  | @storeBelow _ t₁ _ rest value a _ hty ha hs =>
    obtain ⟨haddressing, hnew, hnode⟩ := ha.new href
    refine ⟨a, value, t₁, ?_, haddressing, hnew, hnode, ha.grows, fun _ => ha.marked_iff, hs⟩
    obtain ⟨operands, hitems, hlength⟩ := ha.items
    rw [Instruction.valueDepth, if_neg (by simp [hty]), hitems, ← hlength]
    simp
  | permute hperm _ => simp [Instruction.isPermutation, href] at hperm
  | @operateOne _ _ _ op hop' => cases op <;> simp [hop, UnaryOp.opcode] at hop'
  | pushLiteral hop' _ _ | pushVariable hop' _ _ | operate hop' _ | call hop' _ _
  | returnValue hop' _ | exitScript hop' _ | discard hop' _ | discardNothing hop'
  | duplicate hop' _ _ _ | convert hop' _ | keep hop' _ | mark hop' =>
    simp [hop, Opcode.isPush, Opcode.isBinary] at hop'

theorem Advances.performs {behind ahead : List Instruction} {skip : Nat}
    (h : Advances cfg container behind i ahead m skip m') (hop : i.opcode = .pop) :
    Performs cfg container i m m' := by
  cases h with
  | performed _ h => exact h
  | pre hi _ | prePermuted hi _ | post hi => simp [incrementAt?, hop, Opcode.isPush] at hi

/-- **An assignment to the variable has been made**: the variable has a new node, and the container
a new statement behind its others. -/
structure Assigned (container : NodeId) (ref : VariableRef) (t t' : Tree) (target owner : NodeId)
    (op : AssignOp) (operand : NodeId) : Prop where
  variable_new : ¬ t.Holds target
  variable_kind : ∃ n, t'.get? target = some n ∧
    n.kind = .var ref.target ref.addressing (some owner)
  statement : ∃ id, ¬ t.Holds id ∧ t.Extends container t' [id] ∧
    t'.get? id = some { kind := .assign op, children := [target, operand] }

theorem assigned_of_append {t t₁ t' : Tree} {target owner operand : NodeId} {op : AssignOp}
    (hgrows : t.Grows t₁) (hc : t.Holds container) (hnew : ¬ t.Holds target)
    (hnode : ∃ n, t₁.get? target = some n ∧ n.kind = .var ref.target ref.addressing (some owner))
    (ht : (t₁.add (.assign op) [target, operand]).appendChild? container t₁.nextId = some t') :
    Assigned container ref t t' target owner op operand := by
  have hx : t₁.Extends container t' [t₁.nextId] :=
    (Tree.extends_add ..).trans (Tree.extends_appendChild ht)
  have hstatement : ¬ t.Holds t₁.nextId := fun hold =>
    t₁.not_holds_nextId (Nat.lt_of_lt_of_le hold hgrows.size_le)
  refine ⟨hnew, ?_, t₁.nextId, hstatement, (hgrows.extends container).trans hx, ?_⟩
  · obtain ⟨n, hn, hkind⟩ := hnode
    obtain ⟨n', hn', hkind', -⟩ := hx.kept target n hn
    exact ⟨n', hn', hkind'.trans hkind⟩
  · have hne : t₁.nextId ≠ container := by
      intro heq
      exact hstatement (heq ▸ hc)
    rw [Tree.get?_update? ht, if_neg hne, Tree.get?_add_nextId]

end Store

/-! ## Stores in a run -/

/-- **The store is recognised as an update**: its variable is reached through the stack, a
duplication has copied the owner, and the value has the shape of an update. -/
structure Recognised (cfg : Settings) (code : List Instruction) (k : Nat) (m : Machine)
    (ref : VariableRef) (owner value : NodeId) (op : BinaryOp) (right : NodeId) : Prop where
  addressing : ref.addressing = .stackTop ∨ ref.addressing = .array
  copied : CopiedBefore cfg Tree.root code {} k owner
  update : m.tree.IsUpdate value op right

section Run

variable {cfg : Settings} {code : List Instruction} {k : Nat} {i : Instruction}
  {ref : VariableRef} {m m' : Machine}

/-- In a run, operations have two operands. -/
theorem Arrives.operands (way : Arrives cfg Tree.root code {} k m) {id : NodeId} {n : Node}
    {op : BinaryOp} (hn : m.tree.get? id = some n) (hk : n.kind = .binary op) :
    ∃ left right, n.children = [left, right] := by
  let quiet : Settings := { cfg with verbosity := none }
  let own : NodeId → Prop := fun _ => True
  have hroot : Tree.new.Takes own .container Tree.root :=
    ⟨wellFormed_new.container, fun _ => ⟨_, rfl, rfl⟩⟩
  have hkept := way.keeps
    (P := fun m => m.Arranged quiet own ∧ m.tree.Takes own .container Tree.root)
    (fun hadv _ h => by
      obtain ⟨statements, hx⟩ := hadv.extends
      exact ⟨hadv.arranged h.1 h.2, hx.retains.takes h.2⟩)
    wellFormed_new ⟨⟨Tree.layout_new quiet, List.forall_mem_nil _⟩, hroot⟩
  obtain ⟨left, right, hchildren, -⟩ := (hkept.2.1.layout.laidOut id n trivial hn).operands hk
  exact ⟨left, right, hchildren⟩

theorem Arrives.marked_root_iff (way : Arrives cfg Tree.root code {} k m) (id : NodeId) :
    m.tree.Marked id ↔ CopiedBefore cfg Tree.root code {} k id := by
  refine way.marked_iff wellFormed_new ?_ id
  rintro ⟨index⟩ ⟨n, hn, hmark⟩
  have hindex : index = 0 := Nat.lt_one_iff.mp (Tree.holds_of_get? hn)
  subst hindex
  cases hn
  cases hmark

/-- **A store becomes a compound assignment exactly if it is recognised**, whatever the variable and
the operation of the update are; any other store becomes a plain assignment. -/
theorem store_recognised (h : Executes cfg Tree.root code {} k i m m') (hop : i.opcode = .pop)
    (href : i.reference = some ref) :
    ∃ target owner value, m.stack.items[i.valueDepth]? = some value ∧
      ((∃ op right, Recognised cfg code k m ref owner value op right ∧
          Assigned Tree.root ref m.tree m'.tree target owner (.compound op) right) ∨
        ((∀ op right, ¬ Recognised cfg code k m ref owner value op right) ∧
          Assigned Tree.root ref m.tree m'.tree target owner .plain value)) := by
  obtain ⟨way, -, ⟨skip, hok⟩, rfl⟩ := h
  have hm : m.WellFormed Tree.root := way.wellFormed wellFormed_new
  obtain ⟨a, value, t, hvalue, haddressing, hnew, hnode, hgrows, hmarks, hassigns⟩ :=
    ((advances_of_step hm hok).performs hop).assigns hop href
  have hheld : m.tree.Holds value := hm.items value (List.mem_of_getElem? hvalue)
  -- the tree in which the lifter looks has only got new nodes
  have hfound (op : BinaryOp) (right : NodeId) :
      t.compound? a.owner a.addressing value = some (some (op, right)) ↔
        Recognised cfg code k m ref a.owner value op right := by
    rw [Tree.compound?_eq_iff (fun n op hn => way.operands (by rw [← hn, hgrows.get?_eq hheld])),
      hmarks, way.marked_root_iff, haddressing, hgrows.isUpdate_iff hm.closed hheld]
    constructor
    · rintro ⟨hcopied, hreach, hupdate⟩
      exact ⟨hreach, hcopied, hupdate⟩
    · rintro ⟨hreach, hcopied, hupdate⟩
      exact ⟨hcopied, hreach, hupdate⟩
  refine ⟨a.node, a.owner, value, hvalue, ?_⟩
  cases hassigns with
  | compound hc ht =>
    exact Or.inl ⟨_, _, (hfound _ _).mp hc,
      assigned_of_append hgrows hm.container hnew hnode ht⟩
  | plain hc ht =>
    refine Or.inr ⟨fun op right hrec => ?_, assigned_of_append hgrows hm.container hnew hnode ht⟩
    rw [(hfound op right).mpr hrec] at hc
    cases hc

end Run

/-! ## An element of an array -/

/-- The instruction that stores an element of the array `var7`. -/
def storeElement : Instruction :=
  { opcode := .pop, type1 := .int32, type2 := .variant, reference := some ⟨7, .array⟩,
    owner := .self }

/-- Code for an update of `5.var7[0]` with the number one. What it reads and how it operates are
left open. -/
def updateElement (read : VariableRef) (operation : Instruction) : List Instruction :=
  let number (n : Int32) : Instruction :=
    { opcode := .push, type1 := .int32, literal := some (.int32 n) }
  [number 5, number 0, { opcode := .dup, type1 := .int32, extra := 1 },
    { opcode := .push, type1 := .variant, reference := some read, owner := .self }, number 1,
    operation, storeElement]

/-- The element itself is read and added to. -/
theorem store_recognised_element :
    let code := updateElement ⟨7, .array⟩ { opcode := .add, type1 := .int32, type2 := .variant }
    ∃ m m', Executes {} Tree.root code {} 6 storeElement m m' ∧
      (∃ target owner value, m.stack.items[0]? = some value ∧
        ((∃ op right, Recognised {} code 6 m ⟨7, .array⟩ owner value op right ∧
            Assigned Tree.root ⟨7, .array⟩ m.tree m'.tree target owner (.compound op) right) ∨
          ((∀ op right, ¬ Recognised {} code 6 m ⟨7, .array⟩ owner value op right) ∧
            Assigned Tree.root ⟨7, .array⟩ m.tree m'.tree target owner .plain value))) ∧
      m'.tree.get? ⟨7⟩ = some { kind := .assign (.compound .add), children := [⟨6⟩, ⟨4⟩] } := by
  intro code
  have hbefore : (after {} Tree.root code {} 6).map Prod.fst = some 6 := by decide +kernel
  have hafter : (after {} Tree.root code {} 7).map (fun a => a.2.tree.get? ⟨7⟩) =
      some (some { kind := .assign (.compound .add), children := [⟨6⟩, ⟨4⟩] }) := by decide +kernel
  obtain ⟨⟨k, m⟩, hm, rfl⟩ := Option.map_eq_some_iff.mp hbefore
  obtain ⟨⟨k', m'⟩, hm', hnode⟩ := Option.map_eq_some_iff.mp hafter
  have hexecutes := executes_of_after hm (i := storeElement) rfl hm'
  exact ⟨m, m', hexecutes, store_recognised hexecutes rfl rfl, hnode⟩

/-- The value is an operation on the variable that is stored: its left operand has the same name and
addressing, the same owner and the same indices. -/
def ReadsTarget (t : Tree) (target value : NodeId) : Prop :=
  ∃ n left right leftNode targetNode, t.get? value = some n ∧ n.children = [left, right] ∧
    t.get? left = some leftNode ∧ t.get? target = some targetNode ∧
    leftNode.kind = targetNode.kind ∧ leftNode.children = targetNode.children

/-- **A comparison with another variable is recognised**: `5.var7[0] = (var8 == 1)` becomes a
compound assignment, although the variable that is read has another name, another addressing,
another owner and no index. -/
theorem compound_of_other_variable :
    let code := updateElement ⟨8, .normal⟩
      { opcode := .cmp, type1 := .int32, type2 := .variant, comparison := 3 }
    ∃ m m', Executes {} Tree.root code {} 6 storeElement m m' ∧
      m.stack.items[0]? = some ⟨6⟩ ∧
      m'.tree.get? ⟨8⟩ = some
        { kind := .assign (.compound (.compare .equal)), children := [⟨7⟩, ⟨5⟩] } ∧
      m'.tree.get? ⟨7⟩ = some { kind := .var 7 .array (some ⟨1⟩), children := [⟨2⟩] } ∧
      m'.tree.get? ⟨6⟩ = some { kind := .binary (.compare .equal), children := [⟨4⟩, ⟨5⟩] } ∧
      m'.tree.get? ⟨4⟩ = some { kind := .var 8 .normal (some ⟨3⟩) } ∧
      ¬ ReadsTarget m'.tree ⟨7⟩ ⟨6⟩ := by
  intro code
  have hbefore : (after {} Tree.root code {} 6).map (fun a => (a.1, a.2.stack.items[0]?)) =
      some (6, some ⟨6⟩) := by decide +kernel
  have hafter : (after {} Tree.root code {} 7).map (fun a => [8, 7, 6, 4].map fun index =>
        a.2.tree.get? ⟨index⟩) = some
      [some { kind := .assign (.compound (.compare .equal)), children := [⟨7⟩, ⟨5⟩] },
        some { kind := .var 7 .array (some ⟨1⟩), children := [⟨2⟩] },
        some { kind := .binary (.compare .equal), children := [⟨4⟩, ⟨5⟩] },
        some { kind := .var 8 .normal (some ⟨3⟩) }] := by decide +kernel
  obtain ⟨⟨k, m⟩, hm, htop⟩ := Option.map_eq_some_iff.mp hbefore
  obtain ⟨⟨k', m'⟩, hm', hnodes⟩ := Option.map_eq_some_iff.mp hafter
  obtain ⟨rfl, htop⟩ := Prod.mk.inj htop
  simp only [List.map_cons, List.map_nil, List.cons.injEq, and_true] at hnodes
  obtain ⟨hstatement, htarget, hvalue, hleft⟩ := hnodes
  refine ⟨m, m', executes_of_after hm (i := storeElement) rfl hm', htop, hstatement, htarget,
    hvalue, hleft, ?_⟩
  rintro ⟨n, left, right, leftNode, targetNode, hn, hchildren, hleftNode, htargetNode, hkind, -⟩
  cases hvalue.symm.trans hn
  cases hchildren
  cases hleft.symm.trans hleftNode
  cases htarget.symm.trans htargetNode
  cases hkind

end Machine

end GmlLift
