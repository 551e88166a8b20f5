import GmlLift.Proofs.Execution.Effect
import GmlLift.Proofs.Tree.Reach

/-!
# Ids stay in range

A machine is `WellFormed` when every id on its stack and in its tree is the id of a node. Every
instruction keeps it so (`Performs.wellFormed`), and every instruction only adds to the tree
(`Performs.extends`): at most one statement goes to the container, and nothing else is changed but
marks.
-/

namespace GmlLift

namespace Instruction

/-- How many statements the instruction makes on a stack of the given depth. -/
def statements (i : Instruction) (depth : Nat) : Nat :=
  match i.opcode with
  | .pop => if i.reference.isNone then 0 else 1
  | .ret | .exit => 1
  | .popz => min depth 1
  | _ => 0

theorem statements_of_opcode (i : Instruction) {op : Opcode} (hop : i.opcode = op) (depth : Nat) :
    i.statements depth = statements { i with opcode := op } depth := by
  subst hop
  rfl

theorem statements_pop (i : Instruction) (hop : i.opcode = .pop) (depth : Nat) :
    i.statements depth = if i.reference.isNone then 0 else 1 := by
  unfold statements
  rw [hop]

theorem statements_push (i : Instruction) (hop : i.opcode.isPush = true) (depth : Nat) :
    i.statements depth = 0 := by
  unfold statements
  cases h : i.opcode <;> rw [h] at hop <;> first | rfl | cases hop

theorem statements_binary (i : Instruction) (hop : i.opcode.isBinary = true) (depth : Nat) :
    i.statements depth = 0 := by
  unfold statements
  cases h : i.opcode <;> rw [h] at hop <;> first | rfl | cases hop

end Instruction

namespace Machine

/-- **Every id of the machine is in range**, and so is the container. -/
structure WellFormed (container : NodeId) (m : Machine) : Prop where
  closed : m.tree.Closed
  items : ∀ id ∈ m.stack.items, m.tree.Holds id
  container : m.tree.Holds container

/-- A machine that has done nothing yet. -/
theorem wellFormed_new : WellFormed Tree.root {} where
  closed id n hn ref href := by
    have hid := Tree.holds_of_get? hn
    have h0 : id = ⟨0⟩ := by
      cases id
      exact congrArg NodeId.mk (Nat.lt_one_iff.mp hid)
    subst h0
    cases hn
    cases href
  items _ hid := by cases hid
  container := Nat.one_pos

/-! ## Ids stay in range -/

/-- The indices of a variable are the index expression or nodes that it leads to. -/
theorem leads_of_mem_indexParts {t : Tree} {cfg : Settings} {index id : NodeId}
    (h : id ∈ indexParts cfg t index) : Relation.ReflTransGen t.Refers index id := by
  unfold indexParts rowAndColumn? at h
  split at h
  · rename_i row column hparts
    split at hparts
    · obtain ⟨hrow, hcolumn⟩ := Tree.leads_of_flattened? hparts
      simp only [List.mem_cons, List.not_mem_nil, or_false] at h
      rcases h with rfl | rfl
      · exact hrow
      · exact hcolumn
    · cases hparts
  · simp only [List.mem_cons, List.not_mem_nil, or_false] at h
    rw [h]

theorem holds_of_mem_indexParts {t : Tree} (ht : t.Closed) {cfg : Settings} {index id : NodeId}
    (hi : t.Holds index) (h : id ∈ indexParts cfg t index) : t.Holds id :=
  ht.holds_of_leads hi (leads_of_mem_indexParts h)

theorem compound?_of_holds {t : Tree} (ht : t.Closed) {owner value : NodeId}
    (ho : t.Holds owner) (hv : t.Holds value) (addressing : Addressing) :
    ∃ found, t.compound? owner addressing value = some found := by
  obtain ⟨on, hon⟩ := Tree.get?_of_holds ho
  obtain ⟨vn, hvn⟩ := Tree.get?_of_holds hv
  unfold Tree.compound?
  rw [hon, hvn]
  simp only
  split
  · split
    · rename_i heq
      cases heq
    · rename_i op left right more d heq
      cases heq
      obtain ⟨ln, hln⟩ := Tree.get?_of_holds (ht value _ hvn left (by simp [Node.references]))
      rw [hln]
      split
      · rename_i heq
        cases heq
      · exact ⟨_, rfl⟩
      · exact ⟨_, rfl⟩
    · exact ⟨_, rfl⟩
  · exact ⟨_, rfl⟩

/-- The right operand of a compound assignment is in range. -/
theorem holds_of_compound? {t : Tree} (ht : t.Closed) {owner value right : NodeId}
    {addressing : Addressing} {op : BinaryOp}
    (h : t.compound? owner addressing value = some (some (op, right))) : t.Holds right :=
  ht.holds_of_mem_refs (Tree.refers_of_compound? h)

theorem markAll?_of_holds : ∀ {ids : List NodeId} {t : Tree}, (∀ id ∈ ids, t.Holds id) →
    ∃ t', markAll? t ids = some t'
  | [], t, _ => ⟨t, rfl⟩
  | id :: ids, t, h => by
    obtain ⟨t₁, ht₁⟩ : ∃ t₁, t.setDuplicated? id true = some t₁ :=
      Option.isSome_iff_exists.mp (Tree.isSome_update?_iff.mpr (h id List.mem_cons_self))
    have h₁ : ∀ other ∈ ids, t₁.Holds other := fun other hmem =>
      (Tree.extends_setDuplicated other ht₁).holds (h other (List.mem_cons_of_mem id hmem))
    obtain ⟨t', ht'⟩ := markAll?_of_holds h₁
    refine ⟨t', ?_⟩
    unfold markAll?
    rw [List.foldlM_cons, ht₁]
    exact ht'

theorem markAll?_cons {t t' : Tree} {id : NodeId} {ids : List NodeId}
    (h : markAll? t (id :: ids) = some t') :
    ∃ t₁, t.setDuplicated? id true = some t₁ ∧ markAll? t₁ ids = some t' := by
  unfold markAll? at h ⊢
  rw [List.foldlM_cons] at h
  exact Option.bind_eq_some_iff.mp h

/-- The marked nodes are the old ones and those that get a mark. -/
theorem marked_markAll? {ids : List NodeId} {t t' : Tree} (h : markAll? t ids = some t')
    {id : NodeId} : t'.Marked id ↔ t.Marked id ∨ id ∈ ids := by
  induction ids generalizing t with
  | nil =>
    cases h
    simp
  | cons first ids ih =>
    obtain ⟨t₁, ht₁, h⟩ := markAll?_cons h
    rw [ih h, Tree.marked_setDuplicated? ht₁, List.mem_cons, or_assoc]

theorem extends_of_markAll? (container : NodeId) : ∀ {ids : List NodeId} {t t' : Tree},
    markAll? t ids = some t' → t.Extends container t' []
  | [], t, _, h => by
    cases h
    exact .refl container t
  | _ :: _, _, _, h => by
    obtain ⟨t₁, ht₁, h⟩ := markAll?_cons h
    exact (Tree.extends_setDuplicated container ht₁).trans (extends_of_markAll? container h)

theorem closed_of_markAll? : ∀ {ids : List NodeId} {t t' : Tree},
    t.Closed → markAll? t ids = some t' → t'.Closed
  | [], _, _, ht, h => by
    cases h
    exact ht
  | _ :: _, _, _, ht, h => by
    obtain ⟨t₁, ht₁, h⟩ := markAll?_cons h
    exact closed_of_markAll? (ht.setDuplicated ht₁) h

/-! ## One instruction -/

section Step

variable {cfg : Settings} {container : NodeId}

/-- A grown tree and a stack of ids that were in range before. -/
theorem WellFormed.mono {m : Machine} (hm : m.WellFormed container) {t : Tree}
    {items statements : List NodeId} (hx : m.tree.Extends container t statements)
    (hc : t.Closed) (hi : ∀ id ∈ items, t.Holds id) : WellFormed container ⟨t, ⟨items⟩⟩ where
  closed := hc
  items := hi
  container := hx.holds hm.container

theorem Reaches.extends {owner : Owner} {addressing : Addressing} {m m' : Machine} {left : NodeId}
    {indices : List NodeId} (h : Reaches cfg owner addressing m left indices m') :
    m.tree.Extends container m'.tree [] := by
  cases h with
  | member _ => exact .refl ..
  | element _ _ => exact .refl ..
  | named _ _ _ => exact Tree.extends_add ..

theorem Reaches.wellFormed {owner : Owner} {addressing : Addressing} {m m' : Machine}
    {left : NodeId} {indices : List NodeId} (h : Reaches cfg owner addressing m left indices m')
    (hm : m.WellFormed container) :
    m'.WellFormed container ∧ m'.tree.Holds left ∧ ∀ id ∈ indices, m'.tree.Holds id := by
  cases h with
  | member _ =>
    obtain ⟨hleft, hrest⟩ := List.forall_mem_cons.mp hm.items
    exact ⟨hm.mono (.refl ..) hm.closed hrest, hleft, fun _ h => by cases h⟩
  | element _ _ =>
    obtain ⟨hindex, hrest⟩ := List.forall_mem_cons.mp hm.items
    obtain ⟨hleft, hrest⟩ := List.forall_mem_cons.mp hrest
    exact ⟨hm.mono (.refl ..) hm.closed hrest, hleft,
      fun _ h => holds_of_mem_indexParts hm.closed hindex h⟩
  | @named t items _ _ _ =>
    have hx := Tree.extends_add container t (.owner owner.code) []
    have hclosed : (t.add (.owner owner.code) []).Closed := hm.closed.add fun _ h => by cases h
    exact ⟨hm.mono hx hclosed fun id hid => hx.holds (hm.items id hid), t.holds_nextId_add _ _,
      fun _ h => by cases h⟩

theorem Accesses.extends (container : NodeId) {i : Instruction} {m m' : Machine} {a : Access}
    (h : Accesses cfg i m a m') : m.tree.Extends container m'.tree [] := by
  obtain ⟨_, hr⟩ := h
  exact hr.extends.trans (Tree.extends_add container ..)

theorem Accesses.wellFormed {i : Instruction} {m m' : Machine} {a : Access}
    (h : Accesses cfg i m a m') (hm : m.WellFormed container) :
    m'.WellFormed container ∧ m'.tree.Holds a.node ∧ m'.tree.Holds a.owner := by
  obtain ⟨_, hr⟩ := h
  rename_i ref left indices t items _
  obtain ⟨hm', hleft, hindices⟩ := hr.wellFormed hm
  have hx := Tree.extends_add container t (.var ref.target ref.addressing (some left)) indices
  refine ⟨hm'.mono hx (hm'.closed.add ?_) fun id hid => hx.holds (hm'.items id hid),
    t.holds_nextId_add _ _, hx.holds hleft⟩
  intro id hid
  have hid : id = left ∨ id ∈ indices := by simpa [Node.references, Kind.left?] using hid
  rcases hid with rfl | hid
  · exact hleft
  · exact hindices id hid

theorem Assigns.extends {a : Access} {value : NodeId} {t t' : Tree}
    (h : Assigns container a value t t') : ∃ statement, t.Extends container t' [statement] := by
  cases h with
  | plain _ ht => exact ⟨_, (Tree.extends_add ..).trans (Tree.extends_appendChild ht)⟩
  | compound _ ht => exact ⟨_, (Tree.extends_add ..).trans (Tree.extends_appendChild ht)⟩

/-- A new statement whose operands are in range is put into the container. -/
theorem closed_statement {t t' : Tree} (ht : t.Closed) {kind : Kind} {children : List NodeId}
    (hk : kind.left? = none) (hc : ∀ id ∈ children, t.Holds id)
    (h : (t.add kind children).appendChild? container t.nextId = some t') : t'.Closed := by
  refine (ht.add fun id hid => hc id ?_).appendChild h (t.holds_nextId_add _ _)
  simpa [Node.references, hk] using hid

theorem Assigns.closed {a : Access} {value : NodeId} {t t' : Tree}
    (h : Assigns container a value t t') (ht : t.Closed) (hn : t.Holds a.node)
    (hv : t.Holds value) : t'.Closed := by
  cases h with
  | plain _ h => exact closed_statement ht rfl (by simp [hn, hv]) h
  | compound hc h => exact closed_statement ht rfl (by simp [hn, holds_of_compound? ht hc]) h

theorem assigns_of_holds {a : Access} {value : NodeId} {t : Tree} (ht : t.Closed)
    (ho : t.Holds a.owner) (hv : t.Holds value) (hc : t.Holds container) :
    ∃ t', Assigns container a value t t' := by
  obtain ⟨found, hf⟩ := compound?_of_holds ht ho hv a.addressing
  cases found with
  | none =>
    obtain ⟨t', ht'⟩ := Tree.appendChild?_of_holds
      ((Tree.extends_add container t (.assign .plain) [a.node, value]).holds hc) t.nextId
    exact ⟨t', .plain hf ht'⟩
  | some parts =>
    obtain ⟨op, right⟩ := parts
    obtain ⟨t', ht'⟩ := Tree.appendChild?_of_holds
      ((Tree.extends_add container t (.assign (.compound op)) [a.node, right]).holds hc) t.nextId
    exact ⟨t', .compound hf ht'⟩

/-- An expression made of operands in range takes their place on the stack. -/
theorem WellFormed.pushNew {t : Tree} {rest : List NodeId} (taken : List NodeId)
    (hm : WellFormed container ⟨t, ⟨taken ++ rest⟩⟩) {kind : Kind} {children : List NodeId}
    (hk : kind.left? = none) (hc : ∀ id ∈ children, id ∈ taken) :
    WellFormed container ⟨t.add kind children, ⟨t.nextId :: rest⟩⟩ := by
  have hx := Tree.extends_add container t kind children
  refine hm.mono hx (hm.closed.add fun id hid => ?_) ?_
  · have hid : id ∈ children := by simpa [Node.references, hk] using hid
    exact hm.items id (List.mem_append_left _ (hc id hid))
  · intro id hid
    rcases List.mem_cons.mp hid with rfl | hid
    · exact t.holds_nextId_add _ _
    · exact hx.holds (hm.items id (List.mem_append_right _ hid))

/-- **Every instruction keeps the ids in range.** -/
theorem Performs.wellFormed {i : Instruction} {m m' : Machine} (h : Performs cfg container i m m')
    (hm : m.WellFormed container) : m'.WellFormed container := by
  cases h with
  | @pushLiteral t items l _ _ _ =>
    exact hm.pushNew [] (by cases l <;> rfl) (fun _ h => by cases h)
  | pushVariable _ _ ha =>
    obtain ⟨hm', hnode, -⟩ := ha.wellFormed hm
    exact hm'.mono (.refl ..) hm'.closed (List.forall_mem_cons.mpr ⟨hnode, hm'.items⟩)
  | storeAbove _ _ ha hs =>
    obtain ⟨hvalue, hitems⟩ := List.forall_mem_cons.mp hm.items
    obtain ⟨hm', hnode, -⟩ := ha.wellFormed (hm.mono (.refl ..) hm.closed hitems)
    have hvalue := (ha.extends container).holds hvalue
    obtain ⟨_, hx⟩ := hs.extends
    exact hm'.mono hx (hs.closed hm'.closed hnode hvalue)
      fun id hid => hx.holds (hm'.items id hid)
  | storeBelow _ _ ha hs =>
    obtain ⟨hm', hnode, -⟩ := ha.wellFormed hm
    obtain ⟨hvalue, hitems⟩ := List.forall_mem_cons.mp hm'.items
    obtain ⟨_, hx⟩ := hs.extends
    exact hm'.mono hx (hs.closed hm'.closed hnode hvalue) fun id hid => hx.holds (hitems id hid)
  | permute _ _ =>
    refine hm.mono (.refl ..) hm.closed fun id hid => hm.items id ?_
    simp only [List.mem_cons, List.mem_append] at hid ⊢
    exact hid.imp_right (Or.imp_right Or.inr)
  | @operate t left right rest _ _ _ =>
    exact hm.pushNew [right, left] rfl (by simp [or_comm])
  | @operateOne t operand rest _ _ =>
    exact hm.pushNew [operand] rfl (by simp)
  | call _ _ _ => exact hm.pushNew _ rfl fun _ h => h
  | returnValue _ ht =>
    obtain ⟨hvalue, hrest⟩ := List.forall_mem_cons.mp hm.items
    have hx := (Tree.extends_add container ..).trans (Tree.extends_appendChild ht)
    exact hm.mono hx (closed_statement hm.closed rfl (by simpa using hvalue) ht)
      fun id hid => hx.holds (hrest id hid)
  | exitScript _ ht =>
    have hx := (Tree.extends_add container ..).trans (Tree.extends_appendChild ht)
    exact hm.mono hx (closed_statement hm.closed rfl (fun _ h => by cases h) ht)
      fun id hid => hx.holds (hm.items id hid)
  | discard _ ht =>
    obtain ⟨hvalue, hrest⟩ := List.forall_mem_cons.mp hm.items
    have hx := Tree.extends_appendChild ht
    exact hm.mono hx (hm.closed.appendChild ht hvalue) fun id hid => hx.holds (hrest id hid)
  | discardNothing _ => exact hm
  | duplicate _ _ _ ht =>
    have hx := extends_of_markAll? container ht
    refine hm.mono hx (closed_of_markAll? hm.closed ht) fun id hid => hx.holds (hm.items id ?_)
    rcases List.mem_append.mp hid with hid | hid
    · exact List.mem_of_mem_take hid
    · exact hid
  | @convert t top rest _ _ _ => exact hm.pushNew [top] rfl (fun _ h => by cases h)
  | keep _ _ => exact hm
  | mark _ => exact hm

theorem Accesses.reference {i : Instruction} {m m' : Machine} {a : Access}
    (h : Accesses cfg i m a m') : i.reference.isNone = false := by
  obtain ⟨href, _⟩ := h
  rw [href]
  rfl

/-- **Every instruction only adds to the tree**, and the container gets as many statements as the
instruction makes. -/
theorem Performs.extends {i : Instruction} {m m' : Machine} (h : Performs cfg container i m m') :
    ∃ statements, m.tree.Extends container m'.tree statements ∧
      statements.length = i.statements m.stack.depth := by
  cases h with
  | pushLiteral hop _ _ =>
    refine ⟨_, Tree.extends_add .., ?_⟩
    rcases hop with hop | ⟨hop, _⟩
    · exact (i.statements_push hop _).symm
    · exact (i.statements_of_opcode hop _).symm
  | pushVariable hop _ ha => exact ⟨_, ha.extends container, (i.statements_push hop _).symm⟩
  | storeAbove hop _ ha hs =>
    obtain ⟨_, hx⟩ := hs.extends
    refine ⟨_, (ha.extends container).trans hx, ?_⟩
    rw [i.statements_pop hop, ha.reference]
    rfl
  | storeBelow hop _ ha hs =>
    obtain ⟨_, hx⟩ := hs.extends
    refine ⟨_, (ha.extends container).trans hx, ?_⟩
    rw [i.statements_pop hop, ha.reference]
    rfl
  | permute hop _ =>
    refine ⟨_, .refl .., ?_⟩
    simp only [Instruction.isPermutation, Bool.and_eq_true, decide_eq_true_eq] at hop
    rw [i.statements_pop hop.1, hop.2]
    rfl
  | operate hop _ => exact ⟨_, Tree.extends_add .., (i.statements_binary hop _).symm⟩
  | @operateOne _ _ _ op hop =>
    refine ⟨_, Tree.extends_add .., ?_⟩
    rw [i.statements_of_opcode hop]
    cases op <;> rfl
  | call hop _ _ => exact ⟨_, Tree.extends_add .., (i.statements_of_opcode hop _).symm⟩
  | returnValue hop ht =>
    exact ⟨_, (Tree.extends_add ..).trans (Tree.extends_appendChild ht),
      (i.statements_of_opcode hop _).symm⟩
  | exitScript hop ht =>
    exact ⟨_, (Tree.extends_add ..).trans (Tree.extends_appendChild ht),
      (i.statements_of_opcode hop _).symm⟩
  | discard hop ht =>
    refine ⟨_, Tree.extends_appendChild ht, ?_⟩
    rw [i.statements_of_opcode hop]
    exact (Nat.min_eq_right (Nat.succ_le_succ (Nat.zero_le _))).symm
  | discardNothing hop =>
    refine ⟨_, .refl .., ?_⟩
    rw [i.statements_of_opcode hop]
    rfl
  | duplicate hop _ _ ht =>
    exact ⟨_, extends_of_markAll? container ht, (i.statements_of_opcode hop _).symm⟩
  | convert hop _ => exact ⟨_, Tree.extends_add .., (i.statements_of_opcode hop _).symm⟩
  | keep hop _ => exact ⟨_, .refl .., (i.statements_of_opcode hop _).symm⟩
  | mark hop =>
    refine ⟨_, .refl .., ?_⟩
    simp only [List.mem_cons, List.not_mem_nil, or_false] at hop
    rcases hop with hop | hop | hop | hop | hop <;> exact (i.statements_of_opcode hop _).symm

end Step

end Machine

end GmlLift
