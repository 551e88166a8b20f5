import GmlLift.Lifting.Execution

/-!
# What an instruction can do

`Machine.Performs cfg container i m m'` lists every way in which an instruction succeeds: the
operands that it takes, the nodes that it makes and what it leaves. Positions and report lines do
not occur in it. Every law about runs is derived from this list, one case for each constructor.

A run that reports nothing is `quiet`. Results:
* `perform_of_performs`: a quiet machine does what `Performs` says, and reports nothing.
* `increment_pre`, `increment_pre_permuted`, `increment_post`: what an increment window does.
-/

namespace GmlLift

/-- The opcode of an operator on one operand. -/
def UnaryOp.opcode : UnaryOp → Opcode
  | neg => .neg
  | not => .not

/-- The signed integers. -/
def DataType.isInteger : DataType → Bool
  | int16 | int32 | int64 => true
  | _ => false

/-- The node of a literal; only a 16-bit integer remembers how it was pushed. -/
def Literal.kind (pushedBy : Opcode) : Literal → Kind
  | .int16 v => .int16 v pushedBy
  | .int32 v => .int32 v
  | .int64 v => .int64 v
  | .double bits => .double bits
  | .float bits => .float bits
  | .boolean v => .boolean v
  | .string index => .string index

theorem Literal.dataType_ne_variant (l : Literal) : l.dataType ≠ .variant := by
  cases l <;> simp [Literal.dataType]

theorem Instruction.literalKind_of_literal {i : Instruction} {l : Literal}
    (hl : i.literal = some l) (hty : i.type1 = l.dataType) (position : Nat) :
    i.literalKind position = .ok (l.kind i.opcode) := by
  unfold Instruction.literalKind Instruction.payload
  rw [hl, hty]
  cases l <;> rfl

namespace Machine

open GmlLift.Action

/-! ## Quiet runs -/

section Quiet

variable {cfg : Settings} (quiet : cfg.verbosity = none)

include quiet

theorem report_quiet {σ : Type} (level : Level) (text : σ → String) (m : σ) :
    report cfg level text m = ⟨.ok (), m, []⟩ := by
  simp [report, quiet, Level.wantedAt]

theorem describe_quiet (level : Level) (id : NodeId) (line : String → String) (m : Machine) :
    describe cfg level id line m = ⟨.ok (), m, []⟩ := by
  simp [describe, quiet, Level.wantedAt]

end Quiet

/-! ## The cases -/

/-- The indices that an index expression stands for. -/
def indexParts (cfg : Settings) (t : Tree) (index : NodeId) : List NodeId :=
  match rowAndColumn? cfg t index with
  | some (row, column) => [row, column]
  | none => [index]

/-- The owner and the indices of a variable are found: both on the stack, the owner on the stack,
or the owner in the instruction. -/
inductive Reaches (cfg : Settings) (owner : Owner) (addressing : Addressing) :
    Machine → NodeId → List NodeId → Machine → Prop
  | member {t : Tree} {left : NodeId} {rest : List NodeId}
      (h : owner = .stackTop ∨ addressing = .stackTop) :
      Reaches cfg owner addressing ⟨t, ⟨left :: rest⟩⟩ left [] ⟨t, ⟨rest⟩⟩
  | element {t : Tree} {left index : NodeId} {rest : List NodeId} (ho : owner ≠ .stackTop)
      (ha : addressing = .array) :
      Reaches cfg owner addressing ⟨t, ⟨index :: left :: rest⟩⟩ left (indexParts cfg t index)
        ⟨t, ⟨rest⟩⟩
  | named {t : Tree} {items : List NodeId} (ho : owner ≠ .stackTop)
      (hs : addressing ≠ .stackTop) (ha : addressing ≠ .array) :
      Reaches cfg owner addressing ⟨t, ⟨items⟩⟩ t.nextId []
        ⟨t.add (.owner owner.code) [], ⟨items⟩⟩

/-- The variable of an instruction is reached and gets a node. -/
inductive Accesses (cfg : Settings) (i : Instruction) : Machine → Access → Machine → Prop
  | intro {m : Machine} {ref : VariableRef} {left : NodeId} {indices : List NodeId} {t : Tree}
      {items : List NodeId} (href : i.reference = some ref)
      (hr : Reaches cfg i.owner ref.addressing m left indices ⟨t, ⟨items⟩⟩) :
      Accesses cfg i m ⟨t.nextId, left, ref.addressing⟩
        ⟨t.add (.var ref.target ref.addressing (some left)) indices, ⟨items⟩⟩

/-- A statement that stores a value is made and put into the container. -/
inductive Assigns (container : NodeId) (target : Access) (value : NodeId) : Tree → Tree → Prop
  | plain {t t' : Tree} (hc : t.compound? target.owner target.addressing value = some none)
      (ht : (t.add (.assign .plain) [target.node, value]).appendChild? container t.nextId =
        some t') : Assigns container target value t t'
  | compound {t t' : Tree} {op : BinaryOp} {right : NodeId}
      (hc : t.compound? target.owner target.addressing value = some (some (op, right)))
      (ht : (t.add (.assign (.compound op)) [target.node, right]).appendChild? container
        t.nextId = some t') : Assigns container target value t t'

/-- Marks nodes as copied, one after the other. -/
def markAll? (t : Tree) (ids : List NodeId) : Option Tree :=
  ids.foldlM (fun t id => t.setDuplicated? id true) t

/-- The truth value that a conversion puts in the place of the top of the stack. -/
def truthOf? (i : Instruction) (t : Tree) (items : List NodeId) : Option Bool :=
  if i.type1 = .int32 && i.type2 = .boolean then items.head?.bind t.booleanLiteral? else none

/-- **What an instruction can do.** -/
inductive Performs (cfg : Settings) (container : NodeId) (i : Instruction) :
    Machine → Machine → Prop
  | pushLiteral {t : Tree} {items : List NodeId} {l : Literal}
      (hop : i.opcode.isPush = true ∨ (i.opcode = .pushI ∧ i.type1.isInteger = true))
      (hl : i.literal = some l) (hty : i.type1 = l.dataType) :
      Performs cfg container i ⟨t, ⟨items⟩⟩
        ⟨t.add (l.kind i.opcode) [], ⟨t.nextId :: items⟩⟩
  | pushVariable {m : Machine} {a : Access} {t : Tree} {items : List NodeId}
      (hop : i.opcode.isPush = true) (hty : i.type1 = .variant)
      (ha : Accesses cfg i m a ⟨t, ⟨items⟩⟩) :
      Performs cfg container i m ⟨t, ⟨a.node :: items⟩⟩
  | storeAbove {t t₁ t₂ : Tree} {items rest : List NodeId} {value : NodeId} {a : Access}
      (hop : i.opcode = .pop) (hty : i.type1 = .int32)
      (ha : Accesses cfg i ⟨t, ⟨items⟩⟩ a ⟨t₁, ⟨rest⟩⟩) (hs : Assigns container a value t₁ t₂) :
      Performs cfg container i ⟨t, ⟨value :: items⟩⟩ ⟨t₂, ⟨rest⟩⟩
  | storeBelow {m : Machine} {t₁ t₂ : Tree} {rest : List NodeId} {value : NodeId} {a : Access}
      (hop : i.opcode = .pop) (hty : i.type1 = .variant)
      (ha : Accesses cfg i m a ⟨t₁, ⟨value :: rest⟩⟩) (hs : Assigns container a value t₁ t₂) :
      Performs cfg container i m ⟨t₂, ⟨rest⟩⟩
  | permute {t : Tree} {first second : NodeId} {dropped rest : List NodeId}
      (hop : i.isPermutation = true) (hd : dropped.length = i.dropCount) :
      Performs cfg container i ⟨t, ⟨first :: second :: (dropped ++ rest)⟩⟩
        ⟨t, ⟨first :: second :: rest⟩⟩
  | operate {t : Tree} {left right : NodeId} {rest : List NodeId} {op : BinaryOp}
      (hop : i.opcode.isBinary = true) (ho : i.operator = .ok op) :
      Performs cfg container i ⟨t, ⟨right :: left :: rest⟩⟩
        ⟨t.add (.binary op) [left, right], ⟨t.nextId :: rest⟩⟩
  | operateOne {t : Tree} {operand : NodeId} {rest : List NodeId} {op : UnaryOp}
      (hop : i.opcode = op.opcode) :
      Performs cfg container i ⟨t, ⟨operand :: rest⟩⟩
        ⟨t.add (.unary op i.type1) [operand], ⟨t.nextId :: rest⟩⟩
  | call {t : Tree} {arguments rest : List NodeId} {target : UInt32} (hop : i.opcode = .call)
      (hf : i.function = some target) (ha : arguments.length = i.argumentCount.toNat) :
      Performs cfg container i ⟨t, ⟨arguments ++ rest⟩⟩
        ⟨t.add (.call target) arguments, ⟨t.nextId :: rest⟩⟩
  | returnValue {t t' : Tree} {value : NodeId} {rest : List NodeId} (hop : i.opcode = .ret)
      (ht : (t.add .returnStmt [value]).appendChild? container t.nextId = some t') :
      Performs cfg container i ⟨t, ⟨value :: rest⟩⟩ ⟨t', ⟨rest⟩⟩
  | exitScript {t t' : Tree} {items : List NodeId} (hop : i.opcode = .exit)
      (ht : (t.add .exitStmt []).appendChild? container t.nextId = some t') :
      Performs cfg container i ⟨t, ⟨items⟩⟩ ⟨t', ⟨items⟩⟩
  | discard {t t' : Tree} {value : NodeId} {rest : List NodeId} (hop : i.opcode = .popz)
      (ht : t.appendChild? container value = some t') :
      Performs cfg container i ⟨t, ⟨value :: rest⟩⟩ ⟨t', ⟨rest⟩⟩
  | discardNothing {t : Tree} (hop : i.opcode = .popz) :
      Performs cfg container i ⟨t, ⟨[]⟩⟩ ⟨t, ⟨[]⟩⟩
  | duplicate {t t' : Tree} {items : List NodeId} (hop : i.opcode = .dup)
      (hf : i.comparison = 0) (hd : i.dupCount ≤ items.length)
      (ht : markAll? t (items.take i.dupCount) = some t') :
      Performs cfg container i ⟨t, ⟨items⟩⟩ ⟨t', ⟨items.take i.dupCount ++ items⟩⟩
  | convert {t : Tree} {top : NodeId} {rest : List NodeId} {value : Bool}
      (hop : i.opcode = .conv) (hv : truthOf? i t (top :: rest) = some value) :
      Performs cfg container i ⟨t, ⟨top :: rest⟩⟩
        ⟨t.add (.boolean value) [], ⟨t.nextId :: rest⟩⟩
  | keep {t : Tree} {items : List NodeId} (hop : i.opcode = .conv)
      (hv : truthOf? i t items = none) :
      Performs cfg container i ⟨t, ⟨items⟩⟩ ⟨t, ⟨items⟩⟩
  | mark {m : Machine}
      (hop : i.opcode ∈ [.jump, .jumpTrue, .jumpFalse, .pushEnv, .popEnv]) :
      Performs cfg container i m m

/-! ## A quiet machine does what the cases say -/

/-- An action that answers and reports nothing hands its answer and its state on. -/
theorem bind_quiet {σ α β : Type} {x : Action σ α} {f : α → Action σ β} {s s' : σ} {a : α}
    (h : x s = ⟨.ok a, s', []⟩) : (x >>= f) s = f a s' := by
  rw [bind_apply, h]
  rfl

theorem pop_cons (position : Nat) (t : Tree) (id : NodeId) (rest : List NodeId) :
    pop position ⟨t, ⟨id :: rest⟩⟩ = ⟨.ok id, ⟨t, ⟨rest⟩⟩, []⟩ := rfl

theorem popMany_append (position : Nat) (t : Tree) : ∀ ids below : List NodeId,
    popMany position ids.length ⟨t, ⟨ids ++ below⟩⟩ = ⟨.ok ids, ⟨t, ⟨below⟩⟩, []⟩
  | [], _ => rfl
  | id :: ids, below => by
    rw [List.length_cons, popMany, List.cons_append, bind_quiet (pop_cons ..),
      bind_quiet (popMany_append position t ids below)]
    rfl

theorem append_of_some {parent child : NodeId} {t t' : Tree} {s : OperandStack}
    (h : t.appendChild? parent child = some t') :
    append parent child ⟨t, s⟩ = ⟨.ok (), ⟨t', s⟩, []⟩ :=
  edit_of_some (m := ⟨t, s⟩) h

section Quiet

variable {cfg : Settings} (quiet : cfg.verbosity = none)

include quiet

theorem arrayIndices_quiet (index : NodeId) (m : Machine) :
    arrayIndices cfg index m = ⟨.ok (indexParts cfg m.tree index), m, []⟩ := by
  unfold arrayIndices indexParts
  rw [bind_quiet (state_apply m)]
  cases rowAndColumn? cfg m.tree index with
  | none => rfl
  | some parts =>
    simp only
    rw [bind_quiet (describe_quiet quiet ..)]
    rfl

theorem reach_of_reaches {owner : Owner} {addressing : Addressing} {m m' : Machine}
    {left : NodeId} {indices : List NodeId} (position : Nat)
    (h : Reaches cfg owner addressing m left indices m') :
    reach cfg position owner addressing m = ⟨.ok (left, indices), m', []⟩ := by
  unfold reach
  cases h with
  | member h =>
    rw [if_pos (by simpa using h), bind_quiet (pop_cons ..)]
    rfl
  | element ho ha =>
    subst ha
    rw [if_neg (by simp [ho]), if_pos rfl, bind_quiet (pop_cons ..),
      bind_quiet (arrayIndices_quiet quiet ..), bind_quiet (pop_cons ..)]
    rfl
  | named ho hs ha =>
    rw [if_neg (by simp [ho, hs]), if_neg ha]
    rfl

theorem access_of_accesses {i : Instruction} {m m' : Machine} {a : Access} (position : Nat)
    (h : Accesses cfg i m a m') : access cfg position i m = ⟨.ok a, m', []⟩ := by
  obtain ⟨href, hr⟩ := h
  unfold access
  rw [href]
  simp only
  rw [bind_quiet (reach_of_reaches quiet position hr)]
  rfl

theorem assign_of_assigns {container value : NodeId} {a : Access} {t t' : Tree}
    {s : OperandStack} (position : Nat) (h : Assigns container a value t t') :
    assign cfg container position a value ⟨t, s⟩ = ⟨.ok (), ⟨t', s⟩, []⟩ := by
  unfold assign
  rw [bind_quiet (state_apply _)]
  cases h with
  | plain hc ht =>
    rw [hc]
    simp only
    rw [bind_quiet (make_apply ..)]
    exact append_of_some ht
  | compound hc ht =>
    rw [hc]
    simp only
    rw [bind_quiet (make_apply ..), bind_quiet (describe_quiet quiet ..)]
    exact append_of_some ht

end Quiet

theorem permute_apply {i : Instruction} {t : Tree} {first second : NodeId}
    {dropped rest : List NodeId} (position : Nat) (hd : dropped.length = i.dropCount) :
    permute position i ⟨t, ⟨first :: second :: (dropped ++ rest)⟩⟩ =
      ⟨.ok (), ⟨t, ⟨first :: second :: rest⟩⟩, []⟩ := by
  unfold permute
  rw [bind_quiet (pop_cons ..), bind_quiet (pop_cons ..), ← hd,
    bind_quiet (popMany_append position t dropped rest)]
  rfl

theorem call_apply {i : Instruction} {t : Tree} {arguments rest : List NodeId} {target : UInt32}
    (position : Nat) (hf : i.function = some target)
    (ha : arguments.length = i.argumentCount.toNat) :
    call position i ⟨t, ⟨arguments ++ rest⟩⟩ =
      ⟨.ok (), ⟨t.add (.call target) arguments, ⟨t.nextId :: rest⟩⟩, []⟩ := by
  unfold call
  rw [hf]
  simp only
  rw [← ha, bind_quiet (popMany_append position t arguments rest)]
  rfl

theorem duplicate_apply {i : Instruction} {t t' : Tree} {items : List NodeId} (position : Nat)
    (hf : i.comparison = 0) (hd : i.dupCount ≤ items.length)
    (ht : markAll? t (items.take i.dupCount) = some t') :
    duplicate position i ⟨t, ⟨items⟩⟩ =
      ⟨.ok (), ⟨t', ⟨items.take i.dupCount ++ items⟩⟩, []⟩ := by
  unfold duplicate
  have hn : ¬ (Machine.mk t ⟨items⟩).stack.depth < i.dupCount := Nat.not_lt.mpr hd
  rw [if_pos hf, bind_quiet (state_apply _), if_neg hn,
    bind_quiet (edit_of_some (m := ⟨t, ⟨items⟩⟩) ht)]
  rfl

theorem convert_apply {i : Instruction} (t : Tree) (items : List NodeId) :
    convert i ⟨t, ⟨items⟩⟩ =
      match truthOf? i t items with
      | some value =>
        ⟨.ok (), ⟨t.add (.boolean value) [], (OperandStack.mk items).replaceTop t.nextId⟩, []⟩
      | none => ⟨.ok (), ⟨t, ⟨items⟩⟩, []⟩ := by
  unfold convert truthOf?
  by_cases h : (i.type1 = .int32 && i.type2 = .boolean) = true
  · rw [if_pos h, if_pos h, bind_quiet (state_apply _)]
    show (match items.head?.bind t.booleanLiteral? with
      | some value => _
      | none => _ : Action Machine Unit) _ = _
    cases items.head?.bind t.booleanLiteral? <;> rfl
  · rw [if_neg h, if_neg h]
    rfl

theorem perform_push {i : Instruction} (hop : i.opcode.isPush = true) (cfg : Settings)
    (container : NodeId) (position : Nat) :
    perform cfg container position i = pushOperand cfg position i := by
  unfold perform
  cases h : i.opcode <;> rw [h] at hop <;> first | rfl | cases hop

theorem perform_literal {i : Instruction}
    (hop : i.opcode.isPush = true ∨ (i.opcode = .pushI ∧ i.type1.isInteger = true))
    (hty : i.type1 ≠ .variant) (cfg : Settings) (container : NodeId) (position : Nat) :
    perform cfg container position i = pushLiteral position i := by
  rcases hop with hop | ⟨hop, hint⟩
  · rw [perform_push hop, pushOperand, if_neg hty]
  · unfold perform
    rw [hop]
    simp only
    unfold pushImmediate
    cases h : i.type1 <;> rw [h] at hint <;> first | rfl | cases hint

theorem perform_binary {i : Instruction} (hop : i.opcode.isBinary = true) (cfg : Settings)
    (container : NodeId) (position : Nat) :
    perform cfg container position i = operate position i := by
  unfold perform
  cases h : i.opcode <;> rw [h] at hop <;> first | rfl | cases hop

theorem perform_unary {i : Instruction} {op : UnaryOp} (hop : i.opcode = op.opcode)
    (cfg : Settings) (container : NodeId) (position : Nat) :
    perform cfg container position i = operateOne position i op := by
  unfold perform
  rw [hop]
  cases op <;> rfl

theorem perform_permutation {i : Instruction} (hop : i.isPermutation = true) (cfg : Settings)
    (container : NodeId) (position : Nat) :
    perform cfg container position i = permute position i := by
  have hpop : i.opcode = .pop := by
    unfold Instruction.isPermutation at hop
    simp only [Bool.and_eq_true, decide_eq_true_eq] at hop
    exact hop.1
  unfold perform
  rw [hpop]
  simp only
  rw [if_pos hop]

theorem perform_store {i : Instruction} {ref : VariableRef} (hop : i.opcode = .pop)
    (href : i.reference = some ref) (cfg : Settings) (container : NodeId) (position : Nat) :
    perform cfg container position i = store cfg container position i := by
  unfold perform
  rw [hop]
  simp only
  rw [if_neg (by simp [Instruction.isPermutation, href])]

/-- **A quiet machine does what `Performs` says**, and reports nothing. -/
theorem perform_of_performs {cfg : Settings} (quiet : cfg.verbosity = none) {container : NodeId}
    {i : Instruction} {m m' : Machine} (position : Nat) (h : Performs cfg container i m m') :
    perform cfg container position i m = ⟨.ok (), m', []⟩ := by
  cases h with
  | pushLiteral hop hl hty =>
    rw [perform_literal hop (by rw [hty]; exact Literal.dataType_ne_variant _), pushLiteral,
      Instruction.literalKind_of_literal hl hty]
    rfl
  | pushVariable hop hty ha =>
    rw [perform_push hop, pushOperand, if_pos hty, bind_quiet (access_of_accesses quiet _ ha)]
    rfl
  | storeAbove hop hty ha hs =>
    obtain ⟨href, -⟩ := id ha
    rw [perform_store hop href]
    simp only [store, hty]
    rw [bind_quiet (pop_cons ..), bind_quiet (access_of_accesses quiet _ ha)]
    exact assign_of_assigns quiet _ hs
  | storeBelow hop hty ha hs =>
    obtain ⟨href, -⟩ := id ha
    rw [perform_store hop href]
    simp only [store, hty]
    rw [bind_quiet (access_of_accesses quiet _ ha), bind_quiet (pop_cons ..)]
    exact assign_of_assigns quiet _ hs
  | permute hop hd =>
    rw [perform_permutation hop]
    exact permute_apply _ hd
  | operate hop ho =>
    rw [perform_binary hop, operate, ho]
    rfl
  | operateOne hop =>
    rw [perform_unary hop]
    rfl
  | call hop hf ha =>
    unfold perform
    rw [hop]
    exact call_apply _ hf ha
  | returnValue hop ht =>
    unfold perform
    rw [hop]
    simp only [returnValue]
    rw [bind_quiet (pop_cons ..), bind_quiet (make_apply ..)]
    exact append_of_some ht
  | exitScript hop ht =>
    unfold perform
    rw [hop]
    simp only [exitScript]
    rw [bind_quiet (make_apply ..)]
    exact append_of_some ht
  | discard hop ht =>
    unfold perform
    rw [hop]
    simp only [discard]
    rw [bind_quiet (state_apply _)]
    exact append_of_some ht
  | discardNothing hop =>
    unfold perform
    rw [hop]
    simp only [discard]
    rw [bind_quiet (state_apply _)]
    exact report_quiet quiet ..
  | duplicate hop hf hd ht =>
    unfold perform
    rw [hop]
    exact duplicate_apply _ hf hd ht
  | convert hop hv =>
    unfold perform
    rw [hop]
    simp only
    rw [convert_apply, hv]
    rfl
  | keep hop hv =>
    unfold perform
    rw [hop]
    simp only
    rw [convert_apply, hv]
  | mark hop =>
    unfold perform
    simp only [List.mem_cons, List.not_mem_nil, or_false] at hop
    rcases hop with hop | hop | hop | hop | hop <;>
      · rw [hop]
        rfl

/-! ## Increment windows -/

section Windows

variable {cfg : Settings} (quiet : cfg.verbosity = none)

include quiet

theorem increment_pre {op : BinaryOp} {ahead : List Instruction} {t : Tree} {target : NodeId}
    {rest : List NodeId} (position : Nat) (hw : (Increment.preWindow ahead).permuted = false) :
    increment cfg position ⟨op, .pre⟩ ahead ⟨t, ⟨target :: rest⟩⟩ =
      ⟨.ok (Increment.preWindow ahead).span,
        ⟨t.add (.assign (.increment op .pre)) [target], ⟨t.nextId :: rest⟩⟩, []⟩ := by
  unfold increment
  simp only
  rw [bind_quiet (pop_cons ..), bind_quiet (make_apply ..), bind_quiet (push_apply ..)]
  simp only [hw, Bool.false_eq_true, if_false]
  rw [bind_quiet (describe_quiet quiet ..)]
  rfl

/-- A window that rearranges the stack drops what is below the variable. -/
theorem increment_pre_permuted {op : BinaryOp} {ahead : List Instruction} {t : Tree}
    {target below : NodeId} {rest : List NodeId} (position : Nat)
    (hw : (Increment.preWindow ahead).permuted = true) :
    increment cfg position ⟨op, .pre⟩ ahead ⟨t, ⟨target :: below :: rest⟩⟩ =
      ⟨.ok (Increment.preWindow ahead).span,
        ⟨t.add (.assign (.increment op .pre)) [target], ⟨t.nextId :: rest⟩⟩, []⟩ := by
  unfold increment
  simp only
  rw [bind_quiet (pop_cons ..), bind_quiet (make_apply ..), bind_quiet (push_apply ..)]
  simp only [hw, if_true]
  have hdrop : dropBelow position ⟨t.add (.assign (.increment op .pre)) [target],
      OperandStack.push ⟨below :: rest⟩ t.nextId⟩ =
      ⟨.ok (), ⟨t.add (.assign (.increment op .pre)) [target], ⟨t.nextId :: rest⟩⟩, []⟩ := rfl
  rw [bind_quiet hdrop, bind_quiet (describe_quiet quiet ..)]
  rfl

theorem increment_post {op : BinaryOp} {ahead : List Instruction} {t : Tree}
    {copy target : NodeId} {rest : List NodeId} (position : Nat) :
    increment cfg position ⟨op, .post⟩ ahead ⟨t, ⟨copy :: target :: rest⟩⟩ =
      ⟨.ok (Increment.postWindow ahead).span,
        ⟨t.add (.assign (.increment op .post)) [target], ⟨t.nextId :: rest⟩⟩, []⟩ := by
  unfold increment
  simp only
  rw [bind_quiet (pop_cons ..), bind_quiet (pop_cons ..), bind_quiet (make_apply ..),
    bind_quiet (push_apply ..), bind_quiet (describe_quiet quiet ..)]
  rfl

end Windows

end Machine

end GmlLift
