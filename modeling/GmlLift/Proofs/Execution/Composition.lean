import GmlLift.Lifting.Execution
import GmlLift.Proofs.Tree.Evolution
import Mathlib.Data.List.Perm.Subperm

/-!
# What an instruction is composed of

Every instruction is composed of a few moves of the machine. `Machine.Composed` lists them, and
keeps account of what the laws about instructions ask for:

* The ids in hand. What is popped or made is in hand until it is pushed or a node is made of it, so
  that no node refers to an id that comes from nowhere.
* How far the instruction is. It can fail only as long as it has done nothing but take operands
  and make at most two nodes.
* A second action, composed in the same way: the same instruction under other settings and further
  back.

Result: `composed_step`. A law about every instruction, however it ends, is an induction over
`Composed` with one case for each move; only the proof of `composed_step` goes through the functions
of the machine. What an instruction does where it succeeds is said by `Machine.Performs`.
-/

namespace GmlLift

/-! ## Errors and positions -/

/-- The same error of code that stands further back. -/
def LiftError.shift (distance : Nat) : LiftError → LiftError
  | .unsupported position opcode what => .unsupported (position + distance) opcode what
  | .underflow position => .underflow (position + distance)
  | .missingReference position => .missingReference (position + distance)
  | .malformedLiteral position expected => .malformedLiteral (position + distance) expected
  | .missingExpression construct => .missingExpression construct
  | .missingBranch construct index => .missingBranch construct index
  | .unknownNode ref => .unknownNode ref
  | .noEnclosingLoop => .noEnclosingLoop

@[simp] theorem LiftError.shift_zero (e : LiftError) : e.shift 0 = e := by
  cases e <;> rfl

/-- The halt is due to the instruction at a position, or it is no error. -/
def Halt.IsAt (position : Nat) : Halt → Prop
  | .error (.unsupported at' _ _) | .error (.underflow at') | .error (.missingReference at')
  | .error (.malformedLiteral at' _) => at' = position
  | .error (.missingExpression _) | .error (.missingBranch _ _) | .error (.unknownNode _)
  | .error .noEnclosingLoop => False
  | .outOfRange | .endless => True

namespace Instruction

/-- The variable that an instruction reads or writes. -/
def accessed? (i : Instruction) : Option VariableRef :=
  if i.opcode = .pop || (i.opcode.isPush && i.type1 = .variant) then i.reference else none

variable {i : Instruction} {position : Nat}

theorem payload_shift {α : Type} (i : Instruction) (position distance : Nat)
    (read : Literal → Option α) : i.payload (position + distance) read =
      (i.payload position read).mapError (LiftError.shift distance) := by
  unfold payload
  cases i.literal.bind read <;> rfl

theorem literalKind_shift (i : Instruction) (position distance : Nat) :
    i.literalKind (position + distance) =
      (i.literalKind position).mapError (LiftError.shift distance) := by
  unfold literalKind
  cases i.type1 with
  | int16 | int32 | int64 | double | float | boolean | string =>
    simp only [payload_shift]
    cases i.payload position _ <;> rfl
  | _ => rfl

/-- A payload of the wrong type is the fault of its instruction. -/
theorem isAt_of_literalKind {e : LiftError} (h : i.literalKind position = .error e) :
    (Halt.error e).IsAt position := by
  have hpayload {γ : Type} (read : Literal → Option γ) (f : γ → Kind)
      (hr : (i.payload position read).map f = .error e) : (Halt.error e).IsAt position := by
    unfold payload at hr
    cases hread : i.literal.bind read with
    | none =>
      rw [hread] at hr
      cases hr
      exact (rfl : position = position)
    | some v =>
      rw [hread] at hr
      cases hr
  unfold literalKind at h
  cases ht : i.type1 with
  | int16 | int32 | int64 | double | float | boolean | string =>
    rw [ht] at h
    exact hpayload _ _ h
  | _ =>
    rw [ht] at h
    cases h
    exact (rfl : position = position)

/-- A literal is an expression and refers to nothing. -/
theorem literalKind_expression {kind : Kind} (h : i.literalKind position = .ok kind) :
    kind.sort = .expression ∧ kind.left? = none := by
  unfold literalKind at h
  split at h
  all_goals first
    | cases h
    | (cases hp : i.payload position _ with
      | error e => rw [hp] at h; cases h
      | ok v => rw [hp] at h; cases h; exact ⟨rfl, rfl⟩)

end Instruction

namespace Machine

open GmlLift.Action

/-! ## What is in hand -/

/-- **What an instruction has in hand** between two moves. -/
structure Hand where
  /-- The ids that it has taken or made and not used yet. -/
  held : List NodeId := []
  /-- Other ids that are known to be in range. -/
  known : List NodeId := []
  /-- How many nodes it has made, if it has done nothing else than that and take operands. -/
  made : Option Nat := some 0

namespace Hand

variable {hand hand' : Hand}

/-- The instruction may still fail. -/
def MayFail (hand : Hand) : Prop := ∃ n ≤ 2, hand.made = some n

/-- The rest of what is in hand once a change has been made that is not taken back. -/
def settled (hand : Hand) : Hand := { hand with made := none }

/-- What is in hand may be dropped, remembered and counted too high. -/
structure Yields (hand hand' : Hand) : Prop where
  held : hand'.held.Subperm hand.held
  known : ∀ id ∈ hand'.known, id ∈ hand.known ∨ id ∈ hand.held
  made : ∀ n', hand'.made = some n' → ∃ n ≤ n', hand.made = some n

namespace Yields

protected theorem refl (hand : Hand) : hand.Yields hand where
  held := .refl _
  known _ hid := Or.inl hid
  made n hn := ⟨n, Nat.le_refl n, hn⟩

theorem of_subperm {held held' known : List NodeId} {made : Option Nat}
    (h : held'.Subperm held) : Yields ⟨held, known, made⟩ ⟨held', known, made⟩ :=
  { Yields.refl ⟨held, known, made⟩ with held := h }

theorem forget {held known : List NodeId} {made : Option Nat} (id : NodeId) :
    Yields ⟨held, id :: known, made⟩ ⟨held, known, made⟩ :=
  { Yields.refl ⟨held, id :: known, made⟩ with
    known := fun _ hid => Or.inl (List.mem_cons_of_mem id hid) }

theorem of_le {held known : List NodeId} {n n' : Nat} (h : n ≤ n') :
    Yields ⟨held, known, some n⟩ ⟨held, known, some n'⟩ :=
  { Yields.refl ⟨held, known, some n⟩ with
    made := fun _ hn => ⟨n, Option.some.inj hn ▸ h, rfl⟩ }

theorem remember {held known : List NodeId} {made : Option Nat} {id : NodeId} (h : id ∈ held) :
    Yields ⟨held, known, made⟩ ⟨held, id :: known, made⟩ :=
  { Yields.refl ⟨held, known, made⟩ with
    known := List.forall_mem_cons.mpr ⟨Or.inr h, fun _ hid => Or.inl hid⟩ }

end Yields

end Hand

/-! ## Composition -/

/-- **An instruction at two places**, with the settings for each. They agree on whether its index
is flattened, if it has one. -/
structure Twin where
  cfg : Settings
  cfg' : Settings
  container : NodeId
  position : Nat
  /-- How much further back the second place is. -/
  distance : Nat
  i : Instruction
  alike : ∀ ref, i.accessed? = some ref →
    cfg'.flattensIndices = cfg.flattensIndices ∨ ref.addressing ≠ .array

/-- One place twice. -/
def Twin.same (cfg : Settings) (container : NodeId) (position : Nat) (i : Instruction) : Twin :=
  ⟨cfg, cfg, container, position, 0, i, fun _ _ => Or.inl rfl⟩

/-- **The two actions are composed alike of the moves of an instruction.** They start with `hand`
in hand, and with `post a` when they answer `a`. -/
inductive Composed (w : Twin) :
    {α : Type} → Hand → Action Machine α → Action Machine α → (α → Hand) → Prop
  | pure {α : Type} {hand : Hand} {post : α → Hand} {a : α} (h : hand.Yields (post a)) :
      Composed w hand (pure a) (pure a) post
  | bind {α β : Type} {hand : Hand} {x y : Action Machine α} {f g : α → Action Machine β}
      {post : α → Hand} {post' : β → Hand} (hx : Composed w hand x y post)
      (hf : ∀ a, Composed w (post a) (f a) (g a) post') :
      Composed w hand (x >>= f) (y >>= g) post'
  | weaken {α : Type} {hand hand' : Hand} {x y : Action Machine α} {post : α → Hand}
      (h : hand.Yields hand') (hx : Composed w hand' x y post) : Composed w hand x y post
  | fail {α : Type} {hand : Hand} {post : α → Hand} {e : LiftError}
      (h : hand.MayFail) (he : (Halt.error e).IsAt w.position) :
      Composed w hand (fail e) (fail (e.shift w.distance)) post
  | pop {hand : Hand} (h : hand.MayFail) :
      Composed w hand (pop w.position) (pop (w.position + w.distance))
        fun id => { hand with held := id :: hand.held }
  | push {held known : List NodeId} {made : Option Nat} {id : NodeId} :
      Composed w ⟨id :: held, known, made⟩ (push id) (push id) fun _ => ⟨held, known, none⟩
  /-- An expression is made of ids in hand. -/
  | make {held known : List NodeId} {made : Option Nat} (kind : Kind) (children : List NodeId)
      (hs : kind.sort = .expression) :
      Composed w ⟨Node.references { kind, children } ++ held, known, made⟩ (make kind children)
        (make kind children) fun id => ⟨id :: held, known, made.map (· + 1)⟩
  /-- A statement is made of ids in hand and goes to the container. -/
  | place {held known : List NodeId} {made : Option Nat} (kind : Kind) (children : List NodeId)
      (hs : kind.sort = .simple) (hlen : children.length ≤ 2) :
      Composed w ⟨children ++ held, known, made⟩ (make kind children >>= append w.container)
        (make kind children >>= append w.container) fun _ => ⟨held, known, none⟩
  | arrayIndices {held known : List NodeId} {made : Option Nat} {index : NodeId}
      (h : w.cfg'.flattensIndices = w.cfg.flattensIndices) :
      Composed w ⟨index :: held, known, made⟩ (arrayIndices w.cfg index)
        (arrayIndices w.cfg' index) fun indices => ⟨indices ++ held, known, made⟩
  | assign {held known : List NodeId} {made : Option Nat} {target : Access} {value : NodeId} :
      Composed w ⟨target.node :: value :: held, target.owner :: known, made⟩
        (assign w.cfg w.container w.position target value)
        (assign w.cfg' w.container (w.position + w.distance) target value)
        fun _ => ⟨held, known, none⟩
  | duplicate {hand : Hand} (h : hand.MayFail) (hop : w.i.opcode = .dup) :
      Composed w hand (duplicate w.position w.i) (duplicate (w.position + w.distance) w.i)
        fun _ => hand.settled
  | discard {hand : Hand} (hop : w.i.opcode = .popz) :
      Composed w hand (discard w.cfg w.container w.position)
        (discard w.cfg' w.container (w.position + w.distance)) fun _ => hand.settled
  | convert {hand : Hand} (hop : w.i.opcode = .conv) :
      Composed w hand (convert w.i) (convert w.i) fun _ => hand.settled
  | report {hand : Hand} {level : Level} {text text' : Machine → String}
      (h : w.distance = 0 → text' = text) :
      Composed w hand (report w.cfg level text) (report w.cfg' level text') fun _ => hand
  | describe {hand : Hand} {level : Level} {id : NodeId} {line line' : String → String}
      (h : w.distance = 0 → line' = line) :
      Composed w hand (describe w.cfg level id line) (describe w.cfg' level id line')
        fun _ => hand

/-! ## The functions of the machine -/

section Functions

variable {w : Twin} {α : Type} {held known : List NodeId} {made : Option Nat} {n : Nat}
  {hand : Hand}

theorem mayFail (hn : n ≤ 2) : Hand.MayFail ⟨held, known, some n⟩ := ⟨n, hn, rfl⟩

namespace Composed

theorem ite {x x' y y' : Action Machine α} {post : α → Hand} {p : Prop} [Decidable p]
    (h : Composed w hand x y post) (h' : Composed w hand x' y' post) :
    Composed w hand (if p then x else x') (if p then y else y') post := by
  by_cases hp : p
  · rwa [if_pos hp, if_pos hp]
  · rwa [if_neg hp, if_neg hp]

/-- What is left over when the last move has been made is dropped. -/
theorem done {a : α} : Composed w hand (Pure.pure a) (Pure.pure a) fun _ => ⟨[], [], none⟩ :=
  .pure ⟨List.nil_subperm, fun _ hid => (List.not_mem_nil hid).elim, fun _ hn => by cases hn⟩

end Composed

theorem composed_refuse {post : α → Hand} (h : hand.MayFail) (what : Unsupported) :
    Composed w hand (refuse w.position w.i what) (refuse (w.position + w.distance) w.i what)
      post :=
  .fail h (rfl : w.position = w.position)

theorem composed_popMany (hn : n ≤ 2) : ∀ (count : Nat) (held : List NodeId),
    Composed w ⟨held, known, some n⟩ (popMany w.position count)
      (popMany (w.position + w.distance) count) fun ids => ⟨ids ++ held, known, some n⟩
  | 0, _ => .pure (.refl _)
  | count + 1, held => by
    refine (Composed.pop (mayFail hn)).bind fun id => ?_
    refine (composed_popMany hn count (id :: held)).bind fun ids => .pure (.of_subperm ?_)
    exact List.perm_middle.symm.subperm

theorem composed_pushNew (kind : Kind) (children : List NodeId) (hs : kind.sort = .expression) :
    Composed w ⟨Node.references { kind, children } ++ held, known, made⟩ (pushNew kind children)
      (pushNew kind children) fun _ => ⟨held, known, none⟩ :=
  (Composed.make kind children hs).bind fun _ => .push

/-- The owner of a variable may be a new node. -/
theorem composed_reach (owner : Owner) {addressing : Addressing}
    (h : w.cfg'.flattensIndices = w.cfg.flattensIndices ∨ addressing ≠ .array) :
    Composed w ⟨held, known, some 0⟩ (reach w.cfg w.position owner addressing)
      (reach w.cfg' (w.position + w.distance) owner addressing)
      fun reached => ⟨reached.1 :: reached.2 ++ held, known, some 1⟩ := by
  have hpop {held : List NodeId} : Composed w ⟨held, known, some 0⟩ (pop w.position)
      (pop (w.position + w.distance)) fun id => ⟨id :: held, known, some 0⟩ :=
    .pop (mayFail (Nat.zero_le 2))
  refine .ite (hpop.bind fun left => .pure (.of_le (Nat.zero_le 1))) ?_
  by_cases ha : addressing = .array
  · rw [if_pos ha, if_pos ha]
    have hflat := h.resolve_right (not_not_intro ha)
    exact hpop.bind fun index => (Composed.arrayIndices hflat).bind fun indices =>
      hpop.bind fun left => .pure (.of_le (Nat.zero_le 1))
  · rw [if_neg ha, if_neg ha]
    exact (Composed.make (.owner owner.code) [] rfl).bind fun left =>
      .pure (.refl _)

/-- The node of the variable is the second one. -/
theorem composed_access (hi : w.i.accessed? = w.i.reference) :
    Composed w ⟨held, known, some 0⟩ (access w.cfg w.position w.i)
      (access w.cfg' (w.position + w.distance) w.i)
      fun target => ⟨target.node :: held, target.owner :: known, some 2⟩ := by
  unfold access
  cases href : w.i.reference with
  | none => exact .fail (mayFail (Nat.zero_le 2)) (rfl : w.position = w.position)
  | some ref =>
    refine (composed_reach w.i.owner (w.alike ref (hi.trans href))).bind fun reached => ?_
    refine .weaken (.remember List.mem_cons_self) ?_
    exact (Composed.make (.var ref.target ref.addressing (some reached.1)) reached.2 rfl).bind
      fun node => .pure (.refl _)

theorem composed_pushLiteral (hn : n ≤ 2) :
    Composed w ⟨held, known, some n⟩ (pushLiteral w.position w.i)
      (pushLiteral (w.position + w.distance) w.i) fun _ => ⟨held, known, none⟩ := by
  unfold pushLiteral
  rw [Instruction.literalKind_shift]
  cases hkind : w.i.literalKind w.position with
  | error e => exact .fail (mayFail hn) (Instruction.isAt_of_literalKind hkind)
  | ok kind =>
    obtain ⟨hs, hleft⟩ := Instruction.literalKind_expression hkind
    have hnone : Node.references { kind, children := [] } = [] := by simp [Node.references, hleft]
    have h : Composed w ⟨Node.references { kind, children := [] } ++ held, known, some n⟩
        (pushNew kind) (pushNew kind) fun _ => ⟨held, known, none⟩ := composed_pushNew kind [] hs
    rwa [hnone] at h

theorem composed_pushOperand (hop : w.i.opcode.isPush = true) :
    Composed w ⟨held, known, some 0⟩ (pushOperand w.cfg w.position w.i)
      (pushOperand w.cfg' (w.position + w.distance) w.i) fun _ => ⟨held, known, none⟩ := by
  unfold pushOperand
  by_cases hty : w.i.type1 = .variant
  · have hi : w.i.accessed? = w.i.reference := by simp [Instruction.accessed?, hop, hty]
    rw [if_pos hty, if_pos hty]
    exact (composed_access hi).bind fun target => .weaken (.forget target.owner) .push
  · rw [if_neg hty, if_neg hty]
    exact composed_pushLiteral (Nat.zero_le 2)

theorem composed_pushImmediate :
    Composed w ⟨held, known, some 0⟩ (pushImmediate w.position w.i)
      (pushImmediate (w.position + w.distance) w.i) fun _ => ⟨held, known, none⟩ := by
  unfold pushImmediate
  cases w.i.type1 with
  | int16 | int32 | int64 => exact composed_pushLiteral (Nat.zero_le 2)
  | _ => exact composed_refuse (mayFail (Nat.zero_le 2)) .immediateType

theorem composed_store (hop : w.i.opcode = .pop) :
    Composed w ⟨held, known, some 0⟩ (store w.cfg w.container w.position w.i)
      (store w.cfg' w.container (w.position + w.distance) w.i) fun _ => ⟨held, known, none⟩ := by
  have hi : w.i.accessed? = w.i.reference := by simp [Instruction.accessed?, hop]
  unfold store
  cases w.i.type1 with
  | int32 =>
    exact (Composed.pop (mayFail (Nat.zero_le 2))).bind fun value =>
      (composed_access hi).bind fun target => .assign
  | variant =>
    exact (composed_access hi).bind fun target =>
      (Composed.pop (mayFail (Nat.le_refl 2))).bind fun value =>
        .weaken (.of_subperm (List.Perm.swap ..).subperm) .assign
  | _ => exact composed_refuse (mayFail (Nat.zero_le 2)) .storeType

theorem composed_permute :
    Composed w ⟨held, known, some 0⟩ (permute w.position w.i)
      (permute (w.position + w.distance) w.i) fun _ => ⟨held, known, none⟩ := by
  refine (Composed.pop (mayFail (Nat.zero_le 2))).bind fun first => ?_
  refine (Composed.pop (mayFail (Nat.zero_le 2))).bind fun second => ?_
  refine (composed_popMany (Nat.zero_le 2) w.i.dropCount _).bind fun dropped => ?_
  refine .weaken (.of_subperm (List.sublist_append_right dropped _).subperm) ?_
  exact Composed.push.bind fun _ => .push

theorem composed_operate :
    Composed w ⟨held, known, some 0⟩ (operate w.position w.i)
      (operate (w.position + w.distance) w.i) fun _ => ⟨held, known, none⟩ := by
  unfold operate
  cases w.i.operator with
  | error what => exact composed_refuse (mayFail (Nat.zero_le 2)) what
  | ok op =>
    exact (Composed.pop (mayFail (Nat.zero_le 2))).bind fun right =>
      (Composed.pop (mayFail (Nat.zero_le 2))).bind fun left =>
        composed_pushNew (.binary op) [left, right] rfl

theorem composed_operateOne (op : UnaryOp) :
    Composed w ⟨held, known, some 0⟩ (operateOne w.position w.i op)
      (operateOne (w.position + w.distance) w.i op) fun _ => ⟨held, known, none⟩ :=
  (Composed.pop (mayFail (Nat.zero_le 2))).bind fun operand =>
    composed_pushNew (.unary op w.i.type1) [operand] rfl

theorem composed_call :
    Composed w ⟨held, known, some 0⟩ (call w.position w.i)
      (call (w.position + w.distance) w.i) fun _ => ⟨held, known, none⟩ := by
  unfold call
  cases w.i.function with
  | none => exact .fail (mayFail (Nat.zero_le 2)) (rfl : w.position = w.position)
  | some target =>
    exact (composed_popMany (Nat.zero_le 2) w.i.argumentCount.toNat held).bind fun arguments =>
      composed_pushNew (.call target) arguments rfl

theorem composed_returnValue :
    Composed w ⟨held, known, some 0⟩ (returnValue w.container w.position)
      (returnValue w.container (w.position + w.distance)) fun _ => ⟨held, known, none⟩ :=
  (Composed.pop (mayFail (Nat.zero_le 2))).bind fun value =>
    .place .returnStmt [value] rfl (Nat.le_succ 1)

theorem composed_perform :
    Composed w {} (perform w.cfg w.container w.position w.i)
      (perform w.cfg' w.container (w.position + w.distance) w.i) fun _ => ⟨[], [], none⟩ := by
  unfold perform
  cases hop : w.i.opcode with
  | push | pushLocal | pushGlobal | pushBuiltin =>
    exact composed_pushOperand (by rw [hop]; rfl)
  | pushI => exact composed_pushImmediate
  | pop => exact .ite composed_permute (composed_store hop)
  | add | sub | mul | div | and | or | mod | rem | xor | shl | shr | cmp => exact composed_operate
  | neg => exact composed_operateOne .neg
  | not => exact composed_operateOne .not
  | call => exact composed_call
  | ret => exact composed_returnValue
  | exit => exact .place .exitStmt [] rfl (Nat.zero_le 2)
  | popz => exact .discard hop
  | dup => exact .duplicate (mayFail (Nat.zero_le 2)) hop
  | conv => exact .convert hop
  | jump | jumpTrue | jumpFalse | pushEnv | popEnv => exact .done
  | callV => exact composed_refuse (mayFail (Nat.zero_le 2)) .indirectCall
  | extended => exact composed_refuse (mayFail (Nat.zero_le 2)) .extension

/-- An item that is pushed and popped again before the one below it is looked for. -/
theorem push_dropBelow (id : NodeId) (position : Nat) (f : Unit → Action Machine α) :
    (push id >>= fun _ => dropBelow position >>= f) =
      pop position >>= fun _ => push id >>= f := by
  funext m
  obtain ⟨t, ⟨items⟩⟩ := m
  cases items <;> rfl

/-- An increment that fails may have been made already. -/
theorem composed_increment (inc : Increment) (ahead : List Instruction) :
    Composed w {} (increment w.cfg w.position inc ahead)
      (increment w.cfg' (w.position + w.distance) inc ahead) fun _ => ⟨[], [], none⟩ := by
  have hpop {held : List NodeId} {n : Nat} (hn : n ≤ 2) : Composed w ⟨held, [], some n⟩
      (pop w.position) (pop (w.position + w.distance)) fun id => ⟨id :: held, [], some n⟩ :=
    .pop (mayFail hn)
  have hfinish {hand : Hand} {id : NodeId} {line line' : String → String} {span : Nat}
      (h : w.distance = 0 → line' = line) :
      Composed w hand (do describe w.cfg .debug id line; return span)
        (do describe w.cfg' .debug id line'; return span) fun _ => ⟨[], [], none⟩ :=
    (Composed.describe h).bind fun _ => .done
  unfold increment
  cases inc.side with
  | pre =>
    refine (hpop (Nat.zero_le 2)).bind fun target => ?_
    refine (Composed.make (.assign (.increment inc.op .pre)) [target] rfl).bind fun statement => ?_
    by_cases hw : (Increment.preWindow ahead).permuted = true
    · simp only [hw, if_true]
      rw [push_dropBelow, push_dropBelow]
      refine (hpop (Nat.le_succ 1)).bind fun below => ?_
      refine .weaken (.of_subperm (List.sublist_cons_self below _).subperm) ?_
      exact Composed.push.bind fun _ => hfinish fun h => by simp only [h, Nat.add_zero]
    · simp only [hw]
      exact Composed.push.bind fun _ => hfinish fun h => by simp only [h, Nat.add_zero]
  | post =>
    refine (hpop (Nat.zero_le 2)).bind fun copied => (hpop (Nat.zero_le 2)).bind fun target => ?_
    refine (Composed.make (.assign (.increment inc.op .post)) [target] rfl).bind fun statement => ?_
    exact Composed.push.bind fun _ => hfinish fun h => by simp only [h, Nat.add_zero]

end Functions

/-- **Every instruction is composed of such moves**, and so is the same instruction further back,
as long as it is the centre of the same increment. -/
theorem composed_step (w : Twin) {behind behind' : List Instruction}
    (hlen : behind.length = w.position) (hlen' : behind'.length = w.position + w.distance)
    {ahead : List Instruction}
    (hinc : incrementAt? w.cfg' behind' w.i ahead = incrementAt? w.cfg behind w.i ahead) :
    Composed w {} (step w.cfg w.container behind w.i ahead)
      (step w.cfg' w.container behind' w.i ahead) fun _ => ⟨[], [], none⟩ := by
  unfold step
  rw [hinc, hlen, hlen']
  refine (Composed.report fun h => by simp only [h, Nat.add_zero]).bind fun _ => ?_
  cases incrementAt? w.cfg behind w.i ahead with
  | some inc => exact composed_increment inc ahead
  | none => exact composed_perform.bind fun _ => .done

/-- An instruction by itself. -/
theorem composed_step_same (cfg : Settings) (container : NodeId) (behind : List Instruction)
    (i : Instruction) (ahead : List Instruction) :
    Composed (.same cfg container behind.length i) {} (step cfg container behind i ahead)
      (step cfg container behind i ahead) fun _ => ⟨[], [], none⟩ :=
  composed_step (.same cfg container behind.length i) rfl rfl rfl

end Machine

end GmlLift
