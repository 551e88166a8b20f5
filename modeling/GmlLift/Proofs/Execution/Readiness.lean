import GmlLift.Proofs.Execution.Range

/-!
# When an instruction succeeds

On a machine whose ids are all in range there are three ways for an instruction to end, and which
one it is can be read off the instruction and the depth of the stack.

* `perform_of_rejection`: the instruction itself is refused, whatever the stack.
* `perform_of_short`: the stack is too short.
* `performs_of_ready`: the instruction does one of the things that `Performs` lists.

The range of the ids is an invariant (`Performs.wellFormed`), and an instruction only adds to the
tree (`Performs.extends`).
-/

namespace GmlLift

/-! ## What can be said without the stack -/

/-- Are there literals of the type? -/
def DataType.isLiteral : DataType → Bool
  | int16 | int32 | int64 | double | float | boolean | string => true
  | _ => false

namespace Instruction

/-- Why the literal of an instruction cannot be pushed. -/
def literalFault? (i : Instruction) (position : Nat) : Option LiftError :=
  if i.type1.isLiteral = false then some (.unsupported position i.opcode .pushType)
  else if i.literal.map Literal.dataType = some i.type1 then none
  else some (.malformedLiteral position i.type1)

/-- Why an instruction is refused on every stack. -/
def rejection? (i : Instruction) (position : Nat) : Option LiftError :=
  match i.opcode with
  | .push | .pushLocal | .pushGlobal | .pushBuiltin =>
    if i.type1 ≠ .variant then i.literalFault? position
    else if i.reference.isNone then some (.missingReference position)
    else none
  | .pushI =>
    if i.type1.isInteger then i.literalFault? position
    else some (.unsupported position i.opcode .immediateType)
  | .pop =>
    if i.reference.isNone || i.type1 = .int32 || i.type1 = .variant then none
    else some (.unsupported position i.opcode .storeType)
  | .cmp =>
    if (Comparison.ofByte? i.comparison).isSome then none
    else some (.unsupported position i.opcode .relation)
  | .dup =>
    if i.comparison = 0 then none else some (.unsupported position i.opcode .stackMove)
  | .call => if i.function.isNone then some (.missingReference position) else none
  | .callV => some (.unsupported position i.opcode .indirectCall)
  | .extended => some (.unsupported position i.opcode .extension)
  | _ => none

/-- The two instructions that pass over an empty stack. -/
def isLenient (i : Instruction) : Bool :=
  i.opcode = .popz || i.opcode = .conv

/-- The stack is deep enough for the instruction. -/
def Ready (i : Instruction) (depth : Nat) : Prop :=
  i.pops ≤ depth ∨ i.isLenient = true

instance (i : Instruction) (depth : Nat) : Decidable (i.Ready depth) :=
  inferInstanceAs (Decidable (_ ∨ _))

/-- The depth of the stack behind the instruction. -/
def depthAfter (i : Instruction) (depth : Nat) : Nat :=
  ((depth : Int) + i.delta).toNat

/-! ### Literals -/

theorem payload_of_mismatch {α : Type} {i : Instruction} {read : Literal → Option α}
    (hread : ∀ l, (read l).isSome → l.dataType = i.type1)
    (h : i.literal.map Literal.dataType ≠ some i.type1) (position : Nat) :
    i.payload position read = .error (.malformedLiteral position i.type1) := by
  unfold payload
  cases hl : i.literal with
  | none => rfl
  | some l =>
    rw [Option.bind_some]
    cases hr : read l with
    | none => rfl
    | some v =>
      have hty := hread l (by rw [hr]; rfl)
      exact absurd (by rw [hl, Option.map_some, hty]) h

theorem literalKind_of_fault {i : Instruction} {position : Nat} {e : LiftError}
    (h : i.literalFault? position = some e) : i.literalKind position = .error e := by
  unfold literalFault? at h
  by_cases hl : i.type1.isLiteral = false
  · rw [if_pos hl] at h
    cases h
    unfold literalKind
    cases hty : i.type1 <;> rw [hty] at hl <;> first | rfl | cases hl
  · rw [if_neg hl] at h
    by_cases hd : i.literal.map Literal.dataType = some i.type1
    · rw [if_pos hd] at h
      cases h
    · rw [if_neg hd] at h
      cases h
      unfold literalKind
      cases hty : i.type1 <;> rw [hty] at hl <;> first
        | exact absurd rfl hl
        | (simp only
           rw [payload_of_mismatch (fun l hs => by rw [hty]; cases l <;> first | rfl | cases hs) hd]
           rw [hty]
           rfl)

theorem literal_of_fault_none {i : Instruction} {position : Nat}
    (h : i.literalFault? position = none) :
    ∃ l, i.literal = some l ∧ i.type1 = l.dataType := by
  unfold literalFault? at h
  split at h
  · cases h
  · split at h
    · rename_i hd
      obtain ⟨l, hl, hty⟩ := Option.map_eq_some_iff.mp hd
      exact ⟨l, hl, hty.symm⟩
    · cases h

/-! ### Opcodes of one family -/

theorem rejection?_push {i : Instruction} (hop : i.opcode.isPush = true) (position : Nat) :
    i.rejection? position =
      if i.type1 ≠ .variant then i.literalFault? position
      else if i.reference.isNone then some (.missingReference position)
      else none := by
  unfold rejection?
  cases h : i.opcode <;> rw [h] at hop <;> first | rfl | cases hop

theorem pops_push {i : Instruction} (hop : i.opcode.isPush = true) :
    i.pops = if i.type1 = .variant then i.operandPops else 0 := by
  unfold pops
  cases h : i.opcode <;> rw [h] at hop <;> first | rfl | cases hop

theorem pushes_push {i : Instruction} (hop : i.opcode.isPush = true) : i.pushes = 1 := by
  unfold pushes
  cases h : i.opcode <;> rw [h] at hop <;> first | rfl | cases hop

theorem pops_binary {i : Instruction} (hop : i.opcode.isBinary = true) : i.pops = 2 := by
  unfold pops
  cases h : i.opcode <;> rw [h] at hop <;> first | rfl | cases hop

theorem pushes_binary {i : Instruction} (hop : i.opcode.isBinary = true) : i.pushes = 1 := by
  unfold pushes
  cases h : i.opcode <;> rw [h] at hop <;> first | rfl | cases hop

theorem isLenient_push {i : Instruction} (hop : i.opcode.isPush = true) : i.isLenient = false := by
  unfold isLenient
  cases h : i.opcode <;> rw [h] at hop <;> first | rfl | cases hop

theorem isLenient_binary {i : Instruction} (hop : i.opcode.isBinary = true) :
    i.isLenient = false := by
  unfold isLenient
  cases h : i.opcode <;> rw [h] at hop <;> first | rfl | cases hop

theorem pops_store {i : Instruction} (hop : i.opcode = .pop) (href : i.reference.isNone = false)
    (hty : i.type1 = .int32 ∨ i.type1 = .variant) : i.pops = 1 + i.operandPops := by
  unfold pops
  rw [hop]
  simp only
  rw [if_neg (by simp [href]), if_pos (by simpa using hty)]

theorem pushes_store {i : Instruction} (hop : i.opcode = .pop)
    (href : i.reference.isNone = false) : i.pushes = 0 := by
  unfold pushes
  rw [hop]
  simp only
  rw [if_neg (by simp [href])]

/-- An operator that is not refused has a meaning. -/
theorem operator_of_accepted {i : Instruction} {position : Nat}
    (hop : i.opcode.isBinary = true) (hr : i.rejection? position = none) :
    ∃ op, i.operator = .ok op := by
  unfold operator
  cases h : i.opcode <;> rw [h] at hop <;> try first | exact ⟨_, rfl⟩ | exact absurd hop (by decide)
  unfold rejection? at hr
  rw [h] at hr
  simp only at hr ⊢
  cases hc : Comparison.ofByte? i.comparison with
  | none => rw [hc] at hr; cases hr
  | some relation => exact ⟨_, rfl⟩

/-- The three ways to reach a variable, with the operands that each takes. -/
theorem operandPops_cases {i : Instruction} {ref : VariableRef} (href : i.reference = some ref) :
    ((i.owner = .stackTop ∨ ref.addressing = .stackTop) ∧ i.operandPops = 1) ∨
    (i.owner ≠ .stackTop ∧ ref.addressing = .array ∧ i.operandPops = 2) ∨
    (i.owner ≠ .stackTop ∧ ref.addressing ≠ .stackTop ∧ ref.addressing ≠ .array ∧
      i.operandPops = 0) := by
  unfold operandPops
  rw [href]
  simp only
  by_cases ho : i.owner = .stackTop
  · rw [if_pos ho]
    exact Or.inl ⟨Or.inl ho, rfl⟩
  · rw [if_neg ho]
    cases ref.addressing <;> simp [ho]

end Instruction

namespace Machine

open GmlLift.Action

/-! ## Refused instructions -/

theorem result_bind_error {σ α β : Type} {x : Action σ α} {f : α → Action σ β} {s : σ} {e : Halt}
    (h : (x s).result = .error e) : ((x >>= f) s).result = .error e := by
  rw [bind_of_error h]

theorem pushLiteral_of_fault {i : Instruction} {position : Nat} {e : LiftError}
    (h : i.literalFault? position = some e) (m : Machine) :
    (pushLiteral position i m).result = .error (.error e) := by
  unfold pushLiteral
  rw [Instruction.literalKind_of_fault h]
  rfl

/-- **A refused instruction fails** with its own complaint, on every stack. -/
theorem perform_of_rejection {i : Instruction} {position : Nat} {e : LiftError}
    (h : i.rejection? position = some e) (cfg : Settings) (container : NodeId) (m : Machine) :
    (perform cfg container position i m).result = .error (.error e) := by
  by_cases hpush : i.opcode.isPush = true
  · rw [Instruction.rejection?_push hpush] at h
    rw [perform_push hpush, pushOperand]
    by_cases hty : i.type1 = .variant
    · rw [if_neg (by simp [hty])] at h
      rw [if_pos hty]
      apply result_bind_error
      unfold access
      cases href : i.reference with
      | none =>
        rw [href] at h
        cases h
        rfl
      | some ref =>
        rw [href] at h
        cases h
    · rw [if_pos hty] at h
      rw [if_neg hty]
      exact pushLiteral_of_fault h m
  · unfold Instruction.rejection? at h
    unfold perform
    cases hop : i.opcode <;> rw [hop] at h hpush <;>
      try first | exact absurd rfl hpush | exact absurd h.symm (Option.some_ne_none e)
    case pushI =>
      simp only [pushImmediate] at h ⊢
      cases hty : i.type1 <;> rw [hty] at h <;> first
        | exact pushLiteral_of_fault h m
        | (simp only [DataType.isInteger, Bool.false_eq_true, if_false] at h
           cases h
           rw [← hop]
           rfl)
    case pop =>
      simp only at h ⊢
      split at h
      · cases h
      · rename_i hn
        cases h
        simp only [Bool.or_eq_true, decide_eq_true_eq, not_or] at hn
        rw [if_neg (by simpa [Instruction.isPermutation] using fun _ => hn.1.1)]
        unfold store
        cases hty : i.type1 <;> first
          | (rw [← hop]; rfl)
          | exact absurd hty hn.1.2
          | exact absurd hty hn.2
    case cmp =>
      simp only [operate, Instruction.operator, hop] at h ⊢
      cases hc : Comparison.ofByte? i.comparison with
      | none =>
        rw [hc] at h
        cases h
        rw [← hop]
        rfl
      | some relation =>
        rw [hc] at h
        cases h
    case dup =>
      simp only [duplicate] at h ⊢
      split at h
      · cases h
      · rename_i hf
        cases h
        rw [if_neg hf, ← hop]
        rfl
    case call =>
      simp only [call] at h ⊢
      cases hf : i.function with
      | none =>
        rw [hf] at h
        cases h
        rfl
      | some target =>
        rw [hf] at h
        cases h
    all_goals
      cases h
      simp only [refuse, hop]
      rfl

/-! ## Short stacks -/

theorem popMany_short (position : Nat) (t : Tree) : ∀ {n : Nat} {items : List NodeId},
    items.length < n →
    (popMany position n ⟨t, ⟨items⟩⟩).result = .error (.error (.underflow position))
  | 0, _, h => absurd h (Nat.not_lt_zero _)
  | _ + 1, [], _ => rfl
  | n + 1, id :: items, h => by
    rw [popMany, bind_quiet (pop_cons ..)]
    exact result_bind_error (popMany_short position t (Nat.lt_of_succ_lt_succ h))

theorem permute_short {i : Instruction} (t : Tree) {items : List NodeId} (position : Nat)
    (h : items.length < 2 + i.dropCount) :
    (permute position i ⟨t, ⟨items⟩⟩).result = .error (.error (.underflow position)) := by
  unfold permute
  match items, h with
  | [], _ => rfl
  | [_], _ => rfl
  | first :: second :: rest, h =>
    rw [bind_quiet (pop_cons ..), bind_quiet (pop_cons ..)]
    apply result_bind_error
    apply popMany_short
    simp only [List.length_cons] at h
    omega

theorem accesses_of_ready (cfg : Settings) {i : Instruction} {ref : VariableRef}
    (href : i.reference = some ref) (t : Tree) {items : List NodeId}
    (h : i.operandPops ≤ items.length) :
    ∃ a t', Accesses cfg i ⟨t, ⟨items⟩⟩ a ⟨t', ⟨items.drop i.operandPops⟩⟩ := by
  rcases i.operandPops_cases href with ⟨hm, hn⟩ | ⟨ho, ha, hn⟩ | ⟨ho, hs, ha, hn⟩ <;>
    rw [hn] at h ⊢
  · obtain ⟨left, rest, rfl⟩ := List.exists_cons_of_length_pos h
    exact ⟨_, _, .intro href (.member hm)⟩
  · obtain ⟨index, rest, rfl⟩ := List.exists_cons_of_length_pos (Nat.lt_of_succ_lt h)
    obtain ⟨left, rest, rfl⟩ := List.exists_cons_of_length_pos (Nat.lt_of_succ_lt_succ h)
    exact ⟨_, _, .intro href (.element ho ha)⟩
  · exact ⟨_, _, .intro href (.named ho hs ha)⟩

section Quiet

variable {cfg : Settings} (quiet : cfg.verbosity = none)

include quiet

theorem access_short {i : Instruction} {ref : VariableRef} (href : i.reference = some ref)
    (t : Tree) {items : List NodeId} (position : Nat) (h : items.length < i.operandPops) :
    (access cfg position i ⟨t, ⟨items⟩⟩).result = .error (.error (.underflow position)) := by
  unfold access
  rw [href]
  simp only
  apply result_bind_error
  unfold reach
  rcases i.operandPops_cases href with ⟨hm, hn⟩ | ⟨ho, ha, hn⟩ | ⟨-, -, -, hn⟩ <;> rw [hn] at h
  · rw [if_pos (by simpa using hm)]
    cases items with
    | nil => rfl
    | cons _ _ => exact absurd h (by simp)
  · rw [if_neg (by simp [ho, ha]), if_pos ha]
    match items, h with
    | [], _ => rfl
    | [index], _ =>
      rw [bind_quiet (pop_cons ..), bind_quiet (arrayIndices_quiet quiet ..)]
      rfl
  · exact absurd h (Nat.not_lt_zero _)

theorem store_short {i : Instruction} {ref : VariableRef} (href : i.reference = some ref)
    (hty : i.type1 = .int32 ∨ i.type1 = .variant) (t : Tree) {items : List NodeId}
    (container : NodeId) (position : Nat) (h : items.length < 1 + i.operandPops) :
    (store cfg container position i ⟨t, ⟨items⟩⟩).result =
      .error (.error (.underflow position)) := by
  unfold store
  rcases hty with hty | hty <;> rw [hty] <;> simp only
  · cases items with
    | nil => rfl
    | cons value rest =>
      rw [bind_quiet (pop_cons ..)]
      apply result_bind_error
      apply access_short quiet href
      rw [List.length_cons] at h
      omega
  · by_cases hshort : items.length < i.operandPops
    · exact result_bind_error (access_short quiet href t position hshort)
    · -- the operands are there, and nothing is left for the value
      obtain ⟨a, t', ha⟩ := accesses_of_ready cfg href t (Nat.le_of_not_lt hshort)
      rw [List.drop_of_length_le (by omega)] at ha
      rw [bind_quiet (access_of_accesses quiet position ha)]
      rfl

/-- **An instruction that finds too few operands** fails with an underflow at its position. -/
theorem perform_of_short {i : Instruction} {position : Nat} (hr : i.rejection? position = none)
    (container : NodeId) (t : Tree) {items : List NodeId} (h : ¬ i.Ready items.length) :
    (perform cfg container position i ⟨t, ⟨items⟩⟩).result =
      .error (.error (.underflow position)) := by
  unfold Instruction.Ready at h
  rw [not_or] at h
  obtain ⟨hlt, hlen⟩ := h
  have hlt := Nat.lt_of_not_le hlt
  by_cases hpush : i.opcode.isPush = true
  · rw [Instruction.pops_push hpush] at hlt
    rw [Instruction.rejection?_push hpush] at hr
    by_cases hty : i.type1 = .variant
    · rw [if_pos hty] at hlt
      rw [if_neg (by simp [hty])] at hr
      rw [perform_push hpush, pushOperand, if_pos hty]
      cases href : i.reference with
      | none => rw [href] at hr; cases hr
      | some ref => exact result_bind_error (access_short quiet href t position hlt)
    · rw [if_neg hty] at hlt
      exact absurd hlt (Nat.not_lt_zero _)
  · by_cases hbin : i.opcode.isBinary = true
    · rw [Instruction.pops_binary hbin] at hlt
      obtain ⟨op, hop⟩ := Instruction.operator_of_accepted hbin hr
      rw [perform_binary hbin, operate, hop]
      cases items with
      | nil => rfl
      | cons top rest =>
        cases rest with
        | nil => rfl
        | cons => exact absurd hlt (Nat.not_lt_of_le (Nat.le_add_left 2 _))
    · unfold Instruction.pops at hlt
      unfold Instruction.rejection? at hr
      unfold perform
      cases hop : i.opcode <;> rw [hop] at hlt hpush hbin hr <;>
        try first
          | exact absurd rfl hpush
          | exact absurd rfl hbin
          | exact absurd hlt (Nat.not_lt_zero _)
          | (apply absurd _ hlen; rw [Instruction.isLenient, hop]; rfl)
      case pop =>
        simp only at hlt hr ⊢
        cases href : i.reference with
        | none =>
          rw [href] at hlt
          rw [if_pos (by simp [Instruction.isPermutation, hop, href])]
          exact permute_short t position hlt
        | some ref =>
          rw [href] at hlt hr
          rw [if_neg (by simp [Instruction.isPermutation, href])]
          have hty : i.type1 = .int32 ∨ i.type1 = .variant := by
            by_cases hty : i.type1 = .int32 ∨ i.type1 = .variant
            · exact hty
            · rw [if_neg (by simpa using not_or.mp hty)] at hr
              cases hr
          rw [if_neg (by simp), if_pos (by simpa using hty)] at hlt
          exact store_short quiet href hty t container position hlt
      case dup =>
        simp only [duplicate] at hr ⊢
        split at hr
        · rename_i hf
          have hdeep : (Machine.mk t ⟨items⟩).stack.depth < i.dupCount := hlt
          rw [if_pos hf, bind_quiet (state_apply _), if_pos hdeep]
          rfl
        · cases hr
      case call =>
        simp only [call] at hr ⊢
        cases hf : i.function with
        | none => rw [hf] at hr; cases hr
        | some target => exact result_bind_error (popMany_short position t hlt)
      all_goals
        cases items with
        | nil => rfl
        | cons _ _ => exact absurd hlt (by simp)

end Quiet

/-! ## Instructions that succeed -/

theorem exists_split {items : List NodeId} {n : Nat} (h : n ≤ items.length) :
    ∃ above below, above.length = n ∧ items = above ++ below :=
  ⟨items.take n, items.drop n, List.length_take_of_le h, (List.take_append_drop n items).symm⟩

theorem performs_store (cfg : Settings) {i : Instruction} {ref : VariableRef}
    {container : NodeId} {t : Tree} {items : List NodeId}
    (hm : WellFormed container ⟨t, ⟨items⟩⟩) (hop : i.opcode = .pop)
    (href : i.reference = some ref) (hty : i.type1 = .int32 ∨ i.type1 = .variant)
    (h : 1 + i.operandPops ≤ items.length) :
    ∃ m', Performs cfg container i ⟨t, ⟨items⟩⟩ m' := by
  rcases hty with hty | hty
  · obtain ⟨value, rest, rfl⟩ := List.exists_cons_of_length_pos (by omega : 0 < items.length)
    obtain ⟨hvalue, hrest⟩ := List.forall_mem_cons.mp hm.items
    have hn : i.operandPops ≤ rest.length := by
      rw [List.length_cons] at h
      omega
    obtain ⟨a, t', ha⟩ := accesses_of_ready cfg href t hn
    obtain ⟨hm', -, howner⟩ := ha.wellFormed (hm.mono (.refl ..) hm.closed hrest)
    obtain ⟨t'', hs⟩ := assigns_of_holds hm'.closed howner
      ((ha.extends container).holds hvalue) hm'.container
    exact ⟨_, .storeAbove hop hty ha hs⟩
  · obtain ⟨a, t', ha⟩ := accesses_of_ready cfg href t (by omega : i.operandPops ≤ items.length)
    obtain ⟨hm', -, howner⟩ := ha.wellFormed hm
    obtain ⟨value, rest, hdrop⟩ :=
      List.exists_cons_of_length_pos (by rw [List.length_drop]; omega :
        0 < (items.drop i.operandPops).length)
    rw [hdrop] at ha hm'
    obtain ⟨t'', hs⟩ := assigns_of_holds hm'.closed howner
      (hm'.items value List.mem_cons_self) hm'.container
    exact ⟨_, .storeBelow hop hty ha hs⟩

/-- **An accepted instruction with enough operands** does one of the things that it can do. -/
theorem performs_of_ready (cfg : Settings) {i : Instruction} {position : Nat}
    {container : NodeId} {t : Tree} {items : List NodeId}
    (hm : WellFormed container ⟨t, ⟨items⟩⟩) (hr : i.rejection? position = none)
    (h : i.Ready items.length) : ∃ m', Performs cfg container i ⟨t, ⟨items⟩⟩ m' := by
  have hready : i.isLenient = false → i.pops ≤ items.length := fun hl => by
    rcases h with h | h
    · exact h
    · rw [hl] at h
      cases h
  -- a statement can always be put into the container
  have hput : ∀ kind children, ∃ t', (t.add kind children).appendChild? container t.nextId =
      some t' := fun kind children =>
    Tree.appendChild?_of_holds ((Tree.extends_add container t kind children).holds hm.container) _
  by_cases hpush : i.opcode.isPush = true
  · rw [Instruction.rejection?_push hpush] at hr
    by_cases hty : i.type1 = .variant
    · rw [if_neg (by simp [hty])] at hr
      have hn := hready (Instruction.isLenient_push hpush)
      rw [Instruction.pops_push hpush, if_pos hty] at hn
      cases href : i.reference with
      | none => rw [href] at hr; cases hr
      | some ref =>
        obtain ⟨a, t', ha⟩ := accesses_of_ready cfg href t hn
        exact ⟨_, .pushVariable hpush hty ha⟩
    · rw [if_pos hty] at hr
      obtain ⟨l, hl, hty⟩ := Instruction.literal_of_fault_none hr
      exact ⟨_, .pushLiteral (Or.inl hpush) hl hty⟩
  by_cases hbin : i.opcode.isBinary = true
  · have hn := hready (Instruction.isLenient_binary hbin)
    rw [Instruction.pops_binary hbin] at hn
    obtain ⟨op, hop⟩ := Instruction.operator_of_accepted hbin hr
    match items, hn with
    | _ :: _ :: _, _ => exact ⟨_, .operate hbin hop⟩
  unfold Instruction.rejection? at hr
  unfold Instruction.pops at hready
  unfold Instruction.isLenient at hready
  cases hop : i.opcode <;> rw [hop] at hr hready hpush hbin <;>
    try first | exact absurd rfl hpush | exact absurd rfl hbin
  case conv =>
    cases hv : truthOf? i t items with
    | none => exact ⟨_, .keep hop hv⟩
    | some value =>
      cases items with
      | nil =>
        unfold truthOf? at hv
        split at hv <;> cases hv
      | cons top rest => exact ⟨_, .convert hop hv⟩
  case neg =>
    obtain ⟨operand, rest, rfl⟩ := List.exists_cons_of_length_pos (hready rfl)
    exact ⟨_, .operateOne (show i.opcode = UnaryOp.neg.opcode from hop)⟩
  case not =>
    obtain ⟨operand, rest, rfl⟩ := List.exists_cons_of_length_pos (hready rfl)
    exact ⟨_, .operateOne (show i.opcode = UnaryOp.not.opcode from hop)⟩
  case pop =>
    have hn := hready rfl
    simp only at hn hr
    cases href : i.reference with
    | none =>
      rw [href] at hn
      have hn : 2 + i.dropCount ≤ items.length := hn
      obtain ⟨first, below, rfl⟩ := List.exists_cons_of_length_pos (by omega : 0 < items.length)
      rw [List.length_cons] at hn
      obtain ⟨second, below, rfl⟩ := List.exists_cons_of_length_pos (by omega : 0 < below.length)
      rw [List.length_cons] at hn
      have hn : i.dropCount ≤ below.length := by omega
      obtain ⟨dropped, rest, hd, rfl⟩ := exists_split hn
      exact ⟨_, .permute (by simp [Instruction.isPermutation, hop, href]) hd⟩
    | some ref =>
      rw [href] at hn hr
      have hty : i.type1 = .int32 ∨ i.type1 = .variant := by
        by_cases hty : i.type1 = .int32 ∨ i.type1 = .variant
        · exact hty
        · rw [if_neg (by simpa using not_or.mp hty)] at hr
          cases hr
      rw [if_neg (by simp), if_pos (by simpa using hty)] at hn
      exact performs_store cfg hm hop href hty hn
  case pushI =>
    simp only at hr
    cases hint : i.type1.isInteger with
    | false => rw [hint] at hr; cases hr
    | true =>
      rw [hint] at hr
      obtain ⟨l, hl, hty⟩ := Instruction.literal_of_fault_none hr
      exact ⟨_, .pushLiteral (Or.inr ⟨hop, hint⟩) hl hty⟩
  case dup =>
    simp only at hr
    split at hr
    · rename_i hf
      obtain ⟨t', ht'⟩ := markAll?_of_holds fun id hid =>
        hm.items id (List.mem_of_mem_take hid)
      exact ⟨_, .duplicate hop hf (hready rfl) ht'⟩
    · cases hr
  case ret =>
    obtain ⟨value, rest, rfl⟩ := List.exists_cons_of_length_pos (hready rfl)
    obtain ⟨t', ht'⟩ := hput .returnStmt [value]
    exact ⟨_, .returnValue hop ht'⟩
  case exit =>
    obtain ⟨t', ht'⟩ := hput .exitStmt []
    exact ⟨_, .exitScript hop ht'⟩
  case popz =>
    cases items with
    | nil => exact ⟨_, .discardNothing hop⟩
    | cons value rest =>
      obtain ⟨t', ht'⟩ := Tree.appendChild?_of_holds hm.container value
      exact ⟨_, .discard hop ht'⟩
  case call =>
    simp only at hr
    cases hf : i.function with
    | none => rw [hf] at hr; cases hr
    | some target =>
      obtain ⟨arguments, rest, ha, rfl⟩ := exists_split (hready rfl)
      exact ⟨_, .call hop hf ha⟩
  case callV => cases hr
  case extended => cases hr
  all_goals exact ⟨_, .mark (by rw [hop]; decide)⟩

/-- An instruction that succeeds does one of the things that it can do. -/
theorem performs_of_ok {cfg : Settings} (quiet : cfg.verbosity = none) {i : Instruction}
    {position : Nat} {container : NodeId} {m : Machine} (hm : m.WellFormed container)
    (h : (perform cfg container position i m).result = .ok ()) :
    ∃ m', Performs cfg container i m m' := by
  obtain ⟨t, ⟨items⟩⟩ := m
  cases hr : i.rejection? position with
  | some e =>
    rw [perform_of_rejection hr] at h
    cases h
  | none =>
    by_cases hready : i.Ready items.length
    · exact performs_of_ready cfg hm hr hready
    · rw [perform_of_short quiet hr container t hready] at h
      cases h

/-! ## Depths -/

theorem Reaches.depth {cfg : Settings} {i : Instruction} {ref : VariableRef} {m m' : Machine}
    {left : NodeId} {indices : List NodeId} (href : i.reference = some ref)
    (h : Reaches cfg i.owner ref.addressing m left indices m') :
    m.stack.depth = m'.stack.depth + i.operandPops := by
  rcases i.operandPops_cases href with ⟨hm, hn⟩ | ⟨ho, ha, hn⟩ | ⟨ho, hs, ha, hn⟩ <;> rw [hn]
  · cases h with
    | member _ => rfl
    | element ho ha => exact absurd hm (not_or.mpr ⟨ho, by simp [ha]⟩)
    | named ho hs _ => exact absurd hm (not_or.mpr ⟨ho, hs⟩)
  · cases h with
    | member hm => exact absurd hm (not_or.mpr ⟨ho, by simp [ha]⟩)
    | element _ _ => rfl
    | named _ _ ha' => exact absurd ha ha'
  · cases h with
    | member hm => exact absurd hm (not_or.mpr ⟨ho, hs⟩)
    | element _ ha' => exact absurd ha' ha
    | named _ _ _ => rfl

theorem Accesses.depth {cfg : Settings} {i : Instruction} {m m' : Machine} {a : Access}
    (h : Accesses cfg i m a m') : m.stack.depth = m'.stack.depth + i.operandPops := by
  obtain ⟨href, hr⟩ := h
  have hd := hr.depth href
  exact hd

/-- **The stack tables tell how every instruction changes the depth.** -/
theorem Performs.depth {cfg : Settings} {container : NodeId} {i : Instruction} {m m' : Machine}
    (h : Performs cfg container i m m') : m'.stack.depth = i.depthAfter m.stack.depth := by
  unfold Instruction.depthAfter Instruction.delta
  cases h with
  | @pushLiteral t items l hop _ hty =>
    rcases hop with hop | ⟨hop, _⟩
    · rw [Instruction.pushes_push hop, Instruction.pops_push hop,
        if_neg (by rw [hty]; exact l.dataType_ne_variant)]
      simp only [OperandStack.depth, List.length_cons]
      omega
    · simp only [Instruction.pops, Instruction.pushes, hop, OperandStack.depth, List.length_cons]
      omega
  | pushVariable hop hty ha =>
    have hd := ha.depth
    rw [Instruction.pushes_push hop, Instruction.pops_push hop, if_pos hty]
    simp only [OperandStack.depth, List.length_cons] at hd ⊢
    omega
  | storeAbove hop hty ha hs =>
    have hd := ha.depth
    rw [Instruction.pushes_store hop ha.reference,
      Instruction.pops_store hop ha.reference (Or.inl hty)]
    simp only [OperandStack.depth, List.length_cons] at hd ⊢
    omega
  | storeBelow hop hty ha hs =>
    have hd := ha.depth
    rw [Instruction.pushes_store hop ha.reference,
      Instruction.pops_store hop ha.reference (Or.inr hty)]
    simp only [OperandStack.depth, List.length_cons] at hd ⊢
    omega
  | permute hop hd =>
    simp only [Instruction.isPermutation, Bool.and_eq_true, decide_eq_true_eq] at hop
    simp only [Instruction.pops, Instruction.pushes, hop.1, hop.2, if_true, OperandStack.depth,
      List.length_cons, List.length_append]
    omega
  | operate hop ho =>
    rw [Instruction.pushes_binary hop, Instruction.pops_binary hop]
    simp only [OperandStack.depth, List.length_cons]
    omega
  | @operateOne _ _ _ op hop =>
    cases op <;>
      · simp only [UnaryOp.opcode] at hop
        simp only [Instruction.pops, Instruction.pushes, hop, OperandStack.depth,
          List.length_cons]
        omega
  | call hop hf ha =>
    simp only [Instruction.pops, Instruction.pushes, hop, OperandStack.depth, List.length_cons,
      List.length_append]
    omega
  | duplicate hop hf hd ht =>
    simp only [Instruction.pops, Instruction.pushes, hop, OperandStack.depth, List.length_append,
      List.length_take_of_le hd]
    omega
  | mark hop =>
    simp only [List.mem_cons, List.not_mem_nil, or_false] at hop
    rcases hop with hop | hop | hop | hop | hop <;>
      · simp only [Instruction.pops, Instruction.pushes, hop]
        omega
  | returnValue hop _ | exitScript hop _ | discard hop _ | discardNothing hop | convert hop _
  | keep hop _ =>
    simp only [Instruction.pops, Instruction.pushes, hop, OperandStack.depth, List.length_cons,
      List.length_nil]
    omega

end Machine

end GmlLift
