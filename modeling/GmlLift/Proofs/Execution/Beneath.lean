import GmlLift.Proofs.Execution.Trace

/-!
# What lies beneath is left alone

An action is `Framed` if, wherever it answers, it answers the same with more items at the bottom of
the stack and leaves these where they are. Every instruction is framed, except that two of them do
something else on an empty stack without failing (`Instruction.PassesOverEmpty`).

Result: `execute_above`. A run that comes upon no such instruction with its stack empty does the
same over a deeper stack.
-/

namespace GmlLift

/-- **An empty stack is passed over**: there is nothing to make a statement of, or nothing to
convert. -/
def Instruction.PassesOverEmpty (i : Instruction) : Prop :=
  i.opcode = .popz ∨ (i.opcode = .conv ∧ i.type1 = .int32 ∧ i.type2 = .boolean)

namespace Machine

open GmlLift.Action

/-- The machine with more items at the bottom of its stack. -/
def above (m : Machine) (base : OperandStack) : Machine := { m with stack := base.append m.stack }

@[simp] theorem toList_above (m : Machine) (base : OperandStack) :
    (m.above base).stack.toList = base.toList ++ m.stack.toList :=
  OperandStack.toList_append base m.stack

/-- **Where the action answers, more items at the bottom make no difference to it.** -/
structure Framed {α : Type} (base : OperandStack) (x : Action Machine α) (m : Machine) : Prop where
  lifts : ∀ a, (x m).result = .ok a →
    (x (m.above base)).result = .ok a ∧ (x (m.above base)).state = (x m).state.above base

namespace Framed

variable {α β : Type} {base : OperandStack} {m : Machine}

protected theorem pure (a : α) : Framed base (pure a) m :=
  ⟨fun _ h => ⟨h, rfl⟩⟩

protected theorem halt (e : Halt) : Framed (α := α) base (halt e) m :=
  ⟨fun _ h => by cases h⟩

/-- **One action after the other.** -/
protected theorem bind {x : Action Machine α} {f : α → Action Machine β} (hx : Framed base x m)
    (hf : ∀ a m', Framed base (f a) m') : Framed base (x >>= f) m := by
  constructor
  intro b hb
  obtain ⟨a, ha, hfb⟩ := result_bind_eq_ok_iff.mp hb
  obtain ⟨ha', hstate⟩ := hx.lifts a ha
  obtain ⟨hb', hstate'⟩ := (hf a (x m).state).lifts b hfb
  simp [bind_of_ok ha, bind_of_ok ha', hstate, hb', hstate']

/-- What is done may depend on the tree. -/
theorem state_bind {f : Machine → Action Machine β} (hsame : f (m.above base) = f m)
    (hf : Framed base (f m) m) : Framed base (state >>= f) m := by
  constructor
  intro b hb
  have habove : (state >>= f) (m.above base) = (state >>= fun _ => f m) (m.above base) := by
    simp [bind_apply, Outcome.andThen, hsame]
  rw [habove]
  exact hf.lifts b hb

theorem report_bind {f : Unit → Action Machine β} (cfg : Settings) (level : Level)
    (text : Machine → String) (h : Framed base (f ()) m) :
    Framed base (report cfg level text >>= f) m :=
  ⟨h.lifts⟩

end Framed

/-! ## The moves of the machine -/

section Moves

variable {base : OperandStack}

theorem framed_pop (position : Nat) (m : Machine) : Framed base (pop position) m := by
  obtain ⟨t, ⟨items⟩⟩ := m
  cases items with
  | nil => exact ⟨fun _ h => by cases h⟩
  | cons id rest => exact ⟨fun _ h => ⟨h, rfl⟩⟩

theorem framed_push (id : NodeId) (m : Machine) : Framed base (push id) m :=
  ⟨fun _ h => ⟨h, rfl⟩⟩

theorem framed_make (kind : Kind) (children : List NodeId) (m : Machine) :
    Framed base (make kind children) m :=
  ⟨fun _ h => ⟨h, rfl⟩⟩

theorem framed_edit (f : Tree → Option Tree) (m : Machine) : Framed base (edit f) m := by
  cases hf : f m.tree with
  | some t =>
    have habove : edit f (m.above base) = ⟨.ok (), { m.above base with tree := t }, []⟩ :=
      edit_of_some hf
    refine ⟨fun _ _ => ?_⟩
    rw [edit_of_some hf, habove]
    exact ⟨rfl, rfl⟩
  | none => exact ⟨fun _ h => by simp [edit_of_none hf] at h⟩

theorem framed_append (parent child : NodeId) (m : Machine) :
    Framed base (append parent child) m :=
  framed_edit _ m

theorem framed_describe (cfg : Settings) (level : Level) (id : NodeId) (line : String → String)
    (m : Machine) : Framed base (describe cfg level id line) m := by
  have habove : (m.above base).tree = m.tree := rfl
  unfold describe
  by_cases hw : level.wantedAt cfg.verbosity = true
  · cases htext : m.tree.text id with
    | ok text => exact ⟨fun _ _ => by simp [hw, htext, habove]⟩
    | error e => exact ⟨fun _ h => by cases e <;> simp [hw, htext] at h⟩
  · exact ⟨fun _ _ => by simp [hw]⟩

end Moves

/-! ## Instructions -/

section Instructions

variable {base : OperandStack} (cfg : Settings) (container : NodeId) (position : Nat)
  (i : Instruction) (m : Machine)

theorem framed_arrayIndices (index : NodeId) : Framed base (arrayIndices cfg index) m := by
  refine .state_bind rfl ?_
  cases rowAndColumn? cfg m.tree index with
  | none => exact .pure _
  | some parts => exact (framed_describe ..).bind fun _ _ => .pure _

theorem framed_assign (target : Access) (value : NodeId) :
    Framed base (assign cfg container position target value) m := by
  refine .state_bind rfl ?_
  cases m.tree.compound? target.owner target.addressing value with
  | none => exact .halt _
  | some parts =>
    cases parts with
    | none => exact (framed_make _ _ m).bind fun _ m' => framed_append container _ m'
    | some parts =>
      exact (framed_make _ _ m).bind fun _ m' => (framed_describe cfg _ _ _ m').bind fun _ m' =>
        framed_append container _ m'

theorem exists_of_duplicate {i : Instruction} {t : Tree} {items : List NodeId} {position : Nat}
    (h : (duplicate position i ⟨t, ⟨items⟩⟩).result = .ok ()) : i.comparison = 0 ∧
      i.dupCount ≤ items.length ∧ ∃ t', markAll? t (items.take i.dupCount) = some t' := by
  unfold duplicate at h
  split at h
  · rename_i hflag
    obtain ⟨-, ⟨⟩, h⟩ := result_bind_eq_ok_iff.mp h
    split at h
    · cases h
    · rename_i hdepth
      obtain ⟨a, hedit, -⟩ := result_bind_eq_ok_iff.mp h
      refine ⟨hflag, Nat.le_of_not_lt hdepth, ?_⟩
      cases hmark : markAll? t (items.take i.dupCount) with
      | some t' => exact ⟨t', rfl⟩
      | none =>
        rw [edit_of_none hmark] at hedit
        cases hedit
  · cases h

/-- What is copied lies above the base. -/
theorem framed_duplicate : Framed base (duplicate position i) m := by
  obtain ⟨t, ⟨items⟩⟩ := m
  constructor
  intro _ h
  obtain ⟨hflag, hdepth, t', hmark⟩ := exists_of_duplicate h
  have htake : (items ++ base.items).take i.dupCount = items.take i.dupCount :=
    List.take_append_of_le_length hdepth
  have habove : duplicate position i ⟨t, ⟨items ++ base.items⟩⟩ =
      ⟨.ok (), ⟨t', ⟨(items ++ base.items).take i.dupCount ++ (items ++ base.items)⟩⟩, []⟩ :=
    duplicate_apply position hflag (by simp; omega) (by rw [htake, hmark])
  simp [duplicate_apply position hflag hdepth hmark, above, OperandStack.append, habove, htake]

theorem framed_discard (h : m.stack.items ≠ []) :
    Framed base (discard cfg container position) m := by
  obtain ⟨t, ⟨items⟩⟩ := m
  cases items with
  | nil => exact absurd rfl h
  | cons value rest =>
    have happend : Framed base (append container value) ⟨t, ⟨rest⟩⟩ := framed_append ..
    exact ⟨happend.lifts⟩

/-- The value that is converted lies above the base. -/
theorem framed_convert (h : i.type1 = .int32 → i.type2 = .boolean → m.stack.items ≠ []) :
    Framed base (convert i) m := by
  obtain ⟨t, ⟨items⟩⟩ := m
  have htruth : truthOf? i t (items ++ base.items) = truthOf? i t items := by
    unfold truthOf?
    by_cases htypes : i.type1 = .int32 ∧ i.type2 = .boolean
    · obtain ⟨top, rest, rfl⟩ := List.exists_cons_of_ne_nil (h htypes.1 htypes.2)
      simp
    · simp [htypes]
  constructor
  intro _ _
  cases hvalue : truthOf? i t items with
  | none => simp [convert_apply, above, OperandStack.append, htruth, hvalue]
  | some value =>
    have hitems : items ≠ [] := by
      rintro rfl
      simp [truthOf?] at hvalue
    obtain ⟨top, rest, rfl⟩ := List.exists_cons_of_ne_nil hitems
    rw [List.cons_append] at htruth
    simp [convert_apply, above, OperandStack.append, OperandStack.replaceTop, htruth, hvalue]

/-- **What is composed of the moves of an instruction is framed**, unless the instruction passes
over an empty stack. -/
theorem Composed.framed {w : Twin} (hw : ¬ w.i.PassesOverEmpty) {α : Type} {hand : Hand}
    {x y : Action Machine α} {post : α → Hand} (h : Composed w hand x y post) (m : Machine) :
    Framed base x m := by
  induction h generalizing m with
  | pure => exact .pure _
  | bind _ _ ihx ihf => exact (ihx m).bind ihf
  | weaken _ _ ih => exact ih m
  | fail => exact .halt _
  | pop => exact framed_pop w.position m
  | push => exact framed_push _ m
  | make => exact framed_make _ _ m
  | place => exact (framed_make _ _ m).bind fun _ m' => framed_append w.container _ m'
  | arrayIndices => exact framed_arrayIndices w.cfg m _
  | assign => exact framed_assign w.cfg w.container w.position m _ _
  | duplicate => exact framed_duplicate w.position w.i m
  | discard hop => exact absurd (Or.inl hop) hw
  | convert hop => exact framed_convert w.i m fun h₁ h₂ => absurd (Or.inr ⟨hop, h₁, h₂⟩) hw
  | report => exact ⟨fun _ h => ⟨h, rfl⟩⟩
  | describe => exact framed_describe _ _ _ _ m

/-- The two instructions that pass over an empty stack are framed where the stack has an item. -/
theorem framed_perform (h : i.PassesOverEmpty) (hm : m.stack.items ≠ []) :
    Framed base (perform cfg container position i) m := by
  unfold perform
  rcases h with hop | ⟨hop, -, -⟩ <;> rw [hop]
  · exact framed_discard cfg container position m hm
  · exact framed_convert i m fun _ _ => hm

/-- **Every step is framed** whose instruction does not pass over an empty stack. -/
theorem framed_step (behind ahead : List Instruction)
    (h : i.PassesOverEmpty → m.stack.items ≠ []) :
    Framed base (step cfg container behind i ahead) m := by
  by_cases hi : i.PassesOverEmpty
  · have hnone : incrementAt? cfg behind i ahead = none := by
      unfold incrementAt?
      rcases hi with hop | ⟨hop, -, -⟩ <;> simp [hop, Opcode.isPush]
    refine .report_bind cfg .trace _ ?_
    rw [hnone]
    exact (framed_perform cfg container behind.length i m hi (h hi)).bind fun _ _ => .pure 0
  · exact (composed_step_same cfg container behind i ahead).framed hi m

end Instructions

/-! ## Code -/

section Run

variable {cfg : Settings} {container : NodeId} {code : List Instruction} {m m' : Machine} {k : Nat}

/-- **No instruction of the run passes over an empty stack.** -/
def NeverEmpty (cfg : Settings) (container : NodeId) (code : List Instruction) (m : Machine) :
    Prop :=
  ∀ k i m', Arrives cfg container code m k m' → code[k]? = some i → i.PassesOverEmpty →
    m'.stack.items ≠ []

/-- The cursor takes the same way over a deeper stack. -/
theorem Arrives.above (base : OperandStack) (h : NeverEmpty cfg container code m)
    (way : Arrives cfg container code m k m') :
    Arrives cfg container code (m.above base) k (m'.above base) := by
  induction way with
  | start => exact .start
  | @step cursor skip m' i way hi hok ih =>
    have hframed : Framed base (Machine.step cfg container (code.take cursor).reverse i
        (code.drop (cursor + 1))) m' :=
      framed_step cfg container i m' _ _ (h cursor i m' way hi)
    obtain ⟨hok', hstate⟩ := hframed.lifts skip hok
    rw [← hstate]
    exact ih.step hi hok'

end Run

/-- **Values below a block's own operands are never touched.** -/
theorem execute_above (cfg : Settings) (base : OperandStack) {container : NodeId}
    {code : List Instruction} {m : Machine} (hok : (execute cfg code container m).result = .ok ())
    (hempty : NeverEmpty cfg container code m) :
    let o := execute cfg code container m
    let o' := execute cfg code container (m.above base)
    o'.result = .ok () ∧ o'.state.stack.toList = base.toList ++ o.state.stack.toList ∧
      o'.state.tree = o.state.tree := by
  intro o o'
  have way : Arrives cfg container code m code.length o.state := arrives_of_executeAt .start hok
  obtain ⟨hstate, hresult⟩ := (way.above base hempty).execute_eq
  rw [executeAt_of_length_le (Nat.le_refl _)] at hstate hresult
  have habove : o'.state = o.state.above base := hstate
  exact ⟨hresult, by rw [habove, toList_above], by rw [habove]; rfl⟩

theorem items_ne_nil_of_after {cfg : Settings} {container : NodeId} {code : List Instruction}
    {m m' : Machine} {n k : Nat}
    (h : (after cfg container code m n).map (fun a => (a.1, a.2.stack.isEmpty)) = some (k, false))
    (way : Arrives cfg container code m k m') : m'.stack.items ≠ [] := by
  obtain ⟨⟨k', m''⟩, hafter, heq⟩ := Option.map_eq_some_iff.mp h
  obtain ⟨rfl, hnonempty⟩ := Prod.mk.inj heq
  obtain rfl := way.unique (arrives_of_after hafter)
  simpa [OperandStack.isEmpty] using hnonempty

/-- A number is converted and discarded above another one, on a stack that was empty. -/
theorem execute_above_convert :
    let one : Instruction := { opcode := .pushI, type1 := .int16, literal := some (.int16 1) }
    let code : List Instruction :=
      [one, one, { opcode := .conv, type1 := .int32, type2 := .boolean }, { opcode := .popz }]
    let base := OperandStack.ofList [⟨0⟩, ⟨0⟩]
    let o := execute {} code Tree.root {}
    let o' := execute {} code Tree.root (above {} base)
    o.result = .ok () ∧ NeverEmpty {} Tree.root code {} ∧ o.state.stack.toList = [⟨1⟩] ∧
      o'.result = .ok () ∧ o'.state.stack.toList = base.toList ++ o.state.stack.toList ∧
      o'.state.tree = o.state.tree := by
  intro one code base o o'
  have hok : o.result = .ok () := rfl
  have hempty : NeverEmpty {} Tree.root code {} := by
    intro k i m' way hi hpasses
    rcases k with - | - | - | - | k
    · cases hi
      simp [Instruction.PassesOverEmpty, one] at hpasses
    · cases hi
      simp [Instruction.PassesOverEmpty, one] at hpasses
    · exact items_ne_nil_of_after (n := 2) rfl way
    · exact items_ne_nil_of_after (n := 3) rfl way
    · cases hi
  exact ⟨hok, hempty, rfl, execute_above {} base hok hempty⟩

end Machine

end GmlLift
