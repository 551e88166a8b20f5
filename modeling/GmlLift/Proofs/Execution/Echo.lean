import GmlLift.Proofs.Execution.Composition

/-!
# Reports and positions do not matter

The position of an instruction goes into errors and report lines, and the verbosity decides only
which lines are reported. So code does the same further back in a block, with the positions of its
errors shifted, and it does the same with fewer reports; unless a report asks for the text of a node
that has none.

`Action.Mirrors` is that relation between two actions, and `Machine.Echoes` is the same for actions
of the machine, with the remark that nothing but a cyclic text keeps them from having an end. It
goes through every combinator and holds of every move of the machine, so it holds of what is
composed of them, `Composed.echoes`. Result: `echoes_step`, for one instruction.
-/

namespace GmlLift

/-- The same halt of code that stands further back. -/
def Halt.shift (distance : Nat) : Halt → Halt
  | .error e => .error (e.shift distance)
  | .outOfRange => .outOfRange
  | .endless => .endless

@[simp] theorem Halt.shift_zero (h : Halt) : h.shift 0 = h := by
  cases h <;> simp [shift]

@[simp] theorem Halt.mapError_shift_zero {α : Type} (r : Except Halt α) :
    r.mapError (Halt.shift 0) = r := by
  cases r with
  | ok a => rfl
  | error h => exact congrArg Except.error h.shift_zero

/-- The halt of a report about a node without a text. -/
def TextFault.halt : TextFault → Halt
  | .missing _ => .outOfRange
  | .cyclic => .endless

/-- The second settings report what the first do, or nothing, and are the same otherwise. -/
structure Settings.Hushes (cfg cfg' : Settings) : Prop where
  version : cfg'.version = cfg.version
  verbosity : cfg'.verbosity = cfg.verbosity ∨ cfg'.verbosity = none

namespace Settings

theorem Hushes.refl (cfg : Settings) : cfg.Hushes cfg := ⟨rfl, Or.inl rfl⟩

theorem hushes_quiet (cfg : Settings) : cfg.Hushes { cfg with verbosity := none } :=
  ⟨rfl, Or.inr rfl⟩

theorem Hushes.isLegacy {cfg cfg' : Settings} (h : cfg.Hushes cfg') :
    cfg'.isLegacy = cfg.isLegacy := by
  unfold Settings.isLegacy
  rw [h.version]

end Settings

namespace Action

variable {σ α β : Type} {tree : σ → Tree} {cfg cfg' : Settings} {distance : Nat}

/-- A report that only the first settings make has asked for the text of a node without one. -/
def CutShort (cfg cfg' : Settings) (t : Tree) (h : Halt) : Prop :=
  cfg'.verbosity ≠ cfg.verbosity ∧ ∃ id fault, t.text id = .error fault ∧ h = fault.halt

/-- **The second action does what the first one does**, further back and with other report lines,
unless the first is cut short. -/
def Mirrors (tree : σ → Tree) (cfg cfg' : Settings) (distance : Nat) (x y : Action σ α) : Prop :=
  ∀ s, ((y s).state = (x s).state ∧
      (y s).result = (x s).result.mapError (Halt.shift distance)) ∨
    ∃ h, (x s).result = .error h ∧ CutShort cfg cfg' (tree (x s).state) h

namespace Mirrors

/-- An action that halts only for reasons without a position mirrors itself. -/
theorem refl {x : Action σ α}
    (hx : ∀ s h, (x s).result = .error h → h.shift distance = h) :
    Mirrors tree cfg cfg' distance x x := by
  intro s
  refine Or.inl ⟨rfl, ?_⟩
  cases h : (x s).result with
  | ok a => rfl
  | error e => exact congrArg Except.error (hx s e h).symm

/-- **One action after the other.** -/
protected theorem bind {x y : Action σ α} {f g : α → Action σ β}
    (hx : Mirrors tree cfg cfg' distance x y)
    (hf : ∀ a, Mirrors tree cfg cfg' distance (f a) (g a)) :
    Mirrors tree cfg cfg' distance (x >>= f) (y >>= g) := by
  intro s
  rcases hx s with ⟨hstate, hresult⟩ | ⟨h, hcut, hreason⟩
  · cases hxr : (x s).result with
    | error e =>
      rw [hxr] at hresult
      rw [bind_of_error hxr, bind_of_error hresult]
      exact Or.inl ⟨hstate, rfl⟩
    | ok a =>
      rw [hxr] at hresult
      rw [bind_of_ok hxr, bind_of_ok hresult, hstate]
      exact hf a (x s).state
  · rw [bind_of_error hcut]
    exact Or.inr ⟨h, rfl, hreason⟩

end Mirrors

end Action

namespace Machine

open GmlLift.Action

/-- **The second action mirrors the first**, and the first one has an end, unless it reports a
cyclic text. -/
structure Echoes (cfg cfg' : Settings) (distance : Nat) {α : Type} (x y : Action Machine α) :
    Prop where
  same : Mirrors Machine.tree cfg cfg' distance x y
  ends : ∀ m, (x m).result = .error .endless →
    cfg.verbosity ≠ none ∧ ∃ id, (x m).state.tree.text id = .error .cyclic

variable {cfg cfg' : Settings} {distance : Nat} {α β : Type}

namespace Echoes

/-- An action that halts only for reasons without a position echoes itself. -/
theorem refl {x : Action Machine α}
    (hx : ∀ m h, (x m).result = .error h → h.shift distance = h ∧ h ≠ .endless) :
    Echoes cfg cfg' distance x x where
  same := .refl fun m h hr => (hx m h hr).1
  ends m h := absurd rfl (hx m _ h).2

protected theorem pure (a : α) : Echoes cfg cfg' distance (pure a) (pure a) :=
  refl fun _ _ h => nomatch h

protected theorem change (f : Machine → Machine) :
    Echoes cfg cfg' distance (change f) (change f) :=
  refl fun _ _ h => nomatch h

protected theorem fail (e : LiftError) :
    Echoes (α := α) cfg cfg' distance (fail e) (fail (e.shift distance)) where
  same _ := Or.inl ⟨rfl, rfl⟩
  ends _ h := nomatch h

theorem halt_outOfRange :
    Echoes (α := α) cfg cfg' distance (halt .outOfRange) (halt .outOfRange) :=
  refl fun _ _ h => by
    cases h
    exact ⟨rfl, nofun⟩

protected theorem bind {x y : Action Machine α} {f g : α → Action Machine β}
    (hx : Echoes cfg cfg' distance x y) (hf : ∀ a, Echoes cfg cfg' distance (f a) (g a)) :
    Echoes cfg cfg' distance (x >>= f) (y >>= g) where
  same := hx.same.bind fun a => (hf a).same
  ends m := by
    cases hxr : (x m).result with
    | error e =>
      rw [bind_of_error hxr]
      intro he
      cases he
      exact hx.ends m hxr
    | ok a =>
      rw [bind_of_ok hxr]
      exact (hf a).ends (x m).state

/-- What is done may depend on the machine. -/
theorem state_bind {f g : Machine → Action Machine α}
    (hf : ∀ m, Echoes cfg cfg' distance (f m) (g m)) :
    Echoes cfg cfg' distance (state >>= f) (state >>= g) :=
  Echoes.bind (refl fun _ _ h => nomatch h) hf

theorem ite {x x' y y' : Action Machine α} {p q : Prop} [Decidable p] [Decidable q] (hpq : q ↔ p)
    (h : Echoes cfg cfg' distance x y) (h' : Echoes cfg cfg' distance x' y') :
    Echoes cfg cfg' distance (if p then x else x') (if q then y else y') := by
  by_cases hp : p
  · rw [if_pos hp, if_pos (hpq.mpr hp)]
    exact h
  · rw [if_neg hp, if_neg fun hq => hp (hpq.mp hq)]
    exact h'

end Echoes

/-! ## The moves of the machine -/

theorem echoes_pop (position : Nat) :
    Echoes cfg cfg' distance (pop position) (pop (position + distance)) where
  same := by
    rintro ⟨t, ⟨items⟩⟩
    cases items <;> exact Or.inl ⟨rfl, rfl⟩
  ends := by
    rintro ⟨t, ⟨items⟩⟩ h
    cases items <;> cases h

theorem echoes_popFor (construct : String) :
    Echoes cfg cfg' distance (popFor construct) (popFor construct) := by
  refine .refl ?_
  rintro ⟨t, ⟨items⟩⟩ h hr
  cases items <;> cases hr
  exact ⟨rfl, nofun⟩

theorem echoes_push (id : NodeId) : Echoes cfg cfg' distance (push id) (push id) := .change _

theorem echoes_make (kind : Kind) (children : List NodeId) :
    Echoes cfg cfg' distance (make kind children) (make kind children) :=
  .refl fun _ _ h => nomatch h

theorem echoes_pushNew (kind : Kind) (children : List NodeId) :
    Echoes cfg cfg' distance (pushNew kind children) (pushNew kind children) :=
  (echoes_make kind children).bind fun _ => echoes_push _

theorem echoes_edit (f : Tree → Option Tree) : Echoes cfg cfg' distance (edit f) (edit f) := by
  refine .refl fun m h hr => ?_
  cases hf : f m.tree with
  | some t =>
    rw [edit_of_some hf] at hr
    cases hr
  | none =>
    rw [edit_of_none hf] at hr
    cases hr
    exact ⟨rfl, nofun⟩

theorem echoes_append (parent child : NodeId) :
    Echoes cfg cfg' distance (append parent child) (append parent child) := echoes_edit _

theorem echoes_report (level : Level) (text text' : Machine → String) :
    Echoes cfg cfg' distance (report cfg level text) (report cfg' level text') where
  same _ := Or.inl ⟨rfl, rfl⟩
  ends _ h := nomatch h

theorem describe_of_wanted {level : Level} (h : level.wantedAt cfg.verbosity = true) (id : NodeId)
    (line : String → String) (m : Machine) :
    (describe cfg level id line m).state = m ∧
      (describe cfg level id line m).result =
        ((m.tree.text id).mapError TextFault.halt).map fun _ => () := by
  unfold describe
  rw [if_pos h]
  cases m.tree.text id with
  | ok text => exact ⟨rfl, rfl⟩
  | error fault => cases fault <;> exact ⟨rfl, rfl⟩

theorem describe_of_unwanted {level : Level} (h : level.wantedAt cfg.verbosity = false)
    (id : NodeId) (line : String → String) (m : Machine) :
    describe cfg level id line m = ⟨.ok (), m, []⟩ := by
  unfold describe
  rw [if_neg (by rw [h]; exact Bool.false_ne_true)]

/-- **The one place where a report can be missed**: with fewer reports no text is asked for. -/
theorem echoes_describe (h : cfg.Hushes cfg') (level : Level) (id : NodeId)
    (line line' : String → String) :
    Echoes cfg cfg' distance (describe cfg level id line) (describe cfg' level id line') := by
  cases hw : level.wantedAt cfg.verbosity with
  | false =>
    have hw' : level.wantedAt cfg'.verbosity = false := by
      rcases h.verbosity with hv | hv <;> rw [hv]
      · exact hw
      · rfl
    constructor
    · intro m
      rw [describe_of_unwanted hw, describe_of_unwanted hw']
      exact Or.inl ⟨rfl, rfl⟩
    · intro m hr
      rw [describe_of_unwanted hw] at hr
      cases hr
  | true =>
    have hloud : cfg.verbosity ≠ none := by
      intro hv
      rw [hv] at hw
      cases hw
    constructor
    · intro m
      obtain ⟨hstate, hresult⟩ := describe_of_wanted hw id line m
      rcases h.verbosity with hv | hv
      · have hw' : level.wantedAt cfg'.verbosity = true := by rw [hv]; exact hw
        obtain ⟨hstate', hresult'⟩ := describe_of_wanted hw' id line' m
        refine Or.inl ⟨hstate'.trans hstate.symm, ?_⟩
        rw [hresult, hresult']
        cases m.tree.text id with
        | ok text => rfl
        | error fault => cases fault <;> rfl
      · have hw' : level.wantedAt cfg'.verbosity = false := by rw [hv]; rfl
        rw [describe_of_unwanted hw', hstate, hresult]
        cases ht : m.tree.text id with
        | ok text => exact Or.inl ⟨rfl, rfl⟩
        | error fault =>
          exact Or.inr ⟨fault.halt, rfl, fun heq => hloud (heq ▸ hv), id, fault, ht, rfl⟩
    · intro m hr
      obtain ⟨hstate, hresult⟩ := describe_of_wanted hw id line m
      rw [hresult] at hr
      rw [hstate]
      cases ht : m.tree.text id with
      | ok text =>
        rw [ht] at hr
        cases hr
      | error fault =>
        rw [ht] at hr
        cases fault with
        | missing _ => cases hr
        | cyclic => exact ⟨hloud, id, ht⟩

/-! ## Instructions -/

section Instructions

variable (h : cfg.Hushes cfg') (position : Nat) (i : Instruction)

theorem echoes_duplicate :
    Echoes cfg cfg' distance (duplicate position i) (duplicate (position + distance) i) := by
  refine .ite Iff.rfl (.state_bind fun m => .ite Iff.rfl (.fail _) ?_) (.fail _)
  exact (echoes_edit _).bind fun _ => .change _

theorem echoes_discard (container : NodeId) :
    Echoes cfg cfg' distance (discard cfg container position)
      (discard cfg' container (position + distance)) := by
  refine .state_bind fun m => ?_
  cases m.stack.pop? with
  | none => exact echoes_report ..
  | some popped => exact (Echoes.change _).bind fun _ => echoes_append ..

theorem echoes_convert : Echoes cfg cfg' distance (convert i) (convert i) := by
  refine .ite Iff.rfl (.state_bind fun m => ?_) (.pure ())
  cases m.stack.peek?.bind m.tree.booleanLiteral? with
  | none => exact .pure ()
  | some value => exact (echoes_make ..).bind fun _ => .change _

include h

theorem echoes_arrayIndices (hflat : cfg'.flattensIndices = cfg.flattensIndices)
    (index : NodeId) :
    Echoes cfg cfg' distance (arrayIndices cfg index) (arrayIndices cfg' index) := by
  refine .state_bind fun m => ?_
  have hsame : rowAndColumn? cfg' m.tree index = rowAndColumn? cfg m.tree index := by
    simp only [rowAndColumn?, hflat]
  rw [hsame]
  cases rowAndColumn? cfg m.tree index with
  | none => exact .pure _
  | some parts => exact (echoes_describe h ..).bind fun _ => .pure _

theorem echoes_assign (container : NodeId) (target : Access) (value : NodeId) :
    Echoes cfg cfg' distance (assign cfg container position target value)
      (assign cfg' container (position + distance) target value) := by
  refine .state_bind fun m => ?_
  match m.tree.compound? target.owner target.addressing value with
  | none => exact .halt_outOfRange
  | some none => exact (echoes_make ..).bind fun _ => echoes_append ..
  | some (some (op, right)) =>
    exact (echoes_make ..).bind fun _ => (echoes_describe h ..).bind fun _ => echoes_append ..

end Instructions

/-- **What is composed alike echoes.** -/
theorem Composed.echoes {w : Twin} {hand : Hand} {x y : Action Machine α} {post : α → Hand}
    (hw : w.cfg.Hushes w.cfg') (h : Composed w hand x y post) :
    Echoes w.cfg w.cfg' w.distance x y := by
  induction h with
  | pure => exact .pure _
  | bind _ _ ihx ihf => exact ihx.bind ihf
  | weaken _ _ ih => exact ih
  | fail => exact .fail _
  | pop => exact echoes_pop w.position
  | push => exact echoes_push _
  | make => exact echoes_make _ _
  | place => exact (echoes_make _ _).bind fun _ => echoes_append _ _
  | arrayIndices hflat => exact echoes_arrayIndices hw hflat _
  | assign => exact echoes_assign hw w.position _ _ _
  | duplicate => exact echoes_duplicate w.position w.i
  | discard => exact echoes_discard w.position w.container
  | convert => exact echoes_convert w.i
  | report => exact echoes_report _ _ _
  | describe => exact echoes_describe hw _ _ _ _

/-- **An instruction does the same further back**, as long as it is the centre of the same
increment. -/
theorem echoes_step (h : cfg.Hushes cfg') (container : NodeId) {behind behind' : List Instruction}
    (hlen : behind'.length = behind.length + distance) {i : Instruction} {ahead : List Instruction}
    (hinc : incrementAt? cfg' behind' i ahead = incrementAt? cfg behind i ahead) :
    Echoes cfg cfg' distance (step cfg container behind i ahead)
      (step cfg' container behind' i ahead) := by
  let w : Twin :=
    ⟨cfg, cfg', container, behind.length, distance, i, fun _ _ => Or.inl h.isLegacy⟩
  exact (composed_step w rfl hlen hinc).echoes h

end Machine

end GmlLift
