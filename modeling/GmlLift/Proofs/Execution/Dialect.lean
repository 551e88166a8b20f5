import GmlLift.Proofs.Execution.Composition

/-!
# What the version of the format decides

A run reads its settings in two ways only: the verbosity decides which lines are reported, and the
version decides whether the code is of the legacy dialect. Two kinds of instructions have a meaning
of their own there: an access to an element of an array, whose index may be flattened, and a swap
inside a postfix increment. They are *dialectal*; all others mean the same in both dialects.

Result: `execute_congr`. With one verbosity, settings run code in the same way if they are of one
dialect, or if no instruction of the code is dialectal.
-/

namespace GmlLift

namespace Instruction

/-- Does the instruction read or write an element of an array? -/
def accessesElement (i : Instruction) : Bool :=
  i.accessed?.any (·.addressing = .array)

/-- A pop of a 16-bit integer that names no variable. -/
def isSwap (i : Instruction) : Bool :=
  i.isPermutation && i.type1 = .int16

/-- Has the instruction a meaning of its own in the legacy dialect? -/
def isDialectal (i : Instruction) : Bool :=
  i.accessesElement || i.isSwap

end Instruction

/-- **The settings agree on an instruction**: they are of one dialect, or the instruction means the
same in both. -/
def Settings.AgreeOn (cfg cfg' : Settings) (i : Instruction) : Prop :=
  cfg'.isLegacy = cfg.isLegacy ∨ i.isDialectal = false

variable {cfg cfg' : Settings} {i : Instruction}

namespace Settings.AgreeOn

theorem flattensIndices (h : cfg.AgreeOn cfg' i) {ref : VariableRef}
    (href : i.accessed? = some ref) :
    cfg'.flattensIndices = cfg.flattensIndices ∨ ref.addressing ≠ .array := by
  refine h.imp id fun hplain harray => ?_
  simp [Instruction.isDialectal, Instruction.accessesElement, href, harray] at hplain

theorem swapsInIncrement (h : cfg.AgreeOn cfg' i) :
    cfg'.swapsInIncrement = cfg.swapsInIncrement ∨ i.isSwap = false := by
  refine h.imp id fun hplain => ?_
  simp only [Instruction.isDialectal, Bool.or_eq_false_iff] at hplain
  exact hplain.2

end Settings.AgreeOn

/-! ## Windows -/

namespace Increment

theorem copiedBefore_congr {last : Instruction} (h : cfg.AgreeOn cfg' last)
    (beforeLast : Instruction) :
    copiedBefore cfg' last beforeLast = copiedBefore cfg last beforeLast := by
  unfold copiedBefore
  rcases h.swapsInIncrement with hsame | hplain
  · rw [hsame]
  · simp only [Bool.and_assoc]
    rw [show (last.isPermutation && decide (last.type1 = .int16)) = false from hplain]
    simp

theorem find?_congr {behind : List Instruction} (h : ∀ j ∈ behind, cfg.AgreeOn cfg' j)
    (i : Instruction) (ahead : List Instruction) :
    find? cfg' behind i ahead = find? cfg behind i ahead := by
  have hpost : findPost? cfg' behind ahead = findPost? cfg behind ahead := by
    unfold findPost?
    split
    · rename_i last beforeLast _ _ _
      rw [copiedBefore_congr (h last List.mem_cons_self)]
    · rfl
  unfold find?
  rw [hpost]

end Increment

namespace Machine

open GmlLift.Action

theorem incrementAt?_congr {behind : List Instruction} (h : ∀ j ∈ behind, cfg.AgreeOn cfg' j)
    (i : Instruction) (ahead : List Instruction) :
    incrementAt? cfg' behind i ahead = incrementAt? cfg behind i ahead := by
  unfold incrementAt?
  rw [Increment.find?_congr h]

/-! ## Instructions -/

section Instructions

variable (hv : cfg'.verbosity = cfg.verbosity)

include hv

theorem report_congr {σ : Type} (level : Level) (text : σ → String) :
    report cfg' level text = report cfg level text := by
  unfold report
  rw [hv]

theorem describe_congr (level : Level) (id : NodeId) (line : String → String) :
    describe cfg' level id line = describe cfg level id line := by
  unfold describe
  rw [hv]

theorem arrayIndices_congr (h : cfg'.flattensIndices = cfg.flattensIndices) (index : NodeId) :
    arrayIndices cfg' index = arrayIndices cfg index := by
  unfold arrayIndices rowAndColumn?
  simp only [h, describe_congr hv]

theorem assign_congr (container : NodeId) (position : Nat) (target : Access) (value : NodeId) :
    assign cfg' container position target value = assign cfg container position target value := by
  unfold assign
  simp only [describe_congr hv]

theorem discard_congr (container : NodeId) (position : Nat) :
    discard cfg' container position = discard cfg container position := by
  unfold discard
  simp only [report_congr hv]

omit hv in
/-- **What is composed alike at one place is the same**, under settings of one verbosity. -/
theorem Composed.congr {w : Twin} (hv : w.cfg'.verbosity = w.cfg.verbosity) (hd : w.distance = 0)
    {α : Type} {hand : Hand} {x y : Action Machine α} {post : α → Hand}
    (h : Composed w hand x y post) : y = x := by
  induction h with
  | pure => rfl
  | bind _ _ ihx ihf => rw [ihx, funext ihf]
  | weaken _ _ ih => exact ih
  | fail => rw [hd, LiftError.shift_zero]
  | pop | duplicate => rw [hd, Nat.add_zero]
  | push | make | place | convert => rfl
  | arrayIndices hflat => exact arrayIndices_congr hv hflat _
  | assign => rw [hd, Nat.add_zero, assign_congr hv]
  | discard => rw [hd, Nat.add_zero, discard_congr hv]
  | report htext => rw [htext hd, report_congr hv]
  | describe hline => rw [hline hd, describe_congr hv]

/-- **One instruction.** What stands behind it matters, because a window may begin there. -/
theorem step_congr (container : NodeId) {behind : List Instruction}
    (hbehind : ∀ j ∈ behind, cfg.AgreeOn cfg' j) (hi : cfg.AgreeOn cfg' i)
    (ahead : List Instruction) :
    step cfg' container behind i ahead = step cfg container behind i ahead := by
  let w : Twin := ⟨cfg, cfg', container, behind.length, 0, i, fun _ => hi.flattensIndices⟩
  exact (composed_step w rfl rfl (incrementAt?_congr hbehind i ahead)).congr hv rfl

/-! ## Code -/

theorem executeFrom_congr (container : NodeId) :
    ∀ (ahead : List Instruction) (skip : Nat) (behind : List Instruction),
    (∀ j ∈ behind, cfg.AgreeOn cfg' j) → (∀ j ∈ ahead, cfg.AgreeOn cfg' j) →
    executeFrom cfg' container skip behind ahead = executeFrom cfg container skip behind ahead
  | [], _, _, _, _ => rfl
  | i :: ahead, skip, behind, hbehind, hahead => by
    obtain ⟨hi, hahead⟩ := List.forall_mem_cons.mp hahead
    have hrest (skip : Nat) := executeFrom_congr container ahead skip (i :: behind)
      (List.forall_mem_cons.mpr ⟨hi, hbehind⟩) hahead
    cases skip with
    | succ skip => exact hrest skip
    | zero =>
      rw [executeFrom, executeFrom, step_congr hv container hbehind hi]
      simp only [hrest]

/-- **Settings that agree on every instruction run the code in the same way.** -/
theorem execute_congr {code : List Instruction} (h : ∀ i ∈ code, cfg.AgreeOn cfg' i)
    (container : NodeId) : execute cfg' code container = execute cfg code container :=
  executeFrom_congr hv container code 0 [] (fun _ hj => nomatch hj) h

end Instructions

end Machine

end GmlLift
