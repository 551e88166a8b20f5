import GmlLift.Proofs.Execution.Readiness

/-!
# Execution by position

`Machine.executeAt cfg container code cursor` is what remains of a run when the cursor stands at a
position of the code. At every position inside the code it is one step and then the run from where
the step leads (`executeAt_of_get`).

`Advances` says what one step can do, and how many of the following instructions it passes over: an
instruction by itself, or one of the three increment windows.
-/

namespace GmlLift

/-! ## Windows by position -/

namespace Increment

theorem findAt?_of_get {cfg : Settings} {code : List Instruction} {cursor : Nat} {i : Instruction}
    (h : code[cursor]? = some i) :
    findAt? cfg code cursor = find? cfg (code.take cursor).reverse i (code.drop (cursor + 1)) := by
  obtain ⟨hlt, hi⟩ := List.getElem?_eq_some_iff.mp h
  unfold findAt?
  rw [List.drop_eq_getElem_cons hlt, hi]

theorem endAt_eq {window : List Instruction → Window} {code : List Instruction} {cursor : Nat}
    (hw : (window (code.drop (cursor + 1))).span ≤ (code.drop (cursor + 1)).length)
    (h : cursor < code.length) :
    endAt window code cursor = cursor + 1 + (window (code.drop (cursor + 1))).span := by
  unfold endAt
  rw [List.length_drop] at hw
  omega

theorem postEndAt_eq {code : List Instruction} {cursor : Nat} (h : cursor < code.length) :
    postEndAt code cursor = cursor + 1 + (postWindow (code.drop (cursor + 1))).span :=
  endAt_eq (postWindow_span_le_length _) h

theorem preEndAt_eq {code : List Instruction} {cursor : Nat} (h : cursor < code.length) :
    preEndAt code cursor = cursor + 1 + (preWindow (code.drop (cursor + 1))).span :=
  endAt_eq (preWindow_span_le_length _) h

theorem lt_postEndAt {code : List Instruction} {cursor : Nat} (h : cursor < code.length) :
    cursor < postEndAt code cursor := by
  rw [postEndAt_eq h]
  omega

theorem lt_preEndAt {code : List Instruction} {cursor : Nat} (h : cursor < code.length) :
    cursor < preEndAt code cursor := by
  rw [preEndAt_eq h]
  omega

end Increment

namespace Machine

open GmlLift.Action

theorem incrementAt?_of_get (cfg : Settings) {code : List Instruction} {cursor : Nat}
    {i : Instruction} (h : code[cursor]? = some i) :
    incrementAt? cfg (code.take cursor).reverse i (code.drop (cursor + 1)) =
      if i.opcode.isPush then Increment.findAt? cfg code cursor else none := by
  unfold incrementAt?
  rw [Increment.findAt?_of_get h]

/-! ## One step -/

/-- **What a step can do**, and how many of the instructions ahead it deals with. -/
inductive Advances (cfg : Settings) (container : NodeId) (behind : List Instruction)
    (i : Instruction) (ahead : List Instruction) : Machine → Nat → Machine → Prop
  | performed {m m' : Machine} (hi : incrementAt? cfg behind i ahead = none)
      (h : Performs cfg container i m m') : Advances cfg container behind i ahead m 0 m'
  | pre {t : Tree} {op : BinaryOp} {target : NodeId} {rest : List NodeId}
      (hi : incrementAt? cfg behind i ahead = some ⟨op, .pre⟩)
      (hw : (Increment.preWindow ahead).permuted = false) :
      Advances cfg container behind i ahead ⟨t, ⟨target :: rest⟩⟩
        (Increment.preWindow ahead).span
        ⟨t.add (.assign (.increment op .pre)) [target], ⟨t.nextId :: rest⟩⟩
  | prePermuted {t : Tree} {op : BinaryOp} {target below : NodeId} {rest : List NodeId}
      (hi : incrementAt? cfg behind i ahead = some ⟨op, .pre⟩)
      (hw : (Increment.preWindow ahead).permuted = true) :
      Advances cfg container behind i ahead ⟨t, ⟨target :: below :: rest⟩⟩
        (Increment.preWindow ahead).span
        ⟨t.add (.assign (.increment op .pre)) [target], ⟨t.nextId :: rest⟩⟩
  | post {t : Tree} {op : BinaryOp} {copy target : NodeId} {rest : List NodeId}
      (hi : incrementAt? cfg behind i ahead = some ⟨op, .post⟩) :
      Advances cfg container behind i ahead ⟨t, ⟨copy :: target :: rest⟩⟩
        (Increment.postWindow ahead).span
        ⟨t.add (.assign (.increment op .post)) [target], ⟨t.nextId :: rest⟩⟩

section Step

variable {cfg : Settings} {container : NodeId} {behind ahead : List Instruction}
  {i : Instruction} {m m' : Machine} {skip : Nat}

theorem step_quiet (quiet : cfg.verbosity = none) (m : Machine) :
    step cfg container behind i ahead m =
      (match incrementAt? cfg behind i ahead with
      | some inc => increment cfg behind.length inc ahead
      | none => perform cfg container behind.length i >>= fun _ => pure 0) m := by
  unfold step
  refine (bind_quiet (report_quiet quiet ..)).trans ?_
  cases incrementAt? cfg behind i ahead <;> rfl

/-- A quiet machine does what `Advances` says. -/
theorem step_of_advances (quiet : cfg.verbosity = none)
    (h : Advances cfg container behind i ahead m skip m') :
    step cfg container behind i ahead m = ⟨.ok skip, m', []⟩ := by
  rw [step_quiet quiet]
  cases h with
  | performed hi h =>
    rw [hi]
    simp only
    rw [bind_quiet (perform_of_performs quiet _ h)]
    rfl
  | pre hi hw =>
    rw [hi]
    exact increment_pre quiet _ hw
  | prePermuted hi hw =>
    rw [hi]
    exact increment_pre_permuted quiet _ hw
  | post hi =>
    rw [hi]
    exact increment_post quiet _

theorem Advances.wellFormed (h : Advances cfg container behind i ahead m skip m')
    (hm : m.WellFormed container) : m'.WellFormed container := by
  cases h with
  | performed _ h => exact h.wellFormed hm
  | @pre t _ target rest _ _ => exact hm.pushNew [target] rfl (by simp)
  | @prePermuted t _ target below rest _ _ => exact hm.pushNew [target, below] rfl (by simp)
  | @post t _ copy target rest _ => exact hm.pushNew [copy, target] rfl (by simp)

end Step

/-! ## Whole runs -/

/-- Passing over instructions is standing behind them. -/
theorem executeFrom_skip (cfg : Settings) (container : NodeId) :
    ∀ (ahead : List Instruction) (skip : Nat) (behind : List Instruction),
    executeFrom cfg container skip behind ahead =
      executeFrom cfg container 0 ((ahead.take skip).reverse ++ behind) (ahead.drop skip)
  | _, 0, _ => rfl
  | [], skip + 1, _ => rfl
  | i :: ahead, skip + 1, behind => by
    rw [executeFrom, executeFrom_skip cfg container ahead skip (i :: behind), List.take_succ_cons,
      List.drop_succ_cons, List.reverse_cons, List.append_assoc]
    rfl

/-- What remains of a run when the cursor stands at a position. -/
def executeAt (cfg : Settings) (container : NodeId) (code : List Instruction) (cursor : Nat) :
    Action Machine Unit :=
  executeFrom cfg container 0 (code.take cursor).reverse (code.drop cursor)

theorem executeAt_zero (cfg : Settings) (container : NodeId) (code : List Instruction) :
    executeAt cfg container code 0 = execute cfg code container := rfl

theorem executeAt_of_length_le {code : List Instruction} {cursor : Nat}
    (h : code.length ≤ cursor) (cfg : Settings) (container : NodeId) :
    executeAt cfg container code cursor = pure () := by
  unfold executeAt
  rw [List.drop_of_length_le h, executeFrom]

/-- **Inside the code a run is a step and then the run from where the step leads.** -/
theorem executeAt_of_get {code : List Instruction} {cursor : Nat} {i : Instruction}
    (h : code[cursor]? = some i) (cfg : Settings) (container : NodeId) :
    executeAt cfg container code cursor =
      step cfg container (code.take cursor).reverse i (code.drop (cursor + 1)) >>= fun skip =>
        executeAt cfg container code (cursor + 1 + skip) := by
  obtain ⟨hlt, hi⟩ := List.getElem?_eq_some_iff.mp h
  unfold executeAt
  rw [List.drop_eq_getElem_cons hlt, hi, executeFrom]
  congr 1
  funext skip
  have htake : code.take (cursor + 1 + skip) =
      code.take cursor ++ [i] ++ (code.drop (cursor + 1)).take skip := by
    rw [List.take_add, List.take_add_one, h, Option.toList_some]
  rw [executeFrom_skip, List.drop_drop, htake, List.reverse_append, List.reverse_append]
  rfl

end Machine

end GmlLift
