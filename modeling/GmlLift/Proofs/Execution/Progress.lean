import GmlLift.Proofs.Execution.Depth
import GmlLift.Proofs.Lifting.Meets

/-!
# Code advances or finds a fault

On a machine whose ids are in range, and with nothing reported, a step advances in one of the ways
that `Machine.Advances` lists, or it stops with a fault of the function. So what every advance
keeps, a run keeps (`execute_meets`).
-/

namespace GmlLift.Machine

open GmlLift.Action

variable {cfg : Settings} {container : NodeId} {behind ahead : List Instruction} {i : Instruction}
  {m m' : Machine} {skip : Nat}

theorem Advances.extends (h : Advances cfg container behind i ahead m skip m') :
    ∃ statements, m.tree.Extends container m'.tree statements := by
  cases h with
  | performed _ h =>
    obtain ⟨statements, hx, -⟩ := h.extends
    exact ⟨statements, hx⟩
  | pre _ _ | prePermuted _ _ | post _ => exact ⟨[], Tree.extends_add ..⟩

/-- **A step advances or finds a fault.** -/
theorem step_meets (quiet : cfg.verbosity = none) (hm : m.WellFormed container)
    (behind : List Instruction) (i : Instruction) (ahead : List Instruction) :
    (step cfg container behind i ahead).Meets m (Advances cfg container behind i ahead m)
      Halt.IsFault := by
  -- the profile of the step, in code of which this is the middle
  let code := behind.reverse ++ i :: ahead
  let p : Profile := { cursor := behind.length, depth := m.stack.depth }
  have hlen : behind.reverse.length = p.cursor := List.length_reverse
  have hget : code[p.cursor]? = some i := by
    rw [List.getElem?_append_right (Nat.le_of_eq hlen), hlen, Nat.sub_self]
    rfl
  have hbehind : (code.take p.cursor).reverse = behind := by
    rw [List.take_left' hlen, List.reverse_reverse]
  have hahead : code.drop (p.cursor + 1) = ahead := by
    have hcode : code = (behind.reverse ++ [i]) ++ ahead := List.append_cons ..
    rw [hcode, List.drop_left' (by rw [List.length_append, hlen, List.length_singleton])]
  cases hp : p.step cfg code i with
  | ok q =>
    obtain ⟨skip, m', -, hadv, -⟩ := advances_of_profile hget hm rfl hp
    rw [hbehind, hahead] at hadv
    have hstep := step_of_advances quiet hadv
    refine (meets_of_ok (congrArg Outcome.result hstep)).mpr ?_
    rw [hstep]
    exact hadv
  | error e =>
    have hstep : (step cfg container (code.take p.cursor).reverse i (code.drop (p.cursor + 1))
        m).result = .error (.error e) := step_of_profile_error quiet hget rfl hp
    rw [hbehind, hahead] at hstep
    exact (meets_of_error hstep).mpr trivial

/-- **What every advance keeps, a run keeps**, and nothing but a fault stops it. -/
theorem execute_meets (quiet : cfg.verbosity = none) {P : Machine → Prop}
    (hP : ∀ {behind i ahead m skip m'}, Advances cfg container behind i ahead m skip m' →
      m.WellFormed container → P m → P m')
    (code : List Instruction) (hm : m.WellFormed container) (h : P m) :
    (execute cfg code container).Meets m (fun _ m' => m'.WellFormed container ∧ P m')
      Halt.IsFault := by
  have hrest : ∀ (ahead : List Instruction) (skip : Nat) (behind : List Instruction) (m : Machine),
      m.WellFormed container → P m →
      (executeFrom cfg container skip behind ahead).Meets m
        (fun _ m' => m'.WellFormed container ∧ P m') Halt.IsFault := by
    intro ahead
    induction ahead with
    | nil =>
      intro skip behind m hm h
      rw [executeFrom]
      exact meets_pure ⟨hm, h⟩
    | cons i ahead ih =>
      intro skip behind m hm h
      cases skip with
      | succ skip => exact ih skip (i :: behind) m hm h
      | zero =>
        rw [executeFrom]
        refine .bind ((step_meets quiet hm behind i ahead).imp fun skip m' hadv => ?_)
        exact ih skip (i :: behind) m' (hadv.wellFormed hm) (hP hadv hm h)
  exact hrest code 0 [] m hm h

end GmlLift.Machine
