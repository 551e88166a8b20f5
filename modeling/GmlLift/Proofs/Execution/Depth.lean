import GmlLift.Proofs.Execution.Cursor

/-!
# The stack tables describe execution completely

A `Profile` is what is known of a run without any expression: where the cursor stands, how deep the
stack is and how many statements have been made. `Profile.run` computes it from the instructions
and the version alone, with the tables `Instruction.pops` and `Instruction.delta`, the complaint
`Instruction.rejection?` and the ends of the increment windows.

Result: `execute_eq_profile`. On a machine whose ids are in range, a run ends as its profile does:
with the same error at the same position, or without one, and then with the same depth and the same
number of statements.
-/

namespace GmlLift

/-- What is known of a run without its expressions. -/
structure Profile where
  cursor : Nat := 0
  depth : Nat
  statements : Nat := 0
  deriving DecidableEq, Repr

namespace Profile

/-- An increment window needs the variable, if it is postfix the copy above it, and if it rearranges
the stack the item below it. All but one of them are gone when the window ends. -/
def window (code : List Instruction) (inc : Increment) (p : Profile) : Except LiftError Profile :=
  match inc.side, Increment.prePermutedAt code p.cursor with
  | .pre, false =>
    if 1 ≤ p.depth then .ok { p with cursor := Increment.preEndAt code p.cursor }
    else .error (.underflow p.cursor)
  | .pre, true =>
    if 2 ≤ p.depth then
      .ok { p with cursor := Increment.preEndAt code p.cursor, depth := p.depth - 1 }
    else .error (.underflow p.cursor)
  | .post, _ =>
    if 2 ≤ p.depth then
      .ok { p with cursor := Increment.postEndAt code p.cursor, depth := p.depth - 1 }
    else .error (.underflow p.cursor)

/-- Any other instruction is refused, finds the stack too short, or changes the depth as the tables
say. -/
def instruction (i : Instruction) (p : Profile) : Except LiftError Profile :=
  match i.rejection? p.cursor with
  | some e => .error e
  | none =>
    if i.Ready p.depth then
      .ok { cursor := p.cursor + 1, depth := i.depthAfter p.depth,
            statements := p.statements + i.statements p.depth }
    else .error (.underflow p.cursor)

def step (cfg : Settings) (code : List Instruction) (i : Instruction) (p : Profile) :
    Except LiftError Profile :=
  match if i.opcode.isPush then Increment.findAt? cfg code p.cursor else none with
  | some inc => window code inc p
  | none => instruction i p

theorem cursor_lt_of_step {cfg : Settings} {code : List Instruction} {i : Instruction}
    {p q : Profile} (hlt : p.cursor < code.length) (h : step cfg code i p = .ok q) :
    p.cursor < q.cursor := by
  unfold step at h
  split at h
  · unfold window at h
    split at h <;> split at h <;> cases h
    · exact Increment.lt_preEndAt hlt
    · exact Increment.lt_preEndAt hlt
    · exact Increment.lt_postEndAt hlt
  · unfold instruction at h
    split at h
    · cases h
    · split at h <;> cases h
      exact Nat.lt_succ_self _

/-- The profile at the end of the code. -/
def run (cfg : Settings) (code : List Instruction) (p : Profile) : Except LiftError Profile :=
  if hlt : p.cursor < code.length then
    match _hs : step cfg code code[p.cursor] p with
    | .error e => .error e
    | .ok q => run cfg code q
  else .ok p
termination_by code.length - p.cursor
decreasing_by
  have := cursor_lt_of_step hlt _hs
  omega

theorem run_of_error {cfg : Settings} {code : List Instruction} {i : Instruction} {p : Profile}
    {e : LiftError} (hget : code[p.cursor]? = some i) (hs : step cfg code i p = .error e) :
    run cfg code p = .error e := by
  obtain ⟨hlt, rfl⟩ := List.getElem?_eq_some_iff.mp hget
  rw [run, dif_pos hlt, hs]

theorem run_of_step {cfg : Settings} {code : List Instruction} {i : Instruction} {p q : Profile}
    (hget : code[p.cursor]? = some i) (hs : step cfg code i p = .ok q) :
    run cfg code p = run cfg code q := by
  obtain ⟨hlt, rfl⟩ := List.getElem?_eq_some_iff.mp hget
  rw [run, dif_pos hlt, hs]

theorem run_of_length_le {cfg : Settings} {code : List Instruction} {p : Profile}
    (hge : code.length ≤ p.cursor) : run cfg code p = .ok p := by
  rw [run, dif_neg (Nat.not_lt_of_le hge)]

end Profile

namespace Machine

open GmlLift.Action

/-! ## One step -/

section Step

variable {cfg : Settings} {container : NodeId} {code : List Instruction} {i : Instruction}
  {p q : Profile} {m : Machine}

theorem step_result_of_perform {behind ahead : List Instruction} {e : Halt}
    (quiet : cfg.verbosity = none) (hi : incrementAt? cfg behind i ahead = none)
    (h : (perform cfg container behind.length i m).result = .error e) :
    (step cfg container behind i ahead m).result = .error e := by
  rw [step_quiet quiet, hi]
  exact result_bind_error h

/-- A window on a stack that is too short for it. -/
theorem increment_short {ahead : List Instruction} {inc : Increment} (t : Tree)
    {items : List NodeId} (position : Nat)
    (h : items.length < 1 ∨ (items.length < 2 ∧
      (inc.side = .post ∨ (Increment.preWindow ahead).permuted = true))) :
    (increment cfg position inc ahead ⟨t, ⟨items⟩⟩).result =
      .error (.error (.underflow position)) := by
  obtain ⟨op, side⟩ := inc
  unfold increment
  match items, h with
  | [], _ => cases side <;> rfl
  | [target], h =>
    cases side with
    | post => rfl
    | pre =>
      have hw : (Increment.preWindow ahead).permuted = true := by simpa using h
      simp only
      rw [bind_quiet (pop_cons ..), bind_quiet (make_apply ..), bind_quiet (push_apply ..)]
      simp only [hw, if_true]
      rfl
  | _ :: _ :: _, h =>
    simp only [List.length_cons] at h
    omega

/-- Where a window of the profile goes on, the machine does. -/
theorem advances_of_window {t : Tree} {items : List NodeId} {inc : Increment}
    (hlt : p.cursor < code.length) (hd : items.length = p.depth)
    (hinc : incrementAt? cfg (code.take p.cursor).reverse i (code.drop (p.cursor + 1)) = some inc)
    (h : p.window code inc = .ok q) :
    ∃ skip m' new, Advances cfg container (code.take p.cursor).reverse i
        (code.drop (p.cursor + 1)) ⟨t, ⟨items⟩⟩ skip m' ∧ q.cursor = p.cursor + 1 + skip ∧
      m'.stack.depth = q.depth ∧ t.Extends container m'.tree new ∧
      p.statements + new.length = q.statements := by
  obtain ⟨op, side⟩ := inc
  unfold Profile.window at h
  split at h
  · rename_i hs hw
    cases hs
    split at h
    · rename_i hdeep
      cases h
      obtain ⟨target, rest, rfl⟩ := List.exists_cons_of_length_pos (by omega : 0 < items.length)
      exact ⟨_, _, [], .pre hinc hw, Increment.preEndAt_eq hlt, hd, Tree.extends_add .., rfl⟩
    · cases h
  · rename_i hs hw
    cases hs
    split at h
    · rename_i hdeep
      cases h
      match items, hd with
      | target :: below :: rest, hd =>
        refine ⟨_, _, [], .prePermuted hinc hw, Increment.preEndAt_eq hlt, ?_,
          Tree.extends_add .., rfl⟩
        simp only [OperandStack.depth, List.length_cons] at hd ⊢
        omega
      | [], hd => exact absurd hd (by simp only [List.length_nil]; omega)
      | [_], hd => exact absurd hd (by simp only [List.length_cons, List.length_nil]; omega)
    · cases h
  · rename_i hs
    cases hs
    split at h
    · rename_i hdeep
      cases h
      match items, hd with
      | copy :: target :: rest, hd =>
        refine ⟨_, _, [], .post hinc, Increment.postEndAt_eq hlt, ?_, Tree.extends_add .., rfl⟩
        simp only [OperandStack.depth, List.length_cons] at hd ⊢
        omega
      | [], hd => exact absurd hd (by simp only [List.length_nil]; omega)
      | [_], hd => exact absurd hd (by simp only [List.length_cons, List.length_nil]; omega)
    · cases h

/-- Where the profile goes on, the machine does. -/
theorem advances_of_profile (hget : code[p.cursor]? = some i) (hm : m.WellFormed container)
    (hd : m.stack.depth = p.depth) (h : p.step cfg code i = .ok q) :
    ∃ skip m' new, Advances cfg container (code.take p.cursor).reverse i
        (code.drop (p.cursor + 1)) m skip m' ∧ q.cursor = p.cursor + 1 + skip ∧
      m'.stack.depth = q.depth ∧ m.tree.Extends container m'.tree new ∧
      p.statements + new.length = q.statements := by
  obtain ⟨t, ⟨items⟩⟩ := m
  have hd : items.length = p.depth := hd
  unfold Profile.step at h
  rw [← incrementAt?_of_get cfg hget] at h
  cases hinc : incrementAt? cfg (code.take p.cursor).reverse i (code.drop (p.cursor + 1)) with
  | none =>
    rw [hinc] at h
    simp only [Profile.instruction] at h
    split at h
    · cases h
    · rename_i hr
      split at h
      · rename_i hready
        cases h
        rw [← hd] at hready
        obtain ⟨m', hp⟩ := performs_of_ready cfg hm hr hready
        obtain ⟨new, hx, hn⟩ := hp.extends
        refine ⟨0, m', new, .performed hinc hp, rfl, ?_, hx, ?_⟩
        · rw [hp.depth, ← hd]
          rfl
        · rw [hn, ← hd]
          rfl
      · cases h
  | some inc =>
    rw [hinc] at h
    exact advances_of_window (List.getElem?_eq_some_iff.mp hget).1 hd hinc h

/-- Where the profile stops, the machine stops with the same error. -/
theorem step_of_profile_error (quiet : cfg.verbosity = none) (hget : code[p.cursor]? = some i)
    (hd : m.stack.depth = p.depth) {e : LiftError} (h : p.step cfg code i = .error e) :
    (step cfg container (code.take p.cursor).reverse i (code.drop (p.cursor + 1)) m).result =
      .error (.error e) := by
  obtain ⟨t, ⟨items⟩⟩ := m
  have hd : items.length = p.depth := hd
  have hpos : (code.take p.cursor).reverse.length = p.cursor := by
    rw [List.length_reverse, List.length_take_of_le]
    exact Nat.le_of_lt (List.getElem?_eq_some_iff.mp hget).1
  unfold Profile.step at h
  rw [← incrementAt?_of_get cfg hget] at h
  cases hinc : incrementAt? cfg (code.take p.cursor).reverse i (code.drop (p.cursor + 1)) with
  | none =>
    rw [hinc] at h
    simp only [Profile.instruction] at h
    apply step_result_of_perform quiet hinc
    rw [hpos]
    split at h
    · rename_i hr
      cases h
      exact perform_of_rejection hr cfg container _
    · rename_i hr
      split at h
      · cases h
      · rename_i hshort
        cases h
        rw [← hd] at hshort
        exact perform_of_short quiet hr container t hshort
  | some inc =>
    rw [hinc] at h
    rw [step_quiet quiet, hinc, hpos]
    simp only [Profile.window] at h
    split at h <;> split at h <;> cases h
    · exact increment_short t _ (Or.inl (by omega))
    · rename_i hw _
      exact increment_short t _ (Or.inr ⟨by omega, Or.inr hw⟩)
    · rename_i hs _
      exact increment_short t _ (Or.inr ⟨by omega, Or.inl hs⟩)

end Step

/-! ## Whole runs -/

/-- From every position on, a run ends as its profile does. -/
theorem executeAt_eq_profile (cfg : Settings) (quiet : cfg.verbosity = none)
    (code : List Instruction) {container : NodeId} (p : Profile) :
    ∀ m : Machine, m.WellFormed container → m.stack.depth = p.depth →
    match p.run cfg code with
    | .error e => (executeAt cfg container code p.cursor m).result = .error (.error e)
    | .ok q => ∃ m' new, executeAt cfg container code p.cursor m = ⟨.ok (), m', []⟩ ∧
        m'.stack.depth = q.depth ∧ m.tree.Extends container m'.tree new ∧
        p.statements + new.length = q.statements := by
  -- the cursor of the profile is the measure
  induction p using Profile.run.induct cfg code with
  | case1 p hlt e hs =>
    intro m _ hd
    have hget : code[p.cursor]? = some code[p.cursor] := List.getElem?_eq_getElem hlt
    rw [Profile.run_of_error hget hs, executeAt_of_get hget]
    exact result_bind_error (step_of_profile_error quiet hget hd hs)
  | case2 p hlt q hs ih =>
    intro m hm hd
    have hget : code[p.cursor]? = some code[p.cursor] := List.getElem?_eq_getElem hlt
    obtain ⟨skip, m₁, new₁, hadv, hcursor, hd₁, hx₁, hn₁⟩ := advances_of_profile hget hm hd hs
    have ih := ih m₁ (hadv.wellFormed hm) hd₁
    rw [Profile.run_of_step hget hs, executeAt_of_get hget,
      bind_quiet (step_of_advances quiet hadv), ← hcursor]
    cases hrun : q.run cfg code with
    | error e =>
      rw [hrun] at ih
      exact ih
    | ok r =>
      rw [hrun] at ih
      obtain ⟨m', new, hexec, hd', hx, hn⟩ := ih
      refine ⟨m', new₁ ++ new, hexec, hd', hx₁.trans hx, ?_⟩
      rw [List.length_append]
      omega
  | case3 p hge =>
    intro m _ hd
    rw [Profile.run_of_length_le (Nat.le_of_not_lt hge)]
    refine ⟨m, [], ?_, hd, .refl .., rfl⟩
    rw [executeAt_of_length_le (Nat.le_of_not_lt hge)]
    rfl

/-- **A run ends as its profile does.** It stops with the error of the profile, or it reaches the
end of the code with the depth of the profile and with as many new statements in the container. -/
theorem execute_eq_profile (version : Version) (code : List Instruction) {container : NodeId}
    {m : Machine} (hm : m.WellFormed container) :
    (execute { version } code container m).result =
        (match Profile.run { version } code { depth := m.stack.depth } with
        | .error e => .error (.error e)
        | .ok _ => .ok ()) ∧
      ∀ p, Profile.run { version } code { depth := m.stack.depth } = .ok p →
        (execute { version } code container m).state.stack.depth = p.depth ∧
        ∃ old new, m.tree.children? container = some old ∧
          (execute { version } code container m).state.tree.children? container =
            some (old ++ new) ∧
          new.length = p.statements := by
  have h := executeAt_eq_profile { version } rfl code { depth := m.stack.depth } m hm rfl
  rw [executeAt_zero] at h
  cases hrun : Profile.run { version } code { depth := m.stack.depth } with
  | error e =>
    rw [hrun] at h
    exact ⟨h, fun p hp => by cases hp⟩
  | ok p =>
    rw [hrun] at h
    obtain ⟨m', new, hexec, hd, hx, hn⟩ := h
    rw [hexec]
    refine ⟨rfl, fun q hq => ?_⟩
    cases hq
    obtain ⟨n, hn'⟩ := Tree.get?_of_holds hm.container
    have hold : m.tree.children? container = some n.children := by
      rw [Tree.children?, hn', Option.map_some]
    refine ⟨hd, n.children, new, hold, hx.children?_container hold, ?_⟩
    rw [← hn]
    exact (Nat.zero_add _).symm

/-- A postfix increment whose value is discarded, and then a return that finds the stack empty. -/
theorem execute_eq_profile_postfix :
    let x : VariableRef := ⟨7, .normal⟩
    let statement : List Instruction :=
      [{ opcode := .push, type1 := .variant, reference := some x, owner := .self },
        { opcode := .dup, type1 := .variant },
        { opcode := .push, type1 := .int16, literal := some (.int16 1) },
        { opcode := .add },
        { opcode := .pop, type1 := .variant, reference := some x, owner := .self },
        { opcode := .popz }]
    let ret : Instruction := { opcode := .ret }
    (execute { version := ⟨2, 3, 0, 0⟩ } statement Tree.root {}).result = .ok () ∧
      (execute { version := ⟨2, 3, 0, 0⟩ } statement Tree.root {}).state.stack.depth = 0 ∧
      (execute { version := ⟨2, 3, 0, 0⟩ } (statement ++ [ret]) Tree.root {}).result =
        .error (.error (.underflow 6)) := by
  intro x statement ret
  have hok : Profile.run { version := ⟨2, 3, 0, 0⟩ } statement
      { depth := ({} : Machine).stack.depth } = .ok ⟨6, 0, 1⟩ := by
    rw [Profile.run_of_step rfl rfl, Profile.run_of_step rfl rfl, Profile.run_of_step rfl rfl,
      Profile.run_of_step rfl rfl]
    exact Profile.run_of_length_le (Nat.le_refl 6)
  have hbad : Profile.run { version := ⟨2, 3, 0, 0⟩ } (statement ++ [ret])
      { depth := ({} : Machine).stack.depth } = .error (.underflow 6) := by
    rw [Profile.run_of_step rfl rfl, Profile.run_of_step rfl rfl, Profile.run_of_step rfl rfl,
      Profile.run_of_step rfl rfl]
    exact Profile.run_of_error rfl rfl
  have h := execute_eq_profile ⟨2, 3, 0, 0⟩ statement wellFormed_new
  have h' := execute_eq_profile ⟨2, 3, 0, 0⟩ (statement ++ [ret]) wellFormed_new
  rw [hok] at h
  rw [hbad] at h'
  exact ⟨h.1, (h.2 _ rfl).1, h'.1⟩

end Machine

end GmlLift
