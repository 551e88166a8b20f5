import GmlLift.Proofs.Execution.Cursor
import GmlLift.Proofs.Execution.Echo
import GmlLift.Proofs.Lifting.Meets
import Mathlib.Control.Monad.Basic

/-!
# Splitting a block

A run looks around the cursor only for increment windows: at most two instructions back, and ahead
no further than the window reaches. So a block may be cut at any position that the cursor comes to,
as long as no postfix window reaches back over the cut.

* `Arrives`: the cursor comes to a position, with the machine as it is then.
* `Arrives.take`: what comes after that position does not matter for the way there.
* `echoes_executeFrom`: what comes before a position does not matter from there on.

Result: `execute_split`.
-/

namespace GmlLift

/-! ## Windows in a shorter list -/

namespace Increment

theorem writeBack_take (stored : Bool) (code : List Instruction) (n : Nat) :
    writeBack stored (code.take n) = min (writeBack stored code) n := by
  induction code generalizing stored n with
  | nil => simp [writeBack]
  | cons i rest ih =>
    cases n with
    | zero => simp [writeBack]
    | succ n =>
      rw [List.take_succ_cons, writeBack, writeBack, ih, ih]
      split
      · omega
      · split <;> omega

/-- A postfix window within the first instructions is a window of them alone. -/
theorem postWindow_take {ahead : List Instruction} {n : Nat} (h : (postWindow ahead).span ≤ n) :
    postWindow (ahead.take n) = postWindow ahead := by
  cases ahead with
  | nil => rw [List.take_nil]
  | cons next rest =>
    have hspan : writeBack false rest + 1 ≤ n := h
    obtain ⟨n, rfl⟩ : ∃ k, n = k + 1 := ⟨n - 1, by omega⟩
    rw [List.take_succ_cons, postWindow, postWindow, writeBack_take,
      Nat.min_eq_left (Nat.le_of_succ_le_succ hspan)]

/-- A prefix window within the first instructions is a window of them alone. -/
theorem preWindow_take {ahead : List Instruction} {n : Nat} (h : (preWindow ahead).span ≤ n) :
    preWindow (ahead.take n) = preWindow ahead := by
  induction ahead generalizing n with
  | nil => rw [List.take_nil]
  | cons i rest ih =>
    rw [preWindow] at h
    by_cases hpop : i.opcode = .pop
    · rw [if_pos hpop] at h
      by_cases hperm : i.isInt16Pop = true
      · rw [if_pos hperm] at h
        obtain ⟨n, rfl⟩ : ∃ k, n = k + 1 := ⟨n - 1, by simp only at h; omega⟩
        rw [List.take_succ_cons, preWindow, preWindow, if_pos hpop, if_pos hperm, if_pos hpop,
          if_pos hperm, List.length_take]
        simp only at h
        congr 2
        omega
      · rw [if_neg hperm] at h
        obtain ⟨n, rfl⟩ : ∃ k, n = k + 1 := ⟨n - 1, by simp only at h; omega⟩
        rw [List.take_succ_cons, preWindow, preWindow, if_pos hpop, if_neg hperm, if_pos hpop,
          if_neg hperm]
    · rw [if_neg hpop] at h
      obtain ⟨n, rfl⟩ : ∃ k, n = k + 1 := ⟨n - 1, by simp only at h; omega⟩
      rw [List.take_succ_cons, preWindow, preWindow, if_neg hpop, if_neg hpop,
        ih (Nat.le_of_succ_le_succ h)]

/-- The number of instructions ahead that an increment covers. -/
def span (inc : Increment) (ahead : List Instruction) : Nat :=
  match inc.side with
  | .pre => (preWindow ahead).span
  | .post => (postWindow ahead).span

theorem span_le_length (inc : Increment) (ahead : List Instruction) :
    inc.span ahead ≤ ahead.length := by
  unfold span
  cases inc.side with
  | pre => exact preWindow_span_le_length ahead
  | post => exact postWindow_span_le_length ahead

/-- A postfix increment covers at least the addition. -/
theorem lt_span_of_findPost? {cfg : Settings} {behind ahead : List Instruction} {inc : Increment}
    (h : findPost? cfg behind ahead = some inc) : 0 < inc.span ahead := by
  unfold findPost? at h
  split at h
  · split at h
    · obtain ⟨op, -, rfl⟩ := Option.map_eq_some_iff.mp h
      exact Nat.succ_pos _
    · cases h
  · cases h

/-- A prefix increment covers at least the addition and the copy. -/
theorem lt_span_of_findPre? {ahead : List Instruction} {inc : Increment}
    (h : findPre? ahead = some inc) : 1 < inc.span ahead := by
  unfold findPre? at h
  split at h
  · rename_i next copy rest
    split at h
    · rename_i hcopy
      obtain ⟨op, hop, rfl⟩ := Option.map_eq_some_iff.mp h
      have hnext : next.opcode ≠ .pop := by
        intro hpop
        unfold stepOp? at hop
        rw [hpop] at hop
        cases hop
      have hdup : copy.opcode ≠ .pop := by
        intro hpop
        unfold Instruction.isVariantDup at hcopy
        rw [hpop] at hcopy
        cases hcopy
      simp only [span, preWindow, if_neg hnext, if_neg hdup]
      omega
    · cases h
  · cases h

theorem findPost?_nil (cfg : Settings) (behind : List Instruction) :
    findPost? cfg behind [] = none := by
  unfold findPost?
  split
  · contradiction
  · rfl

theorem findPre?_of_short {ahead : List Instruction} (h : ahead.length < 2) :
    findPre? ahead = none := by
  unfold findPre?
  split
  · rw [List.length_cons, List.length_cons] at h
    omega
  · rfl

theorem findPost?_take (cfg : Settings) (behind : List Instruction) {ahead : List Instruction}
    {n : Nat} (h : ∀ inc, findPost? cfg behind ahead = some inc → inc.span ahead ≤ n) :
    findPost? cfg behind (ahead.take n) = findPost? cfg behind ahead := by
  cases n with
  | zero =>
    rw [List.take_zero, findPost?_nil]
    cases hpost : findPost? cfg behind ahead with
    | none => rfl
    | some inc => exact absurd (lt_span_of_findPost? hpost) (Nat.not_lt.mpr (h inc hpost))
  | succ n =>
    match behind, ahead with
    | _, [] => rfl
    | [], next :: rest => rfl
    | [_], next :: rest => rfl
    | last :: beforeLast :: _, next :: rest => rfl

theorem findPre?_take {ahead : List Instruction} {n : Nat}
    (h : ∀ inc, findPre? ahead = some inc → inc.span ahead ≤ n) :
    findPre? (ahead.take n) = findPre? ahead := by
  by_cases hn : n < 2
  · rw [findPre?_of_short (by rw [List.length_take]; omega)]
    cases hpre : findPre? ahead with
    | none => rfl
    | some inc =>
      have hspan := lt_span_of_findPre? hpre
      have hle := h inc hpre
      omega
  · obtain ⟨n, rfl⟩ : ∃ k, n = k + 2 := ⟨n - 2, by omega⟩
    match ahead with
    | [] => rfl
    | [_] => rfl
    | next :: copy :: rest => rfl

/-- An increment within the first instructions is an increment of them alone. -/
theorem find?_take (cfg : Settings) (behind : List Instruction) (i : Instruction)
    {ahead : List Instruction} {n : Nat}
    (h : ∀ inc, find? cfg behind i ahead = some inc → inc.span ahead ≤ n) :
    find? cfg behind i (ahead.take n) = find? cfg behind i ahead := by
  unfold find? at h ⊢
  by_cases hone : isOne i = true
  · simp only [if_pos hone] at h ⊢
    cases hpost : findPost? cfg behind ahead with
    | none =>
      rw [hpost] at h
      rw [findPost?_take cfg behind (by rw [hpost]; nofun), hpost, findPre?_take h]
    | some inc =>
      rw [hpost] at h
      rw [findPost?_take cfg behind fun inc' hinc => h inc' (hpost.symm.trans hinc), hpost]
      rfl
  · rw [if_neg hone, if_neg hone]

/-- The postfix form sees two instructions back. -/
theorem findPost?_append (cfg : Settings) {behind : List Instruction} (h : 2 ≤ behind.length)
    (before ahead : List Instruction) :
    findPost? cfg (behind ++ before) ahead = findPost? cfg behind ahead := by
  match behind, h with
  | last :: beforeLast :: rest, _ => cases ahead <;> rfl

theorem findPost?_of_short (cfg : Settings) {behind : List Instruction} (h : behind.length < 2)
    (ahead : List Instruction) : findPost? cfg behind ahead = none := by
  unfold findPost?
  split
  · rw [List.length_cons, List.length_cons] at h
    omega
  · rfl

theorem side_of_findPost? {cfg : Settings} {behind ahead : List Instruction} {inc : Increment}
    (h : findPost? cfg behind ahead = some inc) : inc.side = .post := by
  unfold findPost? at h
  split at h
  · split at h
    · obtain ⟨op, -, rfl⟩ := Option.map_eq_some_iff.mp h
      rfl
    · cases h
  · cases h

/-- The prefix form sees nothing back. -/
theorem find?_append (cfg : Settings) {behind before ahead : List Instruction} {i : Instruction}
    (h : 2 ≤ behind.length ∨
      ∀ op, find? cfg (behind ++ before) i ahead ≠ some ⟨op, .post⟩) :
    find? cfg (behind ++ before) i ahead = find? cfg behind i ahead := by
  unfold find? at h ⊢
  by_cases hone : isOne i = true
  · simp only [if_pos hone] at h ⊢
    by_cases hlen : 2 ≤ behind.length
    · rw [findPost?_append cfg hlen]
    · cases hpost : findPost? cfg (behind ++ before) ahead with
      | none => rw [findPost?_of_short cfg (by omega)]
      | some inc =>
        have hside := side_of_findPost? hpost
        refine absurd ?_ (h.resolve_left hlen inc.op)
        rw [hpost, ← hside]
        rfl
  · rw [if_neg hone, if_neg hone]

end Increment

namespace Machine

open GmlLift.Action Increment

variable {cfg : Settings} {container : NodeId} {behind before ahead : List Instruction}
  {i : Instruction} {m m' : Machine} {skip k : Nat}

/-! ## What comes after -/

/-- An increment passes over its window. -/
theorem increment_answers (cfg : Settings) (position : Nat) (inc : Increment)
    (ahead : List Instruction) (m : Machine) :
    (increment cfg position inc ahead).Meets m (fun skip _ => skip = inc.span ahead)
      fun _ => True := by
  unfold increment Increment.span
  cases inc.side with
  | pre =>
    refine .bind_any fun _ _ => .bind_any fun _ _ => .bind_any fun _ _ => ?_
    by_cases hw : (preWindow ahead).permuted = true
    · rw [if_pos hw]
      exact .bind_any fun _ _ => .bind_any fun _ _ => meets_pure rfl
    · rw [if_neg hw]
      exact .bind_any fun _ _ => meets_pure rfl
  | post =>
    exact .bind_any fun _ _ => .bind_any fun _ _ => .bind_any fun _ _ => .bind_any fun _ _ =>
      .bind_any fun _ _ => meets_pure rfl

/-- A step passes over the window of its increment, and over nothing without one. -/
theorem skip_of_step (h : (step cfg container behind i ahead m).result = .ok skip) :
    skip = ((incrementAt? cfg behind i ahead).map (·.span ahead)).getD 0 := by
  have hmeets : (step cfg container behind i ahead).Meets m
      (fun skip _ => skip = ((incrementAt? cfg behind i ahead).map (·.span ahead)).getD 0)
      fun _ => True := by
    refine .bind_any fun _ _ => ?_
    cases incrementAt? cfg behind i ahead with
    | none => exact .bind_any fun _ _ => meets_pure rfl
    | some inc => exact increment_answers cfg behind.length inc ahead _
  exact (meets_of_ok h).mp hmeets

theorem increment_take (cfg : Settings) (position : Nat) {inc : Increment} {n : Nat}
    (h : inc.span ahead ≤ n) :
    increment cfg position inc (ahead.take n) = increment cfg position inc ahead := by
  unfold increment
  unfold Increment.span at h
  cases hside : inc.side with
  | pre =>
    rw [hside] at h
    simp only [preWindow_take h]
  | post =>
    rw [hside] at h
    simp only [postWindow_take h]

/-- **A step does the same without the instructions that it leaves over.** -/
theorem step_take {n : Nat} (h : (step cfg container behind i ahead m).result = .ok skip)
    (hn : skip ≤ n) :
    step cfg container behind i (ahead.take n) m = step cfg container behind i ahead m := by
  have hskip := skip_of_step h
  have hspan : ∀ inc, incrementAt? cfg behind i ahead = some inc → inc.span ahead ≤ n := by
    intro inc hinc
    have hall : skip = inc.span ahead := by
      rw [hinc] at hskip
      exact hskip
    exact hall ▸ hn
  have hinc : incrementAt? cfg behind i (ahead.take n) = incrementAt? cfg behind i ahead := by
    unfold incrementAt? at hspan ⊢
    by_cases hpush : i.opcode.isPush = true
    · simp only [if_pos hpush] at hspan ⊢
      exact find?_take cfg behind i hspan
    · rw [if_neg hpush, if_neg hpush]
  unfold step
  rw [hinc]
  cases hfound : incrementAt? cfg behind i ahead with
  | none => rfl
  | some inc =>
    simp only
    rw [increment_take cfg behind.length (hspan inc hfound)]

/-- **The cursor of a run comes to a position**, with the machine as it is then. -/
inductive Arrives (cfg : Settings) (container : NodeId) (code : List Instruction) (m : Machine) :
    Nat → Machine → Prop
  | start : Arrives cfg container code m 0 m
  | step {cursor skip : Nat} {m' : Machine} {i : Instruction}
      (way : Arrives cfg container code m cursor m') (hi : code[cursor]? = some i)
      (hok : (step cfg container (code.take cursor).reverse i (code.drop (cursor + 1)) m').result =
        .ok skip) :
      Arrives cfg container code m (cursor + 1 + skip)
        (step cfg container (code.take cursor).reverse i (code.drop (cursor + 1)) m').state

variable {code : List Instruction}

theorem Arrives.le_length (h : Arrives cfg container code m k m') : k ≤ code.length := by
  induction h with
  | start => exact Nat.zero_le _
  | @step cursor skip m' i way hi hok ih =>
    obtain ⟨hlt, -⟩ := List.getElem?_eq_some_iff.mp hi
    have hskip : skip ≤ (code.drop (cursor + 1)).length := by
      rw [skip_of_step hok]
      cases incrementAt? cfg (code.take cursor).reverse i (code.drop (cursor + 1)) with
      | none => exact Nat.zero_le _
      | some inc => exact inc.span_le_length _
    rw [List.length_drop] at hskip
    omega

/-- The whole run goes on from there. -/
theorem Arrives.execute_eq (h : Arrives cfg container code m k m') :
    (execute cfg code container m).state = (executeAt cfg container code k m').state ∧
      (execute cfg code container m).result = (executeAt cfg container code k m').result := by
  induction h with
  | start =>
    rw [executeAt_zero]
    exact ⟨rfl, rfl⟩
  | step way hi hok ih =>
    rw [executeAt_of_get hi, bind_of_ok hok] at ih
    exact ih

/-- **The way to a position does not depend on what comes after it.** -/
theorem Arrives.take (h : Arrives cfg container code m k m') :
    ∀ n, k ≤ n → Arrives cfg container (code.take n) m k m' := by
  induction h with
  | start => exact fun _ _ => .start
  | @step cursor skip m' i way hi hok ih =>
    intro n hn
    have hbehind : (code.take n).take cursor = code.take cursor := by
      rw [List.take_take, Nat.min_eq_left (by omega)]
    have hahead : (code.take n).drop (cursor + 1) =
        (code.drop (cursor + 1)).take (n - (cursor + 1)) := List.drop_take ..
    have hi' : (code.take n)[cursor]? = some i := by
      rw [List.getElem?_take_of_lt (by omega), hi]
    have hstep : GmlLift.Machine.step cfg container ((code.take n).take cursor).reverse i
          ((code.take n).drop (cursor + 1)) m' =
        GmlLift.Machine.step cfg container (code.take cursor).reverse i
          (code.drop (cursor + 1)) m' := by
      rw [hbehind, hahead, step_take hok (by omega)]
    have hway := ih n (by omega)
    have hnext := hway.step hi' (by rw [hstep]; exact hok)
    rw [hstep] at hnext
    exact hnext

/-! ## What comes before -/

/-- **A run does not depend on what comes before**, if no postfix window reaches back there. -/
theorem echoes_executeFrom (cfg : Settings) (container : NodeId) (before : List Instruction) :
    ∀ (ahead : List Instruction) (skip : Nat) (behind : List Instruction),
    (∀ j i, ahead[j]? = some i → behind.length + j < 2 → ∀ op,
      incrementAt? cfg ((ahead.take j).reverse ++ (behind ++ before)) i (ahead.drop (j + 1)) ≠
        some ⟨op, .post⟩) →
    Echoes cfg cfg before.length (executeFrom cfg container skip behind ahead)
      (executeFrom cfg container skip (behind ++ before) ahead)
  | [], _, _, _ => .pure ()
  | i :: ahead, skip, behind, hpost => by
    have htail : ∀ skip, Echoes cfg cfg before.length
        (executeFrom cfg container skip (i :: behind) ahead)
        (executeFrom cfg container skip (i :: behind ++ before) ahead) := by
      refine fun skip => echoes_executeFrom cfg container before ahead skip (i :: behind) ?_
      intro j i' hi' hj op
      have h := hpost (j + 1) i' hi' (by rw [List.length_cons] at hj; omega) op
      rwa [List.take_succ_cons, List.reverse_cons, List.append_assoc] at h
    cases skip with
    | succ skip => exact htail skip
    | zero =>
      refine (echoes_step (.refl cfg) container List.length_append ?_).bind htail
      unfold incrementAt? at hpost ⊢
      by_cases hpush : i.opcode.isPush = true
      · rw [if_pos hpush, if_pos hpush]
        refine find?_append cfg ?_
        by_cases hlen : 2 ≤ behind.length
        · exact Or.inl hlen
        · have h := hpost 0 i rfl (by omega)
          rw [if_pos hpush] at h
          exact Or.inr h
      · rw [if_neg hpush, if_neg hpush]

/-- The same settings make the same reports. -/
theorem Echoes.eq_shift {distance : Nat} {α : Type} {x y : Action Machine α}
    (h : Echoes cfg cfg distance x y) (m : Machine) :
    (y m).state = (x m).state ∧ (y m).result = (x m).result.mapError (Halt.shift distance) := by
  rcases h.same m with hsame | ⟨_, _, hne, _⟩
  · exact hsame
  · exact absurd rfl hne

/-! ## Both parts -/

/-- **A block may be split where no postfix increment reaches over the cut.** -/
theorem execute_split (way : Arrives cfg container code m k m')
    (hcut : ∀ j i, j = k ∨ j = k + 1 → code[j]? = some i → i.opcode.isPush = true →
      ∀ op, Increment.findAt? cfg code j ≠ some ⟨op, .post⟩) :
    let first := execute cfg (code.take k) container m
    let second := execute cfg (code.drop k) container first.state
    first.result = .ok () ∧ first.state = m' ∧
      (execute cfg code container m).state = second.state ∧
      (execute cfg code container m).result = second.result.mapError (Halt.shift k) := by
  have hfirst := (way.take k (Nat.le_refl k)).execute_eq
  rw [executeAt_of_length_le (List.length_take_le k code)] at hfirst
  have hlen : (code.take k).reverse.length = k := by
    rw [List.length_reverse, List.length_take, Nat.min_eq_left way.le_length]
  have htail := echoes_executeFrom cfg container (code.take k).reverse (code.drop k) 0 [] (by
    intro j i hi hj op
    rw [List.getElem?_drop] at hi
    rw [List.nil_append, ← List.reverse_append, ← List.take_add, List.drop_drop, ← Nat.add_assoc,
      incrementAt?_of_get cfg hi]
    by_cases hpush : i.opcode.isPush = true
    · rw [if_pos hpush]
      exact hcut (k + j) i (by rw [List.length_nil] at hj; omega) hi hpush op
    · rw [if_neg hpush]
      nofun)
  rw [hlen] at htail
  have hsecond := htail.eq_shift m'
  have hwhole := way.execute_eq
  refine ⟨hfirst.2, hfirst.1, ?_, ?_⟩
  · rw [hfirst.1]
    exact hwhole.1.trans hsecond.1
  · rw [hfirst.1]
    exact hwhole.2.trans hsecond.2

/-- A cut behind a postfix increment: what follows finds the stack empty, at its own position. -/
theorem execute_split_increment :
    let cfg : Settings := { version := ⟨2, 3, 0, 0⟩ }
    let x : VariableRef := ⟨7, .normal⟩
    let code : List Instruction :=
      [{ opcode := .push, type1 := .variant, reference := some x, owner := .self },
        { opcode := .dup, type1 := .variant },
        { opcode := .push, type1 := .int16, literal := some (.int16 1) },
        { opcode := .add },
        { opcode := .pop, type1 := .variant, reference := some x, owner := .self },
        { opcode := .popz },
        { opcode := .ret }]
    (execute cfg (code.take 5) Tree.root {}).result = .ok () ∧
      (execute cfg (code.drop 5) Tree.root (execute cfg (code.take 5) Tree.root {}).state).result =
        .error (.error (.underflow 1)) ∧
      (execute cfg code Tree.root {}).result = .error (.error (.underflow 6)) := by
  intro cfg x code
  have pushed := (Arrives.start : Arrives cfg Tree.root code {} 0 {}).step rfl rfl
  have copied := pushed.step rfl rfl
  have stored : Arrives cfg Tree.root code {} 5 _ := copied.step rfl rfl
  obtain ⟨hfirst, -, -, hwhole⟩ := execute_split stored (by
    rintro j i (rfl | rfl) hi hpush <;> cases hi <;> cases hpush)
  have hsecond : (execute cfg (code.drop 5) Tree.root
      (execute cfg (code.take 5) Tree.root {}).state).result = .error (.error (.underflow 1)) := by
    decide +kernel
  rw [hsecond] at hwhole
  exact ⟨hfirst, hsecond, hwhole⟩

end Machine

end GmlLift
