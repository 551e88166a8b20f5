import GmlLift.Proofs.Assembly.Echo
import GmlLift.Proofs.Execution.Progress
import GmlLift.Proofs.Execution.Split
import Mathlib.Logic.Relation

/-!
# The way of the cursor

A run takes one step at each position that its cursor comes to (`next?`), so there is one way only:
of two positions on it, the cursor comes to the later one from the earlier one (`Arrives.next_le`),
and it comes to each with one machine (`Arrives.unique`). Reports do not matter where a step is
made, so every step on the way is one of those that `Advances` lists (`advances_of_step`).

Result: `Arrives.marked_iff`. A node is marked as copied exactly if a duplication on the way has
copied it.
-/

namespace GmlLift

namespace Machine

open GmlLift.Action

/-! ## Marks -/

section Step

variable {cfg : Settings} {container : NodeId} {i : Instruction} {m m' : Machine} {id : NodeId}

theorem Accesses.marked_iff {a : Access} (h : Accesses cfg i m a m') :
    m'.tree.Marked id ↔ m.tree.Marked id := by
  cases h with
  | intro href hr => cases hr <;> simp

theorem Assigns.marked_iff {a : Access} {value : NodeId} {t t' : Tree}
    (h : Assigns container a value t t') : t'.Marked id ↔ t.Marked id := by
  cases h with
  | plain hc ht => rw [Tree.marked_appendChild? ht, Tree.marked_add]
  | compound hc ht => rw [Tree.marked_appendChild? ht, Tree.marked_add]

/-- The node is one of those that the instruction copies. -/
def Copies (i : Instruction) (m : Machine) (id : NodeId) : Prop :=
  i.opcode = .dup ∧ id ∈ m.stack.items.take i.dupCount

/-- **An instruction marks what it copies**, and nothing else. -/
theorem Performs.marked_iff (h : Performs cfg container i m m') :
    m'.tree.Marked id ↔ m.tree.Marked id ∨ Copies i m id := by
  have hother {t t' : Tree} {items : List NodeId} (hop : i.opcode ≠ .dup)
      (hsame : t'.Marked id ↔ t.Marked id) :
      t'.Marked id ↔ t.Marked id ∨ Copies i ⟨t, ⟨items⟩⟩ id := by
    rw [hsame]
    exact (or_iff_left fun hcopies => hop hcopies.1).symm
  cases h with
  | pushLiteral hop _ _ =>
    refine hother ?_ Tree.marked_add
    intro hdup
    simp [hdup, Opcode.isPush] at hop
  | pushVariable hop _ ha =>
    refine hother ?_ ha.marked_iff
    intro hdup
    simp [hdup, Opcode.isPush] at hop
  | storeAbove hop _ ha hs =>
    exact hother (by simp [hop]) (hs.marked_iff.trans (ha.marked_iff (m := ⟨_, ⟨_⟩⟩)))
  | storeBelow hop _ ha hs => exact hother (by simp [hop]) (hs.marked_iff.trans ha.marked_iff)
  | permute hop _ =>
    simp only [Instruction.isPermutation, Bool.and_eq_true, decide_eq_true_eq] at hop
    exact hother (by simp [hop.1]) Iff.rfl
  | operate hop _ =>
    refine hother ?_ Tree.marked_add
    intro hdup
    simp [hdup, Opcode.isBinary] at hop
  | @operateOne _ _ _ op hop =>
    refine hother ?_ Tree.marked_add
    cases op <;> simp [hop, UnaryOp.opcode]
  | call hop _ _ => exact hother (by simp [hop]) Tree.marked_add
  | returnValue hop ht =>
    exact hother (by simp [hop]) ((Tree.marked_appendChild? ht).trans Tree.marked_add)
  | exitScript hop ht =>
    exact hother (by simp [hop]) ((Tree.marked_appendChild? ht).trans Tree.marked_add)
  | discard hop ht => exact hother (by simp [hop]) (Tree.marked_appendChild? ht)
  | discardNothing hop => exact hother (by simp [hop]) Iff.rfl
  | duplicate hop _ _ ht =>
    rw [marked_markAll? ht]
    simp [Copies, hop]
  | convert hop _ => exact hother (by simp [hop]) Tree.marked_add
  | keep hop _ => exact hother (by simp [hop]) Iff.rfl
  | mark hop =>
    refine hother ?_ Iff.rfl
    intro hdup
    simp [hdup] at hop

theorem Advances.marked_iff {behind ahead : List Instruction} {skip : Nat}
    (h : Advances cfg container behind i ahead m skip m') :
    m'.tree.Marked id ↔ m.tree.Marked id ∨ Copies i m id := by
  -- the centre of an increment is a push
  have hincrement {inc : Increment} (hi : incrementAt? cfg behind i ahead = some inc) :
      ¬ Copies i m id := by
    rintro ⟨hdup, -⟩
    simp [incrementAt?, hdup, Opcode.isPush] at hi
  cases h with
  | performed _ h => exact h.marked_iff
  | pre hi _ => rw [Tree.marked_add, or_iff_left (hincrement hi)]
  | prePermuted hi _ => rw [Tree.marked_add, or_iff_left (hincrement hi)]
  | post hi => rw [Tree.marked_add, or_iff_left (hincrement hi)]

end Step

/-! ## One way -/

section Way

variable {cfg : Settings} {container : NodeId} {code : List Instruction} {m₀ m m' : Machine}
  {j k : Nat}

/-- The step from a position, and the machine there, to the next. -/
def next? (cfg : Settings) (container : NodeId) (code : List Instruction) (a : Nat × Machine) :
    Option (Nat × Machine) :=
  match code[a.1]? with
  | none => none
  | some i =>
    let outcome := step cfg container (code.take a.1).reverse i (code.drop (a.1 + 1)) a.2
    match outcome.result with
    | .ok skip => some (a.1 + 1 + skip, outcome.state)
    | .error _ => none

theorem next?_eq_some_iff {a b : Nat × Machine} :
    next? cfg container code a = some b ↔ ∃ i skip, code[a.1]? = some i ∧
      (step cfg container (code.take a.1).reverse i (code.drop (a.1 + 1)) a.2).result = .ok skip ∧
      b = (a.1 + 1 + skip,
        (step cfg container (code.take a.1).reverse i (code.drop (a.1 + 1)) a.2).state) := by
  unfold next?
  constructor
  · intro h
    split at h
    · cases h
    · rename_i i hi
      simp only at h
      split at h
      · rename_i skip hok
        exact ⟨i, skip, hi, hok, (Option.some.inj h).symm⟩
      · cases h
  · rintro ⟨i, skip, hi, hok, rfl⟩
    simp only [hi, hok]

/-- Where the cursor is, and with which machine, after a number of steps. -/
def after (cfg : Settings) (container : NodeId) (code : List Instruction) (m₀ : Machine) :
    Nat → Option (Nat × Machine)
  | 0 => some (0, m₀)
  | n + 1 => (after cfg container code m₀ n).bind (next? cfg container code)

theorem Arrives.next (way : Arrives cfg container code m₀ k m)
    (h : next? cfg container code (k, m) = some (j, m')) : Arrives cfg container code m₀ j m' := by
  obtain ⟨i, skip, hi, hok, heq⟩ := next?_eq_some_iff.mp h
  cases heq
  exact way.step hi hok

theorem arrives_of_after {n : Nat} (h : after cfg container code m₀ n = some (k, m)) :
    Arrives cfg container code m₀ k m := by
  induction n generalizing k m with
  | zero =>
    cases h
    exact .start
  | succ n ih =>
    obtain ⟨⟨j, m'⟩, hm', hnext⟩ := Option.bind_eq_some_iff.mp h
    exact (ih hm').next hnext

/-- **The run executes the instruction** at the position, and the machine changes as told. -/
structure Executes (cfg : Settings) (container : NodeId) (code : List Instruction) (m₀ : Machine)
    (k : Nat) (i : Instruction) (m m' : Machine) : Prop where
  way : Arrives cfg container code m₀ k m
  instruction : code[k]? = some i
  succeeds : ∃ skip,
    (step cfg container (code.take k).reverse i (code.drop (k + 1)) m).result = .ok skip
  state_eq : m' = (step cfg container (code.take k).reverse i (code.drop (k + 1)) m).state

theorem executes_of_after {n : Nat} (h : after cfg container code m₀ n = some (k, m))
    {i : Instruction} (hi : code[k]? = some i)
    (h' : after cfg container code m₀ (n + 1) = some (j, m')) :
    Executes cfg container code m₀ k i m m' := by
  rw [after, h] at h'
  obtain ⟨i', skip, hi', hok, heq⟩ := next?_eq_some_iff.mp h'
  obtain rfl : i' = i := Option.some.inj (hi'.symm.trans hi)
  cases heq
  exact ⟨arrives_of_after h, hi, ⟨skip, hok⟩, rfl⟩

/-- A quiet machine goes where its advance leads. -/
theorem next?_of_advances (quiet : cfg.verbosity = none) {i : Instruction} {skip : Nat}
    (hi : code[k]? = some i)
    (h : Advances cfg container (code.take k).reverse i (code.drop (k + 1)) m skip m') :
    next? cfg container code (k, m) = some (k + 1 + skip, m') := by
  have hstep := step_of_advances quiet h
  exact next?_eq_some_iff.mpr ⟨i, skip, hi, by rw [hstep], by rw [hstep]⟩

/-- There is one next step. -/
theorem next?_rightUnique (cfg : Settings) (container : NodeId) (code : List Instruction) :
    Relator.RightUnique fun a b => next? cfg container code a = some b := by
  intro a b c hb hc
  exact Option.some.inj (hb.symm.trans hc)

/-- The steps that lead from one position to another. -/
abbrev Leads (cfg : Settings) (container : NodeId) (code : List Instruction) :
    Nat × Machine → Nat × Machine → Prop :=
  Relation.ReflTransGen fun a b => next? cfg container code a = some b

theorem Leads.le {a b : Nat × Machine} (h : Leads cfg container code a b) : a.1 ≤ b.1 := by
  induction h with
  | refl => exact Nat.le_refl _
  | tail _ hstep ih =>
    obtain ⟨i, skip, -, -, rfl⟩ := next?_eq_some_iff.mp hstep
    exact Nat.le_trans ih (by omega)

namespace Arrives

theorem leads (way : Arrives cfg container code m₀ k m) :
    Leads cfg container code (0, m₀) (k, m) := by
  induction way with
  | start => exact .refl
  | step _ hi hok ih => exact ih.tail (next?_eq_some_iff.mpr ⟨_, _, hi, hok, rfl⟩)

/-- Of two positions on the way, one leads to the other. -/
theorem leads_or_leads (way : Arrives cfg container code m₀ j m)
    (way' : Arrives cfg container code m₀ k m') :
    Leads cfg container code (j, m) (k, m') ∨ Leads cfg container code (k, m') (j, m) :=
  Relation.ReflTransGen.total_of_right_unique (next?_rightUnique cfg container code)
    way.leads way'.leads

/-- From each position before another one, the cursor goes on by one step. -/
theorem next_le (way : Arrives cfg container code m₀ j m)
    (way' : Arrives cfg container code m₀ k m') (hlt : j < k) :
    ∃ i skip, code[j]? = some i ∧
      (GmlLift.Machine.step cfg container (code.take j).reverse i (code.drop (j + 1)) m).result =
        .ok skip ∧ j + 1 + skip ≤ k := by
  rcases way.leads_or_leads way' with honward | hback
  · rcases Relation.ReflTransGen.cases_head honward with heq | ⟨b, hnext, hrest⟩
    · cases heq
      exact absurd hlt (Nat.lt_irrefl _)
    · obtain ⟨i, skip, hi, hok, rfl⟩ := next?_eq_some_iff.mp hnext
      exact ⟨i, skip, hi, hok, Leads.le hrest⟩
  · exact absurd (Leads.le hback) (Nat.not_le.mpr hlt)

/-- The cursor comes to a position with one machine. -/
theorem unique (way : Arrives cfg container code m₀ k m)
    (way' : Arrives cfg container code m₀ k m') : m' = m := by
  have hstays {m m' : Machine} (h : Leads cfg container code (k, m) (k, m')) : m' = m := by
    rcases Relation.ReflTransGen.cases_head h with heq | ⟨b, hnext, hrest⟩
    · cases heq
      rfl
    · obtain ⟨i, skip, -, -, rfl⟩ := next?_eq_some_iff.mp hnext
      have hle : k + 1 + skip ≤ k := Leads.le hrest
      omega
  rcases way.leads_or_leads way' with honward | hback
  · exact hstays honward
  · exact (hstays hback).symm

end Arrives

/-- **A run comes to the end of its code, or it halts at a step on its way** and leaves the machine
as that step does. -/
theorem arrives_or_halts (way : Arrives cfg container code m₀ k m) :
    ((executeAt cfg container code k m).result = .ok () ∧
      Arrives cfg container code m₀ code.length (executeAt cfg container code k m).state) ∨
    ∃ j m' i e, Arrives cfg container code m₀ j m' ∧ code[j]? = some i ∧
      (step cfg container (code.take j).reverse i (code.drop (j + 1)) m').result = .error e ∧
      (executeAt cfg container code k m).result = .error e ∧
      (executeAt cfg container code k m).state =
        (step cfg container (code.take j).reverse i (code.drop (j + 1)) m').state := by
  -- on the number of instructions ahead of the cursor
  induction hn : code.length - k using Nat.strongRecOn generalizing k m with
  | ind n ih =>
    rcases Nat.lt_or_ge k code.length with hlt | hge
    · have hi : code[k]? = some code[k] := List.getElem?_eq_getElem hlt
      rw [executeAt_of_get hi]
      cases hstep : (step cfg container (code.take k).reverse code[k] (code.drop (k + 1)) m).result
        with
      | ok skip =>
        rw [bind_of_ok hstep]
        exact ih _ (by omega) (way.step hi hstep) rfl
      | error e =>
        rw [bind_of_error hstep]
        exact Or.inr ⟨k, m, code[k], e, way, hi, hstep, rfl, rfl⟩
    · obtain rfl : k = code.length := Nat.le_antisymm way.le_length hge
      rw [executeAt_of_length_le hge]
      exact Or.inl ⟨rfl, way⟩

/-- A run that is not stopped comes to the end of the code. -/
theorem arrives_of_executeAt (way : Arrives cfg container code m₀ k m)
    (hok : (executeAt cfg container code k m).result = .ok ()) :
    Arrives cfg container code m₀ code.length (executeAt cfg container code k m).state := by
  rcases arrives_or_halts way with ⟨-, harrives⟩ | ⟨-, -, -, e, -, -, -, herror, -⟩
  · exact harrives
  · rw [hok] at herror
    cases herror

/-! ## What is kept on the way -/

/-- **A step that is made is one of the listed ones**, whatever is reported. -/
theorem advances_of_step {behind ahead : List Instruction} {i : Instruction} {skip : Nat}
    (hm : m.WellFormed container) (hok : (step cfg container behind i ahead m).result = .ok skip) :
    Advances { cfg with verbosity := none } container behind i ahead m skip
      (step cfg container behind i ahead m).state := by
  let quiet : Settings := { cfg with verbosity := none }
  have hhush : cfg.Hushes quiet := cfg.hushes_quiet
  have hechoes : Echoes cfg quiet 0 (step cfg container behind i ahead)
      (step quiet container behind i ahead) :=
    echoes_step hhush container rfl (incrementAt?_of_hushes hhush behind i ahead)
  rcases hechoes.same m with ⟨hstate, hresult⟩ | ⟨e, herror, -⟩
  · rw [hok] at hresult
    have hmeets : (step quiet container behind i ahead).Meets m
        (Advances quiet container behind i ahead m) Halt.IsFault :=
      step_meets rfl hm behind i ahead
    have hadv := (meets_of_ok hresult).mp hmeets
    rw [hstate] at hadv
    exact hadv
  · rw [hok] at herror
    cases herror

/-- **What every step keeps is kept on the way.** -/
theorem Arrives.keeps {P : Machine → Prop}
    (hP : ∀ {behind i ahead m skip m'},
      Advances { cfg with verbosity := none } container behind i ahead m skip m' →
      m.WellFormed container → P m → P m')
    (hm : m₀.WellFormed container) (h : P m₀) (way : Arrives cfg container code m₀ k m) :
    m.WellFormed container ∧ P m := by
  induction way with
  | start => exact ⟨hm, h⟩
  | step _ hi hok ih =>
    have hadv := advances_of_step ih.1 hok
    exact ⟨hadv.wellFormed ih.1, hP hadv ih.1 ih.2⟩

theorem Arrives.wellFormed (hm : m₀.WellFormed container)
    (way : Arrives cfg container code m₀ k m) : m.WellFormed container :=
  (way.keeps (P := fun _ => True) (fun _ _ _ => trivial) hm trivial).1

/-- **A duplication has copied the node**, at a position that the cursor has come to before. -/
def CopiedBefore (cfg : Settings) (container : NodeId) (code : List Instruction) (m₀ : Machine)
    (k : Nat) (id : NodeId) : Prop :=
  ∃ j m i, j < k ∧ Arrives cfg container code m₀ j m ∧ code[j]? = some i ∧ Copies i m id

/-- **The marked nodes are those that have been copied.** -/
theorem Arrives.marked_iff (hm : m₀.WellFormed container) (hfresh : ∀ id, ¬ m₀.tree.Marked id)
    (way : Arrives cfg container code m₀ k m) (id : NodeId) :
    m.tree.Marked id ↔ CopiedBefore cfg container code m₀ k id := by
  induction way with
  | start =>
    refine ⟨fun h => absurd h (hfresh id), ?_⟩
    rintro ⟨j, -, -, hlt, -⟩
    exact absurd hlt (Nat.not_lt_zero j)
  | @step cursor skip m i way hi hok ih =>
    rw [(advances_of_step (way.wellFormed hm) hok).marked_iff, ih]
    constructor
    · rintro (⟨j, m', i', hlt, hrest⟩ | hcopies)
      · exact ⟨j, m', i', by omega, hrest⟩
      · exact ⟨cursor, m, i, by omega, way, hi, hcopies⟩
    · rintro ⟨j, m', i', hlt, way', hi', hcopies⟩
      rcases Nat.lt_trichotomy j cursor with hbefore | rfl | hafter
      · exact Or.inl ⟨j, m', i', hbefore, way', hi', hcopies⟩
      · obtain rfl := way.unique way'
        obtain rfl : i' = i := Option.some.inj (hi'.symm.trans hi)
        exact Or.inr hcopies
      · -- the cursor passes over what the step has dealt with
        obtain ⟨i₁, skip₁, hi₁, hok₁, hle⟩ := way.next_le way' hafter
        obtain rfl : i₁ = i := Option.some.inj (hi₁.symm.trans hi)
        obtain rfl : skip₁ = skip := Except.ok.inj (hok₁.symm.trans hok)
        omega

end Way

end Machine

end GmlLift
