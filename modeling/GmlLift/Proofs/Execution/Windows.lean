import GmlLift.Proofs.Execution.Trace
import Mathlib.Order.Bounds.Defs

/-!
# Where windows end

A postfix window goes as far as pops go of which at most one stores (`postEndAt_isGreatest`). A
prefix window goes up to the first pop, and one instruction further if that pop rearranges the stack
(`preEndAt_ends`). Neither goes beyond the code.

A run takes turns. In each one, its cursor goes from the instruction that it stands at to the next
one, or to the end of a window. So the turns cut the code that a run has gone through into pieces,
and every instruction is in one of them.

Result: `execute_windows`.
-/

namespace GmlLift

namespace Increment

variable {cfg : Settings} {code ahead : List Instruction} {stored : Bool} {k n : Nat}

/-! ## Postfix windows -/

/-- **The instructions write a postfix increment back**: they are pops, and at most one of them
names a variable. -/
structure WritesBack (pops : List Instruction) : Prop where
  all_pops : ∀ i ∈ pops, i.opcode = .pop
  one_store : pops.countP (·.reference.isSome) ≤ 1

/-- What is passed over are the first pops, as many as do not store a second time. -/
theorem le_writeBack_iff : n ≤ writeBack stored code ↔ n ≤ code.length ∧
    (∀ i ∈ code.take n, i.opcode = .pop) ∧
      (code.take n).countP (·.reference.isSome) + stored.toNat ≤ 1 := by
  induction code generalizing stored n with
  | nil =>
    have hle : stored.toNat ≤ 1 := Bool.toNat_le stored
    simp [writeBack, hle]
  | cons i code ih =>
    cases n with
    | zero =>
      have hle : stored.toNat ≤ 1 := Bool.toNat_le stored
      simp [hle]
    | succ n =>
      rw [writeBack, List.take_succ_cons, List.length_cons, List.forall_mem_cons]
      by_cases hpop : i.opcode = .pop
      · cases href : i.reference with
        | none => simp [Instruction.isPermutation, hpop, href, ih]
        | some ref =>
          cases stored with
          | false => simp [Instruction.isPermutation, hpop, href, ih]
          | true => simp [Instruction.isPermutation, hpop, href]
      · simp [Instruction.isPermutation, hpop]

theorem postEndAt_eq_add (h : k + 2 ≤ code.length) :
    postEndAt code k = k + 2 + writeBack false (code.drop (k + 2)) := by
  have hahead : code.drop (k + 1) = code[k + 1] :: code.drop (k + 2) := List.drop_eq_getElem_cons h
  rw [postEndAt_eq (by omega), hahead, postWindow]
  simp only
  omega

/-- **A postfix window ends as late as it can.** -/
theorem postEndAt_isGreatest (h : k + 2 ≤ code.length) :
    IsGreatest {j | j ≤ code.length ∧ WritesBack (code.extract (k + 2) j)} (postEndAt code k) := by
  rw [postEndAt_eq_add h]
  constructor
  · obtain ⟨hlength, hpops, hstore⟩ := le_writeBack_iff.mp
      (Nat.le_refl (writeBack false (code.drop (k + 2))))
    rw [List.length_drop] at hlength
    refine ⟨by omega, ?_⟩
    rw [List.extract_eq_take_drop, Nat.add_sub_cancel_left]
    exact ⟨hpops, hstore⟩
  · rintro j ⟨hle, hpops, hstore⟩
    rw [List.extract_eq_take_drop] at hpops hstore
    have hspan : j - (k + 2) ≤ writeBack false (code.drop (k + 2)) :=
      le_writeBack_iff.mpr ⟨by rw [List.length_drop]; omega, hpops, hstore⟩
    omega

/-! ## Prefix windows -/

/-- **The end of a prefix window, and whether it rearranges the stack.** The window ends with the
first pop behind its centre, and with the code if there is none; a pop from a 16-bit integer to a
variant takes the next instruction along. -/
inductive EndsPrefix (code : List Instruction) (k : Nat) : Nat → Bool → Prop
  | unended (hnone : ∀ i ∈ code.drop (k + 1), i.opcode ≠ .pop) :
      EndsPrefix code k code.length false
  | ended {j : Nat} {i : Instruction} (hlt : k < j) (hi : code[j]? = some i)
      (hpop : i.opcode = .pop) (hfirst : ∀ i ∈ code.extract (k + 1) j, i.opcode ≠ .pop)
      (hplain : i.isInt16Pop = false) : EndsPrefix code k (j + 1) false
  | permuted {j : Nat} {i : Instruction} (hlt : k < j) (hi : code[j]? = some i)
      (hpop : i.opcode = .pop) (hfirst : ∀ i ∈ code.extract (k + 1) j, i.opcode ≠ .pop)
      (hint16 : i.isInt16Pop = true) : EndsPrefix code k (min (j + 2) code.length) true

theorem preWindow_of_no_pop (h : ∀ i ∈ ahead, i.opcode ≠ .pop) :
    preWindow ahead = ⟨ahead.length, false⟩ := by
  induction ahead with
  | nil => rfl
  | cons i ahead ih =>
    obtain ⟨hi, hahead⟩ := List.forall_mem_cons.mp h
    rw [preWindow, if_neg hi, ih hahead, List.length_cons]

/-- The window up to the first pop. -/
theorem preWindow_of_pop {before rest : List Instruction} {pop : Instruction}
    (hbefore : ∀ i ∈ before, i.opcode ≠ .pop) (hpop : pop.opcode = .pop) :
    preWindow (before ++ pop :: rest) =
      if pop.isInt16Pop then ⟨before.length + 1 + min 1 rest.length, true⟩
      else ⟨before.length + 1, false⟩ := by
  induction before with
  | nil =>
    rw [List.nil_append, preWindow, if_pos hpop, List.length_nil, Nat.zero_add, Nat.add_comm 1]
  | cons i before ih =>
    obtain ⟨hi, hbefore⟩ := List.forall_mem_cons.mp hbefore
    rw [List.cons_append, preWindow, if_neg hi, ih hbefore, List.length_cons]
    split
    · simp only [Window.mk.injEq, and_true]
      omega
    · rfl

/-- There is a first pop, or there is none. -/
theorem exists_first_pop (ahead : List Instruction) : (∀ i ∈ ahead, i.opcode ≠ .pop) ∨
    ∃ before pop rest, ahead = before ++ pop :: rest ∧ pop.opcode = .pop ∧
      ∀ i ∈ before, i.opcode ≠ .pop := by
  by_cases h : ∃ i ∈ ahead, i.opcode = .pop
  · obtain ⟨i, hi, hpop⟩ := h
    obtain ⟨pop, before, rest, hnone, hsome, heq, -⟩ :=
      List.exists_of_eraseP (p := fun i => i.opcode = .pop) hi (by simpa using hpop)
    exact Or.inr ⟨before, pop, rest, heq, by simpa using hsome,
      fun i hi => by simpa using hnone i hi⟩
  · exact Or.inl fun i hi hpop => h ⟨i, hi, hpop⟩

/-- **A prefix window ends where it should.** -/
theorem preEndAt_ends (h : k < code.length) :
    EndsPrefix code k (preEndAt code k) (prePermutedAt code k) := by
  rw [preEndAt_eq h, prePermutedAt]
  rcases exists_first_pop (code.drop (k + 1)) with hnone | ⟨before, pop, rest, heq, hpop, hfirst⟩
  · have hend : k + 1 + (code.drop (k + 1)).length = code.length := by
      rw [List.length_drop]
      omega
    rw [preWindow_of_no_pop hnone, hend]
    exact .unended hnone
  · have hlength : code.length = k + 1 + (before.length + (rest.length + 1)) := by
      have hdrop := congrArg List.length heq
      rw [List.length_drop, List.length_append, List.length_cons] at hdrop
      omega
    have hi : code[k + 1 + before.length]? = some pop := by
      rw [← List.getElem?_drop, heq]
      simp
    have hslice : code.extract (k + 1) (k + 1 + before.length) = before := by
      rw [List.extract_eq_take_drop, Nat.add_sub_cancel_left, heq, List.take_left]
    rw [heq, preWindow_of_pop hfirst hpop]
    cases hint16 : pop.isInt16Pop with
    | false =>
      exact .ended (Nat.lt_add_right before.length (Nat.lt_succ_self k)) hi hpop
        (hslice.symm ▸ hfirst) hint16
    | true =>
      have hend : k + 1 + (before.length + 1 + min 1 rest.length) =
          min (k + 1 + before.length + 2) code.length := by omega
      simp only [if_true]
      rw [hend]
      exact .permuted (by omega) hi hpop (hslice.symm ▸ hfirst) hint16

/-! ## The window of an increment -/

/-- The position behind the window of an increment. -/
def windowEnd (inc : Increment) (code : List Instruction) (k : Nat) : Nat :=
  match inc.side with
  | .pre => preEndAt code k
  | .post => postEndAt code k

theorem windowEnd_eq (inc : Increment) (h : k < code.length) :
    inc.windowEnd code k = k + 1 + inc.span (code.drop (k + 1)) := by
  unfold windowEnd span
  cases inc.side with
  | pre => exact preEndAt_eq h
  | post => exact postEndAt_eq h

theorem windowEnd_le_length (inc : Increment) (code : List Instruction) (k : Nat) :
    inc.windowEnd code k ≤ code.length := by
  unfold windowEnd
  cases inc.side with
  | pre => exact Nat.min_le_right _ _
  | post => exact Nat.min_le_right _ _

theorem side_of_findPre? {inc : Increment} (h : findPre? ahead = some inc) : inc.side = .pre := by
  unfold findPre? at h
  split at h
  · split at h
    · obtain ⟨op, -, rfl⟩ := Option.map_eq_some_iff.mp h
      rfl
    · cases h
  · cases h

/-- **The window of an increment reaches over what makes it one**: the addition, and in the prefix
form also the copy. -/
theorem le_windowEnd {inc : Increment} (h : findAt? cfg code k = some inc) :
    (inc.side = .post → k + 2 ≤ inc.windowEnd code k) ∧
      (inc.side = .pre → k + 3 ≤ inc.windowEnd code k) := by
  have hlt : k < code.length := by
    by_contra hge
    rw [findAt?, List.drop_of_length_le (Nat.le_of_not_lt hge)] at h
    cases h
  rw [findAt?_of_get (List.getElem?_eq_getElem hlt), find?] at h
  rw [windowEnd_eq inc hlt]
  split at h
  · rcases Option.or_eq_some_iff.mp h with hpost | ⟨-, hpre⟩
    · have hspan := lt_span_of_findPost? hpost
      rw [side_of_findPost? hpost]
      exact ⟨fun _ => by omega, nofun⟩
    · have hspan := lt_span_of_findPre? hpre
      rw [side_of_findPre? hpre]
      exact ⟨nofun, fun _ => by omega⟩
  · cases h

end Increment

/-! ## Turns of a run -/

namespace Machine

open GmlLift.Action GmlLift.Increment

variable {cfg : Settings} {container : NodeId} {code : List Instruction} {m m' : Machine}
  {j k k' n p : Nat}

/-- The increment at a position of the code. -/
def incrementIn? (cfg : Settings) (code : List Instruction) (k : Nat) : Option Increment :=
  code[k]?.bind fun i => incrementAt? cfg (code.take k).reverse i (code.drop (k + 1))

/-- **One turn of a run**: after so many turns the cursor goes from one position to another. -/
structure Turn (cfg : Settings) (container : NodeId) (code : List Instruction) (m : Machine)
    (n k k' : Nat) : Prop where
  start : ∃ m₁, after cfg container code m n = some (k, m₁)
  stop : ∃ m₂, after cfg container code m (n + 1) = some (k', m₂)

theorem exists_after_of_arrives (way : Arrives cfg container code m k m') :
    ∃ n, after cfg container code m n = some (k, m') := by
  induction way with
  | start => exact ⟨0, rfl⟩
  | step _ hi hok ih =>
    obtain ⟨n, hn⟩ := ih
    refine ⟨n + 1, ?_⟩
    rw [after, hn]
    exact next?_eq_some_iff.mpr ⟨_, _, hi, hok, rfl⟩

/-- **In a turn the cursor passes the instruction that it stands at, or a window.** -/
theorem Turn.eq_or_eq (h : Turn cfg container code m n k k') : k < code.length ∧
    ((incrementIn? cfg code k = none ∧ k' = k + 1) ∨
      ∃ inc, incrementIn? cfg code k = some inc ∧ k' = inc.windowEnd code k) := by
  obtain ⟨⟨m₁, hstart⟩, m₂, hstop⟩ := h
  rw [after, hstart] at hstop
  obtain ⟨i, skip, hi, hok, heq⟩ := next?_eq_some_iff.mp hstop
  obtain ⟨rfl, -⟩ := Prod.mk.inj heq
  obtain ⟨hlt, -⟩ := List.getElem?_eq_some_iff.mp hi
  have hskip := skip_of_step hok
  have hinc : incrementIn? cfg code k =
      incrementAt? cfg (code.take k).reverse i (code.drop (k + 1)) := by
    rw [incrementIn?, hi]
    rfl
  rw [← hinc] at hskip
  refine ⟨hlt, ?_⟩
  cases hfound : incrementIn? cfg code k with
  | none =>
    rw [hfound] at hskip
    exact Or.inl ⟨rfl, congrArg (k + 1 + ·) hskip⟩
  | some inc =>
    rw [hfound] at hskip
    refine Or.inr ⟨inc, rfl, ?_⟩
    rw [windowEnd_eq inc hlt]
    exact congrArg (k + 1 + ·) hskip

/-- **The cursor goes on**, and it stays in the code. -/
theorem Turn.lt_and_le (h : Turn cfg container code m n k k') : k < k' ∧ k' ≤ code.length := by
  obtain ⟨hlt, ⟨-, rfl⟩ | ⟨inc, -, rfl⟩⟩ := h.eq_or_eq
  · exact ⟨Nat.lt_succ_self k, hlt⟩
  · refine ⟨?_, inc.windowEnd_le_length code k⟩
    rw [windowEnd_eq inc hlt]
    omega

/-- The cursor has come in a turn to where it is. -/
theorem exists_turn {b : Nat × Machine} (h : after cfg container code m (n + 1) = some b) :
    ∃ k, Turn cfg container code m n k b.1 ∧
      ∃ m₁, after cfg container code m n = some (k, m₁) := by
  obtain ⟨a, ha, -⟩ := Option.bind_eq_some_iff.mp h
  exact ⟨a.1, ⟨⟨a.2, ha⟩, ⟨b.2, h⟩⟩, a.2, ha⟩

/-- Later turns start further on. -/
theorem le_of_after {a b : Nat × Machine} (ha : after cfg container code m n = some a)
    (hb : after cfg container code m (n + j) = some b) : a.1 ≤ b.1 := by
  induction j generalizing b with
  | zero =>
    obtain rfl : a = b := Option.some.inj (ha.symm.trans hb)
    exact Nat.le_refl _
  | succ j ih =>
    obtain ⟨k, hturn, m₁, hk⟩ := exists_turn hb
    exact Nat.le_trans (ih hk) (Nat.le_of_lt hturn.lt_and_le.1)

/-- Two turns have no position in common. -/
theorem Turn.le_start {n' l l' : Nat} (h : Turn cfg container code m n k k')
    (h' : Turn cfg container code m n' l l') (hlt : n < n') : k' ≤ l := by
  obtain ⟨m₂, hstop⟩ := h.stop
  obtain ⟨m₁, hstart⟩ := h'.start
  obtain ⟨j, rfl⟩ := Nat.exists_eq_add_of_le hlt
  exact le_of_after hstop hstart

theorem Turn.unique {n' l l' : Nat} (h : Turn cfg container code m n k k')
    (h' : Turn cfg container code m n' l l') (hp : k ≤ p ∧ p < k') (hp' : l ≤ p ∧ p < l') :
    n = n' := by
  rcases Nat.lt_trichotomy n n' with hlt | heq | hgt
  · have hle := h.le_start h' hlt
    omega
  · exact heq
  · have hle := h'.le_start h hgt
    omega

/-- What the cursor has passed, it has passed in some turn. -/
theorem exists_turn_of_lt {b : Nat × Machine} (h : after cfg container code m n = some b)
    (hp : p < b.1) : ∃ n k k', Turn cfg container code m n k k' ∧ k ≤ p ∧ p < k' := by
  induction n generalizing b with
  | zero =>
    cases h
    exact absurd hp (Nat.not_lt_zero p)
  | succ n ih =>
    obtain ⟨k, hturn, m₁, hk⟩ := exists_turn h
    rcases Nat.lt_or_ge p k with hbefore | hhere
    · exact ih hk hbefore
    · exact ⟨n, k, b.1, hturn, hhere, hp⟩

/-- The instruction at the position is executed by itself in a turn. -/
def PerformedIn (cfg : Settings) (container : NodeId) (code : List Instruction) (m : Machine)
    (n p : Nat) : Prop :=
  incrementIn? cfg code p = none ∧ Turn cfg container code m n p (p + 1)

/-- The instruction at the position lies in the window of an increment that a turn consumes. -/
def ConsumedIn (cfg : Settings) (container : NodeId) (code : List Instruction) (m : Machine)
    (n p : Nat) : Prop :=
  ∃ k inc, incrementIn? cfg code k = some inc ∧
    Turn cfg container code m n k (inc.windowEnd code k) ∧ k ≤ p ∧ p < inc.windowEnd code k

theorem performedIn_or_consumedIn_iff :
    PerformedIn cfg container code m n p ∨ ConsumedIn cfg container code m n p ↔
      ∃ k k', Turn cfg container code m n k k' ∧ k ≤ p ∧ p < k' := by
  constructor
  · rintro (⟨-, hturn⟩ | ⟨k, inc, -, hturn, hp⟩)
    · exact ⟨p, p + 1, hturn, Nat.le_refl p, Nat.lt_succ_self p⟩
    · exact ⟨k, _, hturn, hp⟩
  · rintro ⟨k, k', hturn, hle, hlt⟩
    obtain ⟨-, ⟨hnone, rfl⟩ | ⟨inc, hsome, rfl⟩⟩ := hturn.eq_or_eq
    · obtain rfl : k = p := by omega
      exact Or.inl ⟨hnone, hturn⟩
    · exact Or.inr ⟨k, inc, hsome, hturn, hle, hlt⟩

/-- **Every instruction of a run is dealt with once**: it is executed in one turn, or it lies in the
window that one turn consumes. -/
theorem existsUnique_turn (hok : (execute cfg code container m).result = .ok ())
    (hp : p < code.length) :
    ∃! n, PerformedIn cfg container code m n p ∨ ConsumedIn cfg container code m n p := by
  have way : Arrives cfg container code m code.length (execute cfg code container m).state :=
    arrives_of_executeAt .start hok
  obtain ⟨last, hlast⟩ := exists_after_of_arrives way
  obtain ⟨n, k, k', hturn, hp⟩ := exists_turn_of_lt hlast hp
  refine ⟨n, performedIn_or_consumedIn_iff.mpr ⟨k, k', hturn, hp⟩, fun n' h => ?_⟩
  obtain ⟨l, l', hturn', hp'⟩ := performedIn_or_consumedIn_iff.mp h
  exact hturn'.unique hturn hp' hp

/-- **Windows end where they should, and a run deals with every instruction once.** A postfix window
ends behind the last of the pops that write back, a prefix window behind the first pop or with the
code. The window of an increment reaches over what makes it one and not beyond the code. So in every
turn of a run the cursor goes on and stays in the code, and a run that is not stopped has executed
each instruction in one turn or passed it in the window of one turn. -/
theorem execute_windows (cfg : Settings) (container : NodeId) (code : List Instruction)
    (m : Machine) :
    (∀ k, k + 2 ≤ code.length → IsGreatest
      {j | j ≤ code.length ∧ WritesBack (code.extract (k + 2) j)} (postEndAt code k)) ∧
    (∀ k, k < code.length → k < preEndAt code k ∧ preEndAt code k ≤ code.length ∧
      EndsPrefix code k (preEndAt code k) (prePermutedAt code k)) ∧
    (∀ k inc, findAt? cfg code k = some inc → inc.windowEnd code k ≤ code.length ∧
      (inc.side = .post → k + 2 ≤ inc.windowEnd code k) ∧
      (inc.side = .pre → k + 3 ≤ inc.windowEnd code k)) ∧
    (∀ n k k', Turn cfg container code m n k k' → k < k' ∧ k' ≤ code.length ∧
      ((incrementIn? cfg code k = none ∧ k' = k + 1) ∨
        ∃ inc, incrementIn? cfg code k = some inc ∧ k' = inc.windowEnd code k)) ∧
    ((execute cfg code container m).result = .ok () → ∀ p, p < code.length →
      ∃! n, PerformedIn cfg container code m n p ∨ ConsumedIn cfg container code m n p) := by
  refine ⟨fun k hk => postEndAt_isGreatest hk, fun k hk => ?_, fun k inc hinc => ?_,
    fun n k k' hturn => ?_, fun hok p hp => existsUnique_turn hok hp⟩
  · exact ⟨lt_preEndAt hk, Nat.min_le_right _ _, preEndAt_ends hk⟩
  · exact ⟨inc.windowEnd_le_length code k, le_windowEnd hinc⟩
  · exact ⟨hturn.lt_and_le.1, hturn.lt_and_le.2, hturn.eq_or_eq.2⟩

/-- Code for `var8 = var7++`: the window of the increment goes up to the second store, and the first
one lies in it. -/
theorem execute_windows_stored :
    let pushed : Instruction :=
      { opcode := .push, type1 := .variant, reference := some ⟨7, .normal⟩, owner := .self }
    let stored (target : UInt32) : Instruction :=
      { opcode := .pop, type1 := .variant, type2 := .variant, reference := some ⟨target, .normal⟩,
        owner := .self }
    let code : List Instruction :=
      [pushed, { opcode := .dup, type1 := .variant },
        { opcode := .push, type1 := .int16, literal := some (.int16 1) },
        { opcode := .add, type1 := .int32, type2 := .variant }, stored 7, stored 8]
    let m : Machine := {}
    (execute {} code Tree.root m).result = .ok () ∧ postEndAt code 2 = 5 ∧
      IsGreatest {j | j ≤ code.length ∧ WritesBack (code.extract 4 j)} 5 ∧
      preEndAt code 1 = 5 ∧ EndsPrefix code 1 5 false ∧
      findAt? {} code 2 = some ⟨.add, .post⟩ ∧ 4 ≤ Increment.windowEnd ⟨.add, .post⟩ code 2 ∧
      ∃! n, PerformedIn {} Tree.root code m n 4 ∨ ConsumedIn {} Tree.root code m n 4 := by
  intro pushed stored code m
  have hok : (execute {} code Tree.root m).result = .ok () := by decide +kernel
  have hpost : postEndAt code 2 = 5 := by decide +kernel
  have hpre : preEndAt code 1 = 5 := by decide +kernel
  have hpermuted : prePermutedAt code 1 = false := by decide +kernel
  have hfind : findAt? {} code 2 = some ⟨.add, .post⟩ := by decide +kernel
  obtain ⟨hposts, hpres, hincs, -, hdealt⟩ := execute_windows {} Tree.root code m
  have hgreatest := hposts 2 (by decide)
  have hends := (hpres 1 (by decide)).2.2
  rw [hpost] at hgreatest
  rw [hpre, hpermuted] at hends
  exact ⟨hok, hpost, hgreatest, hpre, hends, hfind, (hincs 2 _ hfind).2.1 rfl,
    hdealt hok 4 (by decide)⟩

end Machine

end GmlLift
