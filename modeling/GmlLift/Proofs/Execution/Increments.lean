import GmlLift.Proofs.Execution.Trace

/-!
# Increments are recovered

The push of a variable, followed by the code of `x++` or of `++x`, becomes an increment of that
variable, whatever stands before and behind. The code is given by its shape alone (`PostCode`,
`PreCode`); a postfix increment may rearrange the stack before and after its one store as often as
it likes.

Result: `increment_recovered`. The cursor goes from the push of the 1 to the end of the window, with
the increment in the place of the variable.
-/

namespace GmlLift

/-! ## Windows -/

namespace Increment

/-- **The code of a postfix increment** behind the push of its variable: one copy of the variable,
the number 1, an addition or subtraction, and pops of which one stores. -/
inductive PostCode (op : BinaryOp) : List Instruction → Prop
  | intro {copy one sum : Instruction} {pops : List Instruction}
      (hcopy : copy.isVariantDup = true) (hextra : copy.extra = 0) (hflag : copy.comparison = 0)
      (hpush : one.opcode.isPush = true) (hone : isOne one = true) (hsum : stepOp? sum = some op)
      (hpops : ∀ i ∈ pops, i.opcode = .pop) (hstore : pops.countP (·.reference.isSome) = 1) :
      PostCode op (copy :: one :: sum :: pops)

/-- **The code of a prefix increment** behind the push of its variable: the number 1, an addition or
subtraction, a copy of the sum, and a pop that is not from a 16-bit integer to a variant. -/
inductive PreCode (op : BinaryOp) : List Instruction → Prop
  | intro {one sum copy store : Instruction} (hpush : one.opcode.isPush = true)
      (hone : isOne one = true) (hsum : stepOp? sum = some op) (hcopy : copy.isVariantDup = true)
      (hstore : store.opcode = .pop)
      (htypes : ¬ (store.type1 = .int16 ∧ store.type2 = .variant)) :
      PreCode op [one, sum, copy, store]

theorem opcode_of_isVariantDup {i : Instruction} (h : i.isVariantDup = true) :
    i.opcode = .dup ∧ i.type1 = .variant := by
  simpa [Instruction.isVariantDup] using h

/-- The pops of a window are passed over up to the second store. -/
theorem writeBack_append {stored : Bool} {pops rest : List Instruction}
    (hpops : ∀ i ∈ pops, i.opcode = .pop)
    (hstore : pops.countP (·.reference.isSome) + stored.toNat = 1)
    (hrest : ∀ next ∈ rest.head?, next.isPermutation = false) :
    writeBack stored (pops ++ rest) = pops.length := by
  induction pops generalizing stored with
  | nil =>
    obtain rfl : stored = true := by cases stored <;> simp_all
    cases rest with
    | nil => rfl
    | cons next rest => simp [writeBack, hrest next rfl]
  | cons i pops ih =>
    obtain ⟨hpop, hpops⟩ := List.forall_mem_cons.mp hpops
    rw [List.cons_append, writeBack, List.length_cons]
    cases href : i.reference with
    | none =>
      have hperm : i.isPermutation = true := by simp [Instruction.isPermutation, hpop, href]
      rw [if_pos hperm, ih hpops (by simpa [List.countP_cons, href] using hstore)]
    | some ref =>
      have hperm : ¬ i.isPermutation = true := by simp [Instruction.isPermutation, href]
      obtain ⟨hcount, rfl⟩ : pops.countP (·.reference.isSome) = 0 ∧ stored = false := by
        cases stored <;> simp_all
      rw [if_neg hperm, if_pos (by simp [hpop]), ih hpops (by rw [hcount]; rfl)]

theorem postWindow_span {sum : Instruction} {pops rest : List Instruction}
    (hpops : ∀ i ∈ pops, i.opcode = .pop) (hstore : pops.countP (·.reference.isSome) = 1)
    (hrest : ∀ next ∈ rest.head?, next.isPermutation = false) :
    (postWindow (sum :: (pops ++ rest))).span = pops.length + 1 := by
  have hback : writeBack false (pops ++ rest) = pops.length :=
    writeBack_append hpops hstore hrest
  exact congrArg (· + 1) hback

/-- A prefix window whose first pop stores ends with that pop. -/
theorem preWindow_store {op : BinaryOp} {sum copy store : Instruction} (rest : List Instruction)
    (hsum : stepOp? sum = some op) (hcopy : copy.isVariantDup = true)
    (hstore : store.opcode = .pop) (htypes : ¬ (store.type1 = .int16 ∧ store.type2 = .variant)) :
    preWindow (sum :: copy :: store :: rest) = ⟨3, false⟩ := by
  have hsum : sum.opcode ≠ .pop := by
    intro hpop
    simp [stepOp?, hpop] at hsum
  have hcopy : copy.opcode ≠ .pop := by simp [(opcode_of_isVariantDup hcopy).1]
  have hplain : store.isInt16Pop = false := by
    simpa [Instruction.isInt16Pop, hstore] using htypes
  simp [preWindow, hsum, hcopy, hstore, hplain]

end Increment

namespace Machine

open GmlLift.Action GmlLift.Increment

section Centre

variable {i copy one sum : Instruction} {op : BinaryOp} {behind rest : List Instruction}

/-- A push of a variable is the centre of no increment. -/
theorem incrementAt?_of_variant (cfg : Settings) (h : i.type1 = .variant)
    (behind ahead : List Instruction) : incrementAt? cfg behind i ahead = none := by
  simp [incrementAt?, find?, isOne, h]

theorem incrementAt?_of_copy (cfg : Settings) (hpush : one.opcode.isPush = true)
    (hone : isOne one = true) (hcopy : copy.isVariantDup = true) (hsum : stepOp? sum = some op) :
    incrementAt? cfg (copy :: i :: behind) one (sum :: rest) = some ⟨op, .post⟩ := by
  simp [incrementAt?, find?, findPost?, copiedBefore, hpush, hone, hcopy, hsum]

/-- Behind the push of a variable there is no postfix form, in either dialect. -/
theorem incrementAt?_of_push (cfg : Settings) (hi : i.opcode.isPush = true)
    (hpush : one.opcode.isPush = true) (hone : isOne one = true) (hsum : stepOp? sum = some op)
    (hcopy : copy.isVariantDup = true) :
    incrementAt? cfg (i :: behind) one (sum :: copy :: rest) = some ⟨op, .pre⟩ := by
  have hcopied (before : Instruction) : copiedBefore cfg i before = false := by
    have hdup : i.opcode ≠ .dup := by
      intro h
      rw [h] at hi
      cases hi
    have hpop : i.opcode ≠ .pop := by
      intro h
      rw [h] at hi
      cases hi
    simp [copiedBefore, Instruction.isVariantDup, Instruction.isPermutation, hdup, hpop]
  have hpost : findPost? cfg (i :: behind) (sum :: copy :: rest) = none := by
    cases behind with
    | nil => rfl
    | cons before behind => simp [findPost?, hcopied]
  simp [incrementAt?, find?, findPre?, hpush, hone, hpost, hcopy, hsum]

end Centre

/-! ## The push of the variable -/

section Step

variable {cfg : Settings} {i : Instruction}

/-- The node of a variable is in the tree. -/
theorem access_holds (cfg : Settings) (position : Nat) (i : Instruction) (m : Machine) :
    (access cfg position i).Meets m (fun a m' => m'.tree.Holds a.node) fun _ => True := by
  unfold access
  cases i.reference with
  | none => trivial
  | some ref =>
    refine .bind_any fun parts m' => .bind (meets_make ?_)
    exact meets_pure (m'.tree.holds_nextId_add _ _)

/-- **A push of a variable goes on to the next instruction**, with a node on top of the stack. -/
theorem step_variable (hpush : i.opcode.isPush = true) (hvariable : i.type1 = .variant)
    (container : NodeId) (behind ahead : List Instruction) (m : Machine) :
    (step cfg container behind i ahead).Meets m
      (fun skip m' => skip = 0 ∧ ∀ below v, m'.stack.toList = below ++ [v] → m'.tree.Holds v)
      fun _ => True := by
  unfold step
  rw [incrementAt?_of_variant cfg hvariable]
  refine .bind_any fun _ m => .bind ?_
  rw [perform_push hpush, pushOperand, if_pos hvariable]
  refine .bind (((access_holds cfg behind.length i m).imp fun a m' hnode => ?_))
  refine meets_change (meets_pure ⟨rfl, fun below v hstack => ?_⟩)
  rw [OperandStack.toList_push] at hstack
  obtain ⟨-, hv⟩ := List.append_inj' hstack rfl
  cases hv
  exact hnode

end Step

/-! ## Both forms -/

/-- **The variable has become an increment**: a new node that has the variable as its one child. The
old nodes are as they were, without a new statement in the container, and a postfix increment marks
the variable as copied. -/
structure Incremented (container : NodeId) (t t' : Tree) (op : BinaryOp) (side : Side)
    (v a : NodeId) : Prop where
  new : ¬ t.Holds a
  node : t'.get? a = some { kind := .assign (.increment op side), children := [v] }
  statements : t.Extends container t' []
  marks : ∀ id, t'.Marked id ↔ t.Marked id ∨ (side = .post ∧ id = v)

theorem incremented_pre (container : NodeId) (t : Tree) (op : BinaryOp) (v : NodeId) :
    Incremented container t (t.add (.assign (.increment op .pre)) [v]) op .pre v t.nextId where
  new := t.not_holds_nextId
  node := t.get?_add_nextId ..
  statements := Tree.extends_add ..
  marks _ := by simp

theorem incremented_post (container : NodeId) {t t₁ : Tree} {v : NodeId}
    (h : t.setDuplicated? v true = some t₁) (op : BinaryOp) :
    Incremented container t (t₁.add (.assign (.increment op .post)) [v]) op .post v
      t₁.nextId where
  new := by
    unfold Tree.nextId
    rw [Tree.size_update? h]
    exact t.not_holds_nextId
  node := t₁.get?_add_nextId ..
  statements := (Tree.extends_setDuplicated container h).trans (Tree.extends_add ..)
  marks _ := by simp [Tree.marked_setDuplicated? h]

section Recovery

variable {cfg : Settings} {container v : NodeId} {code rest : List Instruction}
  {i copy one sum store : Instruction} {m m' : Machine} {k : Nat} {op : BinaryOp}
  {below : List NodeId}

theorem get_of_drop {ahead : List Instruction} (h : code.drop k = i :: ahead) :
    code[k]? = some i ∧ code.drop (k + 1) = ahead := by
  rw [← List.head?_drop, ← List.tail_drop, h]
  exact ⟨rfl, rfl⟩

theorem reverse_take_succ (hi : code[k]? = some i) :
    (code.take (k + 1)).reverse = i :: (code.take k).reverse := by
  rw [List.take_add_one, hi, Option.toList_some, List.reverse_append]
  rfl

theorem eq_mk_of_toList (h : m.stack.toList = below ++ [v]) :
    m = ⟨m.tree, ⟨v :: below.reverse⟩⟩ := by
  obtain ⟨t, ⟨items⟩⟩ := m
  have hitems : items = v :: below.reverse := by
    rw [← List.reverse_reverse items]
    exact (congrArg List.reverse h).trans (by simp)
  rw [hitems]

/-- A copy of the one variable on top marks it. -/
theorem next?_of_copy (quiet : cfg.verbosity = none) (hget : code[k]? = some copy)
    (hcopy : copy.isVariantDup = true) (hextra : copy.extra = 0) (hflag : copy.comparison = 0)
    {t : Tree} (hv : t.Holds v) (items : List NodeId) :
    ∃ t₁, t.setDuplicated? v true = some t₁ ∧
      next? cfg container code (k, ⟨t, ⟨v :: items⟩⟩) = some (k + 1, ⟨t₁, ⟨v :: v :: items⟩⟩) := by
  obtain ⟨hdup, hty⟩ := opcode_of_isVariantDup hcopy
  have hcount : copy.dupCount = 1 := by simp [Instruction.dupCount, hextra, hty, DataType.slots]
  obtain ⟨t₁, ht₁⟩ : ∃ t₁, t.setDuplicated? v true = some t₁ :=
    Option.isSome_iff_exists.mp (Tree.isSome_update?_iff.mpr hv)
  have hmark : markAll? t ((v :: items).take copy.dupCount) = some t₁ := by
    rw [hcount, List.take_succ_cons, List.take_zero, markAll?, List.foldlM_cons, ht₁]
    rfl
  have hcopied : Performs cfg container copy ⟨t, ⟨v :: items⟩⟩
      ⟨t₁, ⟨(v :: items).take copy.dupCount ++ v :: items⟩⟩ :=
    .duplicate hdup hflag (by simp [hcount]) hmark
  rw [hcount] at hcopied
  have hnone : incrementAt? cfg (code.take k).reverse copy (code.drop (k + 1)) = none :=
    incrementAt?_of_variant cfg hty _ _
  exact ⟨t₁, ht₁, next?_of_advances quiet hget (.performed hnone hcopied)⟩

/-- **A postfix increment is recovered** in two steps: the copy, and then the window. -/
theorem next?_of_postCode (quiet : cfg.verbosity = none) (hi : code[k]? = some i)
    (hv : m.tree.Holds v) (hstack : m.stack.toList = below ++ [v]) {window : List Instruction}
    (hwindow : PostCode op window) (hahead : code.drop (k + 1) = window ++ rest)
    (hrest : ∀ next ∈ rest.head?, next.isPermutation = false) :
    ∃ a m₁ m₂, next? cfg container code (k + 1, m) = some (k + 2, m₁) ∧
      next? cfg container code (k + 2, m₁) = some (k + 1 + window.length, m₂) ∧
      m₂.stack.toList = below ++ [a] ∧ Incremented container m.tree m₂.tree op .post v a := by
  cases hwindow with
  | @intro copy one sum pops hcopy hextra hflag hpush hone hsum hpops hstore =>
    obtain ⟨hget₁, hahead₁⟩ := get_of_drop hahead
    obtain ⟨hget₂, hahead₂⟩ := get_of_drop hahead₁
    obtain ⟨t₁, ht₁, hcopied⟩ := next?_of_copy quiet hget₁ hcopy hextra hflag hv below.reverse
    have hfound : incrementAt? cfg (code.take (k + 2)).reverse one (code.drop (k + 2 + 1)) =
        some ⟨op, .post⟩ := by
      rw [reverse_take_succ hget₁, reverse_take_succ hi, hahead₂]
      exact incrementAt?_of_copy cfg hpush hone hcopy hsum
    have hspan : (postWindow (code.drop (k + 2 + 1))).span = pops.length + 1 := by
      rw [hahead₂]
      exact postWindow_span hpops hstore hrest
    rw [eq_mk_of_toList hstack]
    refine ⟨t₁.nextId, ⟨t₁, ⟨v :: v :: below.reverse⟩⟩,
      ⟨t₁.add (.assign (.increment op .post)) [v], ⟨t₁.nextId :: below.reverse⟩⟩,
      hcopied, ?_, by simp [OperandStack.toList], incremented_post container ht₁ op⟩
    rw [next?_of_advances quiet hget₂ (.post hfound), hspan, List.length_cons, List.length_cons,
      List.length_cons]
    congr 2
    omega

/-- **A prefix increment is recovered** in one step. -/
theorem next?_of_preCode (quiet : cfg.verbosity = none) (hi : code[k]? = some i)
    (hpush : i.opcode.isPush = true) (hstack : m.stack.toList = below ++ [v])
    {window : List Instruction} (hwindow : PreCode op window)
    (hahead : code.drop (k + 1) = window ++ rest) :
    ∃ a m₁, next? cfg container code (k + 1, m) = some (k + 1 + window.length, m₁) ∧
      m₁.stack.toList = below ++ [a] ∧ Incremented container m.tree m₁.tree op .pre v a := by
  cases hwindow with
  | @intro one sum copy store hone_push hone hsum hcopy hstore htypes =>
    obtain ⟨hget₁, hahead₁⟩ := get_of_drop hahead
    have hfound : incrementAt? cfg (code.take (k + 1)).reverse one (code.drop (k + 1 + 1)) =
        some ⟨op, .pre⟩ := by
      rw [reverse_take_succ hi, hahead₁]
      exact incrementAt?_of_push cfg hpush hone_push hone hsum hcopy
    have hwindow : preWindow (code.drop (k + 1 + 1)) = ⟨3, false⟩ := by
      rw [hahead₁]
      exact preWindow_store rest hsum hcopy hstore htypes
    rw [eq_mk_of_toList hstack]
    refine ⟨m.tree.nextId, ⟨m.tree.add (.assign (.increment op .pre)) [v],
      ⟨m.tree.nextId :: below.reverse⟩⟩, ?_, by simp [OperandStack.toList],
      incremented_pre container m.tree op v⟩
    rw [next?_of_advances quiet hget₁ (.pre hfound (by rw [hwindow])), hwindow]
    rfl

end Recovery

/-- **Increments are recovered in any surroundings.** Behind the push of a variable, however that is
addressed, the code of a postfix or of a prefix increment is passed over, and the increment stands
on the stack in the place of the variable. -/
theorem increment_recovered (version : Version) {container v : NodeId} {code : List Instruction}
    {m₀ m m' : Machine} {k : Nat} {i : Instruction} {below : List NodeId}
    (hrun : Executes { version } container code m₀ k i m m') (hpush : i.opcode.isPush = true)
    (hvariable : i.type1 = .variant) (hstack : m'.stack.toList = below ++ [v]) :
    (∀ op window rest, PostCode op window → code.drop (k + 1) = window ++ rest →
      (∀ next ∈ rest.head?, next.isPermutation = false) →
      ∃ a m₁ m₂, next? { version } container code (k + 1, m') = some (k + 2, m₁) ∧
        next? { version } container code (k + 2, m₁) = some (k + 1 + window.length, m₂) ∧
        Arrives { version } container code m₀ (k + 1 + window.length) m₂ ∧
        m₂.stack.toList = below ++ [a] ∧ Incremented container m'.tree m₂.tree op .post v a) ∧
    (∀ op window rest, PreCode op window → code.drop (k + 1) = window ++ rest →
      ∃ a m₁, next? { version } container code (k + 1, m') = some (k + 1 + window.length, m₁) ∧
        Arrives { version } container code m₀ (k + 1 + window.length) m₁ ∧
        m₁.stack.toList = below ++ [a] ∧ Incremented container m'.tree m₁.tree op .pre v a) := by
  obtain ⟨way, hi, ⟨skip, hok⟩, rfl⟩ := hrun
  obtain ⟨rfl, hheld⟩ := (meets_of_ok hok).mp (step_variable hpush hvariable ..)
  have way' := way.step hi hok
  have quiet : ({ version } : Settings).verbosity = none := rfl
  constructor
  · intro op window rest hwindow hahead hrest
    obtain ⟨a, m₁, m₂, hcopied, hpassed, hrecovered⟩ :=
      next?_of_postCode quiet hi (hheld below v hstack) hstack hwindow hahead hrest
    exact ⟨a, m₁, m₂, hcopied, hpassed, (way'.next hcopied).next hpassed, hrecovered⟩
  · intro op window rest hwindow hahead
    obtain ⟨a, m₁, hpassed, hrecovered⟩ :=
      next?_of_preCode quiet hi hpush hstack hwindow hahead
    exact ⟨a, m₁, hpassed, way'.next hpassed, hrecovered⟩

/-- The instruction that reads an element of the array `var7`. -/
def readElement : Instruction :=
  { opcode := .push, type1 := .variant, reference := some ⟨7, .array⟩, owner := .self }

/-- Code that reads `5.var7[0]` above another number. What it does with the element is left open. -/
def withElement (window rest : List Instruction) : List Instruction :=
  let number (n : Int32) : Instruction :=
    { opcode := .push, type1 := .int32, literal := some (.int32 n) }
  [number 2, number 5, number 0, readElement] ++ (window ++ rest)

theorem executes_readElement (window rest : List Instruction) :
    ∃ m m', Executes {} Tree.root (withElement window rest) {} 3 readElement m m' ∧
      m'.stack.toList = [⟨1⟩] ++ [⟨4⟩] := by
  have hbefore : (after {} Tree.root (withElement window rest) {} 3).map Prod.fst = some 3 := rfl
  have hafter : (after {} Tree.root (withElement window rest) {} 4).map (·.2.stack.toList) =
      some [⟨1⟩, ⟨4⟩] := rfl
  obtain ⟨⟨k, m⟩, hm, rfl⟩ := Option.map_eq_some_iff.mp hbefore
  obtain ⟨⟨k', m'⟩, hm', hstack⟩ := Option.map_eq_some_iff.mp hafter
  exact ⟨m, m', executes_of_after hm rfl hm', hstack⟩

/-- The element is incremented, with the store between two rearrangements and another store behind
the window. Then it is decremented, with a copy of more than one value. -/
theorem increment_recovered_element :
    let one : Instruction := { opcode := .push, type1 := .int16, literal := some (.int16 1) }
    let swap : Instruction := { opcode := .pop, type1 := .int16, type2 := .variant }
    let write : Instruction :=
      { opcode := .pop, type1 := .variant, type2 := .variant, reference := some ⟨7, .array⟩ }
    let plus := [{ opcode := .dup, type1 := .variant }, one, { opcode := .add }, swap, write, swap]
    let minus := [one, { opcode := .sub }, { opcode := .dup, type1 := .variant, extra := 3 }, write]
    PostCode .add plus ∧ PreCode .sub minus ∧
    (∃ m m' a m₂, Executes {} Tree.root (withElement plus [write]) {} 3 readElement m m' ∧
      Arrives {} Tree.root (withElement plus [write]) {} 10 m₂ ∧
      m₂.stack.toList = [⟨1⟩, a] ∧ Incremented Tree.root m'.tree m₂.tree .add .post ⟨4⟩ a) ∧
    ∃ m m' a m₁, Executes {} Tree.root (withElement minus []) {} 3 readElement m m' ∧
      Arrives {} Tree.root (withElement minus []) {} 8 m₁ ∧
      m₁.stack.toList = [⟨1⟩, a] ∧ Incremented Tree.root m'.tree m₁.tree .sub .pre ⟨4⟩ a := by
  intro one swap write plus minus
  have hplus : PostCode .add plus :=
    .intro (by decide) rfl rfl rfl (by decide) rfl (by decide) (by decide)
  have hminus : PreCode .sub minus := .intro rfl (by decide) rfl (by decide) rfl (by decide)
  refine ⟨hplus, hminus, ?_, ?_⟩
  · obtain ⟨m, m', hread, hstack⟩ := executes_readElement plus [write]
    obtain ⟨a, m₁, m₂, -, -, way, htop, hincremented⟩ :=
      (increment_recovered {} hread rfl rfl hstack).1 .add plus [write] hplus rfl (by decide)
    exact ⟨m, m', a, m₂, hread, way, htop, hincremented⟩
  · obtain ⟨m, m', hread, hstack⟩ := executes_readElement minus []
    obtain ⟨a, m₁, -, way, htop, hincremented⟩ :=
      (increment_recovered {} hread rfl rfl hstack).2 .sub minus [] hminus rfl
    exact ⟨m, m', a, m₁, hread, way, htop, hincremented⟩

end Machine

end GmlLift
