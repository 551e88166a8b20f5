import GmlLift.Proofs.Execution.Effect

/-!
# A source language and its code

Expressions and statements as an author writes them, and the straight-line code that a compiler
makes of them: operands before operators, the last argument of a call first, and increments as the
windows that the lifter looks for.

Windows are found by what stands next to a push, so pieces of code must not touch in a way that
makes a window of them. `HeadTame behind` and `Clear rest` say that the code before and after a
piece of code is harmless (`incrementAt?_of_tame`), and all code of the language begins and ends
harmlessly (`Expr.startsWell`, `Expr.endsWell`, `Stmt.startsWell`, `Stmt.endsWell`). The windows
that are meant are found, and end where their code ends (`incrementAt?_pre`, `incrementAt?_post`,
`preWindow_increment`, `postWindow_increment`).
-/

namespace GmlLift

/-- The opcode of an operator on two operands. -/
def BinaryOp.opcode : BinaryOp → Opcode
  | add => .add
  | sub => .sub
  | mul => .mul
  | div => .div
  | and => .and
  | or => .or
  | mod => .mod
  | rem => .rem
  | xor => .xor
  | shl => .shl
  | shr => .shr
  | compare _ => .cmp

/-- The number of the relation that a comparison tests. -/
def BinaryOp.relation : BinaryOp → UInt8
  | compare c => c.byte
  | _ => 0

namespace Source

/-! ## Syntax -/

/-- The four opcodes that push a variable or a literal. -/
abbrev PushOp : Type := { op : Opcode // op.isPush = true }

/-- A literal and the opcode that pushes it; an immediate push takes integers only. -/
structure Constant where
  value : Literal
  opcode : Opcode
  fits : opcode.isPush = true ∨ (opcode = .pushI ∧ value.dataType.isInteger = true)

/-- What an instruction says of a variable. -/
structure Variable where
  target : UInt32
  addressing : Addressing
  owner : Owner
  deriving DecidableEq, Repr

/-- The instruction alone says whose variable it is. -/
def Variable.IsNamed (x : Variable) : Prop :=
  x.owner ≠ .stackTop ∧ x.addressing ≠ .stackTop ∧ x.addressing ≠ .array

/-- The owner is an expression. -/
def Variable.IsMember (x : Variable) : Prop := x.owner = .stackTop ∨ x.addressing = .stackTop

/-- The owner and an index are expressions. -/
def Variable.IsElement (x : Variable) : Prop := x.owner ≠ .stackTop ∧ x.addressing = .array

/-- The direction of an increment. -/
inductive Step where
  | up | down
  deriving DecidableEq, Repr

def Step.op : Step → BinaryOp
  | up => .add
  | down => .sub

mutual
/-- An expression. A call has as many arguments as its count says. -/
inductive Expr where
  | constant (c : Constant)
  | read (via : PushOp) (place : Place)
  | unary (op : UnaryOp) (type : DataType) (operand : Expr)
  | binary (op : BinaryOp) (left right : Expr)
  | call (target : UInt32) (count : UInt16) (arguments : Fin count.toNat → Expr)
  | increment (step : Step) (side : Side) (via : PushOp) (x : Variable) (named : x.IsNamed)
/-- A variable with the expressions through which it is reached. -/
inductive Place where
  | named (x : Variable) (h : x.IsNamed)
  | member (x : Variable) (h : x.IsMember) (object : Expr)
  | element (x : Variable) (h : x.IsElement) (object index : Expr)
end

/-- The variable of a place. -/
def Place.variable : Place → Variable
  | named x _ => x
  | member x _ _ => x
  | element x _ _ _ => x

/-- How many expressions a place is reached through. -/
def Place.width : Place → Nat
  | named _ _ => 0
  | member _ _ _ => 1
  | element _ _ _ _ => 2

/-- A statement. A plain store has its value below the operands of the place or above them; an
update is `place op= value`, and its place is reached through expressions. -/
inductive Stmt where
  | storeBelow (place : Place) (value : Expr)
  | storeAbove (place : Place) (value : Expr)
  | update (via : PushOp) (place : Place) (onStack : 0 < place.width) (op : BinaryOp)
      (value : Expr)
  | ret (value : Expr)
  | exit
  | discard (value : Expr)

/-! ## Code -/

def Constant.instruction (c : Constant) : Instruction :=
  { opcode := c.opcode, type1 := c.value.dataType, literal := some c.value }

def Variable.push (x : Variable) (via : PushOp) : Instruction :=
  { opcode := via.1, type1 := .variant, reference := some ⟨x.target, x.addressing⟩,
    owner := x.owner }

/-- A store of a variant takes its value from below the operands, a store of a 32-bit integer from
above them. -/
def Variable.pop (x : Variable) (type : DataType) : Instruction :=
  { opcode := .pop, type1 := type, reference := some ⟨x.target, x.addressing⟩, owner := x.owner }

def operator (op : BinaryOp) : Instruction :=
  { opcode := op.opcode, comparison := op.relation }

/-- A copy of the top `extra + 1` items. -/
def copy (type : DataType) (extra : UInt8) : Instruction :=
  { opcode := .dup, type1 := type, extra }

/-- The 16-bit literal 1. -/
def one : Instruction :=
  { opcode := .push, type1 := .int16, literal := some (.int16 1) }

def incrementCode (step : Step) (side : Side) (via : PushOp) (x : Variable) : List Instruction :=
  match side with
  | .post => [x.push via, copy .variant 0, one, operator step.op, x.pop .variant]
  | .pre => [x.push via, one, operator step.op, copy .variant 0, x.pop .variant]

mutual
/-- The code of an expression. -/
def Expr.code : Expr → List Instruction
  | .constant c => [c.instruction]
  | .read via place => place.operands ++ [place.variable.push via]
  | .unary op type operand => operand.code ++ [{ opcode := op.opcode, type1 := type }]
  | .binary op left right => left.code ++ right.code ++ [operator op]
  | .call target count arguments =>
    (List.ofFn fun k => (arguments k).code).reverse.flatten ++
      [{ opcode := .call, function := some target, argumentCount := count }]
  | .increment step side via x _ => incrementCode step side via x
/-- The code of the expressions through which a place is reached. -/
def Place.operands : Place → List Instruction
  | .named _ _ => []
  | .member _ _ object => object.code
  | .element _ _ object index => object.code ++ index.code
end

/-- A copy of the operands of a place that has some. -/
def Place.copyOperands (place : Place) : Instruction :=
  copy .int32 (if place.width = 2 then 1 else 0)

/-- The code of a statement. An update copies the operands of its place, reads the place through
the copies and stores through what was copied. -/
def Stmt.code : Stmt → List Instruction
  | .storeBelow place value => value.code ++ place.operands ++ [place.variable.pop .variant]
  | .storeAbove place value => place.operands ++ value.code ++ [place.variable.pop .int32]
  | .update via place _ op value =>
    place.operands ++ [place.copyOperands, place.variable.push via] ++
      value.code ++ [operator op] ++ [place.variable.pop .int32]
  | .ret value => value.code ++ [{ opcode := .ret }]
  | .exit => [{ opcode := .exit }]
  | .discard value => value.code ++ [{ opcode := .popz }]

/-- The instruction neither copies a variant nor rearranges the stack. -/
def IsTame (i : Instruction) : Prop := i.isVariantDup = false ∧ i.isPermutation = false

/-- The first instruction, if there is one, is tame. -/
def HeadTame (code : List Instruction) : Prop := ∀ i ∈ code.head?, IsTame i

/-- The first instruction is tame, and so is the second if the first may be a part of a window. -/
def Clear (code : List Instruction) : Prop :=
  HeadTame code ∧ ∀ i rest, code = i :: rest → Increment.stepOp? i ≠ none → HeadTame rest

/-- The code begins with a tame instruction that is neither an addition nor a subtraction. -/
def StartsWell (code : List Instruction) : Prop :=
  ∃ i rest, code = i :: rest ∧ IsTame i ∧ Increment.stepOp? i = none

/-- The code ends with a tame instruction. -/
def EndsWell (code : List Instruction) : Prop := ∃ rest i, code = rest ++ [i] ∧ IsTame i

theorem headTame_cons {i : Instruction} {rest : List Instruction} (h : IsTame i) :
    HeadTame (i :: rest) := by
  intro j hj
  cases hj
  exact h

theorem clear_cons {i : Instruction} {rest : List Instruction} (hi : IsTame i)
    (hrest : HeadTame rest) : Clear (i :: rest) := by
  refine ⟨headTame_cons hi, fun j more h _ => ?_⟩
  cases h
  exact hrest

theorem StartsWell.clear {code : List Instruction} (h : StartsWell code)
    (rest : List Instruction) : Clear (code ++ rest) := by
  obtain ⟨i, more, rfl, hi, hs⟩ := h
  refine ⟨headTame_cons hi, fun j tail hj hstep => ?_⟩
  cases hj
  exact absurd hs hstep

theorem StartsWell.append {code : List Instruction} (h : StartsWell code)
    (rest : List Instruction) : StartsWell (code ++ rest) := by
  obtain ⟨i, more, rfl, hi, hs⟩ := h
  exact ⟨i, more ++ rest, rfl, hi, hs⟩

theorem EndsWell.append {code : List Instruction} (h : EndsWell code)
    (more : List Instruction) : EndsWell (more ++ code) := by
  obtain ⟨rest, i, rfl, hi⟩ := h
  exact ⟨more ++ rest, i, (List.append_assoc ..).symm, hi⟩

theorem EndsWell.headTame {code : List Instruction} (h : EndsWell code)
    (behind : List Instruction) : HeadTame (code.reverse ++ behind) := by
  obtain ⟨rest, i, rfl, hi⟩ := h
  rw [List.reverse_append]
  exact headTame_cons hi

theorem findPost?_of_tame {behind : List Instruction} (hb : HeadTame behind) (cfg : Settings)
    (rest : List Instruction) : Increment.findPost? cfg behind rest = none := by
  unfold Increment.findPost?
  split
  · rename_i last beforeLast _ next _
    obtain ⟨hdup, hperm⟩ := hb last rfl
    rw [if_neg (by simp [Increment.copiedBefore, hdup, hperm])]
  · rfl

/-- **No window across a seam.** Between tame code no push is the centre of an increment window. -/
theorem incrementAt?_of_tame {behind rest : List Instruction} (hb : HeadTame behind)
    (hr : Clear rest) (cfg : Settings) (i : Instruction) :
    Machine.incrementAt? cfg behind i rest = none := by
  have hpre : Increment.findPre? rest = none := by
    unfold Increment.findPre?
    split
    · rename_i next copy more
      by_cases hstep : Increment.stepOp? next = none
      · rw [hstep]
        simp
      · obtain ⟨hdup, -⟩ := hr.2 next (copy :: more) rfl hstep copy rfl
        rw [if_neg (by simp [hdup])]
    · rfl
  unfold Machine.incrementAt? Increment.find?
  rw [findPost?_of_tame hb, hpre]
  simp

/-! ## Code of the language touches nothing -/

theorem isTame_of_opcode {i : Instruction} (hd : i.opcode ≠ .dup) (hp : i.opcode ≠ .pop) :
    IsTame i := by
  simp [IsTame, Instruction.isVariantDup, Instruction.isPermutation, hd, hp]

theorem isTame_pop (x : Variable) (type : DataType) : IsTame (x.pop type) := by
  simp [IsTame, Instruction.isVariantDup, Instruction.isPermutation, Variable.pop]

theorem isTame_push (x : Variable) (via : PushOp) : IsTame (x.push via) := by
  obtain ⟨op, hop⟩ := via
  apply isTame_of_opcode <;>
    · rintro rfl
      cases hop

theorem isTame_operator (op : BinaryOp) : IsTame (operator op) := by
  apply isTame_of_opcode <;> cases op <;> simp [operator, BinaryOp.opcode]

theorem stepOp?_of_opcode {i : Instruction} (ha : i.opcode ≠ .add) (hs : i.opcode ≠ .sub) :
    Increment.stepOp? i = none := by
  unfold Increment.stepOp?
  split
  · contradiction
  · contradiction
  · rfl

theorem startsWell_of_isPush {i : Instruction} (h : i.opcode.isPush = true)
    (rest : List Instruction) : StartsWell (i :: rest) := by
  refine ⟨i, rest, rfl, isTame_of_opcode ?_ ?_, stepOp?_of_opcode ?_ ?_⟩ <;>
    · intro hop
      rw [hop] at h
      cases h

theorem Constant.startsWell (c : Constant) : StartsWell [c.instruction] := by
  rcases c.fits with h | ⟨h, -⟩
  · exact startsWell_of_isPush h []
  · have hop : c.instruction.opcode = .pushI := h
    refine ⟨c.instruction, [], rfl, isTame_of_opcode ?_ ?_, stepOp?_of_opcode ?_ ?_⟩ <;>
      · rw [hop]
        decide

theorem startsWell_push (x : Variable) (via : PushOp) (rest : List Instruction) :
    StartsWell (x.push via :: rest) :=
  startsWell_of_isPush via.2 rest

theorem startsWell_flatten {codes : List (List Instruction)} {rest : List Instruction}
    (h : ∀ code ∈ codes, StartsWell code) (hr : StartsWell rest) :
    StartsWell (codes.flatten ++ rest) := by
  cases codes with
  | nil => exact hr
  | cons code codes =>
    rw [List.flatten_cons, List.append_assoc]
    exact (h code List.mem_cons_self).append _

mutual
theorem Expr.startsWell : ∀ e : Expr, StartsWell e.code
  | .constant c => c.startsWell
  | .read via place => place.startsWell_operands (startsWell_push place.variable via [])
  | .unary _ _ operand => operand.startsWell.append _
  | .binary _ left _ => (left.startsWell.append _).append _
  | .call _ _ arguments => by
    rw [Expr.code]
    refine startsWell_flatten (fun code hc => ?_)
      ⟨_, [], rfl, isTame_of_opcode (by simp) (by simp), rfl⟩
    obtain ⟨k, rfl⟩ := List.mem_ofFn.mp (List.mem_reverse.mp hc)
    exact (arguments k).startsWell
  | .increment _ side via x _ => by
    cases side <;> exact startsWell_push x via _
theorem Place.startsWell_operands : ∀ (place : Place) {rest : List Instruction},
    StartsWell rest → StartsWell (place.operands ++ rest)
  | .named _ _, _, hr => hr
  | .member _ _ object, _, _ => object.startsWell.append _
  | .element _ _ object _, _, _ => (object.startsWell.append _).append _
end

theorem Expr.endsWell (e : Expr) : EndsWell e.code := by
  cases e with
  | constant c =>
    obtain ⟨i, rest, hi, htame, -⟩ := c.startsWell
    cases hi
    exact ⟨[], _, rfl, htame⟩
  | read via place =>
    obtain ⟨i, rest, hi, htame, -⟩ := startsWell_push place.variable via []
    cases hi
    exact ⟨_, _, rfl, htame⟩
  | unary op type operand =>
    refine ⟨_, _, rfl, isTame_of_opcode ?_ ?_⟩ <;> cases op <;> simp [UnaryOp.opcode]
  | binary op left right => exact ⟨_, _, rfl, isTame_operator op⟩
  | call target count arguments => exact ⟨_, _, rfl, isTame_of_opcode (by simp) (by simp)⟩
  | increment step side via x named =>
    cases side with
    | pre => exact ⟨[_, _, _, _], _, rfl, isTame_pop x .variant⟩
    | post => exact ⟨[_, _, _, _], _, rfl, isTame_pop x .variant⟩

theorem Stmt.startsWell (s : Stmt) : StartsWell s.code := by
  cases s with
  | storeBelow place value => exact (value.startsWell.append _).append _
  | storeAbove place value =>
    rw [Stmt.code, List.append_assoc]
    exact place.startsWell_operands (value.startsWell.append _)
  | update via place onStack op value =>
    cases place with
    | named x h => cases onStack
    | member x h object => exact (((object.startsWell.append _).append _).append _).append _
    | element x h object index =>
      exact ((((object.startsWell.append _).append _).append _).append _).append _
  | ret value => exact value.startsWell.append _
  | exit => exact ⟨_, [], rfl, isTame_of_opcode (by simp) (by simp), rfl⟩
  | discard value => exact value.startsWell.append _

theorem Stmt.endsWell (s : Stmt) : EndsWell s.code := by
  cases s with
  | storeBelow place value => exact ⟨_, _, rfl, isTame_pop _ _⟩
  | storeAbove place value => exact ⟨_, _, rfl, isTame_pop _ _⟩
  | update via place onStack op value => exact ⟨_, _, rfl, isTame_pop _ _⟩
  | ret value => exact ⟨_, _, rfl, isTame_of_opcode (by simp) (by simp)⟩
  | exit => exact ⟨[], _, rfl, isTame_of_opcode (by simp) (by simp)⟩
  | discard value => exact ⟨_, _, rfl, isTame_of_opcode (by simp) (by simp)⟩

/-! ## Windows of increments -/

section Windows

variable {behind rest : List Instruction}

theorem incrementAt?_pre (hb : HeadTame behind) (cfg : Settings) (step : Step) (x : Variable)
    (rest : List Instruction) :
    Machine.incrementAt? cfg behind one
      ([operator step.op, copy .variant 0, x.pop .variant] ++ rest) = some ⟨step.op, .pre⟩ := by
  show (Increment.findPost? cfg behind _).or (Increment.findPre? _) = _
  rw [findPost?_of_tame hb]
  cases step <;> rfl

theorem preWindow_increment (step : Step) (x : Variable) (rest : List Instruction) :
    Increment.preWindow ([operator step.op, copy .variant 0, x.pop .variant] ++ rest) =
      ⟨3, false⟩ := by
  cases step <;> rfl

theorem incrementAt?_post (cfg : Settings) (i : Instruction) (behind : List Instruction)
    (step : Step) (x : Variable) (rest : List Instruction) :
    Machine.incrementAt? cfg (copy .variant 0 :: i :: behind) one
      ([operator step.op, x.pop .variant] ++ rest) = some ⟨step.op, .post⟩ := by
  cases step <;> rfl

/-- Nothing after a store belongs to its postfix window. -/
theorem writeBack_of_tame (h : HeadTame rest) :
    Increment.writeBack true rest = 0 := by
  cases rest with
  | nil => rfl
  | cons i rest =>
    obtain ⟨-, hperm⟩ := h i rfl
    unfold Increment.writeBack
    simp [hperm]

theorem postWindow_increment (hr : HeadTame rest) (step : Step) (x : Variable) :
    Increment.postWindow ([operator step.op, x.pop .variant] ++ rest) = ⟨2, false⟩ := by
  show Window.mk (Increment.writeBack true rest + 1 + 1) false = _
  rw [writeBack_of_tame hr]

end Windows

end Source

end GmlLift
