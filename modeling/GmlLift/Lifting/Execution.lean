import GmlLift.Bytecode.Listing
import GmlLift.Bytecode.StackEffect
import GmlLift.Lifting.Increment
import GmlLift.Lifting.Machine

/-!
# Execution of straight-line code

Code is run on expressions instead of values: a push makes an expression, an operator takes two and
leaves one, a store takes them and leaves a statement in the container.

`perform` is the effect of one instruction by itself. `step` first looks whether the instruction
is the centre of an increment window and then answers how many of the following instructions it
has dealt with. `execute` goes through the code from left to right.
-/

namespace GmlLift

/-- The operator of a binary instruction. -/
def Instruction.operator (i : Instruction) : Except Unsupported BinaryOp :=
  match i.opcode with
  | .cmp =>
    match Comparison.ofByte? i.comparison with
    | some relation => .ok (.compare relation)
    | none => .error .relation
  | opcode =>
    match BinaryOp.ofOpcode? opcode .none with
    | some op => .ok op
    | none => .error .operator

/-- The payload of an instruction, if it is of the type that its tag says. -/
def Instruction.payload {α : Type} (i : Instruction) (position : Nat) (read : Literal → Option α) :
    Except LiftError α :=
  match i.literal.bind read with
  | some v => .ok v
  | none => .error (.malformedLiteral position i.type1)

/-- The literal node that an instruction pushes (`literal`). -/
def Instruction.literalKind (i : Instruction) (position : Nat) : Except LiftError Kind :=
  match i.type1 with
  | .int16 => (i.payload position Literal.int16?).map (.int16 · i.opcode)
  | .int32 => (i.payload position Literal.int32?).map .int32
  | .int64 => (i.payload position Literal.int64?).map .int64
  | .double => (i.payload position Literal.double?).map .double
  | .float => (i.payload position Literal.float?).map .float
  | .boolean => (i.payload position Literal.boolean?).map .boolean
  | .string => (i.payload position Literal.string?).map .string
  | _ => .error (.unsupported position i.opcode .pushType)

/-- A variable that has been reached: its node, its owner's node and how it is addressed. -/
structure Access where
  node : NodeId
  owner : NodeId
  addressing : Addressing
  deriving DecidableEq, Repr

namespace Machine

open GmlLift.Action

/-- Fails because of the instruction at a position. -/
def refuse {α : Type} (position : Nat) (i : Instruction) (what : Unsupported) : Action Machine α :=
  fail (.unsupported position i.opcode what)

/-! ## Variables and literals -/

/-- The owner and the indices of a variable (the first half of `variable`): from the stack, or by
the instruction's own owner. -/
def reach (cfg : Settings) (position : Nat) (owner : Owner) (addressing : Addressing) :
    Action Machine (NodeId × List NodeId) :=
  if owner = .stackTop || addressing = .stackTop then do
    let left ← pop position
    return (left, [])
  else if addressing = .array then do
    let index ← pop position
    let indices ← arrayIndices cfg index
    let left ← pop position
    return (left, indices)
  else do
    let left ← make (.owner owner.code)
    return (left, [])

/-- Makes the node of the variable that an instruction refers to (`variable`). -/
def access (cfg : Settings) (position : Nat) (i : Instruction) : Action Machine Access :=
  match i.reference with
  | none => fail (.missingReference position)
  | some ref => do
    let (left, indices) ← reach cfg position i.owner ref.addressing
    let node ← make (.var ref.target ref.addressing (some left)) indices
    return ⟨node, left, ref.addressing⟩

/-- Pushes the literal of an instruction. -/
def pushLiteral (position : Nat) (i : Instruction) : Action Machine Unit :=
  match i.literalKind position with
  | .ok kind => pushNew kind
  | .error e => fail e

/-- Pushes the variable or the literal of an instruction (`exec_push`). -/
def pushOperand (cfg : Settings) (position : Nat) (i : Instruction) : Action Machine Unit :=
  if i.type1 = .variant then do
    let target ← access cfg position i
    push target.node
  else pushLiteral position i

/-- Pushes the literal of an instruction, which must be an integer (`exec_push_immediate`). -/
def pushImmediate (position : Nat) (i : Instruction) : Action Machine Unit :=
  match i.type1 with
  | .int16 | .int32 | .int64 => pushLiteral position i
  | _ => refuse position i .immediateType

/-! ## Stores and rearrangements -/

/-- Puts the assignment of a value into the container, as a compound assignment if it is one (the
end of `exec_pop`). -/
def assign (cfg : Settings) (container : NodeId) (position : Nat) (target : Access)
    (value : NodeId) : Action Machine Unit := do
  let m ← state
  match m.tree.compound? target.owner target.addressing value with
  | none => halt .outOfRange
  | some (some (op, right)) =>
    let statement ← make (.assign (.compound op)) [target.node, right]
    describe cfg .debug statement fun text => s!"compound assignment at {position}: {text}"
    append container statement
  | some none =>
    let statement ← make (.assign .plain) [target.node, value]
    append container statement

/-- Stores a value in a variable (`exec_pop`). A store of a 32-bit integer has the value on top of
the operands of the variable, a store of a variant below them. -/
def store (cfg : Settings) (container : NodeId) (position : Nat) (i : Instruction) :
    Action Machine Unit :=
  match i.type1 with
  | .int32 => do
    let value ← pop position
    let target ← access cfg position i
    assign cfg container position target value
  | .variant => do
    let target ← access cfg position i
    let value ← pop position
    assign cfg container position target value
  | _ => refuse position i .storeType

/-- Keeps the top two items in their order and drops what the instruction says from under them
(`exec_permutation`). -/
def permute (position : Nat) (i : Instruction) : Action Machine Unit := do
  let first ← pop position
  let second ← pop position
  let _ ← popMany position i.dropCount
  push second
  push first

/-- Marks the top items as copied and pushes them once more (`exec_dup`). -/
def duplicate (position : Nat) (i : Instruction) : Action Machine Unit :=
  if i.comparison = 0 then do
    let m ← state
    if m.stack.depth < i.dupCount then fail (.underflow position)
    else
      edit fun tree =>
        (m.stack.items.take i.dupCount).foldlM (fun t id => t.setDuplicated? id true) tree
      change fun m => { m with stack := m.stack.copyTop i.dupCount }
  else refuse position i .stackMove

/-! ## Operators, calls and statements -/

/-- An operator on the two topmost items (`exec_binary`); the right operand is on top. -/
def operate (position : Nat) (i : Instruction) : Action Machine Unit :=
  match i.operator with
  | .error what => refuse position i what
  | .ok op => do
    let right ← pop position
    let left ← pop position
    pushNew (.binary op) [left, right]

/-- An operator on the topmost item (`exec_unary`). -/
def operateOne (position : Nat) (i : Instruction) (op : UnaryOp) : Action Machine Unit := do
  let operand ← pop position
  pushNew (.unary op i.type1) [operand]

/-- A call of a function (`exec_call`); the argument on top of the stack is the first one. -/
def call (position : Nat) (i : Instruction) : Action Machine Unit :=
  match i.function with
  | none => fail (.missingReference position)
  | some target => do
    let arguments ← popMany position i.argumentCount.toNat
    pushNew (.call target) arguments

/-- Makes a return statement of the top of the stack (`exec_ret`). -/
def returnValue (container : NodeId) (position : Nat) : Action Machine Unit := do
  let value ← pop position
  let statement ← make .returnStmt [value]
  append container statement

/-- Makes an exit statement. -/
def exitScript (container : NodeId) : Action Machine Unit := do
  let statement ← make .exitStmt
  append container statement

/-- Makes a statement of the top of the stack (`exec_popz`); an empty stack is passed over. -/
def discard (cfg : Settings) (container : NodeId) (position : Nat) : Action Machine Unit := do
  let m ← state
  match m.stack.pop? with
  | some (value, rest) =>
    change fun m => { m with stack := rest }
    append container value
  | none =>
    report cfg .warn fun _ => s!"popz on empty expression stack at {position}; ignored"

/-- A conversion (`exec_conv`) leaves no trace, except that 0 and 1 become truth values. -/
def convert (i : Instruction) : Action Machine Unit :=
  if i.type1 = .int32 && i.type2 = .boolean then do
    let m ← state
    match m.stack.peek?.bind m.tree.booleanLiteral? with
    | some value =>
      let literal ← make (.boolean value)
      change fun m => { m with stack := m.stack.replaceTop literal }
    | none => return ()
  else return ()

/-! ## Instructions -/

/-- The effect of an instruction by itself. -/
def perform (cfg : Settings) (container : NodeId) (position : Nat) (i : Instruction) :
    Action Machine Unit :=
  match i.opcode with
  | .push | .pushLocal | .pushGlobal | .pushBuiltin => pushOperand cfg position i
  | .pushI => pushImmediate position i
  | .pop => if i.isPermutation then permute position i else store cfg container position i
  | .add | .sub | .mul | .div | .and | .or | .mod | .rem | .xor | .shl | .shr | .cmp =>
    operate position i
  | .neg => operateOne position i .neg
  | .not => operateOne position i .not
  | .call => call position i
  | .ret => returnValue container position
  | .exit => exitScript container
  | .popz => discard cfg container position
  | .dup => duplicate position i
  | .conv => convert i
  | .jump | .jumpTrue | .jumpFalse | .pushEnv | .popEnv => return ()
  | .callV => refuse position i .indirectCall
  | .extended => refuse position i .extension

/-- Drops the item below the top. -/
def dropBelow (position : Nat) : Action Machine Unit := do
  let top ← pop position
  let _ ← pop position
  push top

/-- The effect of an increment window (`exec_increment`): the variable on the stack becomes the
increment. A postfix form first drops the copy above the variable; a prefix form that rearranges the
stack drops the item below the increment. Answers how many instructions it covers after the
centre. -/
def increment (cfg : Settings) (position : Nat) (inc : Increment) (ahead : List Instruction) :
    Action Machine Nat :=
  match inc.side with
  | .pre => do
    let w := Increment.preWindow ahead
    let target ← pop position
    let statement ← make (.assign (.increment inc.op .pre)) [target]
    push statement
    if w.permuted then dropBelow position
    describe cfg .debug statement fun text =>
      s!"prefix increment at {position}: {text} (next {position + 1 + w.span})"
    return w.span
  | .post => do
    let w := Increment.postWindow ahead
    let _ ← pop position
    let target ← pop position
    let statement ← make (.assign (.increment inc.op .post)) [target]
    push statement
    describe cfg .debug statement fun text =>
      s!"postfix increment at {position}: {text} (next {position + 1 + w.span})"
    return w.span

/-- The increment that a push is the centre of. -/
def incrementAt? (cfg : Settings) (behind : List Instruction) (i : Instruction)
    (ahead : List Instruction) : Option Increment :=
  if i.opcode.isPush then Increment.find? cfg behind i ahead else none

/-- A number, right-aligned in four columns. -/
def column (n : Nat) : String :=
  let digits := toString n
  String.ofList (List.replicate (4 - digits.length) ' ') ++ digits

/-- Runs the instruction between `behind`, nearest first, and `ahead`. Answers how many
instructions of `ahead` it has dealt with as well. -/
def step (cfg : Settings) (container : NodeId) (behind : List Instruction) (i : Instruction)
    (ahead : List Instruction) : Action Machine Nat := do
  let position := behind.length
  report cfg .trace fun m => s!"{column position}: {i.listing}  (depth {m.stack.depth})"
  match incrementAt? cfg behind i ahead with
  | some inc => increment cfg position inc ahead
  | none =>
    perform cfg container position i
    return 0

/-- Runs the rest of a block, passing over the first `skip` instructions (the loop of `execute`). -/
def executeFrom (cfg : Settings) (container : NodeId) :
    (skip : Nat) → (behind ahead : List Instruction) → Action Machine Unit
  | _, _, [] => return ()
  | skip + 1, behind, i :: ahead => executeFrom cfg container skip (i :: behind) ahead
  | 0, behind, i :: ahead => do
    let skip ← step cfg container behind i ahead
    executeFrom cfg container skip (i :: behind) ahead

/-- Runs a block, with its statements going to the container (`execute_block`). -/
def execute (cfg : Settings) (code : List Instruction) (container : NodeId) : Action Machine Unit :=
  executeFrom cfg container 0 [] code

end Machine

end GmlLift
