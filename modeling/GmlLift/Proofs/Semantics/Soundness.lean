import GmlLift.Proofs.Execution.Cursor
import GmlLift.Proofs.Semantics.Interpretation

/-!
# Execution preserves meaning

The concrete machine runs instructions on values of an interpretation and lists the effects that
they have. Symbolic execution keeps its meaning: where it succeeds, the concrete machine does, the
expressions that are left on the stack have the values of the concrete stack, and the statements
have the effects that the concrete machine lists.

Two things are left out of this: increment windows, which are recognised in the code, and compound
assignments, which are recognised in the tree.

Results:
* `performs_sound`: one instruction.
* `runs_sound`: any number of them.
* `execute_sound`: a block, from the start.
-/

namespace GmlLift

namespace Interpretation

variable {cfg : Settings} {V E : Type} (I : Interpretation cfg V E)

/-! ## The concrete machine -/

/-- The value of a literal; only a 16-bit integer may depend on how it was pushed. -/
def literal (pushedBy : Opcode) : Literal → V
  | .int16 v => I.int16 v pushedBy
  | .int32 v => I.int32 v
  | .int64 v => I.int64 v
  | .double bits => I.double bits
  | .float bits => I.float bits
  | .boolean v => I.boolean v
  | .string index => I.string index

/-- The owner and the indices of a variable, and the stack below them. -/
def locate (owner : Owner) (addressing : Addressing) (stack : List V) :
    Option (V × List V × List V) :=
  if owner = .stackTop || addressing = .stackTop then
    match stack with
    | o :: rest => some (o, [], rest)
    | [] => none
  else if addressing = .array then
    match stack with
    | index :: o :: rest => some (o, [index], rest)
    | _ => none
  else some (I.owner owner.code, [], stack)

def pushLiteral (i : Instruction) (stack : List V) : Option (List V × List E) :=
  match i.literal with
  | some l => if i.type1 = l.dataType then some (I.literal i.opcode l :: stack, []) else none
  | none => none

def pushVariable (i : Instruction) (stack : List V) : Option (List V × List E) := do
  let ref ← i.reference
  let (o, indices, rest) ← I.locate i.owner ref.addressing stack
  return (I.read ref.target ref.addressing o indices :: rest, [])

/-- Stores a value; it is above the operands of the variable or below them. -/
def assign (i : Instruction) (stack : List V) : Option (List V × List E) := do
  let ref ← i.reference
  match i.type1, stack with
  | .int32, v :: stack =>
    let (o, indices, rest) ← I.locate i.owner ref.addressing stack
    return (rest, [I.store ref.target ref.addressing o indices v])
  | .variant, stack =>
    match ← I.locate i.owner ref.addressing stack with
    | (o, indices, v :: rest) => return (rest, [I.store ref.target ref.addressing o indices v])
    | _ => none
  | _, _ => none

/-- The top two values stay; what the instruction says goes from under them. -/
def permute (i : Instruction) : List V → Option (List V × List E)
  | first :: second :: rest =>
    if i.dropCount ≤ rest.length then some (first :: second :: rest.drop i.dropCount, []) else none
  | _ => none

def operate (i : Instruction) (stack : List V) : Option (List V × List E) :=
  match i.operator, stack with
  | .ok op, right :: left :: rest => some (I.binary op left right :: rest, [])
  | _, _ => none

def operateOne (i : Instruction) (op : UnaryOp) : List V → Option (List V × List E)
  | v :: rest => some (I.unary op i.type1 v :: rest, [])
  | [] => none

def apply (i : Instruction) (stack : List V) : Option (List V × List E) := do
  let target ← i.function
  let count := i.argumentCount.toNat
  if count ≤ stack.length then return (I.call target (stack.take count) :: stack.drop count, [])
  else none

def duplicate (i : Instruction) (stack : List V) : Option (List V × List E) :=
  if i.comparison = 0 ∧ i.dupCount ≤ stack.length then
    some (stack.take i.dupCount ++ stack, [])
  else none

/-- **One instruction of the concrete machine**: the stack behind it and the effects that it has. -/
def perform (i : Instruction) (stack : List V) : Option (List V × List E) :=
  match i.opcode with
  | .push | .pushLocal | .pushGlobal | .pushBuiltin =>
    if i.type1 = .variant then I.pushVariable i stack else I.pushLiteral i stack
  | .pushI => if i.type1.isInteger then I.pushLiteral i stack else none
  | .pop => if i.isPermutation then permute i stack else I.assign i stack
  | .add | .sub | .mul | .div | .and | .or | .mod | .rem | .xor | .shl | .shr | .cmp =>
    I.operate i stack
  | .neg => I.operateOne i .neg stack
  | .not => I.operateOne i .not stack
  | .call => I.apply i stack
  | .ret =>
    match stack with
    | v :: rest => some (rest, [I.ret v])
    | [] => none
  | .exit => some (stack, [I.exit])
  | .popz =>
    match stack with
    | v :: rest => some (rest, [I.discard v])
    | [] => some ([], [])
  | .dup => duplicate i stack
  | .conv | .jump | .jumpTrue | .jumpFalse | .pushEnv | .popEnv => some (stack, [])
  | .callV | .extended => none

theorem perform_push {i : Instruction} (hop : i.opcode.isPush = true) (stack : List V) :
    I.perform i stack =
      if i.type1 = .variant then I.pushVariable i stack else I.pushLiteral i stack := by
  unfold perform
  cases h : i.opcode <;> rw [h] at hop <;> first | rfl | cases hop

theorem perform_binary {i : Instruction} (hop : i.opcode.isBinary = true) (stack : List V) :
    I.perform i stack = I.operate i stack := by
  unfold perform
  cases h : i.opcode <;> rw [h] at hop <;> first | rfl | cases hop

theorem perform_pop {i : Instruction} (hop : i.opcode = .pop) (stack : List V) :
    I.perform i stack = if i.isPermutation then permute i stack else I.assign i stack := by
  unfold perform
  rw [hop]

/-- **A run of the concrete machine.** -/
def run : List Instruction → List V → Option (List V × List E)
  | [], stack => some (stack, [])
  | i :: code, stack => do
    let (stack, effects) ← I.perform i stack
    let (stack, later) ← run code stack
    return (stack, effects ++ later)

end Interpretation

/-- Is this a compound assignment? -/
def Kind.isCompound : Kind → Bool
  | .assign (.compound _) => true
  | _ => false

/-- No statement of the tree is a compound assignment. -/
def Tree.Plain (t : Tree) : Prop := ∀ n ∈ t.nodes, n.kind.isCompound = false

instance (t : Tree) : Decidable t.Plain :=
  inferInstanceAs (Decidable (∀ n ∈ t.nodes, n.kind.isCompound = false))

theorem Tree.Plain.get? {t : Tree} (h : t.Plain) {id : NodeId} {n : Node}
    (hn : t.get? id = some n) : n.kind.isCompound = false :=
  h n (Array.mem_of_getElem? hn)

theorem Tree.Plain.of_extends {t t' : Tree} {container : NodeId} {statements : List NodeId}
    (h : t'.Plain) (hx : t.Extends container t' statements) : t.Plain := by
  intro n hmem
  obtain ⟨k, hn⟩ := Array.getElem?_of_mem hmem
  obtain ⟨n', hn', hk, -⟩ := hx.kept ⟨k⟩ n hn
  rw [← hk]
  exact h.get? hn'

namespace Machine

open GmlLift.Action

variable {cfg : Settings} {V E : Type} {I : Interpretation cfg V E} {container : NodeId}

/-! ## One instruction -/

theorem denotes_mono {t t' : Tree} {statements ids : List NodeId} {values : List V}
    (hb : t.IsBlock container) (hx : t.Extends container t' statements)
    (h : List.Forall₂ (I.Denotes t) ids values) : List.Forall₂ (I.Denotes t') ids values :=
  h.imp fun _ _ hd => hd.mono hb hx

/-- A new expression on top of what was there. -/
theorem denotes_pushNew {t : Tree} (hb : t.IsBlock container) {kind : Kind}
    {children rest : List NodeId} {vs values : List V} {v : V}
    (hc : List.Forall₂ (I.Denotes t) children vs) (hv : I.operation kind vs = some v)
    (hr : List.Forall₂ (I.Denotes t) rest values) :
    List.Forall₂ (I.Denotes (t.add kind children)) (t.nextId :: rest) (v :: values) := by
  have hx := Tree.extends_add container t kind children
  refine .cons (.operation (t.get?_add_nextId kind children) ?_ hv) (denotes_mono hb hx hr)
  exact denotes_mono hb hx hc

theorem locate_of_reaches {owner : Owner} {addressing : Addressing} {m m' : Machine}
    {left : NodeId} {indices : List NodeId} {values : List V} (hb : m.tree.IsBlock container)
    (h : Reaches cfg owner addressing m left indices m')
    (hd : List.Forall₂ (I.Denotes m.tree) m.stack.items values) :
    ∃ o ws vs rest, I.locate owner addressing values = some (o, ws, rest) ∧
      I.Denotes m'.tree left o ∧ List.Forall₂ (I.Denotes m'.tree) indices vs ∧
      List.Forall₂ (I.Denotes m'.tree) m'.stack.items rest ∧
      (∀ target, I.read target addressing o ws = I.read target addressing o vs) ∧
      ∀ target v, I.store target addressing o ws v = I.store target addressing o vs v := by
  unfold Interpretation.locate
  cases h with
  | member h =>
    obtain ⟨o, rest, ho, hr, rfl⟩ := List.forall₂_cons_left_iff.mp hd
    refine ⟨o, [], [], rest, ?_, ho, .nil, hr, fun _ => rfl, fun _ _ => rfl⟩
    rw [if_pos (by simpa using h)]
  | element ho ha =>
    subst ha
    obtain ⟨w, below, hw, hbelow, rfl⟩ := List.forall₂_cons_left_iff.mp hd
    obtain ⟨o, rest, hleft, hr, rfl⟩ := List.forall₂_cons_left_iff.mp hbelow
    obtain ⟨vs, hvs, hread, hstore⟩ := hw.indexParts
    refine ⟨o, [w], vs, rest, ?_, hleft, hvs, hr, fun _ => hread _ _, fun _ _ => hstore _ _ _⟩
    rw [if_neg (by simp [ho]), if_pos rfl]
  | @named t items ho hs ha =>
    have hx := Tree.extends_add container t (.owner owner.code) []
    refine ⟨I.owner owner.code, [], [], values, ?_, ?_, .nil, denotes_mono hb hx hd,
      fun _ => rfl, fun _ _ => rfl⟩
    · rw [if_neg (by simp [ho, hs]), if_neg ha]
    · exact .operation (t.get?_add_nextId ..) .nil rfl

/-- The variable of an instruction: the concrete machine finds the same one. -/
theorem locate_of_accesses {i : Instruction} {m m' : Machine} {a : Access} {values : List V}
    (hb : m.tree.IsBlock container) (h : Accesses cfg i m a m')
    (hd : List.Forall₂ (I.Denotes m.tree) m.stack.items values) :
    ∃ ref left indices o ws vs rest, i.reference = some ref ∧
      I.locate i.owner ref.addressing values = some (o, ws, rest) ∧
      m'.tree.get? a.node = some ⟨.var ref.target ref.addressing (some left), indices, false⟩ ∧
      I.Denotes m'.tree left o ∧ List.Forall₂ (I.Denotes m'.tree) indices vs ∧
      List.Forall₂ (I.Denotes m'.tree) m'.stack.items rest ∧
      I.read ref.target ref.addressing o ws = I.read ref.target ref.addressing o vs ∧
      ∀ v, I.store ref.target ref.addressing o ws v =
        I.store ref.target ref.addressing o vs v := by
  cases h with
  | @intro ref left indices t items href hr =>
    obtain ⟨o, ws, vs, rest, hloc, ho, hi, hrest, hread, hstore⟩ := locate_of_reaches hb hr hd
    have hreach : m.tree.Extends container t [] := hr.extends
    have hb' : t.IsBlock container := hb.mono hreach
    have hx := Tree.extends_add container t (.var ref.target ref.addressing (some left)) indices
    exact ⟨ref, left, indices, o, ws, vs, rest, href, hloc, t.get?_add_nextId .., ho.mono hb' hx,
      denotes_mono hb' hx hi, denotes_mono hb' hx hrest, hread _, hstore _⟩

/-- A store that is no compound assignment stores where the variable is. -/
theorem causes_of_assigns {a : Access} {value left : NodeId} {t t' : Tree} {target : UInt32}
    {addressing : Addressing} {indices : List NodeId} {o v : V} {vs : List V}
    (hb : t.IsBlock container) (h : Assigns container a value t t') (hplain : t'.Plain)
    (hn : t.get? a.node = some ⟨.var target addressing (some left), indices, false⟩)
    (ho : I.Denotes t left o) (hi : List.Forall₂ (I.Denotes t) indices vs)
    (hv : I.Denotes t value v) :
    ∃ statement, t.Extends container t' [statement] ∧
      I.Causes t' statement (I.store target addressing o vs v) := by
  cases h with
  | plain hc ht =>
    have hadd := Tree.extends_add container t (.assign .plain) [a.node, value]
    have happend := Tree.extends_appendChild ht
    obtain ⟨mark, hn'⟩ := hb.kept hadd hn (by simp)
    refine ⟨t.nextId, hadd.trans happend, .mono (hb.mono hadd) happend ?_⟩
    exact .store (t.get?_add_nextId ..) hn' (ho.mono hb hadd) (denotes_mono hb hadd hi)
      (hv.mono hb hadd)
  | compound hc ht =>
    obtain ⟨n, hn', hk, -⟩ := (Tree.extends_appendChild ht).kept t.nextId _ (t.get?_add_nextId ..)
    have hcompound := hplain.get? hn'
    rw [hk] at hcompound
    cases hcompound

/-- **The concrete machine follows an instruction**: it succeeds on the values of the stack, its
effects are those of the new statements, and the values behind it are those of the new stack. -/
def Follows (I : Interpretation cfg V E) (container : NodeId) (i : Instruction) (m m' : Machine)
    (values : List V) : Prop :=
  ∃ values' effects statements, I.perform i values = some (values', effects) ∧
    m.tree.Extends container m'.tree statements ∧
    List.Forall₂ (I.Denotes m'.tree) m'.stack.items values' ∧
    List.Forall₂ (I.Causes m'.tree) statements effects

/-- **The concrete machine follows every instruction** that makes no compound assignment. -/
theorem performs_sound {i : Instruction} {m m' : Machine} {values : List V}
    (hb : m.tree.IsBlock container) (h : Performs cfg container i m m') (hplain : m'.tree.Plain)
    (hd : List.Forall₂ (I.Denotes m.tree) m.stack.items values) :
    Follows I container i m m' values := by
  cases h with
  | @pushLiteral t items l hop hl hty =>
    have hlit : I.pushLiteral i values = some (I.literal i.opcode l :: values, []) := by
      unfold Interpretation.pushLiteral
      rw [hl]
      simp only
      rw [if_pos hty]
    refine ⟨I.literal i.opcode l :: values, [], [], ?_, Tree.extends_add ..,
      denotes_pushNew hb .nil ?_ hd, .nil⟩
    · rcases hop with hop | ⟨hop, hint⟩
      · rw [I.perform_push hop, if_neg (by rw [hty]; exact l.dataType_ne_variant), hlit]
      · unfold Interpretation.perform
        rw [hop]
        simp only
        rw [if_pos hint, hlit, hop]
    · cases l <;> rfl
  | @pushVariable m a t items hop hty ha =>
    obtain ⟨ref, left, indices, o, ws, vs, rest, href, hloc, hn, ho, hi, hrest, hread, -⟩ :=
      locate_of_accesses hb ha hd
    refine ⟨I.read ref.target ref.addressing o vs :: rest, [], [], ?_, ha.extends container,
      .cons (.read hn ho hi) hrest, .nil⟩
    rw [I.perform_push hop, if_pos hty, Interpretation.pushVariable, href, ← hread]
    simp only [Option.bind_eq_bind, Option.bind_some, hloc]
    rfl
  | @storeAbove t t₁ t₂ items rest value a hop hty ha hs =>
    obtain ⟨v, below, hv, hbelow, rfl⟩ := List.forall₂_cons_left_iff.mp hd
    have hx := ha.extends container
    have hb' : t₁.IsBlock container := hb.mono hx
    obtain ⟨ref, left, indices, o, ws, vs, rest, href, hloc, hn, ho, hi, hrest, -, hstore⟩ :=
      locate_of_accesses (m := ⟨t, ⟨items⟩⟩) hb ha hbelow
    obtain ⟨statement, hx', hcause⟩ :=
      causes_of_assigns hb' hs hplain hn ho hi (Interpretation.Denotes.mono hb hx hv)
    refine ⟨rest, [_], [statement], ?_, hx.trans hx', denotes_mono hb' hx' hrest,
      .cons hcause .nil⟩
    rw [I.perform_pop hop, if_neg (by simp [Instruction.isPermutation, href]),
      Interpretation.assign, href, hty, ← hstore]
    simp only [Option.bind_eq_bind, Option.bind_some, hloc]
    rfl
  | @storeBelow m t₁ t₂ rest value a hop hty ha hs =>
    have hx := ha.extends container
    have hb' : t₁.IsBlock container := hb.mono hx
    obtain ⟨ref, left, indices, o, ws, vs, below, href, hloc, hn, ho, hi, hbelow, -, hstore⟩ :=
      locate_of_accesses hb ha hd
    obtain ⟨v, rest, hv, hrest, rfl⟩ := List.forall₂_cons_left_iff.mp hbelow
    obtain ⟨statement, hx', hcause⟩ := causes_of_assigns hb' hs hplain hn ho hi hv
    refine ⟨rest, [_], [statement], ?_, hx.trans hx', denotes_mono hb' hx' hrest,
      .cons hcause .nil⟩
    rw [I.perform_pop hop, if_neg (by simp [Instruction.isPermutation, href]),
      Interpretation.assign, href, hty, ← hstore]
    simp only [Option.bind_eq_bind, Option.bind_some, hloc]
    rfl
  | @permute t first second dropped rest hop hlen =>
    obtain ⟨v, below, hv, hbelow, rfl⟩ := List.forall₂_cons_left_iff.mp hd
    obtain ⟨w, below, hw, hbelow', rfl⟩ := List.forall₂_cons_left_iff.mp hbelow
    have hrest := List.forall₂_drop i.dropCount hbelow'
    rw [← hlen, List.drop_left, hlen] at hrest
    have hcount : i.dropCount ≤ below.length := by
      rw [← hbelow'.length_eq, List.length_append, hlen]
      exact Nat.le_add_right _ _
    refine ⟨v :: w :: below.drop i.dropCount, [], [], ?_, .refl .., .cons hv (.cons hw hrest), .nil⟩
    have hpop : i.opcode = .pop := by
      simp only [Instruction.isPermutation, Bool.and_eq_true, decide_eq_true_eq] at hop
      exact hop.1
    rw [I.perform_pop hpop, if_pos hop, Interpretation.permute, if_pos hcount]
  | @operate t left right rest op hop ho =>
    obtain ⟨w, below, hw, hbelow, rfl⟩ := List.forall₂_cons_left_iff.mp hd
    obtain ⟨v, below, hv, hrest, rfl⟩ := List.forall₂_cons_left_iff.mp hbelow
    refine ⟨I.binary op v w :: below, [], [], ?_, Tree.extends_add ..,
      denotes_pushNew hb (.cons hv (.cons hw .nil)) rfl hrest, .nil⟩
    rw [I.perform_binary hop]
    unfold Interpretation.operate
    rw [ho]
  | @operateOne t operand rest op hop =>
    obtain ⟨v, below, hv, hrest, rfl⟩ := List.forall₂_cons_left_iff.mp hd
    refine ⟨I.unary op i.type1 v :: below, [], [], ?_, Tree.extends_add ..,
      denotes_pushNew hb (.cons hv .nil) rfl hrest, .nil⟩
    unfold Interpretation.perform
    rw [hop]
    cases op <;> rfl
  | @call t arguments rest target hop hf hlen =>
    have hargs := List.forall₂_take i.argumentCount.toNat hd
    have hrest := List.forall₂_drop i.argumentCount.toNat hd
    rw [← hlen, List.take_left, hlen] at hargs
    rw [← hlen, List.drop_left, hlen] at hrest
    have hcount : i.argumentCount.toNat ≤ values.length := by
      rw [← hd.length_eq, List.length_append, hlen]
      exact Nat.le_add_right _ _
    refine ⟨I.call target (values.take i.argumentCount.toNat) ::
      values.drop i.argumentCount.toNat, [], [], ?_, Tree.extends_add ..,
      denotes_pushNew hb hargs rfl hrest, .nil⟩
    unfold Interpretation.perform Interpretation.apply
    rw [hop, hf]
    simp only [Option.bind_eq_bind, Option.bind_some]
    rw [if_pos hcount]
    rfl
  | @returnValue t t' value rest hop ht =>
    obtain ⟨v, below, hv, hrest, rfl⟩ := List.forall₂_cons_left_iff.mp hd
    have hadd := Tree.extends_add container t .returnStmt [value]
    have happend := Tree.extends_appendChild ht
    refine ⟨below, [I.ret v], [t.nextId], ?_, hadd.trans happend,
      denotes_mono hb (hadd.trans happend) hrest, .cons (.mono (hb.mono hadd) happend ?_) .nil⟩
    · unfold Interpretation.perform
      rw [hop]
    · exact .ret (t.get?_add_nextId ..) (Interpretation.Denotes.mono hb hadd hv)
  | @exitScript t t' items hop ht =>
    have hadd := Tree.extends_add container t .exitStmt []
    have happend := Tree.extends_appendChild ht
    refine ⟨values, [I.exit], [t.nextId], ?_, hadd.trans happend,
      denotes_mono hb (hadd.trans happend) hd, .cons (.mono (hb.mono hadd) happend ?_) .nil⟩
    · unfold Interpretation.perform
      rw [hop]
    · exact .exit (t.get?_add_nextId ..)
  | @discard t t' value rest hop ht =>
    obtain ⟨v, below, hv, hrest, rfl⟩ := List.forall₂_cons_left_iff.mp hd
    have happend := Tree.extends_appendChild ht
    refine ⟨below, [I.discard v], [value], ?_, happend, denotes_mono hb happend hrest,
      .cons (.discard (Interpretation.Denotes.mono hb happend hv)) .nil⟩
    unfold Interpretation.perform
    rw [hop]
  | discardNothing hop =>
    cases hd
    refine ⟨[], [], [], ?_, .refl .., .nil, .nil⟩
    unfold Interpretation.perform
    rw [hop]
  | @duplicate t t' items hop hf hcount ht =>
    have hx := extends_of_markAll? container ht
    have hd' := denotes_mono hb hx hd
    refine ⟨values.take i.dupCount ++ values, [], [], ?_, hx,
      List.rel_append (List.forall₂_take i.dupCount hd') hd', .nil⟩
    have hlen := hd.length_eq
    unfold Interpretation.perform Interpretation.duplicate
    rw [hop]
    simp only
    rw [if_pos ⟨hf, by rw [← hlen]; exact hcount⟩]
  | @convert t top rest value hop hv =>
    obtain ⟨v, below, hdv, hrest, rfl⟩ := List.forall₂_cons_left_iff.mp hd
    have hvalue : t.booleanLiteral? top = some value := by
      unfold truthOf? at hv
      split at hv
      · exact hv
      · cases hv
    refine ⟨v :: below, [], [], ?_, Tree.extends_add .., denotes_pushNew hb .nil ?_ hrest, .nil⟩
    · unfold Interpretation.perform
      rw [hop]
    · rw [Interpretation.Denotes.of_booleanLiteral? hvalue hdv]
      rfl
  | keep hop hv =>
    refine ⟨values, [], [], ?_, .refl .., hd, .nil⟩
    unfold Interpretation.perform
    rw [hop]
  | mark hop =>
    refine ⟨values, [], [], ?_, .refl .., hd, .nil⟩
    unfold Interpretation.perform
    simp only [List.mem_cons, List.not_mem_nil, or_false] at hop
    rcases hop with hop | hop | hop | hop | hop <;> rw [hop]

/-! ## Runs -/

/-- Instructions one after the other, each by itself. -/
inductive Runs (cfg : Settings) (container : NodeId) :
    List Instruction → Machine → Machine → Prop
  | nil {m : Machine} : Runs cfg container [] m m
  | cons {i : Instruction} {code : List Instruction} {m m₁ m' : Machine}
      (h : Performs cfg container i m m₁) (hs : Runs cfg container code m₁ m') :
      Runs cfg container (i :: code) m m'

/-- No push is the centre of an increment window. -/
def HasNoIncrement (cfg : Settings) (code : List Instruction) : Prop :=
  ∀ position i, code[position]? = some i → i.opcode.isPush = true →
    Increment.findAt? cfg code position = none

/-- A run that succeeds is made of instructions that do what they can do. -/
theorem runs_of_executeAt (quiet : cfg.verbosity = none) {code : List Instruction}
    (hcode : HasNoIncrement cfg code) : ∀ (rest cursor : Nat) (m : Machine),
    code.length - cursor = rest → m.WellFormed container →
    (executeAt cfg container code cursor m).result = .ok () →
    ∃ m', executeAt cfg container code cursor m = ⟨.ok (), m', []⟩ ∧
      Runs cfg container (code.drop cursor) m m'
  | 0, cursor, m, hrest, _, _ => by
    have hle : code.length ≤ cursor := by omega
    refine ⟨m, ?_, ?_⟩
    · rw [executeAt_of_length_le hle]
      rfl
    · rw [List.drop_of_length_le hle]
      exact .nil
  | rest + 1, cursor, m, hrest, hm, hok => by
    have hlt : cursor < code.length := by omega
    have hget : code[cursor]? = some code[cursor] := List.getElem?_eq_getElem hlt
    have hinc : incrementAt? cfg (code.take cursor).reverse code[cursor]
        (code.drop (cursor + 1)) = none := by
      rw [incrementAt?_of_get cfg hget]
      by_cases hpush : code[cursor].opcode.isPush = true
      · rw [if_pos hpush, hcode cursor _ hget hpush]
      · rw [if_neg hpush]
    obtain ⟨m₁, h⟩ : ∃ m₁, Performs cfg container code[cursor] m m₁ := by
      rw [executeAt_of_get hget] at hok
      obtain ⟨skip, hstep, -⟩ := result_bind_eq_ok_iff.mp hok
      rw [step_quiet quiet, hinc] at hstep
      obtain ⟨_, hperform, -⟩ := result_bind_eq_ok_iff.mp hstep
      exact performs_of_ok quiet hm hperform
    have hstep := step_of_advances quiet (.performed hinc h)
    rw [executeAt_of_get hget, bind_quiet hstep] at hok ⊢
    obtain ⟨m', hexec, hruns⟩ :=
      runs_of_executeAt quiet hcode rest (cursor + 1) m₁ (by omega) (h.wellFormed hm) hok
    refine ⟨m', hexec, ?_⟩
    rw [List.drop_eq_getElem_cons hlt]
    exact .cons h hruns

theorem Runs.extends {code : List Instruction} {m m' : Machine}
    (h : Runs cfg container code m m') :
    ∃ statements, m.tree.Extends container m'.tree statements := by
  induction h with
  | nil => exact ⟨[], .refl ..⟩
  | cons h _ ih =>
    obtain ⟨first, hx, -⟩ := h.extends
    obtain ⟨later, hx'⟩ := ih
    exact ⟨first ++ later, hx.trans hx'⟩

/-- **The concrete machine follows a run** that makes no compound assignment. -/
theorem runs_sound {code : List Instruction} {m m' : Machine} {values : List V}
    (h : Runs cfg container code m m') (hplain : m'.tree.Plain) (hb : m.tree.IsBlock container)
    (hd : List.Forall₂ (I.Denotes m.tree) m.stack.items values) :
    ∃ values' effects statements, I.run code values = some (values', effects) ∧
      m.tree.Extends container m'.tree statements ∧
      List.Forall₂ (I.Denotes m'.tree) m'.stack.items values' ∧
      List.Forall₂ (I.Causes m'.tree) statements effects := by
  induction h generalizing values with
  | nil => exact ⟨values, [], [], rfl, .refl .., hd, .nil⟩
  | @cons i code m m₁ m' h hs ih =>
    obtain ⟨_, hx'⟩ := hs.extends
    obtain ⟨values₁, effects, statements, hstep, hx, hd₁, hc⟩ :=
      performs_sound hb h (hplain.of_extends hx') hd
    have hb₁ : m₁.tree.IsBlock container := hb.mono hx
    obtain ⟨values', later, more, hrun, hx', hd', hc'⟩ := ih hplain hb₁ hd₁
    refine ⟨values', effects ++ later, statements ++ more, ?_, hx.trans hx', hd', ?_⟩
    · rw [Interpretation.run, hstep]
      simp only [Option.bind_eq_bind, Option.bind_some, hrun]
      rfl
    · exact List.rel_append (hc.imp fun _ _ h => h.mono hb₁ hx') hc'

/-- **Symbolic execution preserves meaning.** Take any version and any interpretation, and code
without increment windows. If the code runs from the start and makes no compound assignment, then
the concrete machine runs it too, the expressions on the stack have the values of its stack and no
others, and the statements have its effects, in their order, and no others. -/
theorem execute_sound (version : Version) {V E : Type} (I : Interpretation { version } V E)
    {code : List Instruction} {m : Machine} {notes : List Note}
    (hcode : HasNoIncrement { version } code)
    (hexec : execute { version } code Tree.root {} = ⟨.ok (), m, notes⟩) (hplain : m.tree.Plain) :
    ∃ values effects statements, I.run code [] = some (values, effects) ∧
      (∀ vs, List.Forall₂ (I.Denotes m.tree) m.stack.items vs ↔ vs = values) ∧
      m.tree.children? Tree.root = some statements ∧
      ∀ es, List.Forall₂ (I.Causes m.tree) statements es ↔ es = effects := by
  have hok : (executeAt { version } Tree.root code 0 {}).result = .ok () := by
    rw [executeAt_zero, hexec]
  have quiet : ({ version } : Settings).verbosity = none := rfl
  obtain ⟨m', hm', hruns⟩ := runs_of_executeAt quiet hcode _ 0 {} rfl wellFormed_new hok
  rw [executeAt_zero, hexec] at hm'
  cases hm'
  rw [List.drop_zero] at hruns
  obtain ⟨values, effects, statements, hrun, hx, hd, hc⟩ :=
    runs_sound (I := I) hruns hplain ⟨_, rfl, rfl⟩ .nil
  refine ⟨values, effects, statements, hrun, fun vs => ?_, ?_, fun es => ?_⟩
  · exact ⟨fun h => Interpretation.Denotes.all_unique h hd, fun h => h ▸ hd⟩
  · exact hx.children?_container rfl
  · exact ⟨fun h => List.right_unique_forall₂' (fun _ _ _ h h' => h.unique h') h hc,
      fun h => h ▸ hc⟩

end Machine

/-- Values are integers, a variable is its place in a table with 32000 columns, and effects are
what a log would say of them. -/
def Interpretation.integers (cfg : Settings) : Interpretation cfg Int (List Int) :=
  let place : List Int → Int
    | [row, column] => row * 32000 + column
    | indices => indices.headD 0
  { int16 := fun v _ => v.toInt
    int32 := fun v => v.toInt
    int64 := fun v => v.toInt
    double := fun bits => bits.toNat
    float := fun bits => bits.toNat
    boolean := fun v => if v then 1 else 0
    string := fun index => index.toNat
    owner := fun code => code.toInt
    unary := fun _ _ v => -v
    binary := fun op v w => if op = .mul then v * w else v + w
    call := fun target vs => target.toNat + vs.length
    read := fun target _ o indices => target.toNat + o + place indices
    store := fun target _ o indices v => [0, target.toNat, o, place indices, v]
    ret := fun v => [1, v]
    exit := [2]
    discard := fun v => [3, v]
    int16_zero := fun _ => rfl
    int16_one := fun _ => rfl
    read_flat := fun _ _ _ _ _ => rfl
    store_flat := fun _ _ _ _ _ _ => rfl }

namespace Machine

/-- In the legacy dialect, `a[2, 3] = true` and then the return of `x`. -/
theorem execute_sound_flattened :
    let legacy : Version := ⟨2, 2, 9, 0⟩
    let number (v : Int32) : Instruction :=
      { opcode := .push, type1 := .int32, literal := some (.int32 v) }
    let code : List Instruction :=
      [{ opcode := .push, type1 := .int16, literal := some (.int16 1) },
        { opcode := .conv, type1 := .int32, type2 := .boolean },
        { opcode := .pushI, type1 := .int16, literal := some (.int16 (-1)) },
        number 2, number 32000, { opcode := .mul }, number 3, { opcode := .add },
        { opcode := .pop, type1 := .variant, owner := .self, reference := some ⟨7, .array⟩ },
        { opcode := .push, type1 := .variant, owner := .self, reference := some ⟨8, .normal⟩ },
        { opcode := .ret }]
    let tree := (execute { version := legacy } code Tree.root {}).state.tree
    ∃ statements, tree.children? Tree.root = some statements ∧
      List.Forall₂ ((Interpretation.integers { version := legacy }).Causes tree) statements
        [[0, 7, -1, 64003, 1], [1, 7]] := by
  intro legacy number code tree
  have hnone : ∀ position, position < code.length →
      Increment.findAt? { version := legacy } code position = none := by decide +kernel
  have hcode : HasNoIncrement { version := legacy } code := fun position _ hi _ =>
    hnone position (List.getElem?_eq_some_iff.mp hi).1
  have hok : (execute { version := legacy } code Tree.root {}).result.isOk = true := by
    decide +kernel
  have hplain : tree.Plain := by decide +kernel
  have hrun : (Interpretation.integers { version := legacy }).run code [] =
      some ([], [[0, 7, -1, 64003, 1], [1, 7]]) := by decide +kernel
  cases hexec : execute { version := legacy } code Tree.root {} with
  | mk result m notes =>
    have htree : tree = m.tree := congrArg (·.state.tree) hexec
    rw [hexec] at hok
    rw [htree] at hplain ⊢
    cases result with
    | error e => cases hok
    | ok =>
      obtain ⟨values, effects, statements, hrun', -, hchildren, hcauses⟩ :=
        execute_sound legacy (Interpretation.integers { version := legacy }) hcode hexec hplain
      rw [hrun] at hrun'
      cases hrun'
      exact ⟨statements, hchildren, (hcauses _).mpr rfl⟩

end Machine

end GmlLift
