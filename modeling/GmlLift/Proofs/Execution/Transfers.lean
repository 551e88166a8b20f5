import GmlLift.Proofs.Execution.Trace

/-!
# Transfers of control

Calls, returns and exits transfer control. A run makes a node for each of them that its cursor comes
to, in their order, and no such node besides. What the cursor passes over lies in the window of an
increment. A postfix window holds one addition and pops, so no transfer is in it. A prefix window
goes on to the next pop, whatever stands before that pop, and takes in one more instruction if the
pop rearranges the stack; the transfers in it are lost.

* `Tree.AddsTransfers`: which transfers the new nodes of a tree stand for.
* `Performs.addsTransfers`, `Arrives.addsTransfers`: what one instruction adds, and what a run has
  added when its cursor comes to a position.

Result: `execute_transfers`, and `execute_loses_call` for a transfer in a prefix window.
-/

namespace GmlLift

namespace Instruction

/-- Is this a call, a return or an exit? -/
def isTransfer (i : Instruction) : Bool :=
  match i.opcode with
  | .call | .ret | .exit => true
  | _ => false

/-- The node of a transfer; a call needs the function that it calls. -/
def transfer? (i : Instruction) : Option Kind :=
  match i.opcode with
  | .call => i.function.map .call
  | .ret => some .returnStmt
  | .exit => some .exitStmt
  | _ => none

/-- The transfer that an instruction is, if it is one. -/
def transfers (i : Instruction) : List (Option Kind) :=
  if i.isTransfer then [i.transfer?] else []

theorem isTransfer_of_opcode {i : Instruction} {op : Opcode} (hop : i.opcode = op) :
    i.isTransfer = isTransfer { i with opcode := op } := by
  subst hop
  rfl

theorem transfers_of_opcode {i : Instruction} {op : Opcode} (hop : i.opcode = op) :
    i.transfers = transfers { i with opcode := op } := by
  subst hop
  rfl

theorem isTransfer_push {i : Instruction} (hop : i.opcode.isPush = true) :
    i.isTransfer = false := by
  unfold isTransfer
  cases h : i.opcode <;> rw [h] at hop <;> first | rfl | cases hop

theorem isTransfer_binary {i : Instruction} (hop : i.opcode.isBinary = true) :
    i.isTransfer = false := by
  unfold isTransfer
  cases h : i.opcode <;> rw [h] at hop <;> first | rfl | cases hop

end Instruction

/-- Is this the node of a transfer? -/
def Kind.isTransfer : Kind → Bool
  | call _ | returnStmt | exitStmt => true
  | _ => false

/-! ## Trees -/

namespace Tree

/-- What the nodes are, in the order in which they were made. -/
def kinds (t : Tree) : List Kind := t.nodes.toList.map (·.kind)

theorem getElem?_kinds (t : Tree) (index : Nat) :
    t.kinds[index]? = (t.get? ⟨index⟩).map (·.kind) := by
  simp [kinds, get?]

theorem kinds_add (t : Tree) (kind : Kind) (children : List NodeId) :
    (t.add kind children).kinds = t.kinds ++ [kind] := by
  simp [kinds, add]

theorem kinds_update? {t t' : Tree} {id : NodeId} {change : Node → Node}
    (h : t.update? id change = some t') (hkind : ∀ n, (change n).kind = n.kind) :
    t'.kinds = t.kinds := by
  refine List.ext_getElem? fun index => ?_
  rw [getElem?_kinds, getElem?_kinds, get?_update? h]
  by_cases heq : (⟨index⟩ : NodeId) = id
  · rw [if_pos heq, heq, Option.map_map]
    exact congrArg (Option.map · (t.get? id)) (funext hkind)
  · rw [if_neg heq]

/-- **The transfers among the new nodes of a tree**, in the order of the ids. -/
def AddsTransfers (t t' : Tree) (transfers : List (Option Kind)) : Prop :=
  ∃ new, t'.kinds = t.kinds ++ new ∧ (new.filter Kind.isTransfer).map some = transfers

variable {t t' t'' : Tree} {transfers transfers' : List (Option Kind)}

theorem AddsTransfers.refl (t : Tree) : t.AddsTransfers t [] :=
  ⟨[], (List.append_nil _).symm, rfl⟩

theorem AddsTransfers.trans (h : t.AddsTransfers t' transfers)
    (h' : t'.AddsTransfers t'' transfers') : t.AddsTransfers t'' (transfers ++ transfers') := by
  obtain ⟨new, hkinds, rfl⟩ := h
  obtain ⟨new', hkinds', rfl⟩ := h'
  refine ⟨new ++ new', ?_, ?_⟩
  · rw [hkinds', hkinds, List.append_assoc]
  · rw [List.filter_append, List.map_append]

theorem addsTransfers_add {kind : Kind} (h : kind.isTransfer = false) (t : Tree)
    (children : List NodeId) : t.AddsTransfers (t.add kind children) [] :=
  ⟨[kind], t.kinds_add kind children, by simp [h]⟩

theorem addsTransfers_add_transfer {kind : Kind} (h : kind.isTransfer = true) (t : Tree)
    (children : List NodeId) : t.AddsTransfers (t.add kind children) [some kind] :=
  ⟨[kind], t.kinds_add kind children, by simp [h]⟩

/-- A change that leaves every node what it is adds nothing. -/
theorem addsTransfers_update? {id : NodeId} {change : Node → Node}
    (h : t.update? id change = some t') (hkind : ∀ n, (change n).kind = n.kind) :
    t.AddsTransfers t' [] :=
  ⟨[], by rw [kinds_update? h hkind, List.append_nil], rfl⟩

theorem addsTransfers_appendChild {parent child : NodeId}
    (h : t.appendChild? parent child = some t') : t.AddsTransfers t' [] :=
  addsTransfers_update? h fun _ => rfl

end Tree

/-! ## One step -/

namespace Machine

open GmlLift.Action GmlLift.Tree

section Step

variable {cfg : Settings} {container : NodeId} {i : Instruction} {m m' : Machine}

theorem Accesses.addsTransfers {a : Access} (h : Accesses cfg i m a m') :
    m.tree.AddsTransfers m'.tree [] := by
  cases h with
  | intro href hr =>
    cases hr with
    | member _ => exact addsTransfers_add rfl ..
    | element _ _ => exact addsTransfers_add rfl ..
    | named _ _ _ => exact (addsTransfers_add rfl ..).trans (addsTransfers_add rfl ..)

theorem Assigns.addsTransfers {a : Access} {value : NodeId} {t t' : Tree}
    (h : Assigns container a value t t') : t.AddsTransfers t' [] := by
  cases h with
  | plain _ ht => exact (addsTransfers_add rfl ..).trans (addsTransfers_appendChild ht)
  | compound _ ht => exact (addsTransfers_add rfl ..).trans (addsTransfers_appendChild ht)

theorem addsTransfers_of_markAll? {ids : List NodeId} {t t' : Tree}
    (h : markAll? t ids = some t') : t.AddsTransfers t' [] := by
  induction ids generalizing t with
  | nil =>
    cases h
    exact .refl _
  | cons id ids ih =>
    obtain ⟨t₁, ht₁, hrest⟩ := markAll?_cons h
    exact (addsTransfers_update? ht₁ fun _ => rfl).trans (ih hrest)

/-- **An instruction adds the transfer that it is**, and no other. -/
theorem Performs.addsTransfers (h : Performs cfg container i m m') :
    m.tree.AddsTransfers m'.tree i.transfers := by
  have hother {t t' : Tree} (hi : i.isTransfer = false) (h : t.AddsTransfers t' []) :
      t.AddsTransfers t' i.transfers := by
    rwa [Instruction.transfers, if_neg (by simp [hi])]
  have hop {op : Opcode} (hop : i.opcode = op) := Instruction.isTransfer_of_opcode hop
  cases h with
  | @pushLiteral _ _ l hpush _ _ =>
    refine hother ?_ (addsTransfers_add (by cases l <;> rfl) ..)
    rcases hpush with hpush | ⟨hpush, -⟩
    · exact Instruction.isTransfer_push hpush
    · exact hop hpush
  | pushVariable hpush _ ha => exact hother (Instruction.isTransfer_push hpush) ha.addsTransfers
  | storeAbove hpop _ ha hs => exact hother (hop hpop) (ha.addsTransfers.trans hs.addsTransfers)
  | storeBelow hpop _ ha hs => exact hother (hop hpop) (ha.addsTransfers.trans hs.addsTransfers)
  | permute hperm _ =>
    simp only [Instruction.isPermutation, Bool.and_eq_true, decide_eq_true_eq] at hperm
    exact hother (hop hperm.1) (.refl _)
  | operate hbinary _ =>
    exact hother (Instruction.isTransfer_binary hbinary) (addsTransfers_add rfl ..)
  | @operateOne _ _ _ op hunary =>
    refine hother ?_ (addsTransfers_add rfl ..)
    cases op <;> exact hop hunary
  | @call t arguments _ target hcall hf _ =>
    rw [Instruction.transfers_of_opcode hcall]
    have hadds : t.AddsTransfers (t.add (.call target) arguments) [some (.call target)] :=
      addsTransfers_add_transfer rfl ..
    simpa [Instruction.transfers, Instruction.isTransfer, Instruction.transfer?, hf] using hadds
  | returnValue hret ht =>
    rw [Instruction.transfers_of_opcode hret]
    exact (addsTransfers_add_transfer rfl ..).trans (addsTransfers_appendChild ht)
  | exitScript hexit ht =>
    rw [Instruction.transfers_of_opcode hexit]
    exact (addsTransfers_add_transfer rfl ..).trans (addsTransfers_appendChild ht)
  | discard hpopz ht => exact hother (hop hpopz) (addsTransfers_appendChild ht)
  | discardNothing hpopz => exact hother (hop hpopz) (.refl _)
  | duplicate hdup _ _ ht => exact hother (hop hdup) (addsTransfers_of_markAll? ht)
  | convert hconv _ => exact hother (hop hconv) (addsTransfers_add rfl ..)
  | keep hconv _ => exact hother (hop hconv) (.refl _)
  | mark hmark =>
    refine hother ?_ (.refl _)
    simp only [List.mem_cons, List.not_mem_nil, or_false] at hmark
    rcases hmark with h | h | h | h | h <;> exact hop h

/-- The centre of an increment is a push. -/
theorem isPush_of_incrementAt? {behind ahead : List Instruction} {inc : Increment}
    (h : incrementAt? cfg behind i ahead = some inc) : i.opcode.isPush = true := by
  unfold incrementAt? at h
  by_contra hpush
  rw [if_neg hpush] at h
  cases h

theorem Advances.addsTransfers {behind ahead : List Instruction} {skip : Nat}
    (h : Advances cfg container behind i ahead m skip m') :
    m.tree.AddsTransfers m'.tree i.transfers := by
  have hincrement {inc : Increment} (hi : incrementAt? cfg behind i ahead = some inc) {t t' : Tree}
      (h : t.AddsTransfers t' []) : t.AddsTransfers t' i.transfers := by
    rwa [Instruction.transfers, Instruction.isTransfer_push (isPush_of_incrementAt? hi)]
  cases h with
  | performed _ h => exact h.addsTransfers
  | pre hi _ => exact hincrement hi (addsTransfers_add rfl ..)
  | prePermuted hi _ => exact hincrement hi (addsTransfers_add rfl ..)
  | post hi => exact hincrement hi (addsTransfers_add rfl ..)

end Step

end Machine

/-! ## Windows -/

namespace Increment

/-- The pops that write back hold no transfer. -/
theorem not_isTransfer_of_writeBack {stored : Bool} {code : List Instruction} {k : Nat}
    {i : Instruction} (hk : k < writeBack stored code) (hi : code[k]? = some i) :
    i.isTransfer = false := by
  induction code generalizing stored k with
  | nil => cases hi
  | cons first rest ih =>
    rw [writeBack] at hk
    cases k with
    | zero =>
      obtain rfl : first = i := Option.some.inj hi
      by_cases hpop : first.opcode = .pop
      · exact Instruction.isTransfer_of_opcode hpop
      · simp [Instruction.isPermutation, hpop] at hk
    | succ k =>
      rw [List.getElem?_cons_succ] at hi
      split at hk
      · exact ih (Nat.lt_of_succ_lt_succ hk) hi
      · split at hk
        · exact ih (Nat.lt_of_succ_lt_succ hk) hi
        · cases hk

/-- The centre of a postfix increment is followed by an addition or a subtraction. -/
theorem stepOp?_of_find?_post {cfg : Settings} {behind ahead : List Instruction}
    {center : Instruction} {op : BinaryOp} (h : find? cfg behind center ahead = some ⟨op, .post⟩) :
    ∃ next rest, ahead = next :: rest ∧ stepOp? next = some op := by
  unfold find? at h
  split at h
  · rcases Option.or_eq_some_iff.mp h with hpost | ⟨-, hpre⟩
    · unfold findPost? at hpost
      split at hpost
      · rename_i last beforeLast more next rest
        split at hpost
        · obtain ⟨op', hop, heq⟩ := Option.map_eq_some_iff.mp hpost
          cases heq
          exact ⟨next, rest, rfl, hop⟩
        · cases hpost
      · cases hpost
    · unfold findPre? at hpre
      split at hpre
      · split at hpre
        · obtain ⟨op', -, heq⟩ := Option.map_eq_some_iff.mp hpre
          cases heq
        · cases hpre
      · cases hpre
  · cases h

/-- **A postfix window holds no transfer.** -/
theorem not_isTransfer_of_postWindow {cfg : Settings} {behind ahead : List Instruction}
    {center i : Instruction} {op : BinaryOp} {k : Nat}
    (h : find? cfg behind center ahead = some ⟨op, .post⟩) (hk : k < (postWindow ahead).span)
    (hi : ahead[k]? = some i) : i.isTransfer = false := by
  obtain ⟨next, rest, rfl, hnext⟩ := stepOp?_of_find?_post h
  cases k with
  | zero =>
    obtain rfl : next = i := Option.some.inj hi
    unfold stepOp? at hnext
    unfold Instruction.isTransfer
    split at hnext <;> simp_all
  | succ k =>
    exact not_isTransfer_of_writeBack (Nat.lt_of_succ_lt_succ hk) hi

end Increment

namespace Machine

open GmlLift.Action

/-! ## Runs -/

section Run

variable {cfg : Settings} {container : NodeId} {code : List Instruction} {m₀ m : Machine} {k : Nat}

/-- **The position lies in a prefix window of the run**: behind the centre of a prefix increment
that the cursor comes to, and before the end of its window. -/
def InPrefixWindow (cfg : Settings) (container : NodeId) (code : List Instruction) (m₀ : Machine)
    (k : Nat) : Prop :=
  ∃ j m i op, Arrives cfg container code m₀ j m ∧ code[j]? = some i ∧
    incrementAt? cfg (code.take j).reverse i (code.drop (j + 1)) = some ⟨op, .pre⟩ ∧
    j < k ∧ k < Increment.preEndAt code j

/-- The cursor passes over a window. -/
theorem Arrives.not_inPrefixWindow (way : Arrives cfg container code m₀ k m) :
    ¬ InPrefixWindow cfg container code m₀ k := by
  rintro ⟨j, m', i, op, way', hi, hinc, hlt, hend⟩
  obtain ⟨i', skip, hi', hok, hle⟩ := way'.next_le way hlt
  obtain rfl : i' = i := Option.some.inj (hi'.symm.trans hi)
  rw [Increment.preEndAt_eq (List.getElem?_eq_some_iff.mp hi).1] at hend
  have hskip : skip = (Increment.preWindow (code.drop (j + 1))).span := by
    have hspan := skip_of_step hok
    rw [hinc] at hspan
    exact hspan
  omega

/-- The instruction at the position is a transfer. -/
def TransferAt (code : List Instruction) (k : Nat) : Prop :=
  ∃ i, code[k]? = some i ∧ i.isTransfer = true

/-- The node of the transfer at a position. -/
def transferAt? (code : List Instruction) (k : Nat) : Option Kind :=
  code[k]?.bind (·.transfer?)

/-- What the cursor passes over from a position is no transfer, or lies in a prefix window. -/
theorem Arrives.passes (way : Arrives cfg container code m₀ k m) {i : Instruction} {skip : Nat}
    (hi : code[k]? = some i)
    (hok : (GmlLift.Machine.step cfg container (code.take k).reverse i (code.drop (k + 1))
      m).result = .ok skip) {j : Nat} (hlt : k < j) (hj : j < k + 1 + skip) :
    ¬ TransferAt code j ∨ InPrefixWindow cfg container code m₀ j := by
  have hskip := skip_of_step hok
  cases hinc : incrementAt? cfg (code.take k).reverse i (code.drop (k + 1)) with
  | none =>
    rw [hinc] at hskip
    obtain rfl : skip = 0 := hskip
    omega
  | some inc =>
    rw [hinc] at hskip
    obtain ⟨op, side⟩ := inc
    cases side with
    | pre =>
      refine Or.inr ⟨k, m, i, op, way, hi, hinc, hlt, ?_⟩
      have hspan : skip = (Increment.preWindow (code.drop (k + 1))).span := hskip
      rwa [Increment.preEndAt_eq (List.getElem?_eq_some_iff.mp hi).1, ← hspan]
    | post =>
      refine Or.inl ?_
      rintro ⟨i', hi', htransfer⟩
      obtain ⟨n, rfl⟩ := Nat.exists_eq_add_of_lt hlt
      have hfind : Increment.find? cfg (code.take k).reverse i (code.drop (k + 1)) =
          some ⟨op, .post⟩ := by
        unfold incrementAt? at hinc
        rwa [if_pos (isPush_of_incrementAt? hinc)] at hinc
      have hspan : n < (Increment.postWindow (code.drop (k + 1))).span := by
        have hspan : skip = (Increment.postWindow (code.drop (k + 1))).span := hskip
        omega
      have hget : (code.drop (k + 1))[n]? = some i' := by
        rw [List.getElem?_drop, ← hi']
        congr 1
        omega
      rw [Increment.not_isTransfer_of_postWindow hfind hspan hget] at htransfer
      cases htransfer

/-- **The transfers that a run has added when its cursor comes to a position** are those before the
position, in their order, that lie in no prefix window. -/
theorem Arrives.addsTransfers (hm : m₀.WellFormed container)
    (way : Arrives cfg container code m₀ k m) :
    ∃ ks : List Nat, ks.Pairwise (· < ·) ∧
      (∀ j, j ∈ ks ↔ j < k ∧ TransferAt code j ∧ ¬ InPrefixWindow cfg container code m₀ j) ∧
      m₀.tree.AddsTransfers m.tree (ks.map (transferAt? code)) := by
  induction way with
  | start => exact ⟨[], .nil, by simp, .refl _⟩
  | @step cursor skip m i way hi hok ih =>
    obtain ⟨ks, hsorted, hmem, hadds⟩ := ih
    have hstep := hadds.trans (advances_of_step (way.wellFormed hm) hok).addsTransfers
    have hpassed {j : Nat} (hlt : cursor < j) (hj : j < cursor + 1 + skip) :=
      way.passes hi hok hlt hj
    have hhere : TransferAt code cursor ↔ i.isTransfer = true := by
      simp [TransferAt, hi]
    have hiff (j : Nat) : (j < cursor + 1 + skip ∧ TransferAt code j ∧
          ¬ InPrefixWindow cfg container code m₀ j) ↔
        j ∈ ks ∨ (j = cursor ∧ i.isTransfer = true) := by
      rw [hmem]
      constructor
      · rintro ⟨hj, htransfer, hout⟩
        rcases Nat.lt_trichotomy j cursor with hbefore | rfl | hafter
        · exact Or.inl ⟨hbefore, htransfer, hout⟩
        · exact Or.inr ⟨rfl, hhere.mp htransfer⟩
        · rcases hpassed hafter hj with hno | hwindow
          · exact absurd htransfer hno
          · exact absurd hwindow hout
      · rintro (⟨hbefore, htransfer, hout⟩ | ⟨rfl, htransfer⟩)
        · exact ⟨by omega, htransfer, hout⟩
        · exact ⟨by omega, hhere.mpr htransfer, way.not_inPrefixWindow⟩
    by_cases htransfer : i.isTransfer = true
    · refine ⟨ks ++ [cursor], ?_, ?_, ?_⟩
      · refine List.pairwise_append.mpr ⟨hsorted, List.pairwise_singleton _ _, ?_⟩
        rintro j hj _ hc
        rw [List.mem_singleton.mp hc]
        exact ((hmem j).mp hj).1
      · intro j
        rw [hiff j, List.mem_append, List.mem_singleton]
        simp [htransfer]
      · rw [List.map_append]
        simpa [Instruction.transfers, htransfer, transferAt?, hi] using hstep
    · refine ⟨ks, hsorted, ?_, ?_⟩
      · intro j
        rw [hiff j]
        simp [htransfer]
      · simpa [Instruction.transfers, htransfer] using hstep

/-- **A run adds the transfers of its code**, in their order and each with its function, except for
those in the prefix windows that it passes over. -/
theorem execute_transfers (hm : m.WellFormed container)
    (hok : (execute cfg code container m).result = .ok ()) :
    ∃ ks : List Nat, ks.Pairwise (· < ·) ∧
      (∀ j, j ∈ ks ↔ TransferAt code j ∧ ¬ InPrefixWindow cfg container code m j) ∧
      m.tree.AddsTransfers (execute cfg code container m).state.tree
        (ks.map (transferAt? code)) := by
  have way : Arrives cfg container code m code.length (execute cfg code container m).state :=
    arrives_of_executeAt .start hok
  obtain ⟨ks, hsorted, hmem, hadds⟩ := way.addsTransfers hm
  refine ⟨ks, hsorted, fun j => ?_, hadds⟩
  rw [hmem j]
  refine ⟨And.right, fun h => ⟨?_, h⟩⟩
  obtain ⟨i, hi, -⟩ := h.1
  exact (List.getElem?_eq_some_iff.mp hi).1

end Run

/-! ## A call inside an increment -/

/-- A call of a function without arguments. -/
def callOf (target : UInt32) : Instruction :=
  { opcode := .call, type1 := .int32, function := some target }

/-- Code for `++var7`, with other instructions between the copy and the store. -/
def incrementAround (between : List Instruction) : List Instruction :=
  [{ opcode := .push, type1 := .variant, reference := some ⟨7, .normal⟩, owner := .self },
    { opcode := .push, type1 := .int16, literal := some (.int16 1) },
    { opcode := .add, type1 := .int32, type2 := .variant },
    { opcode := .dup, type1 := .variant }] ++ between ++
  [{ opcode := .pop, type1 := .variant, type2 := .variant, reference := some ⟨7, .normal⟩,
     owner := .self }]

/-- Of a call inside an increment and one behind it, the second is the transfer that is added. -/
theorem execute_transfers_increment :
    let code := incrementAround [callOf 2] ++ [callOf 3]
    let m : Machine := {}
    m.WellFormed Tree.root ∧ (execute {} code Tree.root m).result = .ok () ∧
      m.tree.AddsTransfers (execute {} code Tree.root m).state.tree [some (.call 3)] ∧
      ∃ ks : List Nat, ks.Pairwise (· < ·) ∧
        (∀ j, j ∈ ks ↔ TransferAt code j ∧ ¬ InPrefixWindow {} Tree.root code m j) ∧
        m.tree.AddsTransfers (execute {} code Tree.root m).state.tree
          (ks.map (transferAt? code)) := by
  intro code m
  have hok : (execute {} code Tree.root m).result = .ok () := by decide +kernel
  have hkinds : (execute {} code Tree.root m).state.tree.kinds = m.tree.kinds ++
      [.owner (-1), .var 7 .normal (some ⟨1⟩), .assign (.increment .add .pre), .call 3] := by
    decide +kernel
  exact ⟨wellFormed_new, hok, ⟨_, hkinds, by decide⟩, execute_transfers wellFormed_new hok⟩

/-- **A call inside a prefix increment is lost**: `++var7` with a call between the copy and the
store runs to its end, and no node of the tree is a call. -/
theorem execute_loses_call :
    let code := incrementAround [callOf 2]
    (execute {} code Tree.root {}).result = .ok () ∧
      (code.filter (·.isTransfer)).map (·.transfer?) = [some (.call 2)] ∧
      ¬ Tree.new.AddsTransfers (execute {} code Tree.root {}).state.tree
        ((code.filter (·.isTransfer)).map (·.transfer?)) := by
  intro code
  refine ⟨by decide +kernel, by decide +kernel, ?_⟩
  rintro ⟨new, hkinds, htransfers⟩
  have hall : (execute {} code Tree.root {}).state.tree.kinds.filter Kind.isTransfer = [] := by
    decide +kernel
  rw [hkinds, List.filter_append, List.append_eq_nil_iff] at hall
  rw [hall.2] at htransfers
  cases htransfers

end Machine

end GmlLift
