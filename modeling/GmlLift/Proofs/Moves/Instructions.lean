import GmlLift.Proofs.Moves.Handling
import GmlLift.Proofs.Execution.Composition
import GmlLift.Proofs.Execution.Range

/-!
# Instructions as moves

Every instruction takes what it needs from the stack and leaves nothing in hand and no statement
without a place, `does_step`. What it takes apart or drops, it takes from the stack; only `dup`
makes an id appear twice.
-/

namespace GmlLift

namespace Machine

open GmlLift.Action Scene

variable {L : Licence} {cfg : Settings} {t : Tree} {held loose : Multiset NodeId}
  {container : NodeId}

theorem coe_cons_add (id : NodeId) (ids : List NodeId) :
    (↑(id :: ids) : Multiset NodeId) + held = id ::ₘ (ids + held) := by
  rw [← Multiset.cons_coe, Multiset.cons_add]

theorem coe_singleton_add (id : NodeId) : (↑[id] : Multiset NodeId) + held = id ::ₘ held := by
  rw [Multiset.coe_singleton, Multiset.singleton_add]

theorem coe_pair_add (first second : NodeId) :
    (↑[first, second] : Multiset NodeId) + held = first ::ₘ second ::ₘ held := by
  rw [coe_cons_add, coe_singleton_add]

/-! ## Expressions are taken apart -/

/-- An operation becomes its two operands. -/
theorem moves_operands {id left right : NodeId} {op : BinaryOp}
    (h : t.operands? id op = some (left, right)) :
    Moves L ⟨t, id ::ₘ held, loose⟩ ⟨t, left ::ₘ right ::ₘ held, loose⟩ := by
  obtain ⟨more, mark, hn⟩ := Tree.get?_of_operands? h
  refine .tail (.single (.part hn rfl)) (.forget ?_)
  show _ ≤ (↑(left :: right :: more) : Multiset NodeId) + held
  rw [coe_cons_add, coe_cons_add]
  exact Multiset.cons_le_cons _ (Multiset.cons_le_cons _ (Multiset.le_add_left _ _))

/-- An operation becomes its right operand. -/
theorem moves_compound {owner value right : NodeId} {addressing : Addressing} {op : BinaryOp}
    (h : t.compound? owner addressing value = some (some (op, right))) :
    Moves L ⟨t, value ::ₘ held, loose⟩ ⟨t, right ::ₘ held, loose⟩ := by
  obtain ⟨left, hop⟩ := Tree.operands?_of_compound? h
  exact (moves_operands hop).tail (.forget (Multiset.le_cons_self _ left))

/-- A flattened index becomes its row and its column. -/
theorem moves_flattened {index row column : NodeId}
    (h : t.flattened? index = some (row, column)) :
    Moves L ⟨t, index ::ₘ held, loose⟩ ⟨t, row ::ₘ column ::ₘ held, loose⟩ := by
  obtain ⟨product, stride, hadd, hmul, -⟩ := Tree.operands?_of_flattened? h
  refine (moves_operands hadd).trans ((moves_operands hmul).tail (.forget ?_))
  exact Multiset.cons_le_cons row (Multiset.le_cons_self _ stride)

theorem does_arrayIndices (index : NodeId) :
    Does L cfg (arrayIndices cfg index) ⟨t, index ::ₘ held, loose⟩
      fun indices s => s = ⟨t, indices + held, loose⟩ := by
  refine .state_bind fun stack => ?_
  unfold rowAndColumn?
  split
  · rename_i row column h
    split at h
    · refine .moves_first (moves_flattened h) rfl ?_
      refine (does_describe _ _ _).bind ?_
      rintro _ _ rfl - -
      exact .pure (by rw [coe_pair_add])
    · cases h
  · exact .pure (by rw [coe_singleton_add])

/-! ## Statements -/

/-- A statement that has just been made goes to the container. -/
theorem does_place (hc : t.IsSort .container container) (kind : Kind) (children : List NodeId) :
    Does L cfg (append container t.nextId) ⟨t.add kind children, held, t.nextId ::ₘ loose⟩
      fun _ => Has held loose := by
  have hlt : container.index < t.nextId.index := hc.holds
  obtain ⟨n, hn, hs⟩ := hc.mono (Tree.evolves_add t kind children)
  exact (does_attach hn (Or.inl hs) hlt).mono fun _ _ h => h.1

/-- A statement is made of what is in hand, in the container. -/
theorem does_makeIn (hc : t.IsSort .container container) (kind : Kind) (children : List NodeId)
    (hs : kind.sort ≠ .expression) (hlen : children.length ≤ 2) :
    Does L cfg (make kind children >>= append container) ⟨t, children + held, loose⟩
      fun _ => Has held loose := by
  refine (does_make_statement kind children hs hlen).bind ?_
  rintro _ _ ⟨rfl, rfl⟩ - -
  exact does_place hc kind children

theorem does_makeEmpty (hc : t.IsSort .container container) (kind : Kind)
    (hs : kind.sort ≠ .expression) :
    Does L cfg (make kind >>= append container) ⟨t, held, loose⟩ fun _ => Has held loose := by
  refine .of_eq ?_ (does_makeIn hc kind [] hs (Nat.zero_le 2))
  rw [Multiset.coe_nil, zero_add]

theorem does_assign (hc : t.IsSort .container container) (position : Nat) {target : Access}
    (ho : t.Holds target.owner) (value : NodeId) :
    Does L cfg (assign cfg container position target value)
      ⟨t, target.node ::ₘ value ::ₘ held, loose⟩ fun _ => Has held loose := by
  refine .of_inRange fun hr => .state_bind fun stack => ?_
  have hv : t.Holds value := hr.held value (by simp)
  obtain ⟨found, hfound⟩ := compound?_of_holds hr.closed ho hv target.addressing
  simp only [hfound]
  match found, hfound with
  | none, _ =>
    rw [← coe_pair_add]
    exact does_makeIn hc (.assign .plain) [target.node, value] (by decide) (Nat.le_refl 2)
  | some (op, right), hfound =>
    rw [Multiset.cons_swap]
    refine .moves_first (moves_compound hfound) rfl ?_
    rw [Multiset.cons_swap, ← coe_pair_add]
    refine (does_make_statement (.assign (.compound op)) [target.node, right]
      (fun h => nomatch h) (Nat.le_refl 2)).bind ?_
    rintro _ _ ⟨rfl, rfl⟩ - -
    refine (does_describe _ _ _).bind ?_
    rintro _ _ rfl - -
    exact does_place hc _ _

/-! ## Instructions that look at the stack -/

theorem moves_markAll {t' : Tree} : ∀ {ids : List NodeId} {t : Tree}, markAll? t ids = some t' →
    Moves L ⟨t, held, loose⟩ ⟨t', held, loose⟩
  | [], t, h => by
    cases h
    exact .refl
  | id :: ids, t, h => by
    obtain ⟨t₁, hmark, h⟩ := markAll?_cons h
    exact .head (.mark hmark) (moves_markAll h)

/-- Copying needs the licence for it. -/
theorem does_duplicate (hL : L.copies) (position : Nat) (i : Instruction) :
    Does L cfg (duplicate position i) ⟨t, held, loose⟩ fun _ => Has held loose := by
  by_cases hf : i.comparison = 0
  · intro ⟨items⟩ hr
    by_cases hd : i.dupCount ≤ items.length
    · have hholds : ∀ id ∈ items.take i.dupCount, t.Holds id := fun id hid =>
        hr.held id (Multiset.mem_add.mpr (Or.inl (List.mem_of_mem_take hid)))
      obtain ⟨t', ht'⟩ := markAll?_of_holds hholds
      rw [duplicate_apply position hf hd ht']
      refine ⟨⟨t', held, loose⟩, ⟨items.take i.dupCount ++ items⟩, rfl, ?_, rfl, rfl⟩
      show Moves L _ ⟨t', ↑(items.take i.dupCount ++ items) + held, loose⟩
      rw [← Multiset.coe_add, add_assoc]
      refine (moves_markAll ht').tail (.copy hL fun id hid => ?_)
      exact Multiset.mem_add.mpr (Or.inl (List.mem_of_mem_take hid))
    · have hlt : (Machine.mk t ⟨items⟩).stack.depth < i.dupCount := Nat.lt_of_not_le hd
      unfold duplicate
      rw [if_pos hf, bind_quiet (state_apply _), if_pos hlt]
      exact Does.fail _ ⟨items⟩ hr
  · unfold duplicate
    rw [if_neg hf]
    exact .fail _

theorem does_discard (hc : t.IsSort .container container) (position : Nat) :
    Does L cfg (discard cfg container position) ⟨t, held, loose⟩ fun _ => Has held loose := by
  obtain ⟨n, hn, hs⟩ := hc
  intro ⟨items⟩ hr
  cases items with
  | nil =>
    exact ⟨⟨t, held, loose⟩, ⟨[]⟩, rfl, .refl, rfl, rfl⟩
  | cons value rest =>
    have hscene := Scene.under_push t held loose ⟨rest⟩ value
    change Outcomes L cfg (under ⟨t, held, loose⟩ (OperandStack.push ⟨rest⟩ value))
      (append container value ⟨t, ⟨rest⟩⟩) _
    change (under ⟨t, held, loose⟩ (OperandStack.push ⟨rest⟩ value)).InRange at hr
    rw [hscene] at hr ⊢
    exact (does_give hn (Or.inl hs)).mono (fun _ _ h => h.1) ⟨rest⟩ hr

theorem does_convert (i : Instruction) :
    Does L cfg (convert i) ⟨t, held, loose⟩ fun _ => Has held loose := by
  intro ⟨items⟩ hr
  rw [convert_apply]
  split
  · rename_i value hvalue
    refine ⟨⟨t.add (.boolean value) [], held, loose⟩, _, rfl, ?_, rfl, rfl⟩
    have hexpress : Move L ⟨t, ↑items + held, loose⟩
        ⟨t.add (.boolean value) [], t.nextId ::ₘ (↑items + held), loose⟩ := by
      have h : Move L ⟨t, ↑(Node.references { kind := .boolean value, children := [] }) +
          (↑items + held), loose⟩ _ := .express rfl
      rwa [Node.references_of_left? rfl, Multiset.coe_nil, zero_add] at h
    refine .tail (.single hexpress) (.forget ?_)
    cases items with
    | nil => exact Multiset.le_cons_self _ _
    | cons top rest =>
      show (↑(t.nextId :: rest) : Multiset NodeId) + held ≤ t.nextId ::ₘ (↑(top :: rest) + held)
      rw [coe_cons_add, coe_cons_add]
      exact Multiset.cons_le_cons _ (Multiset.le_cons_self _ _)
  · exact ⟨⟨t, held, loose⟩, ⟨items⟩, rfl, .refl, rfl, rfl⟩

/-! ## Instructions -/

/-- The scene has what the hand says above the rest. -/
structure Hand.In (hand : Hand) (rest loose : Multiset NodeId) (s : Scene) : Prop where
  has : s.Has (hand.held + rest) loose
  known : ∀ id ∈ hand.known, s.tree.Holds id

theorem Hand.Yields.inScene {hand hand' : Hand} (h : hand.Yields hand')
    (hr : InRange ⟨t, hand.held + held, loose⟩) (hknown : ∀ id ∈ hand.known, t.Holds id) :
    hand'.In held loose ⟨t, hand'.held + held, loose⟩ where
  has := ⟨rfl, rfl⟩
  known id hid := by
    rcases h.known id hid with hid | hid
    · exact hknown id hid
    · exact hr.held id (Multiset.mem_add.mpr (Or.inl hid))

theorem Hand.Yields.moves {hand hand' : Hand} (h : hand.Yields hand') :
    Moves L ⟨t, hand.held + held, loose⟩ ⟨t, hand'.held + held, loose⟩ :=
  .single (.forget (add_le_add_left (Multiset.coe_le.mpr h.held) held))

/-- Ids that are in range stay so. -/
theorem Does.inScene {α : Type} {x : Action Machine α} {s : Scene} {known : List NodeId}
    {ids : α → List NodeId} (hx : Does L cfg x s fun a => Has (ids a + held) loose)
    (hknown : ∀ id ∈ known, s.tree.Holds id) (made : Option Nat) :
    Does L cfg x s fun a => Hand.In ⟨ids a, known, made⟩ held loose := by
  have h : Does L cfg (x >>= pure) s fun a => Hand.In ⟨ids a, known, made⟩ held loose :=
    hx.bind fun a s' hs hevolves _ => .pure ⟨hs, fun id hid => hevolves.holds (hknown id hid)⟩
  rwa [bind_pure] at h

/-- **What is composed of the moves of an instruction does what its hand says.** -/
theorem Composed.does {w : Twin} (hL : w.i.opcode = .dup → L.copies) {α : Type} {hand : Hand}
    {x y : Action Machine α} {post : α → Hand} (h : Composed w hand x y post)
    (hc : t.IsSort .container w.container) (hknown : ∀ id ∈ hand.known, t.Holds id) :
    Does L w.cfg x ⟨t, hand.held + held, loose⟩ fun a => (post a).In held loose := by
  induction h generalizing t with
  | pure hy =>
    exact .of_inRange fun hr => .moves_first hy.moves rfl (.pure (hy.inScene hr hknown))
  | bind _ _ ihx ihf =>
    refine (ihx hc hknown).bind ?_
    rintro a ⟨t₁, _, _⟩ ⟨⟨rfl, rfl⟩, hknown₁⟩ hx -
    exact ihf a (hc.mono hx) hknown₁
  | weaken hy _ ih =>
    refine .of_inRange fun hr => .moves_first hy.moves rfl ?_
    exact ih hc (hy.inScene hr hknown).known
  | fail => exact .fail _
  | pop =>
    refine (does_pop w.position).mono ?_
    rintro id _ rfl
    exact ⟨⟨(coe_cons_add ..).symm, rfl⟩, hknown⟩
  | @push held' _ _ id =>
    simp only [coe_cons_add]
    exact (does_push id).has.inScene hknown none
  | @make held' _ _ kind children hs =>
    rw [← Multiset.coe_add, add_assoc]
    refine Does.inScene ?_ hknown _
    refine (does_make_expression kind children hs).mono ?_
    rintro _ _ ⟨rfl, rfl⟩
    exact ⟨(coe_cons_add ..).symm, rfl⟩
  | place kind children hs hlen =>
    rw [← Multiset.coe_add, add_assoc]
    exact (does_makeIn hc kind children (by rw [hs]; decide) hlen).inScene hknown none
  | arrayIndices =>
    simp only [coe_cons_add]
    refine Does.inScene ?_ hknown _
    refine (does_arrayIndices _).mono ?_
    rintro indices _ rfl
    exact ⟨by rw [← Multiset.coe_add, add_assoc], rfl⟩
  | assign =>
    obtain ⟨howner, hknown⟩ := List.forall_mem_cons.mp hknown
    simp only [coe_cons_add]
    exact (does_assign hc w.position howner _).inScene hknown none
  | duplicate _ hop => exact (does_duplicate (hL hop) w.position w.i).inScene hknown none
  | discard => exact (does_discard hc w.position).inScene hknown none
  | convert => exact (does_convert w.i).inScene hknown none
  | report =>
    refine (does_report _ _).mono ?_
    rintro _ _ rfl
    exact ⟨⟨rfl, rfl⟩, hknown⟩
  | describe =>
    refine (does_describe _ _ _).mono ?_
    rintro _ _ rfl
    exact ⟨⟨rfl, rfl⟩, hknown⟩

/-- **Every instruction is made of moves**, and leaves the hand as it was. -/
theorem does_step (hc : t.IsSort .container container) (behind : List Instruction)
    {i : Instruction} (hL : i.opcode = .dup → L.copies) (ahead : List Instruction) :
    Does L cfg (step cfg container behind i ahead) ⟨t, held, loose⟩ fun _ => Has held loose := by
  have hnone : ↑([] : List NodeId) + held = held := by rw [Multiset.coe_nil, zero_add]
  have h : Does L cfg (step cfg container behind i ahead) ⟨t, ↑([] : List NodeId) + held, loose⟩
      fun _ => Hand.In ⟨[], [], none⟩ held loose :=
    (composed_step_same cfg container behind i ahead).does hL hc
      fun _ hid => (List.not_mem_nil hid).elim
  refine .of_eq (by rw [hnone]) (h.mono fun _ _ hs => ?_)
  rw [← hnone]
  exact hs.has

end Machine

end GmlLift
