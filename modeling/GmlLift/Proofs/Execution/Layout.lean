import GmlLift.Proofs.Execution.Cursor
import GmlLift.Proofs.Tree.Layout

/-!
# Code lays out what it makes

On a stack of values, every instruction makes nodes that are laid out, and leaves values
(`Performs.arranged`). Where an instruction takes a value apart, the parts are values since the
value was laid out.
-/

namespace GmlLift

open GmlLift.Tree

namespace Machine

/-- **The machine is in order**: its own nodes are laid out, and on its stack are values. -/
structure Arranged (cfg : Settings) (own : NodeId → Prop) (m : Machine) : Prop where
  layout : m.tree.Layout cfg own
  values : ∀ id ∈ m.stack.items, m.tree.FillsOwn own .operand id

variable {cfg : Settings} {own : NodeId → Prop} {t t' : Tree} {items rest : List NodeId}
  {m m' : Machine} {container : NodeId}

namespace Arranged

/-- A later tree, and fewer values. -/
theorem later (h : Arranged cfg own ⟨t, ⟨items⟩⟩) (ht : t'.Layout cfg own)
    (hx : t.Retains own t') (hrest : ∀ id ∈ rest, id ∈ items) : Arranged cfg own ⟨t', ⟨rest⟩⟩ where
  layout := ht
  values id hid := hx.fillsOwn (h.values id (hrest id hid))

/-- **A new expression takes the place of values.** -/
theorem express (h : Arranged cfg own ⟨t, ⟨items⟩⟩) {kind : Kind} {children : List NodeId}
    (hvalue : Place.operand.Admits { kind, children })
    (hn : Node.LaidOut cfg (t.FillsOwn own) { kind, children }) (hrest : ∀ id ∈ rest, id ∈ items) :
    Arranged cfg own ⟨t.add kind children, ⟨t.nextId :: rest⟩⟩ := by
  have hlater := h.later (h.layout.add hn) (retains_add own t kind children) hrest
  exact ⟨hlater.layout, List.forall_mem_cons.mpr ⟨h.layout.fillsOwn_add hvalue, hlater.values⟩⟩

/-- **A new statement goes into the container.** -/
theorem state (h : Arranged cfg own ⟨t, ⟨items⟩⟩) (hc : t.Takes own .container container)
    {kind : Kind} {children : List NodeId}
    (hn : Node.LaidOut cfg (t.FillsOwn own) { kind, children })
    (ht : (t.add kind children).appendChild? container t.nextId = some t')
    (hrest : ∀ id ∈ rest, id ∈ items) : Arranged cfg own ⟨t', ⟨rest⟩⟩ := by
  have hx := retains_add own t kind children
  refine h.later ?_ (hx.trans (extends_appendChild ht).retains) hrest
  exact (h.layout.add hn).appendChild (hx.takes hc) (t.holds_nextId_add kind children) ht

end Arranged

/-! ## Taking values apart -/

theorem fillsOwn_of_operands? (ht : t.Layout cfg own) {id left right : NodeId} {op : BinaryOp}
    (hid : own id) (h : t.operands? id op = some (left, right)) :
    t.FillsOwn own .operand left ∧ t.FillsOwn own .operand right := by
  obtain ⟨more, mark, hn⟩ := Tree.get?_of_operands? h
  obtain ⟨_, _, hchildren, hleft, hright⟩ := (ht.laidOut id _ hid hn).operands rfl
  cases hchildren
  exact ⟨hleft, hright⟩

theorem fillsOwn_of_flattened? (ht : t.Layout cfg own) {index row column : NodeId}
    (hid : own index) (h : t.flattened? index = some (row, column)) :
    t.FillsOwn own .operand row ∧ t.FillsOwn own .operand column := by
  obtain ⟨product, stride, hadd, hmul, -⟩ := Tree.operands?_of_flattened? h
  obtain ⟨hproduct, hcolumn⟩ := fillsOwn_of_operands? ht hid hadd
  obtain ⟨hrow, -⟩ := fillsOwn_of_operands? ht (hproduct.2 nofun) hmul
  exact ⟨hrow, hcolumn⟩

/-- An index stands for values, for two of them in the legacy dialect only. -/
theorem fillsOwn_indexParts (ht : t.Layout cfg own) {index : NodeId}
    (hindex : t.FillsOwn own .operand index) :
    (∀ id ∈ indexParts cfg t index, t.FillsOwn own .operand id) ∧
      (indexParts cfg t index).length ≤ if cfg.isLegacy then 2 else 1 := by
  unfold indexParts rowAndColumn?
  split
  · rename_i row column hparts
    split at hparts
    · rename_i hlegacy
      obtain ⟨hrow, hcolumn⟩ := fillsOwn_of_flattened? ht (hindex.2 nofun) hparts
      refine ⟨by simp [hrow, hcolumn], ?_⟩
      have hlegacy : cfg.isLegacy = true := hlegacy
      rw [hlegacy]
      exact Nat.le_refl 2
    · cases hparts
  · refine ⟨by simp [hindex], ?_⟩
    split <;> simp

/-- The right operand of a compound assignment. -/
theorem fillsOwn_of_compound? (ht : t.Layout cfg own) {owner value right : NodeId}
    {addressing : Addressing} {op : BinaryOp} (hvalue : own value)
    (h : t.compound? owner addressing value = some (some (op, right))) :
    t.FillsOwn own .operand right := by
  obtain ⟨left, hop⟩ := Tree.operands?_of_compound? h
  exact (fillsOwn_of_operands? ht hvalue hop).2

/-! ## One instruction -/

theorem Reaches.arranged {owner : Owner} {addressing : Addressing} {left : NodeId}
    {indices : List NodeId} (h : Reaches cfg owner addressing m left indices m')
    (hm : m.Arranged cfg own) (target : UInt32) :
    m'.Arranged cfg own ∧ Node.LaidOut cfg (m'.tree.FillsOwn own)
      { kind := .var target addressing (some left), children := indices } := by
  have howner {t : Tree} {id : NodeId} (h : t.FillsOwn own .operand id) :
      t.FillsOwn own .owner id := by
    obtain ⟨⟨n, hn, hvalue⟩, hown⟩ := h
    exact ⟨⟨n, hn, hvalue.1⟩, fun _ => hown nofun⟩
  cases h with
  | member _ =>
    obtain ⟨hleft, hrest⟩ := List.forall_mem_cons.mp hm.values
    refine ⟨⟨hm.layout, hrest⟩, Node.laidOut_var (howner hleft) ?_ ?_ (Nat.zero_le _)⟩
    · simp
    · simp
  | element _ ha =>
    obtain ⟨hindex, hrest⟩ := List.forall_mem_cons.mp hm.values
    obtain ⟨hleft, hrest⟩ := List.forall_mem_cons.mp hrest
    obtain ⟨hparts, hlen⟩ := fillsOwn_indexParts hm.layout hindex
    exact ⟨⟨hm.layout, hrest⟩, Node.laidOut_var (howner hleft) hparts (fun _ => ha) hlen⟩
  | @named t items _ _ _ =>
    have hlaid : Node.LaidOut cfg (t.FillsOwn own) { kind := .owner owner.code } :=
      Node.laidOut_of_places List.mem_cons_self rfl .nil
    have hleft : (t.add (.owner owner.code) []).FillsOwn own .owner t.nextId :=
      hm.layout.fillsOwn_add fun hs : Node.IsStatement _ => hs.1 rfl
    refine ⟨hm.later (hm.layout.add hlaid) (retains_add ..) fun _ h => h, ?_⟩
    refine Node.laidOut_var hleft ?_ ?_ (Nat.zero_le _)
    · simp
    · simp

/-- A variable can be read and assigned. -/
theorem Accesses.arranged {i : Instruction} {a : Access} (h : Accesses cfg i m a m')
    (hm : m.Arranged cfg own) :
    m'.Arranged cfg own ∧ m'.tree.FillsOwn own .target a.node ∧
      m'.tree.FillsOwn own .operand a.node := by
  obtain ⟨_, hr⟩ := h
  rename_i ref left indices t items _
  obtain ⟨hm', hlaid⟩ := hr.arranged hm ref.target
  refine ⟨hm'.later (hm'.layout.add hlaid) (retains_add ..) fun _ h => h,
    hm'.layout.fillsOwn_add rfl, hm'.layout.fillsOwn_add (Place.admits_operand rfl rfl _)⟩

theorem Assigns.arranged {a : Access} {value : NodeId}
    (h : Assigns container a value t t') (hm : Arranged cfg own ⟨t, ⟨items⟩⟩)
    (hc : t.Takes own .container container) (hnode : t.FillsOwn own .target a.node)
    (hvalue : t.FillsOwn own .operand value) (hrest : ∀ id ∈ rest, id ∈ items) :
    Arranged cfg own ⟨t', ⟨rest⟩⟩ := by
  cases h with
  | plain _ ht =>
    refine hm.state hc ?_ ht hrest
    exact Node.laidOut_of_places List.mem_cons_self rfl (.cons hnode (.cons hvalue .nil))
  | compound hcompound ht =>
    have hright := fillsOwn_of_compound? hm.layout (hvalue.2 nofun) hcompound
    refine hm.state hc ?_ ht hrest
    exact Node.laidOut_of_places List.mem_cons_self rfl (.cons hnode (.cons hright .nil))

theorem layout_of_markAll? : ∀ {ids : List NodeId} {t t' : Tree},
    t.Layout cfg own → markAll? t ids = some t' → t'.Layout cfg own
  | [], _, _, ht, h => by
    cases h
    exact ht
  | _ :: _, _, _, ht, h => by
    obtain ⟨t₁, ht₁, h⟩ := markAll?_cons h
    exact layout_of_markAll? (ht.setDuplicated ht₁) h

/-- **Every instruction lays out what it makes.** -/
theorem Performs.arranged {i : Instruction} (h : Performs cfg container i m m')
    (hm : m.Arranged cfg own) (hc : m.tree.Takes own .container container) :
    m'.Arranged cfg own := by
  cases h with
  | @pushLiteral t items l _ _ _ =>
    refine hm.express ?_ ?_ fun _ h => h
    · cases l <;> exact Place.admits_operand rfl rfl _
    · cases l <;> exact Node.laidOut_of_places List.mem_cons_self rfl .nil
  | pushVariable _ _ ha =>
    obtain ⟨hm', -, hvalue⟩ := ha.arranged hm
    exact ⟨hm'.layout, List.forall_mem_cons.mpr ⟨hvalue, hm'.values⟩⟩
  | storeAbove _ _ ha hs =>
    obtain ⟨hvalue, hitems⟩ := List.forall_mem_cons.mp hm.values
    have hx : Retains own .. := (ha.extends container).retains
    obtain ⟨hm', hnode, -⟩ := ha.arranged ⟨hm.layout, hitems⟩
    exact hs.arranged hm' (hx.takes hc) hnode (hx.fillsOwn hvalue) fun _ h => h
  | storeBelow _ _ ha hs =>
    have hx : Retains own .. := (ha.extends container).retains
    obtain ⟨hm', hnode, -⟩ := ha.arranged hm
    obtain ⟨hvalue, -⟩ := List.forall_mem_cons.mp hm'.values
    exact hs.arranged hm' (hx.takes hc) hnode hvalue fun _ h => List.mem_cons_of_mem _ h
  | permute _ _ =>
    refine hm.later hm.layout (.refl _) fun id hid => ?_
    simp only [List.mem_cons, List.mem_append] at hid ⊢
    exact hid.imp_right (Or.imp_right Or.inr)
  | @operate t left right rest _ _ _ =>
    obtain ⟨hright, hvalues⟩ := List.forall_mem_cons.mp hm.values
    obtain ⟨hleft, -⟩ := List.forall_mem_cons.mp hvalues
    refine hm.express (Place.admits_operand rfl rfl _) ?_
      fun _ h => List.mem_cons_of_mem _ (List.mem_cons_of_mem _ h)
    exact Node.laidOut_of_places List.mem_cons_self rfl (.cons hleft (.cons hright .nil))
  | @operateOne t operand rest _ _ =>
    obtain ⟨hoperand, -⟩ := List.forall_mem_cons.mp hm.values
    refine hm.express (Place.admits_operand rfl rfl _) ?_ fun _ h => List.mem_cons_of_mem _ h
    exact Node.laidOut_of_places List.mem_cons_self rfl (.cons hoperand .nil)
  | call _ _ _ =>
    refine hm.express (Place.admits_operand rfl rfl _) ?_ fun _ h => List.mem_append_right _ h
    refine Node.laidOut_of_suits List.mem_cons_self rfl (Arrangement.suits_of_rest rfl ?_ nofun)
    exact fun id hid => hm.values id (List.mem_append_left _ hid)
  | returnValue _ ht =>
    obtain ⟨hvalue, -⟩ := List.forall_mem_cons.mp hm.values
    refine hm.state hc ?_ ht fun _ h => List.mem_cons_of_mem _ h
    exact Node.laidOut_of_places List.mem_cons_self rfl (.cons hvalue .nil)
  | exitScript _ ht =>
    refine hm.state hc ?_ ht fun _ h => h
    exact Node.laidOut_of_places List.mem_cons_self rfl .nil
  | discard _ ht =>
    obtain ⟨hvalue, -⟩ := List.forall_mem_cons.mp hm.values
    refine hm.later (hm.layout.appendChild hc hvalue.1.holds ht) (extends_appendChild ht).retains
      fun _ h => List.mem_cons_of_mem _ h
  | discardNothing _ => exact hm
  | duplicate _ _ _ ht =>
    refine hm.later (layout_of_markAll? hm.layout ht) (extends_of_markAll? container ht).retains
      fun id hid => ?_
    rcases List.mem_append.mp hid with hid | hid
    · exact List.mem_of_mem_take hid
    · exact hid
  | @convert t top rest _ _ _ =>
    refine hm.express (Place.admits_operand rfl rfl _) ?_ fun _ h => List.mem_cons_of_mem _ h
    exact Node.laidOut_of_places List.mem_cons_self rfl .nil
  | keep _ _ => exact hm
  | mark _ => exact hm

theorem Advances.arranged {behind ahead : List Instruction} {i : Instruction} {skip : Nat}
    (h : Advances cfg container behind i ahead m skip m') (hm : m.Arranged cfg own)
    (hc : m.tree.Takes own .container container) : m'.Arranged cfg own := by
  -- an increment is an expression with one operand
  have hincrement {t : Tree} {items rest : List NodeId} {op : BinaryOp} {side : Side}
      {target : NodeId} (hm : Arranged cfg own ⟨t, ⟨items⟩⟩) (ht : target ∈ items)
      (hrest : ∀ id ∈ rest, id ∈ items) :
      Arranged cfg own ⟨t.add (.assign (.increment op side)) [target], ⟨t.nextId :: rest⟩⟩ := by
    refine hm.express (Place.admits_operand rfl rfl _) ?_ hrest
    exact Node.laidOut_of_places List.mem_cons_self rfl (.cons (hm.values target ht) .nil)
  cases h with
  | performed _ h => exact h.arranged hm hc
  | pre _ _ => exact hincrement hm (by simp) (by simp +contextual)
  | prePermuted _ _ => exact hincrement hm (by simp) (by simp +contextual)
  | post _ => exact hincrement hm (by simp) (by simp +contextual)

end Machine

/-- A new tree is laid out. -/
theorem Tree.layout_new (cfg : Settings) : Tree.new.Layout cfg fun _ => True where
  closed := Machine.wellFormed_new.closed
  fresh _ _ := trivial
  laidOut id n _ hn := by
    have hroot : n = { kind := .block } := by
      obtain ⟨index⟩ := id
      have hindex : index = 0 := Nat.lt_one_iff.mp (holds_of_get? hn)
      subst hindex
      exact (Option.some.inj hn).symm
    subst hroot
    exact Node.laidOut_of_container rfl (by simp)

end GmlLift
