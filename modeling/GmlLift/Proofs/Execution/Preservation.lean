import GmlLift.Proofs.Execution.Additions
import GmlLift.Proofs.Execution.Compound
import GmlLift.Proofs.Execution.Failure

/-!
# What was built stays as it was

A run of code only adds to the tree. It puts values into the container that do not lead to the
container themselves, so it closes no cycle (`Clear`), and it marks only what lies on the stack,
where there are the items from before and new nodes. All of this holds however the run ends: a
failed run leaves what a step on its way has left, up to the remains of an instruction.

Result: `execute_preserves`. The old nodes are as they were, apart from marks and the new statements
of the container, and those that do not lead to the container keep their texts.
-/

namespace GmlLift

namespace Machine

open GmlLift.Action

/-! ## Nothing leads to the container -/

/-- **The tree is sound, and nothing on the stack leads to the container.** -/
structure Clear (container : NodeId) (m : Machine) : Prop where
  tree : m.tree.Sound container
  items : ∀ id ∈ m.stack.items, m.tree.Aside container id

section Step

variable {cfg : Settings} {container : NodeId} {i : Instruction} {m m' : Machine} {t t' : Tree}

/-- The tree has gone on, and the items were on the stack before. -/
theorem Clear.proceed (h : m.Clear container) (ht : m.tree.Proceeds container t)
    {items : List NodeId} (hitems : ∀ id ∈ items, id ∈ m.stack.items) :
    Clear container ⟨t, ⟨items⟩⟩ :=
  ⟨ht.sound, fun id hid => ht.aside id (h.items id (hitems id hid))⟩

/-- An expression made of operands takes their place on the stack. -/
theorem Clear.pushNew {rest : List NodeId} (taken : List NodeId)
    (h : Clear container ⟨t, ⟨taken ++ rest⟩⟩) {kind : Kind} {children : List NodeId}
    (hk : kind.left? = none) (hchildren : ∀ id ∈ children, id ∈ taken) :
    Clear container ⟨t.add kind children, ⟨t.nextId :: rest⟩⟩ := by
  have hrefs : ∀ ref ∈ Node.references { kind, children }, t.Aside container ref := by
    intro ref href
    have href : ref ∈ children := by simpa [Node.references, hk] using href
    exact h.items ref (List.mem_append_left _ (hchildren ref href))
  obtain ⟨hadd, hnew⟩ := h.tree.add hrefs
  refine ⟨hadd.sound, List.forall_mem_cons.mpr ⟨hnew, fun id hid => ?_⟩⟩
  exact hadd.aside id (h.items id (List.mem_append_right _ hid))

theorem Reaches.clear {owner : Owner} {addressing : Addressing} {left : NodeId}
    {indices : List NodeId} (h : Reaches cfg owner addressing m left indices m')
    (hc : m.Clear container) :
    m.tree.Proceeds container m'.tree ∧ ∀ id ∈ left :: indices, m'.tree.Aside container id := by
  cases h with
  | member _ =>
    exact ⟨hc.tree.refl, by simpa using hc.items _ List.mem_cons_self⟩
  | @element t left index rest _ _ =>
    have hindex := hc.items index List.mem_cons_self
    refine ⟨hc.tree.refl, List.forall_mem_cons.mpr ⟨hc.items left (by simp), fun id hid => ?_⟩⟩
    exact hindex.of_leads hc.tree.closed (leads_of_mem_indexParts hid)
  | @named t items _ _ _ =>
    have hrefs : ∀ ref ∈ Node.references { kind := .owner owner.code }, t.Aside container ref := by
      simp [Node.references, Kind.left?]
    obtain ⟨hadd, hnew⟩ := hc.tree.add hrefs
    exact ⟨hadd, by simpa using hnew⟩

theorem Accesses.clear {a : Access} (h : Accesses cfg i m a m') (hc : m.Clear container) :
    m.tree.Proceeds container m'.tree ∧ m'.tree.Aside container a.node := by
  cases h with
  | @intro ref left indices t items _ hr =>
    obtain ⟨hreach, hrefs⟩ := hr.clear hc
    have hvar : ∀ id ∈ Node.references
        { kind := .var ref.target ref.addressing (some left), children := indices },
        t.Aside container id := by
      simpa [Node.references, Kind.left?] using hrefs
    obtain ⟨hadd, hnew⟩ := hreach.sound.add hvar
    exact ⟨hreach.trans hadd, hnew⟩

theorem Assigns.proceeds {a : Access} {value : NodeId} (h : Assigns container a value t t')
    (ht : t.Sound container) (hnode : t.Aside container a.node)
    (hvalue : t.Aside container value) : t.Proceeds container t' := by
  cases h with
  | plain _ happend =>
    exact ht.state (by simp [Node.references, Kind.left?, hnode, hvalue]) happend
  | compound hfound happend =>
    have hright := hvalue.of_leads ht.closed (.single (Tree.refers_of_compound? hfound))
    exact ht.state (by simp [Node.references, Kind.left?, hnode, hright]) happend

theorem proceeds_of_markAll? {ids : List NodeId} (ht : t.Sound container)
    (h : markAll? t ids = some t') : t.Proceeds container t' := by
  induction ids generalizing t with
  | nil =>
    cases h
    exact ht.refl
  | cons id ids ih =>
    obtain ⟨t₁, ht₁, hrest⟩ := markAll?_cons h
    have hmark := ht.setDuplicated ht₁
    exact hmark.trans (ih hmark.sound hrest)

theorem Accesses.items_subset {a : Access} (h : Accesses cfg i m a m') :
    ∀ id ∈ m'.stack.items, id ∈ m.stack.items := by
  obtain ⟨operands, hitems, -⟩ := h.items
  intro id hid
  rw [hitems]
  exact List.mem_append_right operands hid

/-- **Every instruction keeps the stack clear of the container.** -/
theorem Performs.clear (h : Performs cfg container i m m') (hc : m.Clear container) :
    m'.Clear container := by
  cases h with
  | @pushLiteral t items l _ _ _ => exact hc.pushNew [] (by cases l <;> rfl) (by simp)
  | pushVariable _ _ ha =>
    obtain ⟨haccess, hnode⟩ := ha.clear hc
    have hitems := (hc.proceed haccess ha.items_subset).items
    exact ⟨haccess.sound, List.forall_mem_cons.mpr ⟨hnode, hitems⟩⟩
  | @storeAbove t t₁ t₂ items rest value a _ _ ha hs =>
    have hitems : Clear container ⟨t, ⟨items⟩⟩ := hc.proceed hc.tree.refl (by simp +contextual)
    obtain ⟨haccess, hnode⟩ := ha.clear hitems
    have hvalue := haccess.aside value (hc.items value List.mem_cons_self)
    have hstate := haccess.trans (hs.proceeds haccess.sound hnode hvalue)
    exact hitems.proceed hstate ha.items_subset
  | @storeBelow m t₁ t₂ rest value a _ _ ha hs =>
    obtain ⟨haccess, hnode⟩ := ha.clear hc
    have hvalue := haccess.aside value (hc.items value (ha.items_subset value List.mem_cons_self))
    have hstate := haccess.trans (hs.proceeds haccess.sound hnode hvalue)
    exact hc.proceed hstate fun id hid => ha.items_subset id (List.mem_cons_of_mem value hid)
  | permute _ _ => exact hc.proceed hc.tree.refl (by simp +contextual)
  | @operate t left right rest _ _ _ => exact hc.pushNew [right, left] rfl (by simp [or_comm])
  | @operateOne t operand rest _ _ => exact hc.pushNew [operand] rfl (by simp)
  | call _ _ _ => exact hc.pushNew _ rfl fun _ hid => hid
  | @returnValue t t' value rest _ ht =>
    have hvalue := hc.items value List.mem_cons_self
    exact hc.proceed (hc.tree.state (by simp [Node.references, Kind.left?, hvalue]) ht)
      (by simp +contextual)
  | exitScript _ ht =>
    exact hc.proceed (hc.tree.state (by simp [Node.references, Kind.left?]) ht) (by simp)
  | @discard t t' value rest _ ht =>
    exact hc.proceed (hc.tree.appendChild (hc.items value List.mem_cons_self) ht)
      (by simp +contextual)
  | discardNothing _ => exact hc
  | @duplicate t t' items _ _ _ ht =>
    refine hc.proceed (proceeds_of_markAll? hc.tree ht) fun id hid => ?_
    exact (List.mem_append.mp hid).elim List.mem_of_mem_take fun hid => hid
  | @convert t top rest _ _ _ => exact hc.pushNew [top] rfl (by simp)
  | keep _ _ => exact hc
  | mark _ => exact hc

theorem Advances.clear {behind ahead : List Instruction} {skip : Nat}
    (h : Advances cfg container behind i ahead m skip m') (hc : m.Clear container) :
    m'.Clear container := by
  cases h with
  | performed _ h => exact h.clear hc
  | @pre t _ target rest _ _ => exact hc.pushNew [target] rfl (by simp)
  | @prePermuted t _ target below rest _ _ => exact hc.pushNew [target, below] rfl (by simp)
  | @post t _ copy target rest _ => exact hc.pushNew [copy, target] rfl (by simp)

/-- The remains of a failed instruction do not lead to the container. -/
theorem Drawn.clear {n : Nat} (h : m.Drawn m' n) (hc : m.Clear container) : m'.Clear container :=
  hc.proceed (hc.tree.sprouts h.tree) fun _ hid => h.stack.subset hid

end Step

/-! ## Marks go to the items of the stack -/

section Marks

variable {cfg : Settings} {container id : NodeId} {i : Instruction} {m₀ m m' : Machine}

theorem mem_or_new {t : Tree} {rest : List NodeId} (taken : List NodeId)
    (h : id ∈ t.nextId :: rest) : id ∈ taken ++ rest ∨ ¬ t.Holds id := by
  rcases List.mem_cons.mp h with rfl | h
  · exact Or.inr t.not_holds_nextId
  · exact Or.inl (List.mem_append_right taken h)

/-- **What is on the stack after an instruction was there before, or it is new.** -/
theorem Performs.items_or_new (h : Performs cfg container i m m') (hid : id ∈ m'.stack.items) :
    id ∈ m.stack.items ∨ ¬ m.tree.Holds id := by
  cases h with
  | pushLiteral _ _ _ => exact mem_or_new [] hid
  | pushVariable _ _ ha =>
    obtain ⟨ref, href⟩ : ∃ ref, i.reference = some ref :=
      Option.isSome_iff_exists.mp (by simpa using ha.reference)
    rcases List.mem_cons.mp hid with rfl | hid
    · exact Or.inr (ha.new href).2.1
    · exact Or.inl (ha.items_subset id hid)
  | storeAbove _ _ ha _ => exact Or.inl (List.mem_cons_of_mem _ (ha.items_subset id hid))
  | storeBelow _ _ ha _ => exact Or.inl (ha.items_subset id (List.mem_cons_of_mem _ hid))
  | permute _ _ =>
    simp only [List.mem_cons, List.mem_append] at hid ⊢
    tauto
  | @operate t left right rest _ _ _ => exact mem_or_new [right, left] hid
  | @operateOne t operand rest _ _ => exact mem_or_new [operand] hid
  | call _ _ _ => exact mem_or_new _ hid
  | returnValue _ _ => exact Or.inl (List.mem_cons_of_mem _ hid)
  | exitScript _ _ => exact Or.inl hid
  | discard _ _ => exact Or.inl (List.mem_cons_of_mem _ hid)
  | discardNothing _ => exact Or.inl hid
  | duplicate _ _ _ _ =>
    exact Or.inl ((List.mem_append.mp hid).elim List.mem_of_mem_take fun hid => hid)
  | @convert t top rest _ _ _ => exact mem_or_new [top] hid
  | keep _ _ => exact Or.inl hid
  | mark _ => exact Or.inl hid

theorem Advances.items_or_new {behind ahead : List Instruction} {skip : Nat}
    (h : Advances cfg container behind i ahead m skip m') (hid : id ∈ m'.stack.items) :
    id ∈ m.stack.items ∨ ¬ m.tree.Holds id := by
  cases h with
  | performed _ h => exact h.items_or_new hid
  | @pre t _ target rest _ _ => exact mem_or_new [target] hid
  | @prePermuted t _ target below rest _ _ => exact mem_or_new [target, below] hid
  | @post t _ copy target rest _ => exact mem_or_new [copy, target] hid

/-- **Of the nodes that were there, only items of the first stack are on the stack**, and only those
have been marked since. -/
structure Stems (m₀ m : Machine) : Prop where
  size_le : m₀.tree.size ≤ m.tree.size
  items : ∀ id ∈ m.stack.items, m₀.tree.Holds id → id ∈ m₀.stack.items
  marks : ∀ id, m.tree.Marked id → m₀.tree.Holds id → m₀.tree.Marked id ∨ id ∈ m₀.stack.items

protected theorem Stems.refl (m : Machine) : Stems m m :=
  ⟨Nat.le_refl _, fun _ hid _ => hid, fun _ hmark _ => Or.inl hmark⟩

theorem Stems.advance {behind ahead : List Instruction} {skip : Nat} (h : Stems m₀ m)
    (hadv : Advances cfg container behind i ahead m skip m') : Stems m₀ m' := by
  obtain ⟨statements, hx⟩ := hadv.extends
  refine ⟨h.size_le.trans hx.size_le, fun id hid hold => ?_, fun id hmark hold => ?_⟩
  · rcases hadv.items_or_new hid with hid | hnew
    · exact h.items id hid hold
    · exact absurd (Nat.lt_of_lt_of_le hold h.size_le) hnew
  · rcases hadv.marked_iff.mp hmark with hmark | ⟨-, hcopied⟩
    · exact h.marks id hmark hold
    · exact Or.inr (h.items id (List.mem_of_mem_take hcopied) hold)

/-- A failed instruction marks nothing. -/
theorem Stems.draw {n : Nat} (h : Stems m₀ m) (hdrawn : m.Drawn m' n) : Stems m₀ m' := by
  have hgrows := hdrawn.tree.grows
  refine ⟨h.size_le.trans hgrows.size_le, fun id hid => h.items id (hdrawn.stack.subset hid),
    fun id hmark hold => h.marks id ?_ hold⟩
  obtain ⟨n', hn', hmark⟩ := hmark
  rw [hgrows.get?_eq (Nat.lt_of_lt_of_le hold h.size_le)] at hn'
  exact ⟨n', hn', hmark⟩

end Marks

/-! ## Code -/

section Run

variable {container : NodeId} {code : List Instruction} {m : Machine}

/-- **However a quiet run ends, a machine on its way is left**, up to the remains of an
instruction. -/
theorem execute_drawn {cfg : Settings} (quiet : cfg.verbosity = none) (code : List Instruction)
    (hm : m.WellFormed container) :
    ∃ k m', Arrives cfg container code m k m' ∧
      m'.Drawn (execute cfg code container m).state 2 := by
  rw [← executeAt_zero]
  rcases arrives_or_halts .start with ⟨-, way⟩ | ⟨k, m', i, e, way, hi, hstep, -, hstate⟩
  · exact ⟨code.length, _, way, .refl _⟩
  · have hm' := way.wellFormed hm
    obtain ⟨e, rfl⟩ := Halt.isFault_iff.mp ((meets_of_error hstep).mp (step_meets quiet hm' ..))
    rw [hstate]
    exact ⟨k, m', way, (spares_step cfg i hm' ..).fails e hstep⟩

/-- **What steps and remains keep, a run keeps**, however it ends. -/
theorem execute_keeps {cfg : Settings} (quiet : cfg.verbosity = none) {P : Machine → Prop}
    (hadvance : ∀ {behind i ahead m skip m'},
      Advances { cfg with verbosity := none } container behind i ahead m skip m' → P m → P m')
    (hdraw : ∀ {m m' n}, Drawn m m' n → P m → P m') (hm : m.WellFormed container) (h : P m) :
    P (execute cfg code container m).state := by
  obtain ⟨k, m', way, hdrawn⟩ := execute_drawn quiet code hm
  exact hdraw hdrawn (way.keeps (fun hadv _ => hadvance hadv) hm h).2

theorem Clear.wellFormed (h : m.Clear container) : m.WellFormed container :=
  ⟨h.tree.closed, fun id hid => (h.items id hid).1, h.tree.container⟩

/-- **Code keeps the stack clear of the container.** -/
theorem Clear.execute {cfg : Settings} (quiet : cfg.verbosity = none) (code : List Instruction)
    (h : m.Clear container) : (execute cfg code container m).state.Clear container :=
  execute_keeps quiet (fun hadv h => hadv.clear h) (fun hdrawn h => hdrawn.clear h) h.wellFormed h

end Run

/-- **Code never changes what was already built.** However the run ends, the tree has only grown:
the old nodes have their kinds and their children, except that the container has got statements
behind its own, and only items of the stack have been marked. If there was no cycle and no item led
to the container, this is still so, and the nodes that do not lead to the container have the same
text. -/
theorem execute_preserves (version : Version) (code : List Instruction) {container : NodeId}
    {m : Machine} (hm : m.WellFormed container) :
    let m' := (execute { version } code container m).state
    (∃ statements, m.tree.Extends container m'.tree statements) ∧
    (∀ id, m.tree.Holds id → m'.tree.Marked id → m.tree.Marked id ∨ id ∈ m.stack.items) ∧
    (m.tree.Acyclic → (∀ id ∈ m.stack.items, m.tree.Avoids id container) →
      m'.tree.Acyclic ∧ (∀ id ∈ m'.stack.items, m'.tree.Avoids id container) ∧
      ∀ id, m.tree.Holds id → m.tree.Avoids id container →
        ∃ text, m.tree.text id = .ok text ∧ m'.tree.text id = .ok text) := by
  intro m'
  have quiet : ({ version } : Settings).verbosity = none := rfl
  obtain ⟨statements, hx⟩ := ((onlyAdds_execute { version } code container).grows m).statements
  have hstems : Stems m m' := execute_keeps quiet (fun hadv h => h.advance hadv)
    (fun hdrawn h => h.draw hdrawn) hm (.refl m)
  refine ⟨⟨statements, hx⟩, fun id hid hmark => hstems.marks id hmark hid, fun ha havoids => ?_⟩
  have hclear : m.Clear container :=
    ⟨⟨hm.closed, ha, hm.container⟩, fun id hid => ⟨hm.items id hid, havoids id hid⟩⟩
  have hclear' : m'.Clear container := hclear.execute quiet code
  exact ⟨hclear'.tree.acyclic, fun id hid => (hclear'.items id hid).2, fun id hid havoids =>
    Tree.text_of_extends hm.closed ha hid havoids hx⟩

/-- A machine that has done nothing yet is clear of its root. -/
theorem clear_new : Clear Tree.root {} where
  tree := by
    refine ⟨wellFormed_new.closed, fun id hcycle => ?_, wellFormed_new.container⟩
    obtain ⟨next, hstep, -⟩ := Relation.TransGen.head'_iff.mp hcycle
    obtain ⟨n, hn, href⟩ := Tree.mem_refs_iff.mp hstep
    have hroot : id = ⟨0⟩ := by
      cases id
      exact congrArg NodeId.mk (Nat.lt_one_iff.mp (Tree.holds_of_get? hn))
    subst hroot
    cases hn
    cases href
  items := by simp

/-- A number that is on the stack is copied, discarded and stored, and then a store fails. -/
theorem execute_preserves_copied :
    let store : Instruction :=
      { opcode := .pop, type1 := .variant, reference := some ⟨7, .normal⟩, owner := .self }
    let code : List Instruction := [{ opcode := .dup }, { opcode := .popz }, store, store]
    let m := (execute {} [{ opcode := .push, type1 := .int32, literal := some (.int32 5) }]
      Tree.root {}).state
    let m' := (execute {} code Tree.root m).state
    m.WellFormed Tree.root ∧ m.tree.Acyclic ∧
      (∀ id ∈ m.stack.items, m.tree.Avoids id Tree.root) ∧
      (execute {} code Tree.root m).result = .error (.error (.underflow 3)) ∧
      (∃ statements, m.tree.Extends Tree.root m'.tree statements) ∧
      (∀ id, m.tree.Holds id → m'.tree.Marked id → m.tree.Marked id ∨ id ∈ m.stack.items) ∧
      m'.tree.Acyclic ∧ (∀ id ∈ m'.stack.items, m'.tree.Avoids id Tree.root) ∧
      m'.tree.Marked ⟨1⟩ ∧
      ∃ text, m.tree.text ⟨1⟩ = .ok text ∧ m'.tree.text ⟨1⟩ = .ok text := by
  intro store code m m'
  have hclear : m.Clear Tree.root := clear_new.execute rfl _
  have hm : m.WellFormed Tree.root := hclear.wellFormed
  have havoids : ∀ id ∈ m.stack.items, m.tree.Avoids id Tree.root :=
    fun id hid => (hclear.items id hid).2
  have hpreserves := execute_preserves {} code hm
  have hstate : (execute {} code Tree.root m).state = m' := rfl
  simp only [hstate] at hpreserves
  obtain ⟨hextends, hmarks, hrest⟩ := hpreserves
  obtain ⟨hacyclic, hitems, htext⟩ := hrest hclear.tree.acyclic havoids
  have hone : (⟨1⟩ : NodeId) ∈ m.stack.items := by decide +kernel
  have hfail : (execute {} code Tree.root m).result = .error (.error (.underflow 3)) := by
    decide +kernel
  have hcopied : (m'.tree.get? ⟨1⟩).map (·.duplicated) = some true := by decide +kernel
  exact ⟨hm, hclear.tree.acyclic, havoids, hfail, hextends, hmarks, hacyclic, hitems,
    Option.map_eq_some_iff.mp hcopied, htext ⟨1⟩ (hm.items ⟨1⟩ hone) (havoids ⟨1⟩ hone)⟩

end Machine

end GmlLift
