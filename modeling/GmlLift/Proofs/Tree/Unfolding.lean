import GmlLift.Proofs.Tree.References

/-!
# Unfolded trees

A node of an arena stands for a tree: the node with its owner, its children and everything below
them. In the arena a part may be referred to from several places; in the unfolded tree it stands at
each of them, and there are no ids. What a text shows is the unfolded tree
(`textWithin_of_unfoldWithin`).

Of a `Legible` node, what references lead to is in range, leads into no cycle and has no kind whose
text could be read as that of another. Such a node can be unfolded (`Legible.exists_unfold`).
-/

namespace GmlLift

/-- The kind without the id of the owner. -/
def Kind.unlinked : Kind → Kind
  | .var target addressing _ => .var target addressing none
  | kind => kind

/-- A node with everything below it. The owner of a variable stands beside the kind. -/
inductive Unfolded where
  | node (kind : Kind) (duplicated : Bool) (owner : Option Unfolded) (children : List Unfolded)

/-- The text of a node of this kind, given the texts of its owner and of its children. -/
def Kind.textWith (kind : Kind) (owner : Option String) (parts : List String) : String :=
  match kind with
  | .var target .. => Tree.variableText owner target parts
  | kind =>
    match kind.atom? with
    | some text => text
    | none => "(" ++ kind.head ++ Tree.joinArguments parts ++ ")"

@[simp] theorem Kind.textWith_unlinked (kind : Kind) (owner : Option String)
    (parts : List String) : kind.unlinked.textWith owner parts = kind.textWith owner parts := by
  cases kind <;> rfl

@[simp] theorem Kind.left?_unlinked (kind : Kind) : kind.unlinked.left? = none := by
  cases kind <;> rfl

namespace Unfolded

mutual

/-- The text of an unfolded tree. -/
def text : Unfolded → String
  | node kind _ owner children => kind.textWith (ownerText owner) (texts children)

def ownerText : Option Unfolded → Option String
  | none => none
  | some owner => some owner.text

def texts : List Unfolded → List String
  | [] => []
  | u :: rest => u.text :: texts rest

end

theorem ownerText_eq_map (owner : Option Unfolded) : ownerText owner = owner.map text := by
  cases owner <;> rfl

theorem texts_eq_map (children : List Unfolded) : texts children = children.map text := by
  induction children with
  | nil => rfl
  | cons u rest ih => rw [texts, ih, List.map_cons]

theorem text_node (kind : Kind) (duplicated : Bool) (owner : Option Unfolded)
    (children : List Unfolded) :
    (node kind duplicated owner children).text =
      kind.textWith (owner.map text) (children.map text) := by
  rw [text, ownerText_eq_map, texts_eq_map]

end Unfolded

/-! ## From the arena -/

namespace Tree

variable {t : Tree} {id : NodeId} {depth : Nat} {u : Unfolded}

/-- The unfolded tree of a node, looking at most `depth` levels down. -/
def unfoldWithin (t : Tree) : (depth : Nat) → NodeId → Option Unfolded
  | 0, _ => none
  | depth + 1, id => do
    let node ← t.get? id
    let owner ← node.kind.left?.mapM (t.unfoldWithin depth)
    let children ← node.children.mapM (t.unfoldWithin depth)
    return .node node.kind.unlinked node.duplicated owner children

/-- The unfolded tree of a node. As with texts, no path without repetition goes deeper. -/
def unfold (t : Tree) (id : NodeId) : Option Unfolded :=
  t.unfoldWithin (t.size + 1) id

/-- What a node unfolds to, by its owner and its children. -/
theorem unfoldWithin_succ_eq_some_iff : t.unfoldWithin (depth + 1) id = some u ↔
    ∃ node owner children, t.get? id = some node ∧
      node.kind.left?.mapM (t.unfoldWithin depth) = some owner ∧
      node.children.mapM (t.unfoldWithin depth) = some children ∧
      u = .node node.kind.unlinked node.duplicated owner children := by
  simp only [unfoldWithin, Option.bind_eq_bind, Option.bind_eq_some_iff, Option.pure_def,
    Option.some.injEq]
  constructor
  · rintro ⟨node, hn, owner, howner, children, hchildren, rfl⟩
    exact ⟨node, owner, children, hn, howner, hchildren, rfl⟩
  · rintro ⟨node, owner, children, hn, howner, hchildren, rfl⟩
    exact ⟨node, hn, owner, howner, children, hchildren, rfl⟩

theorem mapM_text_of_unfold {f : NodeId → Option Unfolded} {g : NodeId → Except TextFault String}
    (hfg : ∀ id u, f id = some u → g id = .ok u.text) {ids : List NodeId} {us : List Unfolded}
    (h : ids.mapM f = some us) : ids.mapM g = .ok (us.map Unfolded.text) := by
  induction ids generalizing us with
  | nil =>
    cases h
    rfl
  | cons id ids ih =>
    simp only [List.mapM_cons, Option.bind_eq_bind, Option.bind_eq_some_iff, Option.pure_def,
      Option.some.injEq] at h
    obtain ⟨u, hu, rest, hrest, rfl⟩ := h
    rw [List.mapM_cons, hfg id u hu, ih hrest]
    rfl

theorem optionMapM_text_of_unfold {f : NodeId → Option Unfolded}
    {g : NodeId → Except TextFault String} (hfg : ∀ id u, f id = some u → g id = .ok u.text)
    {left : Option NodeId} {owner : Option Unfolded} (h : left.mapM f = some owner) :
    left.mapM g = .ok (owner.map Unfolded.text) := by
  cases left with
  | none =>
    cases h
    rfl
  | some id =>
    rw [Option.mapM_some, Option.map_eq_map, Option.map_eq_some_iff] at h
    obtain ⟨u, hu, rfl⟩ := h
    rw [Option.mapM_some, hfg id u hu]
    rfl

/-- The text of a node, from the texts of its owner and its children. -/
theorem textWithin_of_get? {node : Node} {owner : Option String} {parts : List String}
    (hn : t.get? id = some node) (hleft : node.kind.left?.mapM (t.textWithin depth) = .ok owner)
    (hparts : node.children.mapM (t.textWithin depth) = .ok parts) :
    t.textWithin (depth + 1) id = .ok (node.kind.textWith owner parts) := by
  obtain ⟨kind, children, duplicated⟩ := node
  rw [textWithin, hn]
  cases kind with
  | var target addressing left =>
    show (left.mapM (t.textWithin depth) >>= fun owner =>
      children.mapM (t.textWithin depth) >>= fun parts =>
        pure (variableText owner target parts)) = _
    rw [show left.mapM (t.textWithin depth) = .ok owner from hleft, hparts]
    rfl
  | int16 | int32 | int64 | double | float | boolean | string | owner => rfl
  | _ =>
    show (children.mapM (t.textWithin depth) >>= fun parts => pure _) = _
    rw [hparts]
    rfl

/-- **The text of a node is that of the unfolded tree.** -/
theorem textWithin_of_unfoldWithin (h : t.unfoldWithin depth id = some u) :
    t.textWithin depth id = .ok u.text := by
  induction depth generalizing id u with
  | zero => cases h
  | succ depth ih =>
    obtain ⟨node, owner, children, hn, howner, hchildren, rfl⟩ :=
      unfoldWithin_succ_eq_some_iff.mp h
    rw [Unfolded.text_node, Kind.textWith_unlinked]
    exact textWithin_of_get? hn (optionMapM_text_of_unfold (fun _ _ => ih) howner)
      (mapM_text_of_unfold (fun _ _ => ih) hchildren)

end Tree

/-! ## Legible nodes -/

/-- **Nodes of this kind are written like no others.** The texts of doubles and floats have points
in them. A compound assignment with a comparison has the head of another comparison, and an
increment by anything but a subtraction has the head of an addition. -/
def Kind.legible : Kind → Bool
  | .double _ | .float _ => false
  | .assign (.compound (.compare _)) => false
  | .assign (.increment op _) => op = .add || op = .sub
  | _ => true

def Kind.isVariable : Kind → Bool
  | .var .. => true
  | _ => false

@[simp] theorem Kind.legible_unlinked (kind : Kind) : kind.unlinked.legible = kind.legible := by
  cases kind <;> rfl

@[simp] theorem Kind.atom?_unlinked (kind : Kind) : kind.unlinked.atom? = kind.atom? := by
  cases kind <;> rfl

theorem Kind.isVariable_of_isSome_left? {kind : Kind} (h : kind.left?.isSome = true) :
    kind.unlinked.isVariable = true := by
  cases kind <;> first | rfl | cases h

/-- Every kind in the tree is legible, literals and owners have no children, and only variables have
owners. -/
inductive Unfolded.Legible : Unfolded → Prop
  | node {kind : Kind} {duplicated : Bool} {owner : Option Unfolded} {children : List Unfolded}
      (hkind : kind.legible = true) (hlink : kind.left? = none)
      (hatom : kind.atom?.isSome = true → children = [])
      (howns : owner.isSome = true → kind.isVariable = true)
      (howner : ∀ u ∈ owner, Legible u) (hchildren : ∀ u ∈ children, Legible u) :
      Legible (.node kind duplicated owner children)

namespace Tree

open Relation

/-- **What references lead to from the node is in range, leads into no cycle and is legible**, with
no children of literals and owners. -/
structure Legible (t : Tree) (id : NodeId) : Prop where
  holds : ∀ other, ReflTransGen t.Refers id other → t.Holds other
  acyclic : ∀ other, ReflTransGen t.Refers id other → ¬ TransGen t.Refers other other
  kinds : ∀ other node, ReflTransGen t.Refers id other → t.get? other = some node →
    node.kind.legible = true ∧ (node.kind.atom?.isSome = true → node.children = [])

variable {t : Tree} {id other : NodeId}

theorem Legible.of_refers (h : t.Legible id) (hrefers : t.Refers id other) : t.Legible other where
  holds x hx := h.holds x (.head hrefers hx)
  acyclic x hx := h.acyclic x (.head hrefers hx)
  kinds x node hx := h.kinds x node (.head hrefers hx)

theorem exists_mapM {f : NodeId → Option Unfolded} {P : Unfolded → Prop} {ids : List NodeId}
    (h : ∀ id ∈ ids, ∃ u, f id = some u ∧ P u) : ∃ us, ids.mapM f = some us ∧ ∀ u ∈ us, P u := by
  induction ids with
  | nil => exact ⟨[], rfl, by simp⟩
  | cons id ids ih =>
    obtain ⟨hid, hids⟩ := List.forall_mem_cons.mp h
    obtain ⟨u, hu, hP⟩ := hid
    obtain ⟨us, hus, hPs⟩ := ih hids
    refine ⟨u :: us, ?_, List.forall_mem_cons.mpr ⟨hP, hPs⟩⟩
    rw [List.mapM_cons, hu, hus]
    rfl

theorem exists_optionMapM {f : NodeId → Option Unfolded} {P : Unfolded → Prop}
    {left : Option NodeId} (h : ∀ id ∈ left, ∃ u, f id = some u ∧ P u) :
    ∃ owner, left.mapM f = some owner ∧ owner.isSome = left.isSome ∧ ∀ u ∈ owner, P u := by
  cases left with
  | none => exact ⟨none, rfl, rfl, by simp⟩
  | some id =>
    obtain ⟨u, hu, hP⟩ := h id rfl
    refine ⟨some u, ?_, rfl, by simpa using hP⟩
    rw [Option.mapM_some, hu]
    rfl

theorem exists_unfoldWithin (depth : Nat) (id : NodeId) (h : t.Legible id)
    (hrank : (t.descendants id).card < depth) :
    ∃ u, t.unfoldWithin depth id = some u ∧ u.Legible := by
  induction depth generalizing id with
  | zero => exact absurd hrank (Nat.not_lt_zero _)
  | succ depth ih =>
    obtain ⟨node, hn⟩ := get?_of_holds (h.holds id .refl)
    -- A node has fewer descendants than what refers to it.
    have hrefs : ∀ other ∈ node.references,
        ∃ u, t.unfoldWithin depth other = some u ∧ u.Legible := by
      intro other hother
      have hrefers : t.Refers id other := by
        unfold Refers
        rwa [refs_of_get? hn]
      have hbelow := h.of_refers hrefers
      have hlt := card_descendants_lt (hbelow.holds other .refl) hrefers
        (hbelow.acyclic other .refl)
      exact ih other hbelow (Nat.lt_of_lt_of_le hlt (Nat.le_of_lt_succ hrank))
    obtain ⟨owner, howner, hsome, hlegible⟩ := exists_optionMapM fun x (hx : x ∈ node.kind.left?) =>
      hrefs x (List.mem_append_left _ (Option.mem_toList.mpr hx))
    obtain ⟨children, hchildren, hlegibles⟩ := exists_mapM fun x (hx : x ∈ node.children) =>
      hrefs x (List.mem_append_right _ hx)
    obtain ⟨hkind, hatom⟩ := h.kinds id node .refl hn
    refine ⟨_, unfoldWithin_succ_eq_some_iff.mpr
      ⟨node, owner, children, hn, howner, hchildren, rfl⟩,
      .node ?_ (Kind.left?_unlinked _) (fun h => ?_) (fun h => ?_) hlegible hlegibles⟩
    · rw [Kind.legible_unlinked, hkind]
    · rw [Kind.atom?_unlinked] at h
      rw [hatom h] at hchildren
      exact (Option.some.inj hchildren).symm
    · rw [hsome] at h
      exact Kind.isVariable_of_isSome_left? h

/-- **A legible node can be unfolded.** -/
theorem Legible.exists_unfold (h : t.Legible id) : ∃ u, t.unfold id = some u ∧ u.Legible :=
  exists_unfoldWithin _ id h (Nat.lt_succ_of_le (card_descendants_le t id))

/-- A tree whose nodes are legible and refer to older nodes only, as trees made from their leaves up
do. -/
theorem legible_of_older (hid : t.Holds id)
    (h : ∀ i < t.size, ∀ node ∈ t.get? ⟨i⟩, (∀ ref ∈ node.references, ref.index < i) ∧
      node.kind.legible = true ∧ (node.kind.atom?.isSome = true → node.children = [])) :
    t.Legible id := by
  have hnode {x : NodeId} {node : Node} (hn : t.get? x = some node) :=
    h x.index (holds_of_get? hn) node hn
  have hstep {x y : NodeId} (hxy : t.Refers x y) : y.index < x.index := by
    obtain ⟨node, hn, href⟩ := mem_refs_iff.mp hxy
    exact (hnode hn).1 y href
  refine ⟨fun x hx => ?_, fun x _ hcycle => ?_, fun x node _ hn => (hnode hn).2⟩
  · induction hx with
    | refl => exact hid
    | tail _ hxy ih => exact Nat.lt_trans (hstep hxy) ih
  · have hdown : ∀ y, TransGen t.Refers x y → y.index < x.index := by
      intro y hpath
      induction hpath with
      | single hxy => exact hstep hxy
      | tail _ hyz ih => exact Nat.lt_trans (hstep hyz) ih
    exact Nat.lt_irrefl _ (hdown x hcycle)

end Tree

end GmlLift
