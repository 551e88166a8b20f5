import GmlLift.Proofs.Tree.References
import GmlLift.Tree.Pattern

/-!
# Where references lead

References lead from a node to others, step by step (`Tree.Refers`). A tree is `Acyclic` when they
never lead back, and a node `Avoids` another one when they do not lead there.

A tree `Sprouts` when new nodes come behind the old ones, each with references to older nodes only.
That closes no cycle, and the old nodes lead where they did. A link from one node to another closes
none either, if the other avoids the first. So a tree whose new nodes and statements refer only to
what does not lead to the container goes on without a cycle (`Sound`, `Proceeds`).

* `Sprouts.acyclic`, `Acyclic.appendChild`: what keeps a tree acyclic.
* `Sound.add`, `Sound.state`: an expression and a statement made of nodes aside from the container.
* `text_of_extends`: a node that avoids the container keeps its text.
-/

namespace GmlLift.Tree

open Relation

variable {t t' : Tree} {id other x y parent child target : NodeId} {n k : Nat}

/-- **References never lead back.** -/
def Acyclic (t : Tree) : Prop := ∀ id, ¬ TransGen t.Refers id id

/-- References do not lead from the one node to the other. -/
def Avoids (t : Tree) (id target : NodeId) : Prop := ¬ ReflTransGen t.Refers id target

theorem Avoids.of_leads (h : t.Avoids id target) (hlead : ReflTransGen t.Refers id other) :
    t.Avoids other target :=
  fun hother => h (hlead.trans hother)

theorem Closed.holds_of_leads (ht : t.Closed) (hid : t.Holds id)
    (hlead : ReflTransGen t.Refers id other) : t.Holds other := by
  cases hlead with
  | refl => exact hid
  | tail _ h => exact ht.holds_of_mem_refs h

theorem refers_of_get? {node : Node} (hn : t.get? id = some node) :
    t.Refers id other ↔ other ∈ node.references := by
  unfold Refers
  rw [refs_of_get? hn]

/-! ## Shapes

What is read off the shape of a node are nodes that it leads to. -/

theorem refers_of_operands? {op : BinaryOp} {left right : NodeId}
    (h : t.operands? id op = some (left, right)) : t.Refers id left ∧ t.Refers id right := by
  obtain ⟨more, mark, hn⟩ := get?_of_operands? h
  simp [refers_of_get? hn, Node.references]

theorem leads_of_flattened? {row column : NodeId} (h : t.flattened? id = some (row, column)) :
    ReflTransGen t.Refers id row ∧ ReflTransGen t.Refers id column := by
  obtain ⟨product, stride, hadd, hmul, -⟩ := operands?_of_flattened? h
  obtain ⟨hproduct, hcolumn⟩ := refers_of_operands? hadd
  exact ⟨.tail (.single hproduct) (refers_of_operands? hmul).1, .single hcolumn⟩

theorem refers_of_compound? {owner value right : NodeId} {addressing : Addressing} {op : BinaryOp}
    (h : t.compound? owner addressing value = some (some (op, right))) : t.Refers value right := by
  obtain ⟨left, hop⟩ := operands?_of_compound? h
  exact (refers_of_operands? hop).2

/-! ## New nodes -/

theorem Grows.refers_iff (h : t.Grows t') (hid : t.Holds id) :
    t'.Refers id other ↔ t.Refers id other := by
  obtain ⟨node, hn⟩ := get?_of_holds hid
  rw [refers_of_get? hn, refers_of_get? (h.kept id node hn)]

/-- The old nodes lead where they did. -/
theorem Grows.leads_iff (h : t.Grows t') (ht : t.Closed) (hid : t.Holds id) :
    ReflTransGen t'.Refers id other ↔ ReflTransGen t.Refers id other := by
  constructor
  · intro hlead
    induction hlead with
    | refl => exact .refl
    | tail _ hstep ih => exact ih.tail ((h.refers_iff (ht.holds_of_leads hid ih)).mp hstep)
  · intro hlead
    induction hlead with
    | refl => exact .refl
    | tail hpath hstep ih => exact ih.tail ((h.refers_iff (ht.holds_of_leads hid hpath)).mpr hstep)

theorem Avoids.grows (havoids : t.Avoids id target) (h : t.Grows t') (ht : t.Closed)
    (hid : t.Holds id) : t'.Avoids id target :=
  fun hlead => havoids ((h.leads_iff ht hid).mp hlead)

/-- **At most so many nodes have come behind the others**, each with references to older nodes. -/
structure Sprouts (t t' : Tree) (n : Nat) : Prop where
  nodes : ∃ new, t'.nodes.toList = t.nodes.toList ++ new ∧ new.length ≤ n
  older : ∀ id node, t'.get? id = some node → ¬ t.Holds id →
    ∀ ref ∈ node.references, ref.index < id.index

namespace Sprouts

protected theorem refl (t : Tree) : t.Sprouts t n where
  nodes := ⟨[], by simp, Nat.zero_le n⟩
  older _ _ hn hid := absurd (holds_of_get? hn) hid

theorem mono (h : t.Sprouts t' n) (hle : n ≤ k) : t.Sprouts t' k where
  nodes := by
    obtain ⟨new, hnew, hlength⟩ := h.nodes
    exact ⟨new, hnew, hlength.trans hle⟩
  older := h.older

theorem add (h : t.Sprouts t' n) {kind : Kind} {children : List NodeId}
    (hrefs : ∀ ref ∈ Node.references { kind, children }, t'.Holds ref) :
    t.Sprouts (t'.add kind children) (n + 1) where
  nodes := by
    obtain ⟨new, hnew, hlength⟩ := h.nodes
    let node : Node := { kind, children }
    refine ⟨new ++ [node], ?_, by simpa using hlength⟩
    rw [← List.append_assoc, ← hnew]
    exact Array.toList_push
  older id node hn hid ref href := by
    rcases get?_add_cases hn with hold | ⟨rfl, rfl⟩
    · exact h.older id node hold hid ref href
    · exact hrefs ref href

theorem grows (h : t.Sprouts t' n) : t.Grows t' := by
  obtain ⟨new, hnew, -⟩ := h.nodes
  have hsize : t'.size = t.size + new.length := by
    simpa [size] using congrArg List.length hnew
  refine ⟨by omega, fun id node hn => ?_⟩
  have hid : id.index < t.nodes.toList.length := holds_of_get? hn
  unfold get? at hn ⊢
  rw [← Array.getElem?_toList] at hn ⊢
  rw [hnew, List.getElem?_append_left hid, hn]

theorem closed (h : t.Sprouts t' n) (ht : t.Closed) : t'.Closed := by
  intro id node hn ref href
  by_cases hid : t.Holds id
  · have hrefers := (h.grows.refers_iff hid).mp ((refers_of_get? hn).mpr href)
    exact Nat.lt_of_lt_of_le (ht.holds_of_mem_refs hrefers) h.grows.size_le
  · exact Nat.lt_trans (h.older id node hn hid ref href) (holds_of_get? hn)

/-- **New nodes close no cycle.** -/
theorem acyclic (h : t.Sprouts t' n) (ht : t.Closed) (ha : t.Acyclic) : t'.Acyclic := by
  intro id hcycle
  by_cases hid : t.Holds id
  · obtain ⟨next, hstep, hback⟩ := TransGen.head'_iff.mp hcycle
    have hstep := (h.grows.refers_iff hid).mp hstep
    have hback := (h.grows.leads_iff ht (ht.holds_of_mem_refs hstep)).mp hback
    exact ha id (TransGen.head' hstep hback)
  · -- from a new node, references lead to older ones only
    have hdown : ∀ y, TransGen t'.Refers id y → y.index < id.index := by
      have hnew {x y : NodeId} (hx : ¬ t.Holds x) (hstep : t'.Refers x y) : y.index < x.index := by
        obtain ⟨node, hn, href⟩ := mem_refs_iff.mp hstep
        exact h.older x node hn hx y href
      intro y hpath
      induction hpath with
      | single hstep => exact hnew hid hstep
      | @tail x y _ hstep ih =>
        by_cases hx : t.Holds x
        · have hy := ht.holds_of_mem_refs ((h.grows.refers_iff hx).mp hstep)
          exact Nat.lt_of_lt_of_le hy (Nat.le_of_not_lt hid)
        · exact (hnew hx hstep).trans ih
    exact Nat.lt_irrefl _ (hdown id hcycle)

end Sprouts

/-- A new node avoids what all the nodes that it refers to avoid. -/
theorem avoids_nextId (ht : t.Closed) {kind : Kind} {children : List NodeId}
    (htarget : t.Holds target)
    (hrefs : ∀ ref ∈ Node.references { kind, children }, t.Holds ref ∧ t.Avoids ref target) :
    (t.add kind children).Avoids t.nextId target := by
  intro hlead
  rcases ReflTransGen.cases_head hlead with rfl | ⟨ref, hstep, hrest⟩
  · exact t.not_holds_nextId htarget
  · obtain ⟨href, havoids⟩ := hrefs ref ((refers_of_get? (t.get?_add_nextId _ _)).mp hstep)
    exact havoids.grows (grows_add t kind children) ht href hrest

/-! ## New links -/

theorem refers_appendChild?_iff (h : t.appendChild? parent child = some t') :
    t'.Refers x y ↔ t.Refers x y ∨ (x = parent ∧ y = child) := by
  unfold Refers
  rw [mem_refs_iff, mem_refs_iff, get?_update? h x]
  by_cases hx : x = parent
  · subst hx
    obtain ⟨node, hn⟩ := get?_of_holds (isSome_update?_iff.mp (Option.isSome_of_eq_some h))
    simp [hn, Node.references, or_assoc]
  · simp [hx]

/-- A path with a new link on it goes to the link and on from there. -/
theorem leads_of_appendChild? (h : t.appendChild? parent child = some t')
    (hlead : ReflTransGen t'.Refers x y) : ReflTransGen t.Refers x y ∨
      (ReflTransGen t.Refers x parent ∧ ReflTransGen t.Refers child y) := by
  induction hlead with
  | refl => exact Or.inl .refl
  | tail _ hstep ih =>
    rcases (refers_appendChild?_iff h).mp hstep with hold | ⟨rfl, rfl⟩
    · exact ih.imp (·.tail hold) (And.imp_right (·.tail hold))
    · rcases ih with hparent | ⟨hparent, -⟩
      · exact Or.inr ⟨hparent, .refl⟩
      · exact Or.inr ⟨hparent, .refl⟩

theorem Avoids.appendChild (havoids : t.Avoids x parent)
    (h : t.appendChild? parent child = some t') : t'.Avoids x parent := by
  intro hlead
  rcases leads_of_appendChild? h hlead with hparent | ⟨hparent, -⟩
  · exact havoids hparent
  · exact havoids hparent

/-- **A link to a node that avoids the first one closes no cycle.** -/
theorem Acyclic.appendChild (ha : t.Acyclic) (h : t.appendChild? parent child = some t')
    (hchild : t.Avoids child parent) : t'.Acyclic := by
  intro id hcycle
  obtain ⟨next, hstep, hback⟩ := TransGen.head'_iff.mp hcycle
  rcases (refers_appendChild?_iff h).mp hstep with hold | ⟨rfl, rfl⟩
  · rcases leads_of_appendChild? h hback with hback | ⟨hparent, hback⟩
    · exact ha id (TransGen.head' hold hback)
    · exact hchild ((hback.tail hold).trans hparent)
  · exact hchild.appendChild h hback

/-- A mark is no link. -/
theorem refers_setDuplicated? {mark : Bool} (h : t.setDuplicated? id mark = some t') :
    t'.Refers = t.Refers := by
  funext x y
  unfold Refers refs
  rw [get?_update? h x]
  by_cases hx : x = id
  · subst hx
    rw [if_pos rfl]
    cases t.get? x <;> rfl
  · rw [if_neg hx]

/-! ## Aside from a container -/

section Container

variable {container : NodeId} {kind : Kind} {children : List NodeId}

/-- The node is there, and it does not lead to the container. -/
def Aside (t : Tree) (container id : NodeId) : Prop := t.Holds id ∧ t.Avoids id container

theorem Aside.of_leads (h : t.Aside container id) (ht : t.Closed)
    (hlead : ReflTransGen t.Refers id other) : t.Aside container other :=
  ⟨ht.holds_of_leads h.1 hlead, h.2.of_leads hlead⟩

/-- Every id is in range, that of the container too, and there is no cycle. -/
structure Sound (t : Tree) (container : NodeId) : Prop where
  closed : t.Closed
  acyclic : t.Acyclic
  container : t.Holds container

/-- **The tree goes on to be sound**, and what was aside from the container stays so. -/
structure Proceeds (container : NodeId) (t t' : Tree) : Prop where
  sound : t'.Sound container
  aside : ∀ id, t.Aside container id → t'.Aside container id

theorem Sound.refl (h : t.Sound container) : t.Proceeds container t := ⟨h, fun _ hid => hid⟩

theorem Proceeds.trans {t'' : Tree} (h : t.Proceeds container t')
    (h' : t'.Proceeds container t'') : t.Proceeds container t'' :=
  ⟨h'.sound, fun id hid => h'.aside id (h.aside id hid)⟩

theorem Sound.sprouts (h : t.Sound container) (hs : t.Sprouts t' n) :
    t.Proceeds container t' where
  sound := ⟨hs.closed h.closed, hs.acyclic h.closed h.acyclic,
    Nat.lt_of_lt_of_le h.container hs.grows.size_le⟩
  aside _ hid := ⟨Nat.lt_of_lt_of_le hid.1 hs.grows.size_le, hid.2.grows hs.grows h.closed hid.1⟩

/-- A node that refers only to nodes aside from the container is aside itself. -/
theorem Sound.add (h : t.Sound container)
    (hrefs : ∀ ref ∈ Node.references { kind, children }, t.Aside container ref) :
    t.Proceeds container (t.add kind children) ∧
      (t.add kind children).Aside container t.nextId :=
  ⟨h.sprouts ((Sprouts.refl (n := 0) t).add fun ref href => (hrefs ref href).1),
    t.holds_nextId_add kind children, avoids_nextId h.closed h.container hrefs⟩

theorem Sound.appendChild (h : t.Sound container) (hchild : t.Aside container child)
    (ht : t.appendChild? container child = some t') : t.Proceeds container t' where
  sound := ⟨h.closed.appendChild ht hchild.1, h.acyclic.appendChild ht hchild.2,
    (extends_appendChild ht).holds h.container⟩
  aside _ hid := ⟨(extends_appendChild ht).holds hid.1, hid.2.appendChild ht⟩

/-- A new statement of nodes aside from the container goes into it. -/
theorem Sound.state (h : t.Sound container)
    (hrefs : ∀ ref ∈ Node.references { kind, children }, t.Aside container ref)
    (ht : (t.add kind children).appendChild? container t.nextId = some t') :
    t.Proceeds container t' := by
  obtain ⟨hadd, hnew⟩ := h.add hrefs
  exact hadd.trans (hadd.sound.appendChild hnew ht)

theorem Sound.setDuplicated {mark : Bool} (h : t.Sound container)
    (ht : t.setDuplicated? id mark = some t') : t.Proceeds container t' := by
  have hsize : t'.size = t.size := size_update? ht
  have hrefers : t'.Refers = t.Refers := refers_setDuplicated? ht
  refine ⟨⟨h.closed.setDuplicated ht, ?_, ?_⟩, fun other hother => ⟨?_, ?_⟩⟩
  · simpa [Acyclic, hrefers] using h.acyclic
  · simpa [Holds, hsize] using h.container
  · simpa [Holds, hsize] using hother.1
  · simpa [Avoids, hrefers] using hother.2

end Container

/-! ## Texts -/

/-- What answers with a text goes on to answer when its parts do. -/
theorem bind_eq_ok_of_imp {α β : Type} {a a' : Except TextFault α}
    {f f' : α → Except TextFault β} (ha : ∀ v, a = .ok v → a' = .ok v)
    (hf : ∀ v w, f v = .ok w → f' v = .ok w) {w : β} (h : a >>= f = .ok w) :
    a' >>= f' = .ok w := by
  cases hv : a with
  | error e =>
    rw [hv] at h
    cases h
  | ok v =>
    rw [hv] at h
    rw [ha v hv]
    exact hf v w h

theorem mapM_eq_ok_of_imp {f f' : NodeId → Except TextFault String} {ids : List NodeId}
    (hf : ∀ id ∈ ids, ∀ text, f id = .ok text → f' id = .ok text) {texts : List String}
    (h : ids.mapM f = .ok texts) : ids.mapM f' = .ok texts := by
  induction ids generalizing texts with
  | nil => exact h
  | cons id ids ih =>
    obtain ⟨hid, hids⟩ := List.forall_mem_cons.mp hf
    rw [List.mapM_cons] at h ⊢
    refine bind_eq_ok_of_imp hid (fun text texts h => ?_) h
    exact bind_eq_ok_of_imp (fun rest hrest => ih hids hrest) (fun _ _ h => h) h

theorem optionMapM_eq_ok_of_imp {f f' : NodeId → Except TextFault String} {left : Option NodeId}
    (hf : ∀ id ∈ left, ∀ text, f id = .ok text → f' id = .ok text) {owner : Option String}
    (h : left.mapM f = .ok owner) : left.mapM f' = .ok owner := by
  cases left with
  | none => exact h
  | some id =>
    rw [Option.mapM_some, map_eq_pure_bind] at h ⊢
    exact bind_eq_ok_of_imp (hf id rfl) (fun _ _ h => h) h

/-- **Below the node nothing but marks has changed.** -/
def SameBelow (t t' : Tree) (id : NodeId) : Prop :=
  ∀ x, ReflTransGen t.Refers id x → ∀ node, t.get? x = some node →
    ∃ node', t'.get? x = some node' ∧ node'.kind = node.kind ∧ node'.children = node.children

theorem SameBelow.of_refers (h : t.SameBelow t' id) (hstep : t.Refers id other) :
    t.SameBelow t' other :=
  fun x hlead => h x (.head hstep hlead)

theorem textWithin_of_sameBelow {depth depth' : Nat} {text : String} (hsame : t.SameBelow t' id)
    (hle : depth ≤ depth') (h : t.textWithin depth id = .ok text) :
    t'.textWithin depth' id = .ok text := by
  induction depth generalizing depth' id text with
  | zero => cases h
  | succ depth ih =>
    obtain ⟨depth', rfl⟩ := Nat.exists_eq_add_of_le' (Nat.one_le_of_lt hle)
    cases hn : t.get? id with
    | none =>
      unfold textWithin at h
      rw [hn] at h
      cases h
    | some node =>
      obtain ⟨node', hn', hkind, hchildren⟩ := hsame id .refl node hn
      have hbelow : ∀ other ∈ node.references, ∀ text, t.textWithin depth other = .ok text →
          t'.textWithin depth' other = .ok text := fun other hother text htext =>
        ih (hsame.of_refers ((refers_of_get? hn).mpr hother)) (Nat.le_of_succ_le_succ hle) htext
      have htexts : ∀ texts, node.children.mapM (t.textWithin depth) = .ok texts →
          node.children.mapM (t'.textWithin depth') = .ok texts := fun texts =>
        mapM_eq_ok_of_imp fun other hother => hbelow other (List.mem_append_right _ hother)
      unfold textWithin at h ⊢
      rw [hn] at h
      rw [hn']
      simp only [hkind, hchildren] at h ⊢
      split at h
      · rename_i target addressing left hvar
        have hleft : ∀ x ∈ left, x ∈ node.references := by
          rintro x rfl
          simp [Node.references, hvar, Kind.left?]
        refine bind_eq_ok_of_imp (fun owner => optionMapM_eq_ok_of_imp
          fun x hx => hbelow x (hleft x hx)) (fun owner text h => ?_) h
        exact bind_eq_ok_of_imp htexts (fun _ _ h => h) h
      · split at h
        · exact h
        · exact bind_eq_ok_of_imp htexts (fun _ _ h => h) h

/-- **A node that avoids the container keeps its text** when the tree grows. -/
theorem text_of_extends {container : NodeId} {statements : List NodeId} (ht : t.Closed)
    (ha : t.Acyclic) (hid : t.Holds id) (havoids : t.Avoids id container)
    (h : t.Extends container t' statements) :
    ∃ text, t.text id = .ok text ∧ t'.text id = .ok text := by
  obtain ⟨text, htext⟩ := text_of_acyclic ht hid fun other _ => ha other
  refine ⟨text, htext, textWithin_of_sameBelow ?_ (Nat.succ_le_succ h.size_le) htext⟩
  intro x hlead node hn
  obtain ⟨node', hn', hkind, hchildren, -⟩ := h.kept x node hn
  have hx : x ≠ container := by
    rintro rfl
    exact havoids hlead
  rw [if_neg hx] at hchildren
  exact ⟨node', hn', hkind, hchildren⟩

end GmlLift.Tree
