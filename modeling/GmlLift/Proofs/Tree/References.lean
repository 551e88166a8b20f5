import GmlLift.Proofs.Tree.Evolution
import GmlLift.Tree.Text
import Mathlib.Algebra.BigOperators.Group.Finset.Basic
import Mathlib.Algebra.Order.BigOperators.Group.Finset
import Mathlib.Algebra.Order.Group.Multiset
import Mathlib.Data.Finset.Card
import Mathlib.Logic.Relation
import Mathlib.Tactic.Abel

/-!
# Who refers to whom

A node refers to its children and, if it is a variable, to its owner. `Tree.Refers` is that
relation, and `Tree.mentions` counts it: all references together, each as often as it occurs. Some
nodes may be retired; what they refer to is not counted.

* `mentions_change`: what happens to the count when one node changes or retires.
* `eq_of_nodup_mentions`: if nothing is mentioned twice, each node is referred to from one place.
* `text_of_acyclic`: a node that leads into no cycle has a text.
-/

namespace GmlLift.Tree

variable {t t' : Tree} {id other : NodeId} {n n' : Node}

/-- The owner and the children of a node. -/
def refs (t : Tree) (id : NodeId) : List NodeId :=
  match t.get? id with
  | some n => n.references
  | none => []

theorem refs_of_get? (hn : t.get? id = some n) : t.refs id = n.references := by
  unfold refs
  rw [hn]

theorem mem_refs_iff : other ∈ t.refs id ↔ ∃ n, t.get? id = some n ∧ other ∈ n.references := by
  unfold refs
  cases t.get? id with
  | none => simp
  | some n => simp

theorem Closed.holds_of_mem_refs (ht : t.Closed) (h : other ∈ t.refs id) : t.Holds other := by
  obtain ⟨n, hn, hmem⟩ := mem_refs_iff.mp h
  exact ht id n hn other hmem

/-- One node refers to another. -/
def Refers (t : Tree) (id other : NodeId) : Prop := other ∈ t.refs id

/-- References lead from the root to the node. -/
def Reachable (t : Tree) (id : NodeId) : Prop := Relation.ReflTransGen t.Refers root id

/-! ## References are counted -/

/-- What a node refers to, unless it is retired. -/
def live (t : Tree) (retired : Finset NodeId) (id : NodeId) : Multiset NodeId :=
  if id ∈ retired then 0 else t.refs id

/-- **All references of all nodes that are not retired.** -/
def mentions (t : Tree) (retired : Finset NodeId) : Multiset NodeId :=
  ∑ i ∈ Finset.range t.size, t.live retired ⟨i⟩

variable {retired retired' : Finset NodeId}

theorem live_of_notMem (h : id ∉ retired) : t.live retired id = t.refs id := if_neg h

theorem mentions_congr (hsize : t'.size = t.size) (h : ∀ id, t'.refs id = t.refs id) :
    t'.mentions retired = t.mentions retired := by
  unfold mentions live
  rw [hsize]
  exact Finset.sum_congr rfl fun i _ => by rw [h]

theorem mentions_add (h : t.nextId ∉ retired) (kind : Kind) (children : List NodeId) :
    (t.add kind children).mentions retired =
      t.mentions retired + Node.references { kind, children } := by
  unfold mentions
  rw [size_add, Finset.sum_range_succ]
  have hnew : (t.add kind children).live retired ⟨t.size⟩ =
      ↑(Node.references { kind, children }) := by
    refine (live_of_notMem h).trans ?_
    rw [refs_of_get? (get?_add_nextId t kind children)]
  have hold : ∀ i ∈ Finset.range t.size,
      (t.add kind children).live retired ⟨i⟩ = t.live retired ⟨i⟩ := by
    intro i hi
    unfold live refs
    rw [get?_add_of_lt (Finset.mem_range.mp hi)]
  rw [hnew, Finset.sum_congr rfl hold]

/-- **One node changes or retires**, and every other one counts as before. -/
theorem mentions_change (retired retired' : Finset NodeId) (hsize : t'.size = t.size)
    (hid : t.Holds id)
    (hother : ∀ other, other ≠ id → t'.live retired' other = t.live retired other) :
    t'.mentions retired' + t.live retired id = t.mentions retired + t'.live retired' id := by
  have hmem : id.index ∈ Finset.range t.size := Finset.mem_range.mpr hid
  have hrest : ∑ i ∈ (Finset.range t.size).erase id.index, t'.live retired' ⟨i⟩ =
      ∑ i ∈ (Finset.range t.size).erase id.index, t.live retired ⟨i⟩ := by
    refine Finset.sum_congr rfl fun i hi => hother ⟨i⟩ ?_
    rintro rfl
    exact Finset.notMem_erase _ _ hi
  unfold mentions
  rw [hsize, ← Finset.add_sum_erase _ (fun i => t'.live retired' ⟨i⟩) hmem,
    ← Finset.add_sum_erase _ (fun i => t.live retired ⟨i⟩) hmem, hrest]
  abel

theorem mentions_replaces (h : Replaces t t' id n n') (hid : id ∉ retired) :
    t'.mentions retired + n.references = t.mentions retired + n'.references := by
  have hchange := mentions_change retired retired h.size_eq (holds_of_get? h.old)
    fun other hne => by
      unfold live refs
      rw [h.of_ne hne]
  rwa [live_of_notMem hid, live_of_notMem hid, refs_of_get? h.old, refs_of_get? h.new] at hchange

theorem mentions_retire (hn : t.get? id = some n) (hid : id ∉ retired) :
    t.mentions retired = t.mentions (insert id retired) + n.references := by
  have hchange := mentions_change retired (insert id retired) rfl (holds_of_get? hn)
    fun other hne => by
      simp only [live, Finset.mem_insert, hne, false_or]
  have hgone : t.live (insert id retired) id = 0 := if_pos (Finset.mem_insert_self id retired)
  rw [live_of_notMem hid, refs_of_get? hn, hgone, add_zero] at hchange
  exact hchange.symm

theorem live_le_mentions (retired : Finset NodeId) (hid : t.Holds id) :
    t.live retired id ≤ t.mentions retired :=
  Finset.single_le_sum (f := fun i => t.live retired ⟨i⟩) (fun _ _ => Multiset.zero_le _)
    (Finset.mem_range.mpr hid)

theorem holds_of_mem_refs (h : other ∈ t.refs id) : t.Holds id := by
  obtain ⟨n, hn, -⟩ := mem_refs_iff.mp h
  exact holds_of_get? hn

theorem mem_mentions (hid : id ∉ retired) (h : other ∈ t.refs id) : other ∈ t.mentions retired := by
  refine Multiset.mem_of_le (live_le_mentions retired (holds_of_mem_refs h)) ?_
  rw [live_of_notMem hid]
  exact h

/-- What is mentioned is in range. -/
theorem Closed.holds_of_mem_mentions (ht : t.Closed) (h : other ∈ t.mentions retired) :
    t.Holds other := by
  obtain ⟨i, -, hi⟩ := Multiset.mem_sum.mp h
  unfold live at hi
  split at hi
  · exact absurd hi (Multiset.notMem_zero _)
  · exact ht.holds_of_mem_refs hi

/-- **If nothing is mentioned twice, a node is referred to from one place at most.** -/
theorem eq_of_nodup_mentions (hnodup : (t.mentions retired).Nodup) {p q x : NodeId} {i j : Nat}
    (hp : p ∉ retired) (hq : q ∉ retired) (hi : (t.refs p)[i]? = some x)
    (hj : (t.refs q)[j]? = some x) : p = q ∧ i = j := by
  have hmemp := List.mem_of_getElem? hi
  have hmemq := List.mem_of_getElem? hj
  have heq : p = q := by
    by_contra hne
    have hindex : p.index ≠ q.index := fun h => hne (by cases p; cases q; exact congrArg _ h)
    -- two nodes would have it together
    have hle : t.live retired p + t.live retired q ≤ t.mentions retired := by
      have hpair := Finset.sum_pair (f := fun i => t.live retired ⟨i⟩) hindex
      have hsub : ({p.index, q.index} : Finset Nat) ⊆ Finset.range t.size := by
        intro i hi
        rcases Finset.mem_insert.mp hi with rfl | hi
        · exact Finset.mem_range.mpr (holds_of_mem_refs hmemp)
        · rw [Finset.mem_singleton.mp hi]
          exact Finset.mem_range.mpr (holds_of_mem_refs hmemq)
      exact hpair.symm.trans_le
        (Finset.sum_le_sum_of_subset_of_nonneg hsub fun _ _ _ => Multiset.zero_le _)
    rw [live_of_notMem hp, live_of_notMem hq] at hle
    have hdisjoint := (Multiset.nodup_add.mp (Multiset.nodup_of_le hle hnodup)).2.2
    exact Multiset.disjoint_left.mp hdisjoint hmemp hmemq
  subst heq
  have hlist : (t.refs p).Nodup := by
    have hle := live_le_mentions retired (holds_of_mem_refs hmemp)
    rw [live_of_notMem hp] at hle
    exact Multiset.coe_nodup.mp (Multiset.nodup_of_le hle hnodup)
  obtain ⟨hilt, hix⟩ := List.getElem?_eq_some_iff.mp hi
  obtain ⟨hjlt, hjx⟩ := List.getElem?_eq_some_iff.mp hj
  exact ⟨rfl, (hlist.getElem_inj_iff).mp (hix.trans hjx.symm)⟩

theorem sum_range_eq_flatMap (nodes : List Node) :
    ∑ i ∈ Finset.range nodes.length, Multiset.ofList (match nodes[i]? with
      | some n => n.references
      | none => []) = ↑(nodes.flatMap Node.references) := by
  induction nodes with
  | nil => rfl
  | cons n nodes ih =>
    rw [List.length_cons, Finset.sum_range_succ', List.flatMap_cons, ← Multiset.coe_add]
    simp only [List.getElem?_cons_succ, List.getElem?_cons_zero]
    rw [ih, add_comm]

/-- With nobody retired, the references of all nodes are counted. -/
theorem mentions_empty (t : Tree) : t.mentions ∅ = ↑(t.nodes.toList.flatMap Node.references) := by
  rw [← sum_range_eq_flatMap, Array.length_toList]
  refine Finset.sum_congr rfl fun i _ => ?_
  rw [live_of_notMem (Finset.notMem_empty _)]
  unfold refs get?
  rw [Array.getElem?_toList]

/-- A node that owns nothing is counted among the children only. -/
theorem count_mentions_empty (hleft : ∀ other m, t.get? other = some m → m.kind.left? ≠ some id) :
    (t.mentions ∅).count id = (t.nodes.toList.flatMap (·.children)).count id := by
  rw [mentions_empty, Multiset.coe_count, List.count_flatMap, List.count_flatMap]
  refine congrArg List.sum (List.map_congr_left fun m hm => ?_)
  obtain ⟨i, hi⟩ := List.mem_iff_getElem?.mp hm
  have hget : t.get? ⟨i⟩ = some m := by
    unfold get?
    rwa [← Array.getElem?_toList]
  have hnot : id ∉ m.kind.left?.toList := fun hmem => hleft ⟨i⟩ m hget (Option.mem_toList.mp hmem)
  show List.count id (m.kind.left?.toList ++ m.children) = List.count id m.children
  rw [List.count_append, List.count_eq_zero_of_not_mem hnot, Nat.zero_add]

/-! ## Texts -/

theorem mapM_eq_ok {f : NodeId → Except TextFault String} {ids : List NodeId}
    (h : ∀ id ∈ ids, ∃ text, f id = .ok text) : ∃ texts, ids.mapM f = .ok texts := by
  induction ids with
  | nil => exact ⟨[], rfl⟩
  | cons id ids ih =>
    obtain ⟨text, htext⟩ := h id List.mem_cons_self
    obtain ⟨texts, htexts⟩ := ih fun other hother => h other (List.mem_cons_of_mem id hother)
    refine ⟨text :: texts, ?_⟩
    rw [List.mapM_cons, htext, htexts]
    rfl

/-- A node has a text within any depth above its rank, if references lead down in rank. -/
theorem textWithin_of_rank {P : NodeId → Prop} (rank : NodeId → Nat) (hP : ∀ id, P id → t.Holds id)
    (hdown : ∀ id other, P id → t.Refers id other → P other ∧ rank other < rank id) (depth : Nat)
    (id : NodeId) (hid : P id) (hrank : rank id < depth) :
    ∃ text, t.textWithin depth id = .ok text := by
  induction depth generalizing id with
  | zero => exact absurd hrank (Nat.not_lt_zero _)
  | succ depth ih =>
    obtain ⟨n, hn⟩ := get?_of_holds (hP id hid)
    have hrefs : ∀ other ∈ n.references, ∃ text, t.textWithin depth other = .ok text := by
      intro other hother
      have hrefers : t.Refers id other := by
        unfold Refers
        rwa [refs_of_get? hn]
      obtain ⟨hother, hlt⟩ := hdown id other hid hrefers
      exact ih other hother (Nat.lt_of_lt_of_le hlt (Nat.le_of_lt_succ hrank))
    obtain ⟨texts, htexts⟩ := mapM_eq_ok fun other (hother : other ∈ n.children) =>
      hrefs other (List.mem_append_right _ hother)
    unfold textWithin
    rw [hn]
    simp only
    split
    · rename_i target addressing left hkind
      have howner : ∃ owner, left.mapM (t.textWithin depth) = .ok owner := by
        cases left with
        | none => exact ⟨none, rfl⟩
        | some owner =>
          have hmem : owner ∈ n.references := by
            unfold Node.references
            rw [hkind]
            exact List.mem_cons_self
          obtain ⟨text, htext⟩ := hrefs owner hmem
          refine ⟨some text, ?_⟩
          rw [Option.mapM_some, htext]
          rfl
      obtain ⟨owner, howner⟩ := howner
      rw [howner, htexts]
      exact ⟨_, rfl⟩
    · split
      · exact ⟨_, rfl⟩
      · rw [htexts]
        exact ⟨_, rfl⟩

open Classical in
/-- The nodes that references lead to. -/
noncomputable def descendants (t : Tree) (id : NodeId) : Finset Nat :=
  (Finset.range t.size).filter fun i => Relation.TransGen t.Refers id ⟨i⟩

theorem mem_descendants_iff {i : Nat} :
    i ∈ t.descendants id ↔ i < t.size ∧ Relation.TransGen t.Refers id ⟨i⟩ := by
  classical
  rw [descendants, Finset.mem_filter, Finset.mem_range]

theorem card_descendants_le (t : Tree) (id : NodeId) : (t.descendants id).card ≤ t.size := by
  classical
  calc (t.descendants id).card ≤ (Finset.range t.size).card := Finset.card_filter_le _ _
    _ = t.size := Finset.card_range _

/-- A node that is in no cycle has fewer descendants than what refers to it. -/
theorem card_descendants_lt (hother : t.Holds other) (h : t.Refers id other)
    (hcycle : ¬ Relation.TransGen t.Refers other other) :
    (t.descendants other).card < (t.descendants id).card := by
  refine Finset.card_lt_card (Finset.ssubset_iff_of_subset ?_ |>.mpr ⟨other.index, ?_, ?_⟩)
  · intro i hi
    obtain ⟨hlt, hpath⟩ := mem_descendants_iff.mp hi
    exact mem_descendants_iff.mpr ⟨hlt, .head h hpath⟩
  · exact mem_descendants_iff.mpr ⟨hother, .single h⟩
  · exact fun hmem => hcycle (mem_descendants_iff.mp hmem).2

/-- **A node that leads into no cycle has a text.** -/
theorem text_of_acyclic (ht : t.Closed) (hid : t.Holds id)
    (hcycle : ∀ other, Relation.ReflTransGen t.Refers id other →
      ¬ Relation.TransGen t.Refers other other) : ∃ text, t.text id = .ok text := by
  have hholds : ∀ other, Relation.ReflTransGen t.Refers id other → t.Holds other := by
    intro other h
    cases h with
    | refl => exact hid
    | tail _ h => exact ht.holds_of_mem_refs h
  refine textWithin_of_rank (fun other => (t.descendants other).card) hholds
    (fun x y hx hy => ?_) _ id .refl (Nat.lt_succ_of_le (card_descendants_le t id))
  exact ⟨hx.tail hy, card_descendants_lt (ht.holds_of_mem_refs hy) hy (hcycle y (hx.tail hy))⟩

end GmlLift.Tree
