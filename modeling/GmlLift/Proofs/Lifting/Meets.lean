import GmlLift.Lifting.Machine
import GmlLift.Proofs.Tree.Evolution

/-!
# What an action meets

`x.Meets s post halts` is a judgement on an action at a state: it answers, and `post` holds of the
answer and of the state that it leaves, or it halts, and `halts` holds of the reason. With `halts`
always true it says only what comes of an answer; with `Halt.IsFault` it also says that nothing but
a fault of the function that is lifted can go wrong.

The rules go backwards, from what is wanted after an action to what is needed before it. They follow
the ways in which actions are composed, and then the moves of the machine.
-/

namespace GmlLift

/-- The reason is a fault of the function that is lifted. -/
def Halt.IsFault : Halt → Prop
  | .error _ => True
  | .outOfRange | .endless => False

theorem Halt.isFault_iff {h : Halt} : h.IsFault ↔ ∃ e, h = .error e := by
  cases h with
  | error e => exact ⟨fun _ => ⟨e, rfl⟩, fun _ => trivial⟩
  | outOfRange | endless => exact ⟨False.elim, nofun⟩

namespace Action

variable {σ α β : Type}

/-- **The action answers with `post`, or it halts with `halts`.** -/
def Meets (x : Action σ α) (s : σ) (post : α → σ → Prop) (halts : Halt → Prop) : Prop :=
  match (x s).result with
  | .ok a => post a (x s).state
  | .error h => halts h

variable {x : Action σ α} {f : α → Action σ β} {s : σ} {post : α → σ → Prop} {post' : β → σ → Prop}
  {halts : Halt → Prop} {a : α} {e : Halt}

theorem meets_of_ok (h : (x s).result = .ok a) :
    x.Meets s post halts ↔ post a (x s).state := by
  unfold Meets
  rw [h]

theorem meets_of_error (h : (x s).result = .error e) : x.Meets s post halts ↔ halts e := by
  unfold Meets
  rw [h]

/-- Every action meets this much. -/
theorem meets_trivial (x : Action σ α) (s : σ) :
    x.Meets s (fun _ _ => True) fun _ => True := by
  unfold Meets
  split <;> trivial

namespace Meets

theorem mono {post' : α → σ → Prop} {halts' : Halt → Prop} (h : x.Meets s post halts)
    (hp : ∀ a s', post a s' → post' a s') (hh : ∀ e, halts e → halts' e) :
    x.Meets s post' halts' := by
  unfold Meets at h ⊢
  split at h
  · exact hp _ _ h
  · exact hh _ h

theorem imp {post' : α → σ → Prop} (h : x.Meets s post halts)
    (hp : ∀ a s', post a s' → post' a s') : x.Meets s post' halts :=
  h.mono hp fun _ he => he

/-- **One action after the other.** -/
protected theorem bind (h : x.Meets s (fun a s' => (f a).Meets s' post' halts) halts) :
    (x >>= f).Meets s post' halts := by
  cases hx : (x s).result with
  | ok a =>
    have hf := (meets_of_ok hx).mp h
    unfold Meets at hf ⊢
    rw [bind_of_ok hx]
    exact hf
  | error e =>
    have he := (meets_of_error hx).mp h
    unfold Meets
    rw [bind_of_error hx]
    exact he

/-- Whatever the first action does, the second one answers for the whole. -/
theorem bind_any (h : ∀ a s', (f a).Meets s' post' fun _ => True) :
    (x >>= f).Meets s post' fun _ => True :=
  Meets.bind ((meets_trivial x s).imp fun a s' _ => h a s')

/-- Two judgements on one action. -/
theorem and {post' : α → σ → Prop} {halts' : Halt → Prop} (h : x.Meets s post halts)
    (h' : x.Meets s post' halts') :
    x.Meets s (fun a s' => post a s' ∧ post' a s') fun e => halts e ∧ halts' e := by
  cases hx : (x s).result with
  | ok a => exact (meets_of_ok hx).mpr ⟨(meets_of_ok hx).mp h, (meets_of_ok hx).mp h'⟩
  | error e => exact (meets_of_error hx).mpr ⟨(meets_of_error hx).mp h, (meets_of_error hx).mp h'⟩

/-- An action on a part of the state. -/
theorem onPart {τ : Type} {x : Action τ α} {get : σ → τ} {set : τ → σ → σ}
    (h : x.Meets (get s) (fun a t => post a (set t s)) halts) :
    (Action.onPart get set x).Meets s post halts := by
  have hpart : (Action.onPart get set x s).result = (x (get s)).result := rfl
  cases hx : (x (get s)).result with
  | ok a => exact (meets_of_ok (hpart.trans hx)).mpr ((meets_of_ok hx).mp h)
  | error e => exact (meets_of_error (hpart.trans hx)).mpr ((meets_of_error hx).mp h)

end Meets

theorem meets_pure (h : post a s) : Meets (pure a) s post halts := h

theorem meets_state {post : σ → σ → Prop} (h : post s s) : Meets state s post halts := h

theorem meets_change {f : σ → σ} {post : Unit → σ → Prop} (h : post () (f s)) :
    Meets (change f) s post halts := h

end Action

namespace Machine

open GmlLift.Action

variable {t : Tree} {stack : OperandStack} {halts : Halt → Prop} {id : NodeId}
  {post : Unit → Machine → Prop} {post' : NodeId → Machine → Prop}

/-! ## The moves of the machine -/

theorem meets_make {kind : Kind} {children : List NodeId}
    (h : post' t.nextId ⟨t.add kind children, stack⟩) :
    (make kind children).Meets ⟨t, stack⟩ post' halts := h

theorem meets_popFor {construct : String}
    (h : ∀ id rest, stack = rest.push id → post' id ⟨t, rest⟩) :
    (popFor construct).Meets ⟨t, stack⟩ post' Halt.IsFault := by
  obtain ⟨items⟩ := stack
  cases items with
  | nil => exact trivial
  | cons id rest => exact h id ⟨rest⟩ rfl

theorem meets_edit {f : Tree → Option Tree} {t' : Tree} (hf : f t = some t')
    (h : post () ⟨t', stack⟩) : (edit f).Meets ⟨t, stack⟩ post halts := by
  unfold Meets
  rw [edit_of_some (m := ⟨t, stack⟩) hf]
  exact h

theorem meets_append {parent child : NodeId} {n : Node} (hn : t.get? parent = some n)
    (h : ∀ t', t.Replaces t' parent n { n with children := n.children ++ [child] } →
      post () ⟨t', stack⟩) : (append parent child).Meets ⟨t, stack⟩ post halts := by
  obtain ⟨t', ht'⟩ := Tree.appendChild?_of_holds (Tree.holds_of_get? hn) child
  exact meets_edit ht' (h t' (Tree.replaces_appendChild? ht' hn))

end Machine

/-- A branch that a construct cannot do without is there, or there is a fault. -/
theorem Visit.meets_branch {branches : List FlowRef} {construct : Branching} {index : Nat}
    {m : Machine} {post : FlowRef → Machine → Prop} {halts : Halt → Prop}
    (herror : halts (.error (.missingBranch construct index)))
    (h : ∀ node, branches[index]? = some node → post node m) :
    (Visit.branch branches construct index).Meets m post halts := by
  unfold Visit.branch
  cases hnode : branches[index]? with
  | none => exact herror
  | some node => exact h node hnode

end GmlLift
