import GmlLift.Proofs.Moves.Move
import GmlLift.Proofs.Execution.Effect

/-!
# Actions as moves

`Does L cfg x s post` says what an action does with the ids that are in hand, whatever is on the
stack: it answers, and moves lead to a scene for which `post` holds; or it halts, moves lead to what
it leaves behind, and if nothing is reported the reason is an error of the function that is lifted.
So no reference ever leads nowhere.

The stack is not mentioned: what is popped is in hand afterwards, and what is pushed no longer is.
`Does.bind` composes; the other lemmas here are about the moves of the machine.
-/

namespace GmlLift

namespace OperandStack

variable {stack rest : OperandStack} {id : NodeId}

theorem eq_push_of_popAt {position : Nat} (h : stack.popAt position = .ok (id, rest)) :
    stack = rest.push id := by
  unfold popAt at h
  split at h
  · rename_i popped hpop
    cases h
    exact pop?_eq_some_iff.mp hpop
  · cases h

theorem eq_push_of_popFor {construct : String} (h : stack.popFor construct = .ok (id, rest)) :
    stack = rest.push id := by
  unfold popFor at h
  split at h
  · rename_i popped hpop
    cases h
    exact pop?_eq_some_iff.mp hpop
  · cases h

end OperandStack

namespace Scene

/-- The scene with a stack of expressions. -/
def under (s : Scene) (stack : OperandStack) : Scene := s.beside stack.items

/-- The scene has this in hand and these statements loose; its tree may be any. -/
def Has (held loose : Multiset NodeId) (s : Scene) : Prop := s.held = held ∧ s.loose = loose

theorem under_push (t : Tree) (held loose : Multiset NodeId) (stack : OperandStack) (id : NodeId) :
    under ⟨t, held, loose⟩ (stack.push id) = under ⟨t, id ::ₘ held, loose⟩ stack := by
  show mk t (↑(id :: stack.items) + held) loose = ⟨t, ↑stack.items + (id ::ₘ held), loose⟩
  rw [← Multiset.cons_coe, Multiset.cons_add, Multiset.add_cons]

end Scene

namespace Machine

open GmlLift.Action

/-- An outcome that moves lead to: with its answer the rest of the scene is known. -/
def Outcomes (L : Licence) (cfg : Settings) {α : Type} (start : Scene) (o : Outcome Machine α)
    (post : α → Scene → Prop) : Prop :=
  ∃ s stack, o.state = ⟨s.tree, stack⟩ ∧ Moves L start (s.under stack) ∧
    match o.result with
    | .ok a => post a s
    | .error h => cfg.verbosity = none → ∃ e, h = .error e

/-- **What an action does with the ids in hand**, on every stack. -/
def Does (L : Licence) (cfg : Settings) {α : Type} (x : Action Machine α) (s : Scene)
    (post : α → Scene → Prop) : Prop :=
  ∀ stack, (s.under stack).InRange → Outcomes L cfg (s.under stack) (x ⟨s.tree, stack⟩) post

variable {L : Licence} {cfg : Settings} {α β : Type} {s : Scene} {t : Tree}
  {held loose : Multiset NodeId}

namespace Does

variable {x : Action Machine α} {f : α → Action Machine β} {post : α → Scene → Prop}
  {post' : β → Scene → Prop}

theorem mono {weaker : α → Scene → Prop} (h : Does L cfg x s post)
    (hp : ∀ a s', post a s' → weaker a s') : Does L cfg x s weaker := by
  intro stack hr
  obtain ⟨s', stack', hstate, hmoves, hpost⟩ := h stack hr
  refine ⟨s', stack', hstate, hmoves, ?_⟩
  cases hx : (x ⟨s.tree, stack⟩).result with
  | ok a =>
    rw [hx] at hpost
    exact hp a s' hpost
  | error e =>
    rw [hx] at hpost
    exact hpost

/-- The tree that an action leaves may be left open. -/
theorem has {t' : Tree} {held' loose' : Multiset NodeId}
    (h : Does L cfg x s fun _ s' => s' = ⟨t', held', loose'⟩) :
    Does L cfg x s fun _ => Scene.Has held' loose' := by
  refine h.mono ?_
  rintro _ _ rfl
  exact ⟨rfl, rfl⟩

protected theorem pure {a : α} (h : post a s) : Does L cfg (pure a) s post :=
  fun stack _ => ⟨s, stack, rfl, .refl, h⟩

protected theorem fail (e : LiftError) : Does L cfg (fail e) s post :=
  fun stack _ => ⟨s, stack, rfl, .refl, fun _ => ⟨e, rfl⟩⟩

/-- **One action after the other.** The second one may use that the tree has evolved and that every
id is still in range. -/
protected theorem bind (hx : Does L cfg x s post)
    (hf : ∀ a s', post a s' → Tree.Evolves s.tree s'.tree → s'.InRange →
      Does L cfg (f a) s' post') : Does L cfg (x >>= f) s post' := by
  intro stack hr
  obtain ⟨s₁, stack₁, hstate, hmoves, hpost⟩ := hx stack hr
  cases h : (x ⟨s.tree, stack⟩).result with
  | error e =>
    rw [h] at hpost
    rw [bind_of_error h]
    exact ⟨s₁, stack₁, hstate, hmoves, hpost⟩
  | ok a =>
    rw [h] at hpost
    have hr₁ := hmoves.inRange hr
    obtain ⟨s₂, stack₂, hstate₂, hmoves₂, hpost₂⟩ :=
      hf a s₁ hpost hmoves.evolves hr₁.of_beside stack₁ hr₁
    rw [← hstate] at hstate₂ hpost₂
    rw [bind_of_ok h]
    exact ⟨s₂, stack₂, hstate₂, hmoves.trans hmoves₂, hpost₂⟩

theorem of_eq {s' : Scene} (h : s = s') (hx : Does L cfg x s' post) : Does L cfg x s post :=
  h ▸ hx

/-- What is in hand may be moved first, as long as the tree stays. -/
theorem moves_first {s' : Scene} (h : Moves L s s') (ht : s'.tree = s.tree)
    (hx : Does L cfg x s' post) : Does L cfg x s post := by
  intro stack hr
  have hmoves := h.beside stack.items
  obtain ⟨s₁, stack₁, hstate, hmoves₁, hpost⟩ := hx stack (hmoves.inRange hr)
  rw [ht] at hstate hpost
  exact ⟨s₁, stack₁, hstate, hmoves.trans hmoves₁, hpost⟩

/-- An action is only ever looked at where every id is in range. -/
theorem of_inRange (h : s.InRange → Does L cfg x s post) : Does L cfg x s post :=
  fun stack hr => h hr.of_beside stack hr

/-- An action may look at the machine first. -/
theorem state_bind {f : Machine → Action Machine β}
    (hf : ∀ stack, Does L cfg (f ⟨s.tree, stack⟩) s post') : Does L cfg (state >>= f) s post' :=
  fun stack hr => hf stack stack hr

end Does

/-! ## The moves of the machine -/

/-- What is popped is in hand. -/
theorem does_settle (popped : OperandStack → Except LiftError (NodeId × OperandStack))
    (h : ∀ stack id rest, popped stack = .ok (id, rest) → stack = rest.push id) :
    Does L cfg (fun m => m.settle (popped m.stack)) ⟨t, held, loose⟩
      fun id s => s = ⟨t, id ::ₘ held, loose⟩ := by
  intro stack hr
  cases hp : popped stack with
  | error e =>
    refine ⟨⟨t, held, loose⟩, stack, ?_, .refl, ?_⟩ <;> simp only [hp, settle]
    exact fun _ => ⟨e, rfl⟩
  | ok result =>
    obtain ⟨id, rest⟩ := result
    have hscene :
        Scene.under ⟨t, held, loose⟩ stack = Scene.under ⟨t, id ::ₘ held, loose⟩ rest := by
      rw [h stack id rest hp]
      exact Scene.under_push ..
    refine ⟨⟨t, id ::ₘ held, loose⟩, rest, ?_, hscene ▸ .refl, ?_⟩ <;> simp only [hp, settle]

theorem does_pop (position : Nat) :
    Does L cfg (pop position) ⟨t, held, loose⟩ fun id s => s = ⟨t, id ::ₘ held, loose⟩ :=
  does_settle (·.popAt position) fun _ _ _ => OperandStack.eq_push_of_popAt

theorem does_popFor (construct : String) :
    Does L cfg (popFor construct) ⟨t, held, loose⟩ fun id s => s = ⟨t, id ::ₘ held, loose⟩ :=
  does_settle (·.popFor construct) fun _ _ _ => OperandStack.eq_push_of_popFor

theorem does_push (id : NodeId) :
    Does L cfg (push id) ⟨t, id ::ₘ held, loose⟩ fun _ s => s = ⟨t, held, loose⟩ := by
  intro stack hr
  refine ⟨⟨t, held, loose⟩, stack.push id, rfl, ?_, rfl⟩
  rw [Scene.under_push]

/-- Moves that an action makes on the tree alone. -/
theorem does_of_moves {x : Action Machine α} {s' : Scene} {a : α} (h : Moves L s s')
    (hx : ∀ stack, (x ⟨s.tree, stack⟩).result = .ok a ∧
      (x ⟨s.tree, stack⟩).state = ⟨s'.tree, stack⟩) :
    Does L cfg x s fun b s'' => b = a ∧ s'' = s' := by
  intro stack hr
  refine ⟨s', stack, (hx stack).2, h.beside _, ?_⟩
  rw [(hx stack).1]
  exact ⟨rfl, rfl⟩

/-- An expression is made of what is in hand. -/
theorem does_make_expression (kind : Kind) (children : List NodeId)
    (hs : kind.sort = .expression) :
    Does L cfg (make kind children) ⟨t, Node.references { kind, children } + held, loose⟩
      fun id s => id = t.nextId ∧ s = ⟨t.add kind children, t.nextId ::ₘ held, loose⟩ :=
  does_of_moves (.single (.express hs)) fun _ => ⟨rfl, rfl⟩

/-- A statement is made of what is in hand, and has no place yet. -/
theorem does_make_statement (kind : Kind) (children : List NodeId)
    (hs : kind.sort ≠ .expression) (hlen : children.length ≤ 2) :
    Does L cfg (make kind children) ⟨t, children + held, loose⟩
      fun id s => id = t.nextId ∧ s = ⟨t.add kind children, held, t.nextId ::ₘ loose⟩ :=
  does_of_moves (.single (.state hs hlen)) fun _ => ⟨rfl, rfl⟩

theorem does_pushNew (kind : Kind) (children : List NodeId) (hs : kind.sort = .expression) :
    Does L cfg (pushNew kind children) ⟨t, Node.references { kind, children } + held, loose⟩
      fun _ s => s = ⟨t.add kind children, held, loose⟩ := by
  refine (does_make_expression kind children hs).bind ?_
  rintro _ _ ⟨rfl, rfl⟩ - -
  exact does_push t.nextId

/-- A change of the tree that is a move. -/
theorem does_edit {f : Tree → Option Tree} (s' : Scene) (hf : f s.tree = some s'.tree)
    (h : Move L s s') : Does L cfg (edit f) s fun _ s'' => s'' = s' := by
  refine (does_of_moves (a := ()) (.single h) fun stack => ?_).mono fun _ _ h => h.2
  rw [edit_of_some (m := ⟨s.tree, stack⟩) hf]
  exact ⟨rfl, rfl⟩

/-- A new statement gets its place. -/
theorem does_attach {parent child : NodeId} {n : Node} (hn : t.get? parent = some n)
    (hp : n.TakesStatement L) (hlt : parent.index < child.index) :
    Does L cfg (append parent child) ⟨t, held, child ::ₘ loose⟩
      fun _ s => s.Has held loose ∧
        t.Replaces s.tree parent n { n with children := n.children ++ [child] } := by
  obtain ⟨t', ht'⟩ := Tree.appendChild?_of_holds (Tree.holds_of_get? hn) child
  refine (does_edit ⟨t', held, loose⟩ ht' (.rewire (.attach hn hp hlt ht'))).mono ?_
  rintro _ _ rfl
  exact ⟨⟨rfl, rfl⟩, Tree.replaces_appendChild? ht' hn⟩

/-- An expression in hand goes behind the children of a statement. -/
theorem does_give {parent value : NodeId} {n : Node} (hn : t.get? parent = some n)
    (hp : n.TakesValue) :
    Does L cfg (append parent value) ⟨t, value ::ₘ held, loose⟩
      fun _ s => s.Has held loose ∧
        t.Replaces s.tree parent n { n with children := n.children ++ [value] } := by
  obtain ⟨t', ht'⟩ := Tree.appendChild?_of_holds (Tree.holds_of_get? hn) value
  refine (does_edit ⟨t', held, loose⟩ ht' (.rewire (.give hn hp ht'))).mono ?_
  rintro _ _ rfl
  exact ⟨⟨rfl, rfl⟩, Tree.replaces_appendChild? ht' hn⟩

theorem does_report (level : Level) (text : Machine → String) :
    Does L cfg (report cfg level text) s fun _ s' => s' = s :=
  fun stack _ => ⟨s, stack, rfl, .refl, rfl⟩

/-- A text may be missing or endless, but then something is reported. -/
theorem does_describe (level : Level) (id : NodeId) (line : String → String) :
    Does L cfg (describe cfg level id line) s fun _ s' => s' = s := by
  intro stack hr
  by_cases quiet : cfg.verbosity = none
  · rw [describe_quiet quiet]
    exact ⟨s, stack, rfl, .refl, rfl⟩
  · have hstate : (describe cfg level id line ⟨s.tree, stack⟩).state = ⟨s.tree, stack⟩ := by
      unfold describe
      split
      · split <;> rfl
      · rfl
    refine ⟨s, stack, hstate, .refl, ?_⟩
    cases (describe cfg level id line ⟨s.tree, stack⟩).result with
    | ok _ => rfl
    | error h => exact fun hq => absurd hq quiet

end Machine

end GmlLift
