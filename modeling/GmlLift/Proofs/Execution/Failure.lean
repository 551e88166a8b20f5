import GmlLift.Proofs.Execution.Faults
import GmlLift.Proofs.Execution.Trace
import GmlLift.Proofs.Tree.Reach

/-!
# What a failed run leaves behind

An instruction that fails has changed nothing that was there before: it may have taken operands from
the stack, and it may have made the node of a variable, that of the variable's owner, or that of an
increment, to which nothing refers yet (`Machine.Drawn`). The judgement `Action.Ends` says what
holds after an action, both when it answers and when it fails.

Result: `execute_fault`. A run that fails at a position leaves what the code before that position
leaves, up to such remains.
-/

namespace GmlLift

/-! ## Answers and faults -/

namespace Action

variable {σ α β : Type} {x : Action σ α} {f : α → Action σ β} {s : σ} {post : α → σ → Prop}
  {post' : β → σ → Prop} {fault : σ → Prop}

/-- **Where the action answers, `post` holds, and where it fails with an error, `fault` holds** of
the state that it leaves. -/
structure Ends (x : Action σ α) (s : σ) (post : α → σ → Prop) (fault : σ → Prop) : Prop where
  answers : ∀ a, (x s).result = .ok a → post a (x s).state
  fails : ∀ e, (x s).result = .error (.error e) → fault (x s).state

namespace Ends

/-- What never raises an error. -/
theorem of_haltsOnly (h : HaltsOnly (¬ ·.IsFault) x) (s : σ) :
    x.Ends s (fun _ _ => True) fault where
  answers _ _ := trivial
  fails _ he := absurd trivial ((meets_of_error he).mp (h.meets s))

theorem imp {post' : α → σ → Prop} (h : x.Ends s post fault)
    (hp : ∀ a s', post a s' → post' a s') : x.Ends s post' fault :=
  ⟨fun a ha => hp a _ (h.answers a ha), h.fails⟩

/-- **One action after the other.** -/
protected theorem bind (h : x.Ends s (fun a s' => (f a).Ends s' post' fault) fault) :
    (x >>= f).Ends s post' fault := by
  constructor
  · intro b hb
    obtain ⟨a, ha, hfb⟩ := result_bind_eq_ok_iff.mp hb
    simpa [bind_of_ok ha] using (h.answers a ha).answers b hfb
  · intro e he
    cases hx : (x s).result with
    | ok a =>
      simp only [bind_of_ok hx] at he ⊢
      exact (h.answers a hx).fails e he
    | error e' =>
      simp only [bind_of_error hx, Except.error.injEq] at he ⊢
      exact h.fails e (hx.trans (congrArg Except.error he))

theorem state_bind {f : σ → Action σ β} (h : (f s).Ends s post' fault) :
    (state >>= f).Ends s post' fault :=
  ⟨h.answers, h.fails⟩

end Ends

theorem ends_pure {a : α} (h : post a s) : (pure a : Action σ α).Ends s post fault :=
  ⟨fun _ ha => Except.ok.inj ha ▸ h, fun _ he => by cases he⟩

theorem ends_fail {e : LiftError} (h : fault s) : (fail e : Action σ α).Ends s post fault :=
  ⟨fun _ ha => (by cases ha), fun _ _ => h⟩

end Action

namespace Machine

open GmlLift.Action

/-! ## Remains -/

/-- **Operands have been taken and nodes have been made**, at most so many, and nothing else has
happened. -/
structure Drawn (m₀ m : Machine) (n : Nat) : Prop where
  tree : m₀.tree.Sprouts m.tree n
  stack : m.stack.items <:+ m₀.stack.items

protected theorem Drawn.refl (m : Machine) {n : Nat} : m.Drawn m n :=
  ⟨.refl m.tree, List.suffix_rfl⟩

section Parts

variable {container : NodeId} {m₀ m : Machine} {n : Nat}

theorem Drawn.mono {k : Nat} (h : m₀.Drawn m n) (hle : n ≤ k) : m₀.Drawn m k :=
  ⟨h.tree.mono hle, h.stack⟩

theorem Drawn.make (h : m₀.Drawn m n) {kind : Kind} {children : List NodeId}
    (hrefs : ∀ ref ∈ Node.references { kind, children }, m.tree.Holds ref) :
    m₀.Drawn ⟨m.tree.add kind children, m.stack⟩ (n + 1) :=
  ⟨h.tree.add hrefs, h.stack⟩

theorem ends_make {fault : Machine → Prop} (kind : Kind) (children : List NodeId) (m : Machine) :
    (make kind children).Ends m
      (fun id m' => id = m.tree.nextId ∧ m' = ⟨m.tree.add kind children, m.stack⟩) fault := by
  refine ⟨fun id hid => ?_, fun _ he => by cases he⟩
  cases hid
  exact ⟨rfl, rfl⟩

theorem ends_describe {fault : Machine → Prop} (cfg : Settings) (level : Level) (id : NodeId)
    (line : String → String) (m : Machine) :
    (describe cfg level id line).Ends m (fun _ m' => m' = m) fault := by
  unfold describe
  by_cases hw : level.wantedAt cfg.verbosity = true
  · cases htext : m.tree.text id with
    | ok text => constructor <;> simp [hw, htext]
    | error e => cases e <;> constructor <;> simp [hw, htext]
  · constructor <;> simp [hw]

variable (hm : m₀.WellFormed container) (h : m₀.Drawn m n) (hn : n ≤ 2)

include hm h

theorem Drawn.holds {id : NodeId} (hid : id ∈ m.stack.items) : m.tree.Holds id :=
  Nat.lt_of_lt_of_le (hm.items id (h.stack.subset hid)) h.tree.grows.size_le

include hn

theorem ends_pop (position : Nat) :
    (pop position).Ends m
      (fun id m' => m'.tree = m.tree ∧ m.tree.Holds id ∧ m₀.Drawn m' n) (m₀.Drawn · 2) := by
  have hholds {id : NodeId} (hid : id ∈ m.stack.items) : m.tree.Holds id := h.holds hm hid
  obtain ⟨t, ⟨items⟩⟩ := m
  cases items with
  | nil =>
    refine ⟨fun id hid => ?_, fun _ _ => h.mono hn⟩
    cases hid
  | cons id rest =>
    refine ⟨fun id hid => ?_, fun _ he => by cases he⟩
    cases hid
    exact ⟨rfl, hholds List.mem_cons_self, h.tree, (List.suffix_cons id rest).trans h.stack⟩

end Parts

theorem ends_arrayIndices {fault : Machine → Prop} {t : Tree} {stack : OperandStack}
    (ht : t.Closed) (cfg : Settings) {index : NodeId} (hindex : t.Holds index) :
    (arrayIndices cfg index).Ends ⟨t, stack⟩
      (fun ids m' => m' = ⟨t, stack⟩ ∧ ∀ id ∈ ids, t.Holds id) fault := by
  have hparts : ∀ id ∈ indexParts cfg t index, t.Holds id := fun id hid =>
    holds_of_mem_indexParts ht hindex hid
  unfold indexParts at hparts
  refine .state_bind ?_
  cases hrow : rowAndColumn? cfg t index with
  | none =>
    rw [hrow] at hparts
    exact ends_pure ⟨rfl, hparts⟩
  | some parts =>
    rw [hrow] at hparts
    refine .bind ((ends_describe ..).imp ?_)
    rintro - m' rfl
    exact ends_pure ⟨rfl, hparts⟩

/-! ## Instructions -/

/-- The action fails with nothing but such remains. -/
def Spares {α : Type} (x : Action Machine α) (m : Machine) : Prop :=
  x.Ends m (fun _ _ => True) (m.Drawn · 2)

/-- A duplication marks nothing before it is sure to succeed. -/
theorem ends_duplicate {fault : Machine → Prop} {m : Machine} (h : fault m) (position : Nat)
    (i : Instruction) : (duplicate position i).Ends m (fun _ _ => True) fault := by
  unfold duplicate
  split
  · refine .state_bind ?_
    split
    · exact ends_fail h
    · exact .of_haltsOnly ((haltsOnly_edit id _).bind fun _ => .change _) m
  · exact ends_fail h

/-- **How far an instruction is**: as long as it counts the nodes that it has made, it has done
nothing else, and what it has in hand is in the tree. -/
def Draws (m₀ m : Machine) (hand : Hand) : Prop :=
  ∀ n, hand.made = some n → m₀.Drawn m n ∧ ∀ id ∈ hand.held, m.tree.Holds id

section Instructions

variable {m₀ m : Machine} {hand hand' : Hand} {α : Type}

theorem Draws.yields (h : m₀.Draws m hand) (hy : hand.Yields hand') : m₀.Draws m hand' := by
  intro n' hn'
  obtain ⟨n, hle, hn⟩ := hy.made n' hn'
  obtain ⟨hdrawn, hheld⟩ := h n hn
  exact ⟨hdrawn.mono hle, fun id hid => hheld id (hy.held.subset hid)⟩

theorem Draws.drawn (h : m₀.Draws m hand) (hf : hand.MayFail) : m₀.Drawn m 2 := by
  obtain ⟨n, hle, hn⟩ := hf
  exact (h n hn).1.mono hle

/-- From here on nothing can fail. -/
theorem draws_of_settled (h : hand.made = none) : m₀.Draws m hand := by
  intro n hn
  rw [h] at hn
  cases hn

theorem ends_settled {x : Action Machine α} {post : α → Hand} {fault : Machine → Prop}
    (hx : HaltsOnly (¬ ·.IsFault) x) (hpost : ∀ a, (post a).made = none) :
    x.Ends m (fun a m' => m₀.Draws m' (post a)) fault :=
  (Ends.of_haltsOnly hx m).imp fun a _ _ => draws_of_settled (hpost a)

/-- **What is composed of the moves of an instruction fails with such remains only.** -/
theorem Composed.ends {container : NodeId} (hm : m₀.WellFormed container) {w : Twin}
    {x y : Action Machine α} {post : α → Hand} (h : Composed w hand x y post)
    (hhand : m₀.Draws m hand) :
    x.Ends m (fun a m' => m₀.Draws m' (post a)) (m₀.Drawn · 2) := by
  -- while nodes are counted nothing else has changed; once they are not, no move can fail
  induction h generalizing m with
  | pure hy => exact ends_pure (hhand.yields hy)
  | bind _ _ ihx ihf => exact .bind ((ihx hhand).imp fun a m' h => ihf a h)
  | weaken hy _ ih => exact ih (hhand.yields hy)
  | fail hf => exact ends_fail (hhand.drawn hf)
  | pop hf =>
    obtain ⟨n, hle, hn⟩ := hf
    obtain ⟨hdrawn, hheld⟩ := hhand n hn
    refine (ends_pop hm hdrawn hle w.position).imp ?_
    rintro id m' ⟨htree, hid, h'⟩ k hk
    cases hn.symm.trans hk
    rw [htree]
    exact ⟨h', List.forall_mem_cons.mpr ⟨hid, hheld⟩⟩
  | push => exact ends_settled (haltsOnly_push _) fun _ => rfl
  | @make held known made kind children hs =>
    cases made with
    | none => exact ends_settled (haltsOnly_make kind children) fun _ => rfl
    | some n =>
      obtain ⟨hdrawn, hheld⟩ := hhand n rfl
      obtain ⟨hrefs, hheld⟩ := List.forall_mem_append.mp hheld
      refine (ends_make kind children m).imp ?_
      rintro _ _ ⟨rfl, rfl⟩ k hk
      cases hk
      refine ⟨hdrawn.make hrefs, List.forall_mem_cons.mpr ⟨m.tree.holds_nextId_add .., ?_⟩⟩
      exact fun id hid => (Tree.evolves_add ..).holds (hheld id hid)
  | place =>
    exact ends_settled ((haltsOnly_make _ _).bind fun _ => haltsOnly_append id _ _) fun _ => rfl
  | @arrayIndices held known made index _ =>
    cases made with
    | none => exact ends_settled (haltsOnly_arrayIndices id w.cfg id index) fun _ => rfl
    | some n =>
      obtain ⟨hdrawn, hheld⟩ := hhand n rfl
      obtain ⟨hindex, hheld⟩ := List.forall_mem_cons.mp hheld
      refine (ends_arrayIndices (hdrawn.tree.closed hm.closed) w.cfg hindex).imp ?_
      rintro indices m' ⟨rfl, hindices⟩ k hk
      cases hk
      exact ⟨hdrawn, List.forall_mem_append.mpr ⟨hindices, hheld⟩⟩
  | assign =>
    exact ends_settled (haltsOnly_assign id w.cfg w.container w.position id _ _) fun _ => rfl
  | duplicate hf =>
    exact (ends_duplicate (hhand.drawn hf) w.position w.i).imp fun _ _ _ => draws_of_settled rfl
  | discard => exact ends_settled (haltsOnly_discard id w.cfg w.container w.position) fun _ => rfl
  | convert => exact ends_settled (haltsOnly_convert w.i) fun _ => rfl
  | report => exact ⟨fun _ _ => hhand, fun _ he => by cases he⟩
  | describe => exact (ends_describe _ _ _ _ m).imp fun _ _ h => h ▸ hhand

/-- **An instruction that fails leaves at most two new nodes** and the bottom part of the stack. -/
theorem spares_step (cfg : Settings) {container : NodeId} (i : Instruction)
    (hm : m.WellFormed container) (behind ahead : List Instruction) :
    Spares (step cfg container behind i ahead) m := by
  have hstart : m.Draws m {} := fun n _ => ⟨.refl m, fun _ hid => (List.not_mem_nil hid).elim⟩
  exact ((composed_step_same cfg container behind i ahead).ends hm hstart).imp
    fun _ _ _ => trivial

end Instructions

/-! ## Code -/

/-- **The one state is the other with the remains of a failed instruction**: at most two new nodes
behind the others, to which neither an older node nor the stack refers, and the bottom part of the
stack. -/
structure Leftover (m m' : Machine) : Prop where
  nodes : ∃ new, m'.tree.nodes.toList = m.tree.nodes.toList ++ new ∧ new.length ≤ 2
  unreferenced : ∀ id, ¬ m.tree.Holds id →
    (∀ old, m.tree.Holds old → ¬ m'.tree.Refers old id) ∧ id ∉ m'.stack.toList
  stack : m'.stack.toList <+: m.stack.toList

theorem Drawn.leftover {container : NodeId} {m m' : Machine} (h : m.Drawn m' 2)
    (hm : m.WellFormed container) : Leftover m m' where
  nodes := h.tree.nodes
  unreferenced id hid := by
    refine ⟨fun old hold hrefers => ?_, fun hmem => ?_⟩
    · exact hid (hm.closed.holds_of_mem_refs ((h.tree.grows.refers_iff hold).mp hrefers))
    · exact hid (hm.items id (h.stack.subset (List.mem_reverse.mp hmem)))
  stack := List.reverse_prefix.mpr h.stack

/-- **A failed run leaves what the code before its failure leaves**, up to the remains of the
instruction that the error names. -/
theorem execute_fault (cfg : Settings) {container : NodeId} {code : List Instruction} {m : Machine}
    {e : LiftError} (hm : m.WellFormed container)
    (hfail : (execute cfg code container m).result = .error (.error e)) :
    ∃ position < code.length, (Halt.error e).IsAt position ∧
      (execute cfg (code.take position) container m).result = .ok () ∧
      Leftover (execute cfg (code.take position) container m).state
        (execute cfg code container m).state := by
  rw [← executeAt_zero] at hfail ⊢
  rcases arrives_or_halts .start with ⟨hok, -⟩ | ⟨k, m', i, e', way, hi, hstep, herror, hstate⟩
  · rw [hfail] at hok
    cases hok
  · obtain rfl : Halt.error e = e' := Except.error.inj (hfail.symm.trans herror)
    have hlt : k < code.length := (List.getElem?_eq_some_iff.mp hi).1
    have hat : (Halt.error e).IsAt (code.take k).reverse.length :=
      (meets_of_error hstep).mp ((haltsOnly_step ..).meets m')
    obtain ⟨hbefore, hresult⟩ := (way.take k (Nat.le_refl k)).execute_eq
    rw [executeAt_of_length_le (List.length_take_le ..)] at hbefore hresult
    have hm' := way.wellFormed hm
    have hdrawn := (spares_step cfg i hm' ..).fails e hstep
    refine ⟨k, hlt, by simpa [Nat.min_eq_left hlt.le] using hat, hresult, ?_⟩
    rw [hbefore, hstate]
    exact hdrawn.leftover hm'

/-- The second of two stores finds no value. The node of its variable has been made, and that of the
owner. -/
theorem execute_fault_store :
    let code : List Instruction :=
      [{ opcode := .push, type1 := .int32, literal := some (.int32 5) },
        { opcode := .pop, type1 := .variant, reference := some ⟨7, .normal⟩, owner := .self },
        { opcode := .pop, type1 := .variant, reference := some ⟨8, .normal⟩, owner := .self },
        { opcode := .exit }]
    let before := execute {} (code.take 2) Tree.root {}
    let o := execute {} code Tree.root {}
    o.result = .error (.error (.underflow 2)) ∧ o.state.tree.size = before.state.tree.size + 2 ∧
      ∃ position < code.length, (Halt.error (.underflow 2)).IsAt position ∧
        (execute {} (code.take position) Tree.root {}).result = .ok () ∧
        Leftover (execute {} (code.take position) Tree.root {}).state o.state := by
  intro code before o
  have hfail : o.result = .error (.error (.underflow 2)) := rfl
  exact ⟨hfail, rfl, execute_fault {} wellFormed_new hfail⟩

end Machine

end GmlLift
