import GmlLift.Assembly.Walk

/-!
# Budgets do not matter

An action that does not end endlessly is said to end. `Action.Approximates x y` says that `y` does
the same as `x` wherever `x` ends, and `Action.Tends x y` that from some index on the actions of a
sequence do the same as `y`, wherever `y` ends. Both go through everything of which a visit is
made.

Results:
* `walk_mono`: a walk that ends within a budget does the same with every larger one.
* `walk_append`: pending visits in two groups are done group by group, on one budget.
-/

namespace GmlLift

/-- An answer of which something is known is there. -/
theorem exists_of_map_eq_ok {ε α β : Type} {r : Except ε α} {f : α → β} {b : β}
    (h : r.map f = .ok b) : ∃ a, r = .ok a ∧ f a = b := by
  cases r with
  | ok a => exact ⟨a, rfl, Except.ok.inj h⟩
  | error e => cases h

namespace Action

variable {σ α β : Type}

/-- The action neither runs out of budget nor into a cyclic text. -/
def EndsOn (x : Action σ α) (s : σ) : Prop := (x s).result ≠ .error .endless

/-- **Wherever `x` ends, `y` does the same.** -/
def Approximates (x y : Action σ α) : Prop := ∀ s, x.EndsOn s → y s = x s

/-- **From some index on the sequence does the same as `y`**, wherever `y` ends. -/
def Tends (x : Nat → Action σ α) (y : Action σ α) : Prop :=
  ∀ s, y.EndsOn s → ∃ n, ∀ k, n ≤ k → x k s = y s

theorem EndsOn.of_isOk {x : Action σ α} {s : σ} (h : (x s).result.isOk = true) :
    x.EndsOn s := by
  intro hx
  rw [hx] at h
  exact absurd h Bool.false_ne_true

theorem EndsOn.left {x : Action σ α} {f : α → Action σ β} {s : σ} (h : (x >>= f).EndsOn s) :
    x.EndsOn s := by
  intro hx
  exact h (by rw [bind_of_error hx])

theorem EndsOn.right {x : Action σ α} {f : α → Action σ β} {s : σ} {a : α}
    (h : (x >>= f).EndsOn s) (hx : (x s).result = .ok a) : (f a).EndsOn (x s).state := by
  unfold EndsOn at h
  rw [bind_of_ok hx] at h
  exact h

/-- Sequences are equal if their first parts are, and their second parts behind them. -/
theorem bind_congr_at {x y : Action σ α} {f g : α → Action σ β} {s : σ} (hx : y s = x s)
    (hf : ∀ a, (x s).result = .ok a → g a (x s).state = f a (x s).state) :
    (y >>= g) s = (x >>= f) s := by
  rw [bind_apply, bind_apply, hx]
  unfold Outcome.andThen
  cases h : (x s).result with
  | error e => rfl
  | ok a =>
    simp only
    rw [hf a h]

namespace Approximates

theorem refl (x : Action σ α) : Approximates x x := fun _ _ => rfl

theorem trans {x y z : Action σ α} (hxy : Approximates x y) (hyz : Approximates y z) :
    Approximates x z := fun s h => by
  have hy := hxy s h
  rw [← hy]
  exact hyz s (by unfold EndsOn; rw [hy]; exact h)

theorem bind {x y : Action σ α} {f g : α → Action σ β} (hx : Approximates x y)
    (hf : ∀ a, Approximates (f a) (g a)) : Approximates (x >>= f) (y >>= g) := fun s h =>
  bind_congr_at (hx s h.left) fun a ha => hf a _ (h.right ha)

theorem forM {x y : α → Action σ Unit} (h : ∀ a, Approximates (x a) (y a)) :
    ∀ as : List α, Approximates (as.forM x) (as.forM y)
  | [] => refl _
  | a :: as => (h a).bind fun _ => forM h as

end Approximates

namespace Tends

theorem const (y : Action σ α) : Tends (fun _ => y) y := fun _ _ => ⟨0, fun _ _ => rfl⟩

theorem bind {x : Nat → Action σ α} {y : Action σ α} {f : Nat → α → Action σ β}
    {g : α → Action σ β} (hx : Tends x y) (hf : ∀ a, Tends (fun n => f n a) (g a)) :
    Tends (fun n => x n >>= f n) (y >>= g) := fun s h => by
  obtain ⟨n, hn⟩ := hx s h.left
  cases hy : (y s).result with
  | error e =>
    refine ⟨n, fun k hk => bind_congr_at (hn k hk) fun a ha => ?_⟩
    rw [hy] at ha
    cases ha
  | ok a =>
    obtain ⟨n', hn'⟩ := hf a _ (h.right hy)
    refine ⟨max n n', fun k hk => bind_congr_at (hn k (by omega)) fun b hb => ?_⟩
    rw [hy] at hb
    cases hb
    exact hn' k (by omega)

/-- What tends to every member of a sequence tends to what the sequence tends to. -/
theorem trans {x z : Nat → Action σ α} {y : Action σ α} (hz : ∀ n, Tends z (x n))
    (hx : Tends x y) : Tends z y := fun s hs => by
  obtain ⟨n, hn⟩ := hx s hs
  have hxy := hn n (Nat.le_refl n)
  rw [← hxy]
  exact hz n s (by unfold EndsOn; rw [hxy]; exact hs)

/-- A later start makes no difference. -/
theorem of_succ {x : Nat → Action σ α} {y : Action σ α} (h : Tends (fun n => x (n + 1)) y) :
    Tends x y := fun s hs => by
  obtain ⟨n, hn⟩ := h s hs
  refine ⟨n + 1, fun k hk => ?_⟩
  obtain ⟨j, rfl⟩ : ∃ j, k = j + 1 := ⟨k - 1, by omega⟩
  exact hn j (by omega)

end Tends

end Action

namespace Assembly

open GmlLift.Action

/-! ## What a visit is made of -/

theorem endsOn_onFreshStack {x : Action Assembly Unit} {s : Assembly}
    (h : (onFreshStack x).EndsOn s) :
    x.EndsOn { s with machine := { s.machine with stack := .empty } } := by
  intro hx
  apply h
  unfold onFreshStack
  simp only
  rw [hx]
  rfl

theorem approximates_onFreshStack {x y : Action Assembly Unit} (h : Approximates x y) :
    Approximates (onFreshStack x) (onFreshStack y) := fun s hs => by
  unfold onFreshStack
  rw [h _ (endsOn_onFreshStack hs)]

theorem tends_onFreshStack {x : Nat → Action Assembly Unit} {y : Action Assembly Unit}
    (h : Tends x y) : Tends (fun n => onFreshStack (x n)) (onFreshStack y) := fun s hs => by
  obtain ⟨n, hn⟩ := h _ (endsOn_onFreshStack hs)
  refine ⟨n, fun k hk => ?_⟩
  show onFreshStack (x k) s = onFreshStack y s
  unfold onFreshStack
  rw [hn k hk]

theorem approximates_conditionOperands {assemble assemble' : FlowRef → Action Assembly OperandStack}
    (h : ∀ node, Approximates (assemble node) (assemble' node)) :
    ∀ conditions, Approximates (conditionOperands assemble conditions)
      (conditionOperands assemble' conditions)
  | [] => .refl _
  | condition :: rest => by
    unfold conditionOperands
    refine (h condition).bind fun inner => ?_
    cases inner.popFor "short-circuit condition" with
    | error e => exact .refl _
    | ok popped =>
      exact (Approximates.refl _).bind fun _ =>
        (approximates_conditionOperands h rest).bind fun _ => .refl _

theorem tends_conditionOperands {assemble : Nat → FlowRef → Action Assembly OperandStack}
    {assemble' : FlowRef → Action Assembly OperandStack}
    (h : ∀ node, Tends (fun n => assemble n node) (assemble' node)) :
    ∀ conditions, Tends (fun n => conditionOperands (assemble n) conditions)
      (conditionOperands assemble' conditions)
  | [] => .const _
  | condition :: rest => by
    unfold conditionOperands
    refine (h condition).bind fun inner => ?_
    cases inner.popFor "short-circuit condition" with
    | error e => exact .const _
    | ok popped =>
      exact (Tends.const _).bind fun _ => (tends_conditionOperands h rest).bind fun _ => .const _

/-- A way to assemble the conditions of short circuits. -/
abbrev Assembler : Type := NodeId → FlowRef → Action Assembly OperandStack

theorem approximates_visit {assemble assemble' : Assembler}
    (h : ∀ container node, Approximates (assemble container node) (assemble' container node))
    (cfg : Settings) (v : Visit) :
    Approximates (visit cfg assemble v) (visit cfg assemble' v) := by
  unfold visit
  refine (Approximates.refl _).bind fun s => ?_
  cases s.graph.get? v.node with
  | none => exact .refl _
  | some node =>
    cases hk : node.kind with
    | shortCircuit op conditions =>
      simp only [hk]
      exact (approximates_conditionOperands (h v.container) conditions).bind fun _ => .refl _
    | block _ => simp only [hk]; exact .refl _
    | conditional _ => simp only [hk]; exact .refl _
    | loop _ => simp only [hk]; exact .refl _
    | switch => simp only [hk]; exact .refl _

theorem tends_visit {assemble : Nat → Assembler} {assemble' : Assembler}
    (h : ∀ container node, Tends (fun n => assemble n container node) (assemble' container node))
    (cfg : Settings) (v : Visit) :
    Tends (fun n => visit cfg (assemble n) v) (visit cfg assemble' v) := by
  unfold visit
  refine (Tends.const _).bind fun s => ?_
  cases s.graph.get? v.node with
  | none => exact .const _
  | some node =>
    cases hk : node.kind with
    | shortCircuit op conditions =>
      simp only [hk]
      exact (tends_conditionOperands (h v.container) conditions).bind fun _ => .const _
    | block _ => simp only [hk]; exact .const _
    | conditional _ => simp only [hk]; exact .const _
    | loop _ => simp only [hk]; exact .const _
    | switch => simp only [hk]; exact .const _

/-! ## Walks -/

theorem walk_nil (cfg : Settings) (budget : Nat) : walk cfg budget [] = pure () := by
  cases budget <;> rfl

theorem walk_succ_cons (cfg : Settings) (budget : Nat) (v : Visit) (pending : List Visit) :
    walk cfg (budget + 1) (v :: pending) =
      visit cfg (fragment cfg budget) v >>= fun next => walk cfg budget (next ++ pending) := rfl

/-- Without a budget no visit is made. -/
theorem not_endsOn_walk_zero {cfg : Settings} {v : Visit} {pending : List Visit} {s : Assembly} :
    ¬ (walk cfg 0 (v :: pending)).EndsOn s := fun h => h rfl

/-- **A walk that ends within a budget does the same with every larger one.** -/
theorem walk_mono (cfg : Settings) {budget budget' : Nat} (h : budget ≤ budget') :
    ∀ pending, Approximates (walk cfg budget pending) (walk cfg budget' pending) := by
  induction budget generalizing budget' with
  | zero =>
    intro pending
    cases pending with
    | nil => rw [walk_nil, walk_nil]; exact .refl _
    | cons v pending => exact fun s hs => absurd hs not_endsOn_walk_zero
  | succ budget ih =>
    obtain ⟨budget', rfl⟩ : ∃ k, budget' = k + 1 := ⟨budget' - 1, by omega⟩
    have hle : budget ≤ budget' := by omega
    intro pending
    cases pending with
    | nil => rw [walk_nil, walk_nil]; exact .refl _
    | cons v pending =>
      rw [walk_succ_cons, walk_succ_cons]
      refine (approximates_visit (fun container node => ?_) cfg v).bind fun next => ih hle _
      exact approximates_onFreshStack (ih hle _)

theorem tends_walk (cfg : Settings) (budget : Nat) (pending : List Visit) :
    Tends (fun n => walk cfg n pending) (walk cfg budget pending) := fun s hs =>
  ⟨budget, fun _ hk => walk_mono cfg hk pending s hs⟩

/-- **Pending visits in two groups are done group by group**, and the budget of the whole is enough
for each of them. -/
theorem walk_append (cfg : Settings) (budget : Nat) (first second : List Visit) :
    Approximates (walk cfg budget (first ++ second))
      (walk cfg budget first >>= fun _ => walk cfg budget second) := by
  induction budget generalizing first with
  | zero =>
    cases first with
    | nil => rw [walk_nil]; exact .refl _
    | cons v first => exact fun s hs => absurd hs not_endsOn_walk_zero
  | succ budget ih =>
    cases first with
    | nil => rw [walk_nil]; exact .refl _
    | cons v first =>
      rw [List.cons_append, walk_succ_cons, walk_succ_cons, bind_assoc]
      refine (Approximates.refl _).bind fun next => ?_
      rw [← List.append_assoc]
      exact (ih _).trans ((Approximates.refl _).bind fun _ => walk_mono cfg (Nat.le_succ _) second)

/-- Two groups that end one after the other end together, on a budget that is large enough. -/
theorem tends_walk_append (cfg : Settings) (budget budget' : Nat) (first second : List Visit) :
    Tends (fun n => walk cfg n (first ++ second))
      (walk cfg budget first >>= fun _ => walk cfg budget' second) := by
  induction budget generalizing first with
  | zero =>
    cases first with
    | nil => rw [walk_nil]; exact tends_walk cfg budget' second
    | cons v first => exact fun s hs => absurd hs.left not_endsOn_walk_zero
  | succ budget ih =>
    cases first with
    | nil => rw [walk_nil]; exact tends_walk cfg budget' second
    | cons v first =>
      rw [walk_succ_cons, bind_assoc]
      refine Tends.of_succ
        (Tends.bind (tends_visit (fun container node => ?_) cfg v) fun next => ?_)
      · exact tends_onFreshStack (tends_walk cfg budget _)
      · have together := ih (next ++ first)
        rw [List.append_assoc] at together
        exact together

end Assembly

end GmlLift
