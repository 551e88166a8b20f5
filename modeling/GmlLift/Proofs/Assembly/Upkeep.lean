import GmlLift.Proofs.Assembly.Budget
import GmlLift.Proofs.Flow.Pruning
import GmlLift.Proofs.Lifting.Meets

/-!
# What a walk keeps up

A `Scheme` says what is to hold of the tree, of the operands on a stack and of the visits that are
still to be made, and what a later tree keeps of an earlier one. It is kept up (`Scheme.Upkeep`) if
the code of a node and everything that is done for a node keep it; then a whole walk does
(`Upkeep.walk`), with the walks for the conditions of its short circuits inside.
-/

namespace GmlLift

open GmlLift.Action

/-- An action on a stack of its own. -/
theorem Assembly.meets_onFreshStack {x : Action Assembly Unit} {s : Assembly}
    {post : OperandStack → Assembly → Prop} {halts : Halt → Prop}
    (h : x.Meets { s with machine := { s.machine with stack := .empty } } (fun _ s' =>
      post s'.machine.stack { s' with machine := { s'.machine with stack := s.machine.stack } })
      halts) : (onFreshStack x).Meets s post halts := by
  let s₀ : Assembly := { s with machine := { s.machine with stack := .empty } }
  have hresult : (onFreshStack x s).result =
      (x s₀).result.map fun _ => (x s₀).state.machine.stack := rfl
  cases hr : (x s₀).result with
  | error e =>
    rw [hr] at hresult
    exact (meets_of_error hresult).mpr ((meets_of_error hr).mp h)
  | ok _ =>
    rw [hr] at hresult
    exact (meets_of_ok hresult).mpr ((meets_of_ok hr).mp h)

/-- What is to hold of a machine and of the visits to come. -/
structure Scheme where
  Tidy : Tree → Prop
  /-- An operand on a stack. -/
  Value : Tree → NodeId → Prop
  Fits : Tree → Visit → Prop
  /-- What a later tree keeps. -/
  Later : Tree → Tree → Prop
  refl : ∀ t, Later t t
  trans : ∀ {t t' t''}, Later t t' → Later t' t'' → Later t t''
  value : ∀ {t t' id}, Later t t' → Value t id → Value t' id
  fits : ∀ {t t' v}, Later t t' → Fits t v → Fits t' v
  goTo : ∀ {t v} node, Fits t v → Fits t (v.goTo node)
  condition : ∀ {t v} node, Fits t v → Fits t { container := v.container, node }

namespace Scheme

variable (S : Scheme)

/-- The scheme holds of the machine. -/
structure Kept (m : Machine) : Prop where
  tidy : S.Tidy m.tree
  values : ∀ id ∈ m.stack.items, S.Value m.tree id

/-- An action of the machine keeps the scheme; its answer is as wanted, or it stops with a fault. -/
def Keeps {α : Type} (x : Action Machine α) (m : Machine) (answer : α → Tree → Prop) : Prop :=
  x.Meets m (fun a m' => S.Kept m' ∧ S.Later m.tree m'.tree ∧ answer a m'.tree) Halt.IsFault

/-- **The scheme is kept up by everything of which a walk is made.** -/
structure Upkeep (cfg : Settings) : Prop where
  execute : ∀ {m v} code, S.Kept m → S.Fits m.tree v →
    S.Keeps (Machine.execute cfg code v.container) m fun _ _ => True
  finishBlock : ∀ {m v} role, S.Kept m → S.Fits m.tree v →
    S.Keeps (v.finishBlock cfg role) m fun _ _ => True
  openConditional : ∀ {m v} branches, S.Kept m → S.Fits m.tree v →
    S.Keeps (v.openConditional branches) m fun next t => ∀ w ∈ next, S.Fits t w
  openLoop : ∀ {m v} kind branches, S.Kept m → S.Fits m.tree v →
    S.Keeps (v.openLoop kind branches) m fun next t => ∀ w ∈ next, S.Fits t w
  openSwitch : ∀ {m v} branches, S.Kept m → S.Fits m.tree v →
    S.Keeps (v.openSwitch branches) m fun next t => ∀ w ∈ next, S.Fits t w
  connect : ∀ {m} op operands, S.Kept m → (∀ id ∈ operands, S.Value m.tree id) →
    S.Keeps (Machine.pushNew (.shortCircuit op) operands) m fun _ _ => True

variable {S} {cfg : Settings} {α β : Type}

theorem goOn {t : Tree} {v : Visit} (hv : S.Fits t v) (branches : List FlowRef) :
    ∀ w ∈ v.goOn branches, S.Fits t w := by
  intro w hw
  cases branches with
  | nil => cases hw
  | cons node rest =>
    rw [List.mem_singleton.mp hw]
    exact S.goTo node hv

namespace Keeps

variable {x : Action Machine α} {f : α → Action Machine β} {m : Machine} {a : α}
  {answer : α → Tree → Prop} {answer' : β → Tree → Prop}

protected theorem pure (hm : S.Kept m) (h : answer a m.tree) : S.Keeps (pure a) m answer :=
  ⟨hm, S.refl _, h⟩

protected theorem fail (e : LiftError) : S.Keeps (fail e) m answer := trivial

/-- **One action after the other.** -/
protected theorem bind (hx : S.Keeps x m answer)
    (hf : ∀ a m', S.Kept m' → S.Later m.tree m'.tree → answer a m'.tree →
      S.Keeps (f a) m' answer') : S.Keeps (x >>= f) m answer' := by
  refine Meets.bind (hx.imp ?_)
  rintro a m' ⟨hm', hlater, ha⟩
  refine (hf a m' hm' hlater ha).imp ?_
  rintro b m'' ⟨hm'', hlater', hb⟩
  exact ⟨hm'', S.trans hlater hlater', hb⟩

/-- What is done may depend on the machine. -/
theorem state_bind {f : Machine → Action Machine β} (h : S.Keeps (f m) m answer') :
    S.Keeps (state >>= f) m answer' :=
  Meets.bind (meets_state h)

/-- What is done may depend on a branch, if there is one. -/
theorem branch_bind {branches : List FlowRef} {construct : Branching} {index : Nat}
    {f : FlowRef → Action Machine β} (h : ∀ node, S.Keeps (f node) m answer') :
    S.Keeps (Visit.branch branches construct index >>= f) m answer' :=
  Meets.bind (Visit.meets_branch trivial fun node _ => h node)

end Keeps

namespace Upkeep

open GmlLift.Assembly

/-- A fault, or the budget is spent. -/
def Excused (h : Halt) : Prop := h.IsFault ∨ h = .endless

/-- An action of an assembly keeps the scheme. -/
def WalkKeeps (S : Scheme) {α : Type} (x : Action Assembly α) (s : Assembly)
    (answer : α → Tree → Prop) : Prop :=
  x.Meets s (fun a s' => S.Kept s'.machine ∧ S.Later s.machine.tree s'.machine.tree ∧
    answer a s'.machine.tree) Excused

variable {s : Assembly} {v : Visit}

/-- **One action after the other**, in both of which the scheme is kept. -/
protected theorem bind {x : Action Assembly α} {f : α → Action Assembly β}
    {answer : α → Tree → Prop} {answer' : β → Tree → Prop} (hx : WalkKeeps S x s answer)
    (hf : ∀ a s', S.Kept s'.machine → S.Later s.machine.tree s'.machine.tree →
      answer a s'.machine.tree → WalkKeeps S (f a) s' answer') :
    WalkKeeps S (x >>= f) s answer' := by
  refine .bind (hx.imp ?_)
  rintro a s' ⟨hkept, hlater, ha⟩
  refine (hf a s' hkept hlater ha).imp ?_
  rintro b s'' ⟨hkept', hlater', hb⟩
  exact ⟨hkept', S.trans hlater hlater', hb⟩

protected theorem pure {a : α} {answer : α → Tree → Prop} (hs : S.Kept s.machine)
    (h : answer a s.machine.tree) : WalkKeeps S (pure a) s answer :=
  ⟨hs, S.refl _, h⟩

/-- What is done may depend on the assembly. -/
theorem state_bind {f : Assembly → Action Assembly β} {answer : β → Tree → Prop}
    (h : WalkKeeps S (f s) s answer) : WalkKeeps S (state >>= f) s answer :=
  Meets.bind (meets_state h)

theorem onMachine {x : Action Machine α} {answer : α → Tree → Prop}
    (h : S.Keeps x s.machine answer) : WalkKeeps S (Assembly.onMachine x) s answer :=
  Meets.onPart (h.mono (fun _ _ hm => hm) fun _ => Or.inl)

/-- Pruning leaves the machine alone. -/
theorem prune (cfg : Settings) {node : FlowNode} {ref : FlowRef} (hs : S.Kept s.machine)
    (hnode : s.graph.get? ref = some node) :
    WalkKeeps S (onGraph (FlowGraph.prune cfg ref)) s fun _ _ => True := by
  have hok : (onGraph (FlowGraph.prune cfg ref) s).result = .ok () :=
    (FlowGraph.prune_of_get? cfg hnode).1
  exact (meets_of_ok hok).mpr ⟨hs, S.refl _, trivial⟩

/-! ## Visits -/

/-- The end of a block. -/
theorem visitBlock (U : S.Upkeep cfg) (hs : S.Kept s.machine) (hv : S.Fits s.machine.tree v)
    {block : Block} {node : FlowNode} (hnode : s.graph.get? v.node = some node)
    (branches : List FlowRef) :
    WalkKeeps S (visitBlock cfg v block branches) s fun next t => ∀ w ∈ next, S.Fits t w := by
  have hend (s' : Assembly) (hs' : S.Kept s'.machine) (hv' : S.Fits s'.machine.tree v) :
      WalkKeeps S (Assembly.onMachine (v.finishBlock cfg block.role) >>= fun _ =>
        pure (v.goOn branches)) s' fun next t => ∀ w ∈ next, S.Fits t w := by
    refine Upkeep.bind (onMachine (U.finishBlock block.role hs' hv')) fun _ s'' hs'' hlater _ => ?_
    exact Upkeep.pure hs'' (goOn (S.fits hlater hv') branches)
  -- the graph is still the one in which the node was found
  have hexecute : (Assembly.onMachine (Machine.execute cfg block.code v.container)).Meets s
      (fun _ s' => s'.graph = s.graph ∧ S.Kept s'.machine ∧
        S.Later s.machine.tree s'.machine.tree) Excused :=
    Meets.onPart ((U.execute block.code hs hv).mono
      (fun _ _ hm => ⟨rfl, hm.1, hm.2.1⟩) fun _ => Or.inl)
  unfold Assembly.visitBlock
  refine .bind (hexecute.imp ?_)
  rintro _ s' ⟨hgraph, hs', hlater⟩
  have hv' := S.fits hlater hv
  have hrest : WalkKeeps S (do
      if block.role = .breakOut || block.role = .continueOn then
        onGraph (FlowGraph.prune cfg v.node)
      Assembly.onMachine (v.finishBlock cfg block.role)
      return v.goOn branches) s' fun next t => ∀ w ∈ next, S.Fits t w := by
    split
    · rw [← hgraph] at hnode
      refine Upkeep.bind (Upkeep.prune cfg hs' hnode) fun _ s'' hs'' hlater' _ => ?_
      exact hend s'' hs'' (S.fits hlater' hv')
    · exact hend s' hs' hv'
  refine hrest.imp ?_
  rintro next s'' ⟨hs'', hlater', hnext⟩
  exact ⟨hs'', S.trans hlater hlater', hnext⟩

/-- A way to assemble conditions keeps the scheme: what it leaves on its own stack are values, and
the stack outside is as it was. -/
def Assembles (S : Scheme) (assemble : Assembler) : Prop :=
  ∀ {s : Assembly} {v : Visit} (node : FlowRef), S.Kept s.machine → S.Fits s.machine.tree v →
    WalkKeeps S (assemble v.container node) s fun inner t => ∀ id ∈ inner.items, S.Value t id

theorem conditionOperands (U : S.Upkeep cfg) {assemble : Assembler} (ha : Assembles S assemble) :
    ∀ {s : Assembly} (conditions : List FlowRef), S.Kept s.machine → S.Fits s.machine.tree v →
      WalkKeeps S (conditionOperands (assemble v.container) conditions) s
        fun operands t => ∀ id ∈ operands, S.Value t id
  | s, [], hs, _ => Upkeep.pure hs fun _ h => nomatch h
  | s, condition :: rest, hs, hv => by
    unfold Assembly.conditionOperands
    refine Upkeep.bind (ha condition hs hv) fun inner s₁ hs₁ hlater₁ hinner => ?_
    obtain ⟨items⟩ := inner
    cases items with
    | nil => exact Or.inl trivial
    | cons operand others =>
      obtain ⟨hoperand, hothers⟩ := List.forall_mem_cons.mp hinner
      have hstack : WalkKeeps S (Assembly.onMachine
          (change fun m => { m with stack := m.stack.append ⟨others⟩ })) s₁ fun _ _ => True := by
        refine ⟨⟨hs₁.tidy, fun id hid => ?_⟩, S.refl _, trivial⟩
        rcases List.mem_append.mp hid with hid | hid
        · exact hothers id hid
        · exact hs₁.values id hid
      refine Upkeep.bind hstack fun _ s₂ hs₂ hlater₂ _ => ?_
      have hv₂ := S.fits (S.trans hlater₁ hlater₂) hv
      refine Upkeep.bind (U.conditionOperands ha rest hs₂ hv₂)
        fun operands s₃ hs₃ hlater₃ hrest => ?_
      refine Upkeep.pure hs₃ (List.forall_mem_cons.mpr ⟨?_, hrest⟩)
      exact S.value (S.trans hlater₂ hlater₃) hoperand

theorem visit (U : S.Upkeep cfg) {assemble : Assembler} (ha : Assembles S assemble)
    (hs : S.Kept s.machine) (hv : S.Fits s.machine.tree v) :
    WalkKeeps S (visit cfg assemble v) s fun next t => ∀ w ∈ next, S.Fits t w := by
  unfold Assembly.visit
  refine state_bind ?_
  cases hnode : s.graph.get? v.node with
  | none => exact Or.inl trivial
  | some node =>
    cases hk : node.kind with
    | block block =>
      simp only [hk]
      exact U.visitBlock hs hv hnode node.branches
    | conditional header =>
      simp only [hk]
      refine Upkeep.bind (onMachine (U.execute header.code hs hv)) fun _ s' hs' hlater _ => ?_
      exact onMachine (U.openConditional node.branches hs' (S.fits hlater hv))
    | shortCircuit op conditions =>
      simp only [hk]
      refine Upkeep.bind (U.conditionOperands ha conditions hs hv)
        fun operands s₁ hs₁ hlater₁ hall => ?_
      refine Upkeep.bind (onMachine (U.connect op operands hs₁ hall)) fun _ s₂ hs₂ hlater₂ _ => ?_
      exact Upkeep.pure hs₂ (goOn (S.fits (S.trans hlater₁ hlater₂) hv) node.branches)
    | loop kind =>
      simp only [hk]
      exact onMachine (U.openLoop kind node.branches hs hv)
    | switch =>
      simp only [hk]
      exact onMachine (U.openSwitch node.branches hs hv)

/-! ## Walks -/

/-- A walk on a stack of its own, whatever is on the stack outside. -/
theorem onFreshStack {x : Action Assembly Unit} (ht : S.Tidy s.machine.tree)
    (hx : ∀ s' : Assembly, S.Kept s'.machine → s'.machine.tree = s.machine.tree →
      WalkKeeps S x s' fun _ _ => True) :
    (onFreshStack x).Meets s (fun inner s' => S.Tidy s'.machine.tree ∧
      S.Later s.machine.tree s'.machine.tree ∧ s'.machine.stack = s.machine.stack ∧
      ∀ id ∈ inner.items, S.Value s'.machine.tree id) Excused := by
  let s₀ : Assembly := { s with machine := { s.machine with stack := .empty } }
  have hinner : WalkKeeps S x s₀ fun _ _ => True := hx s₀ ⟨ht, fun _ h => nomatch h⟩ rfl
  refine meets_onFreshStack (Meets.imp hinner ?_)
  rintro _ s' ⟨hs', hlater, -⟩
  exact ⟨hs'.tidy, hlater, rfl, hs'.values⟩

/-- **A walk keeps the scheme.** -/
theorem walk (U : S.Upkeep cfg) (budget : Nat) :
    ∀ (pending : List Visit) (s : Assembly), S.Kept s.machine →
      (∀ v ∈ pending, S.Fits s.machine.tree v) →
      WalkKeeps S (walk cfg budget pending) s fun _ _ => True := by
  induction budget with
  | zero =>
    intro pending s hs hfits
    cases pending with
    | nil => exact Upkeep.pure hs trivial
    | cons v pending => exact Or.inr rfl
  | succ budget ih =>
    intro pending s hs hfits
    cases pending with
    | nil => exact Upkeep.pure hs trivial
    | cons v pending =>
      obtain ⟨hv, hpending⟩ := List.forall_mem_cons.mp hfits
      rw [walk_succ_cons]
      have ha : Assembles S (Assembly.fragment cfg budget) := by
        intro s' v' node hs' hv'
        refine (onFreshStack hs'.tidy fun s'' hs'' htree => ih _ s'' hs'' fun w hw => ?_).imp ?_
        · rw [List.mem_singleton.mp hw, htree]
          exact S.condition node hv'
        · rintro inner s'' ⟨ht, hlater, hstack, hvalues⟩
          refine ⟨⟨ht, fun id hid => ?_⟩, hlater, hvalues⟩
          rw [hstack] at hid
          exact S.value hlater (hs'.values id hid)
      refine Upkeep.bind (U.visit ha hs hv) fun next s' hs' hlater hnext => ?_
      refine ih _ s' hs' fun w hw => ?_
      rcases List.mem_append.mp hw with hw | hw
      · exact hnext w hw
      · exact S.fits hlater (hpending w hw)

/-- An assembly from one node on keeps the scheme. -/
theorem fragment (U : S.Upkeep cfg) (budget : Nat) {container : NodeId} {node : FlowRef}
    (ht : S.Tidy s.machine.tree) (hfits : S.Fits s.machine.tree { container, node }) :
    (fragment cfg budget container node).Meets s (fun inner s' => S.Tidy s'.machine.tree ∧
      S.Later s.machine.tree s'.machine.tree ∧ s'.machine.stack = s.machine.stack ∧
      ∀ id ∈ inner.items, S.Value s'.machine.tree id) Excused := by
  refine onFreshStack ht fun s' hs' htree => U.walk budget _ s' hs' fun w hw => ?_
  rw [List.mem_singleton.mp hw, htree]
  exact hfits

end Upkeep

end Scheme

end GmlLift
