import GmlLift.Proofs.Moves.Run

/-!
# Nothing leads out of range

A graph may refer to nodes that it does not have, and its code may be anything. Still, at every
moment of a run, every id in the tree, on every operand stack and in every pending visit is the id
of a node, and a run that stops has a tree or an error of the function for its result.
-/

namespace GmlLift

/-- Every id of a visit is in range. -/
structure Visit.InRange (t : Tree) (v : Visit) : Prop where
  container : t.Holds v.container
  loop : ∀ statement, v.loop = some statement → t.Holds statement
  openIf : ∀ arm, v.openIf = some arm → t.Holds arm.statement ∧ t.Holds arm.container

theorem Visit.Placed.inRange {t : Tree} {v : Visit} (h : v.Placed t) : v.InRange t where
  container := h.container.holds
  loop statement hs := (h.loop statement hs).holds
  openIf arm ha := by
    obtain ⟨hstatement, n, hn, -, -⟩ := h.openIf arm ha
    exact ⟨hstatement.holds, Tree.holds_of_get? hn⟩

namespace Moment

/-- **Every id that there is at a moment is in range.** -/
structure InRange (m : Moment) : Prop where
  /-- Children and owners. -/
  tree : m.tree.Closed
  stack : ∀ id ∈ m.assembly.machine.stack.items, m.tree.Holds id
  /-- What the conditions of a short circuit have given. -/
  operands : ∀ id ∈ m.task.operands, m.tree.Holds id
  /-- The stacks and operands of the short circuits that wait for a condition. -/
  waiting : ∀ w ∈ m.waiting, ∀ id, id ∈ w.stack.items ∨ id ∈ w.operands → m.tree.Holds id
  visits : ∀ v ∈ m.visits, v.InRange m.tree

variable {L : Licence} {cfg : Settings} {m : Moment}

theorem mem_aside {w : Waiting} {id : NodeId} (hw : w ∈ m.waiting) (hid : id ∈ w.held) :
    id ∈ m.aside := by
  unfold aside
  generalize m.waiting = waiting at hw
  induction waiting with
  | nil => cases hw
  | cons w' rest ih =>
    rw [List.map_cons, List.sum_cons, Multiset.mem_add]
    rcases List.mem_cons.mp hw with rfl | hw
    · exact Or.inl hid
    · exact Or.inr (ih hw)

theorem Reached.inRange (h : Reached L cfg m) : m.InRange := by
  obtain ⟨loose, hmoves, -⟩ := h.moves
  have hrange := hmoves.inRange_of_new
  have hheld : ∀ id ∈ m.held, m.tree.Holds id := hrange.held
  refine ⟨hrange.closed, fun id hid => hheld id ?_, fun id hid => hheld id ?_,
    fun w hw id hid => hheld id ?_, fun v hv => (h.placed v hv).inRange⟩
  · exact Multiset.mem_add.mpr (Or.inr (Multiset.mem_add.mpr (Or.inl hid)))
  · exact Multiset.mem_add.mpr (Or.inr (Multiset.mem_add.mpr (Or.inr hid)))
  · refine Multiset.mem_add.mpr (Or.inl (mem_aside hw ?_))
    exact Multiset.mem_add.mpr hid.symm

/-- A run that stops has nothing but an error of the function against it. -/
theorem Reached.result (h : Reached L cfg m) (quiet : cfg.verbosity = none)
    {r : Except Halt Unit} (htask : m.task = .stopped r) :
    r = .ok () ∨ ∃ e, r = .error (.error e) := by
  cases r with
  | ok _ => exact Or.inl rfl
  | error halt =>
    have hfair := h.fair quiet
    rw [htask] at hfair
    obtain ⟨e, rfl⟩ := hfair
    exact Or.inr ⟨e, rfl⟩

end Moment

/-- **No run refers to what is not there.** With nothing reported, whatever the graph: at every
moment every id is in range, and a run that stops does so with an answer or an error of the
function. Where lifting ends, it ends like its moments, with a tree or such an error. -/
theorem liftGraph_inRange {cfg : Settings} (quiet : cfg.verbosity = none) (g : FlowGraph) :
    (∀ n, (Moment.after cfg g n).InRange ∧ ∀ r, (Moment.after cfg g n).task = .stopped r →
      r = .ok () ∨ ∃ e, r = .error (.error e)) ∧
    ((liftGraph cfg).EndsOn g →
      ((∃ t, (liftGraph cfg g).result = .ok t) ∨
        ∃ e, (liftGraph cfg g).result = .error (.error e)) ∧
      ∃ n r, (Moment.after cfg g n).task = .stopped r ∧
        (liftGraph cfg g).result = r.map (fun _ => (Moment.after cfg g n).tree) ∧
        (liftGraph cfg g).state = (Moment.after cfg g n).assembly.graph) := by
  have hreached := Moment.reached_after cfg g
  refine ⟨fun n => ⟨(hreached n).inRange, fun r hr => (hreached n).result quiet hr⟩,
    fun hends => ?_⟩
  obtain ⟨n, r, htask, hresult, hstate⟩ := Moment.liftGraph_stops hends
  refine ⟨?_, n, r, htask, hresult, hstate⟩
  rcases (hreached n).result quiet htask with rfl | ⟨e, rfl⟩
  · exact Or.inl ⟨_, hresult⟩
  · exact Or.inr ⟨e, hresult⟩

/-- A short circuit inside the condition of another one, with a copy, and a branch out of the
graph. -/
theorem liftGraph_inRange_dangling :
    let one : Instruction := { opcode := .push, type1 := .int16, literal := some (.int16 1) }
    let g : FlowGraph := {
      nodes := #[
        { kind := .shortCircuit .and [⟨1⟩, ⟨2⟩], branches := [⟨3⟩] },
        { kind := .block { code := [one, { opcode := .dup }] } },
        { kind := .shortCircuit .or [⟨1⟩, ⟨1⟩] },
        { kind := .conditional {}, branches := [⟨7⟩, ⟨4⟩] },
        { kind := .block { code := [one, { opcode := .popz }] } }]
      entry := ⟨0⟩ }
    (∀ n, (Moment.after {} g n).InRange) ∧
      (liftGraph {} g).result = .error (.error (.unknownNode ⟨7⟩)) ∧
      ∃ n r, (Moment.after {} g n).task = .stopped r ∧
        (liftGraph {} g).result = r.map (fun _ => (Moment.after {} g n).tree) := by
  intro one g
  have quiet : Settings.verbosity {} = none := rfl
  obtain ⟨hmoments, hends⟩ := liftGraph_inRange quiet g
  have hresult : (liftGraph {} g).result = .error (.error (.unknownNode ⟨7⟩)) := by decide +kernel
  have hend : (liftGraph {}).EndsOn g := by
    unfold Action.EndsOn
    rw [hresult]
    exact nofun
  obtain ⟨-, n, r, htask, heq, -⟩ := hends hend
  exact ⟨fun n => (hmoments n).1, hresult, n, r, htask, heq⟩

end GmlLift
