import ParameterSolver.Draft.Create

/-!
A pass reads one generation and drafts the next.
-/

namespace ParameterSolver

structure Pass (α : Type) where
  name : String
  run : Edit α Unit

namespace Pass

variable {α : Type} [Scalar α]

/-- Runs a pass on a generation. The journal is continued. -/
def apply (p : Pass α) (deduplicate : Bool) (journal : Journal) (g : Generation α) :
    Except (SolveError α) (Revision α × Journal) :=
  let edit : Edit α (Revision α) := do
    p.run
    Draft.close
  match edit.run (.start g deduplicate journal) with
  | (.ok revision, d) => .ok (revision, d.journal)
  | (.error e, _) => .error e

end Pass

end ParameterSolver
