import ParameterSolver.Analysis
import ParameterSolver.Pass.Assertions
import ParameterSolver.Pass.Domains
import ParameterSolver.Pass.Leaves
import ParameterSolver.Pass.Nesting
import ParameterSolver.Pass.Operators

/-!
A solve runs all passes in rounds until a whole round changes nothing. Each pass that changes
something publishes a generation.
-/

namespace ParameterSolver

variable {α : Type} [Scalar α]

/-- The passes in the order they run. -/
def Pass.pipeline : List (Pass α) :=
  [.domains, .assertions, .leaves, .operators, .nesting]

/-- A solve under way. -/
structure Progress (α : Type) where
  current : Generation α
  /-- The generations before the current one, latest first. -/
  earlier : List (Generation α)
  /-- The steps between the generations, latest first. -/
  steps : List (NodeMap NodeId)
  journal : Journal

namespace Progress

def source : String := "ohmcore::solver"

/-- Runs one pass; also says whether it published a generation. -/
def runPass (deduplicate : Bool) (p : Progress α) (pass : Pass α) :
    Except (SolveError α) (Progress α × Bool) := do
  let (revision, journal) ← pass.apply deduplicate p.journal p.current
  if !revision.dirty then return ({ p with journal }, false)
  let next := revision.generation
  next.validate
  let journal := journal.add .debug source
    (pass.name ++ " produced generation " ++ toString next.index ++ " (" ++ toString next.size
      ++ " nodes)")
  return (⟨next, p.current :: p.earlier, revision.mapping :: p.steps, journal⟩, true)

/-- Runs all passes; also says whether one of them published a generation. -/
def runRound (deduplicate : Bool) (p : Progress α) :
    Except (SolveError α) (Progress α × Bool) :=
  Pass.pipeline.foldlM (fun (p, dirty) pass => do
    let (p, published) ← p.runPass deduplicate pass
    return (p, dirty || published)) (p, false)

/-- Runs up to `budget` more rounds after the first `rounds`. -/
def runRounds (deduplicate : Bool) : Nat → Nat → Progress α →
    Except (SolveError α) (Progress α × Nat)
  | 0, rounds, _ => throw (.budgetExceeded rounds)
  | budget + 1, rounds, p => do
    let (p, dirty) ← p.runRound deduplicate
    if dirty then runRounds deduplicate budget (rounds + 1) p else return (p, rounds + 1)

end Progress

/-- A finished solve. -/
structure Solution (α : Type) where
  /-- All generations, the input first. -/
  generations : List (Generation α)
  /-- The generation that holds only operators of the basis. -/
  last : Generation α
  /-- The steps between the generations, in order. -/
  mappings : List (NodeMap NodeId)
  journal : Journal
  rounds : Nat
  maxSweeps : Nat

namespace Solution

/-- What has become of a node of the first generation. -/
def resolve? (s : Solution α) (id : NodeId) : Option NodeId := resolveThrough? s.mappings id

def analysis (s : Solution α) : Analysis α := .ofSteps s.last s.maxSweeps s.mappings

end Solution

/-- Brings a graph into canonical form. -/
def solve (config : Config) (g : Generation α) : Except (SolveError α) (Solution α) := do
  g.validate
  let (p, rounds) ← Progress.runRounds config.deduplicate config.maxRounds 0 ⟨g, [], [], .empty⟩
  if let some (node, op) := p.current.firstNonCanonical? then
    throw (.notCanonical p.current.index node op)
  let generations := (p.current :: p.earlier).reverse
  let journal := p.journal.add .info Progress.source
    ("canonical after " ++ toString rounds ++ " rounds and " ++ toString generations.length
      ++ " generations")
  return ⟨generations, p.current, p.steps.reverse, journal, rounds, config.maxSweeps⟩

end ParameterSolver
