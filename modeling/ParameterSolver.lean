import ParameterSolver.Blueprint.Basic
import ParameterSolver.Scalar.Machine
import ParameterSolver.Solve
import ParameterSolver.Proofs.Blueprint.Reachable
import ParameterSolver.Proofs.Draft.Edit
import ParameterSolver.Proofs.Draft.Redirect
import ParameterSolver.Proofs.Draft.Remove
import ParameterSolver.Proofs.Pass.Basic
import ParameterSolver.Proofs.Pass.Constraints
import ParameterSolver.Proofs.Pass.Expansions
import ParameterSolver.Proofs.Pass.Flattening
import ParameterSolver.Proofs.Pass.Nesting
import ParameterSolver.Proofs.Pass.Operators
import ParameterSolver.Proofs.Propagation.Evaluate
import ParameterSolver.Proofs.Propagation.Soundness
import ParameterSolver.Proofs.Solve.Equivalence
import ParameterSolver.Proofs.Graph.Cascade
import ParameterSolver.Proofs.Graph.Orderly
import ParameterSolver.Proofs.Propagation.Emptiness
import ParameterSolver.Proofs.Draft.Advances
import ParameterSolver.Proofs.Draft.Changes
import ParameterSolver.Proofs.Pass.Total
import ParameterSolver.Proofs.Pass.TotalLaws
import ParameterSolver.Proofs.Solve.Total
import ParameterSolver.Proofs.Graph.Order
import ParameterSolver.Proofs.Numbers.Settled
import ParameterSolver.Proofs.Pass.Idle
import ParameterSolver.Proofs.Propagation.Calculation
import ParameterSolver.Proofs.Solve.Ladder
import ParameterSolver.Proofs.Solve.Relaxation
import ParameterSolver.Proofs.Blueprint.Origins
import ParameterSolver.Proofs.Draft.Invariants
import ParameterSolver.Proofs.Draft.Rewrites
import ParameterSolver.Proofs.Numbers.Canonical
import ParameterSolver.Proofs.Numbers.Closure
import ParameterSolver.Proofs.Pass.Gentle
import ParameterSolver.Proofs.Pass.Inventories
import ParameterSolver.Proofs.Pass.Lawful
import ParameterSolver.Proofs.Pass.Tainted
import ParameterSolver.Proofs.Pass.Trimming
import ParameterSolver.Proofs.Pass.Weight
import ParameterSolver.Proofs.Solve.Convergence
import ParameterSolver.Proofs.Solve.Idempotence
import ParameterSolver.Proofs.Solve.Survival
import ParameterSolver.Proofs.Solve.Lineage
import ParameterSolver.Proofs.Numbers.Points
import ParameterSolver.Proofs.Draft.Calls
import ParameterSolver.Proofs.Draft.Clean
import ParameterSolver.Proofs.Draft.Removals
import ParameterSolver.Proofs.Graph.Release
import ParameterSolver.Proofs.Graph.Separate
import ParameterSolver.Proofs.Propagation.Contradictions
import ParameterSolver.Proofs.Draft.Congruence
import ParameterSolver.Proofs.Draft.Finality
import ParameterSolver.Proofs.Draft.Redirection
import ParameterSolver.Proofs.Propagation.Budgets
import ParameterSolver.Proofs.Propagation.Independence
import ParameterSolver.Proofs.Pass.Reproduction
import ParameterSolver.Proofs.Propagation.Enforcement
import ParameterSolver.Proofs.Pass.Enforcement
import ParameterSolver.Proofs.Blueprint.Inference
import ParameterSolver.Proofs.Solve.Enforcement
import ParameterSolver.Proofs.Numbers.Exactness
import ParameterSolver.Proofs.Continuum.Exponents
import ParameterSolver.Proofs.Solve.Warnings
import ParameterSolver.Proofs.Propagation.Commensurable
import ParameterSolver.Proofs.Continuum.Rounding
import ParameterSolver.Proofs.ValueSet.Operations
import ParameterSolver.Proofs.Propagation.BottomUp
import ParameterSolver.Proofs.Propagation.SetOperators
import ParameterSolver.Proofs.Pass.Encodings
import ParameterSolver.Proofs.Pass.Trees
import ParameterSolver.Proofs.Pass.Logic
import ParameterSolver.Proofs.Pass.Sets
import ParameterSolver.Proofs.Propagation.SetDesigns
import ParameterSolver.Proofs.Pass.Renditions
import ParameterSolver.Proofs.Pass.Weaving
import ParameterSolver.Proofs.Solve.SetDesigns
import ParameterSolver.Proofs.Continuum.Nearest
import ParameterSolver.Proofs.Continuum.Choice
import ParameterSolver.Proofs.Solve.Plainness
import ParameterSolver.Proofs.Continuum.Coarse
import ParameterSolver.Proofs.Pass.Reductions
import ParameterSolver.Proofs.ValueSet.Dimensions
import ParameterSolver.Proofs.Pass.Reduced
import ParameterSolver.Proofs.Pass.Coarsening
import ParameterSolver.Proofs.MeasureUnit.Exponents
import ParameterSolver.Proofs.Graph.Search
import ParameterSolver.Proofs.Solve.ParameterOrder
import ParameterSolver.Proofs.ShortName
