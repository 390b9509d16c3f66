import ParameterSolver.Config.Document

/-!
The settings of a solve.
-/

namespace ParameterSolver

structure Config where
  /-- Rounds of all passes before a solve is given up. -/
  maxRounds : Nat := 32
  /-- Sweeps in search of the values of all nodes. -/
  maxSweeps : Nat := 64
  /-- Whether a pass reuses an expression that it has created before. -/
  deduplicate : Bool := false
deriving DecidableEq, Repr

namespace Config

/-- A count fits into 64 bits. -/
def count? (n : Int) : Option Nat :=
  if 0 ≤ n && n.toNat < UInt64.size then some n.toNat else none

/-- One setting; there are no other keys. -/
def set? (c : Config) : String × Setting → Option Config
  | ("max_rounds", .integer n) => (count? n).map fun k => { c with maxRounds := k }
  | ("max_propagation_rounds", .integer n) => (count? n).map fun k => { c with maxSweeps := k }
  | ("deduplicate", .boolean b) => some { c with deduplicate := b }
  | _ => none

/-- Reads a configuration. What is not set has its default; no key is set twice. -/
def read? (text : String) : Option Config := do
  let l ← settings? text
  if (l.map (·.1)).Nodup then l.foldlM set? {} else none

end Config

end ParameterSolver
