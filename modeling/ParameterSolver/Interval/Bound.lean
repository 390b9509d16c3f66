import ParameterSolver.Scalar

/-!
One end of an interval: a number that belongs to the interval (closed) or does not (open).
-/

namespace ParameterSolver

structure Bound (α : Type) where
  value : α
  closed : Bool
deriving BEq

namespace Bound

variable {α : Type} [Scalar α]

/-- The same end, open if it is infinite. -/
def normalized (b : Bound α) : Bound α :=
  if Scalar.isInfinite b.value then ⟨b.value, false⟩ else b

/-- The end of the other side of the same point. -/
def flipped (b : Bound α) : Bound α := ⟨b.value, !b.closed⟩

def neg (b : Bound α) : Bound α := ⟨-b.value, b.closed⟩

/-- Where lower ends start: of two ends at one value the closed one starts first. -/
def lowerOrder (a b : Bound α) : Ordering :=
  (Scalar.order a.value b.value).then (compare b.closed a.closed)

/-- Where upper ends stop: of two ends at one value the closed one stops last. -/
def upperOrder (a b : Bound α) : Ordering :=
  (Scalar.order a.value b.value).then (compare a.closed b.closed)

/-- The lower end that starts first, the earlier one of two that start together. -/
def lowest (a b : Bound α) : Bound α := if lowerOrder b a = .lt then b else a

/-- The upper end that stops last, the earlier one of two that stop together. -/
def highest (a b : Bound α) : Bound α := if upperOrder b a = .gt then b else a

end Bound

end ParameterSolver
