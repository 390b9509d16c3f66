import ParameterSolver.Interval.Bound

/-!
Intervals of numbers. Each end is open or closed, an infinite end is open, and no interval is
empty: what would be empty is not built.
-/

namespace ParameterSolver

structure Interval (α : Type) where
  lo : Bound α
  hi : Bound α
deriving BEq

namespace Interval

variable {α : Type} [Scalar α]

/-- The interval between two ends, unless it is empty. -/
def ofBounds? (lo hi : Bound α) : Option (Interval α) :=
  let lo := lo.normalized
  let hi := hi.normalized
  if Scalar.isNaN lo.value || Scalar.isNaN hi.value then none
  else if lo.value == Scalar.infinity || hi.value == -Scalar.infinity then none
  else
    match Scalar.order lo.value hi.value with
    | .lt => some ⟨lo, hi⟩
    | .eq => if lo.closed && hi.closed then some ⟨lo, hi⟩ else none
    | .gt => none

def closed? (lo hi : α) : Option (Interval α) := ofBounds? ⟨lo, true⟩ ⟨hi, true⟩

def open? (lo hi : α) : Option (Interval α) := ofBounds? ⟨lo, false⟩ ⟨hi, false⟩

def singleton? (x : α) : Option (Interval α) := closed? x x

def atLeast? (x : α) : Option (Interval α) := ofBounds? ⟨x, true⟩ ⟨Scalar.infinity, false⟩

def atMost? (x : α) : Option (Interval α) := ofBounds? ⟨-Scalar.infinity, false⟩ ⟨x, true⟩

/-- The whole line. -/
def unbounded : Interval α := ⟨⟨-Scalar.infinity, false⟩, ⟨Scalar.infinity, false⟩⟩

def isSingleton (i : Interval α) : Bool := i.lo.value == i.hi.value

def isFinite (i : Interval α) : Bool :=
  Scalar.isFinite i.lo.value && Scalar.isFinite i.hi.value

def isUnbounded (i : Interval α) : Bool :=
  i.lo.value == -Scalar.infinity && i.hi.value == Scalar.infinity

/-- The only element, if it is an integer of magnitude below `2 ^ 31 - 1`. -/
def integer? (i : Interval α) : Option Int :=
  if i.isSingleton then (Scalar.toInt? i.lo.value).filter fun n => n.natAbs < 2147483647 else none

def contains (i : Interval α) (x : α) : Bool :=
  (i.lo.value < x || (x == i.lo.value && i.lo.closed))
    && (x < i.hi.value || (x == i.hi.value && i.hi.closed))

instance : Membership α (Interval α) := ⟨fun i x => i.contains x⟩

instance (x : α) (i : Interval α) : Decidable (x ∈ i) := inferInstanceAs (Decidable (i.contains x))

def isSubset (i j : Interval α) : Bool :=
  Bound.lowerOrder j.lo i.lo != .gt && Bound.upperOrder j.hi i.hi != .lt

def inter? (i j : Interval α) : Option (Interval α) :=
  ofBounds? (if Bound.lowerOrder i.lo j.lo = .lt then j.lo else i.lo)
    (if Bound.upperOrder i.hi j.hi = .gt then j.hi else i.hi)

/-- Two intervals of which `j` does not start first make one interval together. -/
def touches (i j : Interval α) : Bool :=
  match Scalar.order j.lo.value i.hi.value with
  | .lt => true
  | .eq => i.hi.closed || j.lo.closed
  | .gt => false

/-- The smallest interval that holds both. -/
def hull (i j : Interval α) : Interval α := ⟨Bound.lowest i.lo j.lo, Bound.highest i.hi j.hi⟩

def text (i : Interval α) : String :=
  if i.isSingleton then "\x7b" ++ Scalar.text i.lo.value ++ "\x7d"
  else
    (if i.lo.closed then "[" else "(") ++ Scalar.text i.lo.value ++ ", "
      ++ Scalar.text i.hi.value ++ (if i.hi.closed then "]" else ")")

end Interval

end ParameterSolver
