import ParameterSolver.Interval.Basic

/-!
Sets of numbers: increasing lists of intervals with a gap between each and the next. `ofIntervals`
brings any list of intervals into that form, and the set operations go through it.
-/

namespace ParameterSolver

structure Numbers (α : Type) where
  intervals : List (Interval α)
deriving BEq

namespace Numbers

variable {α : Type} [Scalar α]

/-- Joins each interval with those after it that it touches, in a list ordered by where the
intervals start. -/
def merge (current : Interval α) : List (Interval α) → List (Interval α)
  | [] => [current]
  | next :: rest =>
    if current.touches next then merge (current.hull next) rest else current :: merge next rest

def startsBefore (i j : Interval α) : Bool := Bound.lowerOrder i.lo j.lo != .gt

/-- The set of the elements of some intervals. -/
def ofIntervals (l : List (Interval α)) : Numbers α :=
  match l.mergeSort startsBefore with
  | [] => ⟨[]⟩
  | first :: rest => ⟨merge first rest⟩

def ofInterval? (i : Option (Interval α)) : Numbers α := ⟨i.toList⟩

def empty : Numbers α := ⟨[]⟩

def unbounded : Numbers α := ⟨[.unbounded]⟩

def closed (lo hi : α) : Numbers α := ofInterval? (Interval.closed? lo hi)

def singleton (x : α) : Numbers α := ofInterval? (Interval.singleton? x)

def atLeast (x : α) : Numbers α := ofInterval? (Interval.atLeast? x)

def atMost (x : α) : Numbers α := ofInterval? (Interval.atMost? x)

def isEmpty (s : Numbers α) : Bool := s.intervals.isEmpty

def isUnbounded (s : Numbers α) : Bool :=
  match s.intervals with
  | [i] => i.isUnbounded
  | _ => false

/-- The only element. -/
def single? (s : Numbers α) : Option α :=
  match s.intervals with
  | [i] => if i.isSingleton then some i.lo.value else none
  | _ => none

def isSingleton (s : Numbers α) : Bool := s.single?.isSome

/-- Where the set starts. -/
def min? (s : Numbers α) : Option α := s.intervals.head?.map (·.lo.value)

/-- Where the set stops. -/
def max? (s : Numbers α) : Option α := s.intervals.getLast?.map (·.hi.value)

/-- The smallest interval that holds the set. -/
def hull? (s : Numbers α) : Option (Interval α) :=
  s.intervals.head?.bind fun first => s.intervals.getLast?.map fun last => first.hull last

def contains (s : Numbers α) (x : α) : Bool := s.intervals.any (·.contains x)

instance : Membership α (Numbers α) := ⟨fun s x => s.contains x⟩

instance (x : α) (s : Numbers α) : Decidable (x ∈ s) := inferInstanceAs (Decidable (s.contains x))

/-- The point of an interval, or of its ends, that is nearest to `x`. -/
def nearestIn (x : α) (i : Interval α) : α :=
  if i.contains x then x else if x < i.lo.value then i.lo.value else i.hi.value

/-- Of two points the one nearer to `x`, the first if they are equally near. -/
def nearer (x a b : α) : α :=
  if Scalar.magnitude (b - x) < Scalar.magnitude (a - x) then b else a

/-- The point of the set, or of the ends of its intervals, that is nearest to `x`. -/
def nearest? (s : Numbers α) (x : α) : Option α :=
  match s.intervals.map (nearestIn x) with
  | [] => none
  | first :: rest => some (rest.foldl (nearer x) first)

def union (s t : Numbers α) : Numbers α := ofIntervals (s.intervals ++ t.intervals)

/-- The common parts of two increasing lists of intervals. -/
def overlaps : List (Interval α) → List (Interval α) → List (Interval α)
  | [], _ => []
  | _, [] => []
  | i :: is, j :: js =>
    (i.inter? j).toList ++
      if Bound.upperOrder i.hi j.hi = .lt then overlaps is (j :: js) else overlaps (i :: is) js
termination_by is js => is.length + js.length

def inter (s t : Numbers α) : Numbers α := ofIntervals (overlaps s.intervals t.intervals)

/-- The gaps between increasing intervals, from `start` on. -/
def gaps (start : Bound α) : List (Interval α) → List (Interval α)
  | [] => (Interval.ofBounds? start ⟨Scalar.infinity, false⟩).toList
  | i :: rest => (Interval.ofBounds? start i.lo.flipped).toList ++ gaps i.hi.flipped rest

def compl (s : Numbers α) : Numbers α :=
  ofIntervals (gaps ⟨-Scalar.infinity, false⟩ s.intervals)

def diff (s t : Numbers α) : Numbers α := s.inter t.compl

def symmDiff (s t : Numbers α) : Numbers α := (s.diff t).union (t.diff s)

def isSubset (s t : Numbers α) : Bool :=
  s.intervals.all fun i => t.intervals.any fun j => i.isSubset j

def isDisjoint (s t : Numbers α) : Bool := (s.inter t).isEmpty

def text (s : Numbers α) : String :=
  if s.isEmpty then "∅" else " ∪ ".intercalate (s.intervals.map Interval.text)

end Numbers

end ParameterSolver
