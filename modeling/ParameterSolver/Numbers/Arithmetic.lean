import ParameterSolver.Interval.Arithmetic
import ParameterSolver.Numbers.Basic

/-!
Images of sets of numbers under arithmetic, interval by interval. With too many pairs of intervals
the two hulls stand for the sets, and a range with too many integers is rounded to an interval: the
result is then larger than the image, never smaller.
-/

namespace ParameterSolver.Numbers

variable {α : Type} [Scalar α]

/-- The most pairs of intervals that are combined one by one. -/
def maxPairs : Nat := 64

/-- The image under a function that is applied to both ends. -/
def mapEnds (f : α → α) (s : Numbers α) : Numbers α :=
  ofIntervals <| s.intervals.filterMap fun i =>
    Interval.ofBounds? ⟨f i.lo.value, i.lo.closed⟩ ⟨f i.hi.value, i.hi.closed⟩

/-- Multiplies by a positive number. -/
def scale (s : Numbers α) (factor : α) : Numbers α :=
  if factor == 1 then s else s.mapEnds (· * factor)

/-- Divides by a positive number. -/
def unscale (s : Numbers α) (divisor : α) : Numbers α :=
  if divisor == 1 then s else s.mapEnds (· / divisor)

/-- The image of all pairs of intervals. -/
def pairwise (f : Interval α → Interval α → List (Interval α)) (s t : Numbers α) : Numbers α :=
  if s.intervals.length * t.intervals.length ≤ maxPairs then
    ofIntervals (s.intervals.flatMap fun i => t.intervals.flatMap (f i))
  else
    match s.hull?, t.hull? with
    | some i, some j => ofIntervals (f i j)
    | _, _ => empty

def map (f : Interval α → List (Interval α)) (s : Numbers α) : Numbers α :=
  ofIntervals (s.intervals.flatMap f)

def add (s t : Numbers α) : Numbers α := pairwise (fun i j => (i.add? j).toList) s t

def neg (s : Numbers α) : Numbers α := s.map fun i => [i.neg]

def sub (s t : Numbers α) : Numbers α := s.add t.neg

def mul (s t : Numbers α) : Numbers α := pairwise (fun i j => (i.mul? j).toList) s t

def invert (s : Numbers α) : Numbers α := s.map Interval.invert

def div (s t : Numbers α) : Numbers α := s.mul t.invert

def pow (s exponents : Numbers α) : Numbers α := pairwise Interval.pow s exponents

/-- The integers that the elements of an interval round to, one by one if there are at most 64 of
them. -/
def roundInterval (i : Interval α) : List (Interval α) :=
  match i.roundRange? with
  | none => []
  | some (lo, hi) =>
    if Scalar.isFinite lo && Scalar.isFinite hi && hi - lo < 64 then
      let last := ((Scalar.toInt? (hi - lo)).getD 0).toNat
      (List.range (last + 1)).filterMap fun k : Nat =>
        Interval.singleton? (lo + Scalar.ofDecimal k 0)
    else (Interval.closed? lo hi).toList

def round (s : Numbers α) : Numbers α := s.map roundInterval

def abs (s : Numbers α) : Numbers α := s.map fun i => [i.abs]

def sin (s : Numbers α) : Numbers α := s.map fun i => [i.sin]

def ln (s : Numbers α) : Numbers α := s.map fun i => i.ln?.toList

end ParameterSolver.Numbers
