import ParameterSolver.Interval.Basic

/-!
Images of intervals under arithmetic: what a function takes its values in when its arguments range
over given intervals. A function that is not defined everywhere gives a list of pieces.
-/

namespace ParameterSolver.Interval

variable {α : Type} [Scalar α]

def add? (i j : Interval α) : Option (Interval α) :=
  ofBounds? ⟨i.lo.value + j.lo.value, i.lo.closed && j.lo.closed⟩
    ⟨i.hi.value + j.hi.value, i.hi.closed && j.hi.closed⟩

def neg (i : Interval α) : Interval α := ⟨i.hi.neg, i.lo.neg⟩

/-- The interval between the extreme ones of four corners. -/
def ofCorners? (a b c d : Bound α) : Option (Interval α) :=
  ofBounds? (((a.lowest b).lowest c).lowest d) (((a.highest b).highest c).highest d)

/-- The product of two ends. A factor zero makes it zero whatever the other is, and closed if that
factor is. -/
def mulCorner (a b : Bound α) : Bound α :=
  let aZero := a.value == 0
  let bZero := b.value == 0
  Bound.normalized
    ⟨if aZero || bZero then 0 else a.value * b.value,
      (aZero && a.closed) || (bZero && b.closed) || (a.closed && b.closed)⟩

def mul? (i j : Interval α) : Option (Interval α) :=
  ofCorners? (mulCorner i.lo j.lo) (mulCorner i.lo j.hi) (mulCorner i.hi j.lo)
    (mulCorner i.hi j.hi)

/-- The inverse at an end other than zero; at infinity it comes near zero without reaching it. -/
def invertBound (b : Bound α) : Bound α :=
  if Scalar.isInfinite b.value then ⟨0, false⟩ else ⟨1 / b.value, b.closed⟩

/-- The inverses of the elements other than zero: up to two pieces. -/
def invert (i : Interval α) : List (Interval α) :=
  let negative := ofBounds? ⟨-Scalar.infinity, false⟩ (invertBound i.lo)
  let positive := ofBounds? (invertBound i.hi) ⟨Scalar.infinity, false⟩
  if i.lo.value == 0 && i.hi.value == 0 then []
  else if i.lo.value < 0 && 0 < i.hi.value then negative.toList ++ positive.toList
  else if i.hi.value == 0 then negative.toList
  else if i.lo.value == 0 then positive.toList
  else (ofBounds? (invertBound i.hi) (invertBound i.lo)).toList

def raise (b : Bound α) (n : Nat) : Bound α := ⟨Scalar.powInt b.value n, b.closed⟩

/-- The powers `x ^ n` for a positive `n`. -/
def powPositive? (i : Interval α) (n : Nat) : Option (Interval α) :=
  if n % 2 == 1 || 0 ≤ i.lo.value then ofBounds? (raise i.lo n) (raise i.hi n)
  else if i.hi.value ≤ 0 then ofBounds? (raise i.hi n) (raise i.lo n)
  else ofBounds? ⟨0, true⟩ ((raise i.lo n).highest (raise i.hi n))

/-- The powers `x ^ n` for an integer `n`, with `x ≠ 0` when it is negative. -/
def powInt (i : Interval α) (n : Int) : List (Interval α) :=
  if n = 0 then (singleton? 1).toList
  else
    let pieces := (i.powPositive? n.natAbs).toList
    if n < 0 then pieces.flatMap invert else pieces

def powCorner (b e : Bound α) : Bound α :=
  Bound.normalized ⟨Scalar.pow b.value e.value, b.closed && e.closed⟩

/-- The powers `x ^ y`. For an exponent that is no single integer only the part of the base
without a sign counts. -/
def pow (i exponent : Interval α) : List (Interval α) :=
  match exponent.integer? with
  | some n => i.powInt n
  | none =>
    match (atLeast? 0).bind i.inter? with
    | none => []
    | some base =>
      (ofCorners? (powCorner base.lo exponent.lo) (powCorner base.lo exponent.hi)
        (powCorner base.hi exponent.lo) (powCorner base.hi exponent.hi)).toList

/-- The least and the greatest integer that an element rounds to; an infinite end stays. -/
def roundRange? (i : Interval α) : Option (α × α) :=
  let lo := Scalar.roundHalfUp i.lo.value
  let hi := Scalar.roundHalfUp i.hi.value
  let unreached := !i.hi.closed && Scalar.isFinite i.hi.value
    && (Scalar.toInt? (i.hi.value + 0.5)).isSome
  let hi := if unreached then hi - 1 else hi
  if lo ≤ hi then some (lo, hi) else none

def abs (i : Interval α) : Interval α :=
  if 0 ≤ i.lo.value then i
  else if i.hi.value ≤ 0 then i.neg
  else ⟨⟨0, true⟩, i.hi.highest i.lo.neg⟩

/-- The points `phase + k * tau` reach the interval, finite and starting at `lo`. -/
def reaches (i : Interval α) (phase : α) : Bool :=
  phase + Scalar.ceil ((i.lo.value - phase) / Scalar.tau) * Scalar.tau ≤ i.hi.value

/-- The sines of the elements; all of `[-1, 1]` from a whole turn on. -/
def sin (i : Interval α) : Interval α :=
  if !i.isFinite || Scalar.tau ≤ i.hi.value - i.lo.value then ⟨⟨-1, true⟩, ⟨1, true⟩⟩
  else
    let a := Scalar.sin i.lo.value
    let b := Scalar.sin i.hi.value
    ⟨⟨if i.reaches (-Scalar.halfPi) then -1 else Scalar.lesser a b, true⟩,
      ⟨if i.reaches Scalar.halfPi then 1 else Scalar.greater a b, true⟩⟩

/-- The logarithms of the positive elements. -/
def ln? (i : Interval α) : Option (Interval α) :=
  if i.hi.value ≤ 0 then none
  else
    ofBounds?
      (if i.lo.value ≤ 0 then ⟨-Scalar.infinity, false⟩
        else ⟨Scalar.ln i.lo.value, i.lo.closed⟩)
      ⟨Scalar.ln i.hi.value, i.hi.closed⟩

end ParameterSolver.Interval
