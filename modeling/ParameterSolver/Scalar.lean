/-!
The numbers the solver computes with.

Every set and every rule is written for an arbitrary number type with the operations below: a
field with an order, two infinities and a value that is no number. Machine numbers make it run;
exact numbers are what its laws are about.
-/

namespace ParameterSolver

class Scalar (α : Type) extends Add α, Sub α, Mul α, Div α, Neg α, LT α, LE α, BEq α where
  decLt : DecidableLT α
  decLe : DecidableLE α
  /-- The number nearest to `m * 10 ^ e`. -/
  ofDecimal (m e : Int) : α
  infinity : α
  halfPi : α
  tau : α
  floor : α → α
  ceil : α → α
  sin : α → α
  ln : α → α
  pow : α → α → α
  /-- The integer that the number is, if it is one. -/
  toInt? : α → Option Int
  /-- The number as it stands in texts for people. -/
  text : α → String
  /-- The number as it stands in dumps of a constant. -/
  dump : α → String

namespace Scalar

variable {α : Type} [Scalar α]

instance : DecidableLT α := decLt

instance : DecidableLE α := decLe

instance (priority := low) (n : Nat) : OfNat α n := ⟨ofDecimal n 0⟩

instance (priority := low) : OfScientific α :=
  ⟨fun m negative e => ofDecimal m (if negative then -(e : Int) else e)⟩

/-- The only value that differs from itself. -/
def isNaN (x : α) : Bool := !(x == x)

def isInfinite (x : α) : Bool := x == infinity || x == -infinity

def isFinite (x : α) : Bool := !(isNaN x) && !(isInfinite x)

/-- The order of two numbers; whatever is not ordered counts as equal. -/
def order (x y : α) : Ordering :=
  if x < y then .lt else if y < x then .gt else .eq

/-- The smaller number; a value that is no number yields to the other. -/
def lesser (x y : α) : α :=
  if isNaN x then y else if y < x then y else x

/-- The larger number; a value that is no number yields to the other. -/
def greater (x y : α) : α :=
  if isNaN x then y else if x < y then y else x

def magnitude (x : α) : α := if x < 0 then -x else x

/-- Computes `acc * x ^ n` by squaring. -/
def powNat (x : α) (n : Nat) (acc : α) : α :=
  let acc := if n % 2 == 1 then acc * x else acc
  if n / 2 = 0 then acc else powNat (x * x) (n / 2) acc
termination_by n

/-- Computes `x ^ n`; a negative power is the inverse of the positive one. -/
def powInt (x : α) (n : Int) : α :=
  let r := powNat x n.natAbs 1
  if n < 0 then 1 / r else r

/-- Rounds to the nearest integer, halves upwards. -/
def roundHalfUp (x : α) : α := floor (x + 0.5)

end Scalar

end ParameterSolver
