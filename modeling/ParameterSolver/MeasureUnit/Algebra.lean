import ParameterSolver.SetError

/-!
Products, quotients and powers of units. They exist when every exponent of the result is in range,
and then have exactly those exponents.
-/

namespace ParameterSolver.MeasureUnit

variable {α : Type} [Scalar α]

/-- A unit with the given exponents and scale that comes from `u`. -/
def derive (u : MeasureUnit α) (exponents : Exponents) (scale : α) :
    Except (SetError α) (MeasureUnit α) :=
  if exponents.inRange then .ok ⟨exponents, scale, .none⟩ else .error (.exponentOverflow u)

/-- The unit `u * v ^ sign`. -/
def combine (u v : MeasureUnit α) (sign : Int) : Except (SetError α) (MeasureUnit α) :=
  u.derive (.ofFn fun d => u.exponents.get d + sign * v.exponents.get d)
    (u.scale * Scalar.powInt v.scale sign)

def mul (u v : MeasureUnit α) : Except (SetError α) (MeasureUnit α) := u.combine v 1

def div (u v : MeasureUnit α) : Except (SetError α) (MeasureUnit α) := u.combine v (-1)

/-- The first power is the unit itself, with its symbol. -/
def power (u : MeasureUnit α) (n : Int) : Except (SetError α) (MeasureUnit α) :=
  if n = 1 then .ok u
  else u.derive (.ofFn fun d => u.exponents.get d * n) (Scalar.powInt u.scale n)

end ParameterSolver.MeasureUnit
