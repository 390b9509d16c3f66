import ParameterSolver.MeasureUnit.Algebra
import ParameterSolver.Numbers.Arithmetic

/-!
Sets of quantities. The numbers are kept in base units; the unit decides how they are written and
which sets can be combined. Two sets are equal when they hold the same base values of one dimension.
-/

namespace ParameterSolver

structure Quantities (α : Type) where
  /-- The values in base units. -/
  base : Numbers α
  unit : MeasureUnit α

namespace Quantities

variable {α : Type} [Scalar α]

instance : BEq (Quantities α) := ⟨fun a b => a.unit.commensurable b.unit && a.base == b.base⟩

/-- Values given in `unit`. -/
def ofUnits (values : Numbers α) (unit : MeasureUnit α) : Quantities α :=
  ⟨values.scale unit.scale, unit⟩

/-- Values without a dimension. -/
def plain (values : Numbers α) : Quantities α := ⟨values, .one⟩

def interval (lo hi : α) (unit : MeasureUnit α) : Quantities α := ofUnits (.closed lo hi) unit

def singleton (x : α) (unit : MeasureUnit α) : Quantities α := ofUnits (.singleton x) unit

def unbounded (unit : MeasureUnit α) : Quantities α := ⟨.unbounded, unit⟩

def empty (unit : MeasureUnit α) : Quantities α := ⟨.empty, unit⟩

/-- The values in the unit of the set. -/
def inUnits (q : Quantities α) : Numbers α := q.base.unscale q.unit.scale

def isEmpty (q : Quantities α) : Bool := q.base.isEmpty

/-- The only element, in base units. -/
def single? (q : Quantities α) : Option α := q.base.single?

def isDimensionless (q : Quantities α) : Bool := q.unit.isDimensionless

/-- Fails unless the two sets measure one dimension. -/
def requireSameDimension (a b : MeasureUnit α) : Except (SetError α) Unit :=
  if a.commensurable b then .ok () else .error (.unitMismatch a b)

def requireDimensionless (q : Quantities α) (operation : String) : Except (SetError α) Unit :=
  if q.isDimensionless then .ok () else .error (.notDimensionless operation q.unit)

/-- The same values in another unit of the dimension. -/
def withUnit (q : Quantities α) (unit : MeasureUnit α) : Except (SetError α) (Quantities α) := do
  requireSameDimension q.unit unit
  return ⟨q.base, unit⟩

/-- The base values as plain numbers. -/
def stripped (q : Quantities α) : Quantities α := plain q.base

/-- The same values in the base unit of the dimension. -/
def inBaseUnit (q : Quantities α) : Quantities α := ⟨q.base, q.unit.coherent⟩

/-- Where the set starts, in base units. -/
def min (q : Quantities α) : Except (SetError α) α :=
  match q.base.min? with
  | some x => .ok x
  | none => .error (.empty "minimum")

/-- Where the set stops, in base units. -/
def max (q : Quantities α) : Except (SetError α) α :=
  match q.base.max? with
  | some x => .ok x
  | none => .error (.empty "maximum")

/-- Combines the numbers of two sets of one dimension; the result has the unit of the first. -/
def combine (f : Numbers α → Numbers α → Numbers α) (a b : Quantities α) :
    Except (SetError α) (Quantities α) := do
  requireSameDimension a.unit b.unit
  return ⟨f a.base b.base, a.unit⟩

def union : Quantities α → Quantities α → Except (SetError α) (Quantities α) :=
  combine Numbers.union

def inter : Quantities α → Quantities α → Except (SetError α) (Quantities α) :=
  combine Numbers.inter

def diff : Quantities α → Quantities α → Except (SetError α) (Quantities α) :=
  combine Numbers.diff

def symmDiff : Quantities α → Quantities α → Except (SetError α) (Quantities α) :=
  combine Numbers.symmDiff

def isSubset (a b : Quantities α) : Except (SetError α) Bool := do
  requireSameDimension a.unit b.unit
  return a.base.isSubset b.base

def add : Quantities α → Quantities α → Except (SetError α) (Quantities α) :=
  combine Numbers.add

/-- Changes the numbers and keeps the unit. -/
def map (f : Numbers α → Numbers α) (q : Quantities α) : Quantities α := ⟨f q.base, q.unit⟩

def neg (q : Quantities α) : Quantities α := q.map Numbers.neg

def round (q : Quantities α) : Quantities α := q.map Numbers.round

def abs (q : Quantities α) : Quantities α := q.map Numbers.abs

def mul (a b : Quantities α) : Except (SetError α) (Quantities α) := do
  let unit ← a.unit.mul b.unit
  return ⟨a.base.mul b.base, unit.coherent⟩

def invert (q : Quantities α) : Except (SetError α) (Quantities α) := do
  let unit ← q.unit.power (-1)
  return ⟨q.base.invert, unit.coherent⟩

/-- Powers. The exponent has no dimension; a base that has one needs a single integer exponent, so
that the result has a unit. -/
def pow (q exponent : Quantities α) : Except (SetError α) (Quantities α) := do
  exponent.requireDimensionless "pow"
  let values := q.base.pow exponent.base
  if q.isDimensionless then return plain values
  match exponent.single?.bind fun x => (Scalar.toInt? x).filter fun n => n.natAbs ≤ 127 with
  | some n =>
    let unit ← q.unit.power n
    return ⟨values, unit.coherent⟩
  | none => throw (.notDimensionless "pow" q.unit)

def sin (q : Quantities α) : Except (SetError α) (Quantities α) := do
  q.requireDimensionless "sin"
  return plain q.base.sin

def ln (q : Quantities α) : Except (SetError α) (Quantities α) := do
  q.requireDimensionless "log"
  return plain q.base.ln

def text (q : Quantities α) : String :=
  if q.unit.isOne then q.base.text else q.inUnits.text ++ " " ++ q.unit.text

end Quantities

end ParameterSolver
