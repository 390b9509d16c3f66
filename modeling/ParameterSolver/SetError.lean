import ParameterSolver.MeasureUnit.Basic

/-!
Why an operation on sets of values can fail.
-/

namespace ParameterSolver

/-- The kinds of values a set can hold. -/
inductive Kind where
  | numeric
  | boolean
  | enum
  | text
deriving DecidableEq, Repr

def Kind.name : Kind → String
  | numeric => "Numeric"
  | boolean => "Boolean"
  | enum => "Enum"
  | text => "Text"

inductive SetError (α : Type) where
  /-- Two numeric sets measure different dimensions. -/
  | unitMismatch (left right : MeasureUnit α)
  /-- Sets of different kinds of values cannot be combined. -/
  | kindMismatch (left right : Kind)
  /-- An element was asked of a set that has none. -/
  | empty (what : String)
  /-- Two sets belong to different enumerations, or a name is no member of one. -/
  | enumMismatch (left right : String)
  /-- The operation needs a number without a dimension. -/
  | notDimensionless (operation : String) (unit : MeasureUnit α)
  /-- A product or power of units has an exponent out of range. -/
  | exponentOverflow (unit : MeasureUnit α)

def SetError.message {α : Type} [Scalar α] : SetError α → String
  | unitMismatch left right =>
    "Cannot combine quantities in `" ++ left.text ++ "` and `" ++ right.text
      ++ "`: the units are not commensurable."
  | kindMismatch left right =>
    "Set operations between a `" ++ left.name ++ "` literal and a `" ++ right.name
      ++ "` literal are undefined."
  | empty what => "Cannot take the " ++ what ++ " of an empty set."
  | enumMismatch left right =>
    "Enum set over `" ++ left ++ "` cannot be combined with enum set over `" ++ right ++ "`."
  | notDimensionless operation unit =>
    "Operation `" ++ operation ++ "` requires a dimensionless operand, got a quantity in `"
      ++ unit.text ++ "`."
  | exponentOverflow unit =>
    "Dimension exponents of `" ++ unit.text ++ "` overflow in this product or power."

end ParameterSolver
