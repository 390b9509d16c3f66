import ParameterSolver.Graph.NodeMap
import ParameterSolver.Operator
import ParameterSolver.ValueSet.Basic

/-!
The nodes of a graph: unknown parameters, sets of values, constants that are not sets yet, and
expressions over other nodes.
-/

namespace ParameterSolver

variable {α : Type} [Scalar α]

/-- What a parameter ranges over. -/
inductive Domain where
  | numbers (negative zero integer : Bool)
  | boolean
  | enum (e : Enumeration)
  | text
deriving DecidableEq

namespace Domain

def real : Domain := numbers true true false

def nonNegative : Domain := numbers false true false

def positive : Domain := numbers false false false

def integer : Domain := numbers true true true

def isNumbers : Domain → Bool
  | numbers .. => true
  | _ => false

/-- All values of the domain; integers are not told from other numbers. -/
def values (unit : MeasureUnit α) : Domain → ValueSet α
  | numbers true _ _ => .numeric ⟨.unbounded, unit⟩
  | numbers false true _ => .numeric ⟨.atLeast 0, unit⟩
  | numbers false false _ =>
    .numeric ⟨.ofInterval? (Interval.ofBounds? ⟨0, false⟩ ⟨Scalar.infinity, false⟩), unit⟩
  | boolean => .boolean .all
  | enum e => .enum e.full
  | text => .text .any

/-- What has to be asserted of a parameter for it to stay in its domain. -/
def restriction? (d : Domain) (unit : MeasureUnit α) : Option (ValueSet α) :=
  match d with
  | numbers false _ _ => some (d.values unit)
  | _ => none

end Domain

structure Parameter (α : Type) where
  name : Option String := none
  domain : Domain
  unit : MeasureUnit α
  /-- The declared unit, once the values have been stripped of it. -/
  sourceUnit : Option (MeasureUnit α) := none
  /-- A set the value has to lie in. -/
  within : Option (ValueSet α) := none
  /-- A set the value should lie in. -/
  soft : Option (ValueSet α) := none
  /-- A set the value is expected in. -/
  guess : Option (ValueSet α) := none
  /-- Some assertion restricts the parameter. -/
  constrained : Bool := false
  /-- A single value is expected of it. -/
  mustResolve : Bool := false
  /-- Its domain has been asserted. -/
  domainApplied : Bool := false

namespace Parameter

instance : BEq (Parameter α) where
  beq p q :=
    p.name == q.name && p.domain == q.domain && p.unit == q.unit && p.sourceUnit == q.sourceUnit
      && p.within == q.within && p.soft == q.soft && p.guess == q.guess
      && p.constrained == q.constrained && p.mustResolve == q.mustResolve
      && p.domainApplied == q.domainApplied

/-- An unrestricted number without a dimension. -/
def real : Parameter α := { domain := .real, unit := .one }

def withName (p : Parameter α) (name : String) : Parameter α := { p with name := some name }

def withBound (p : Parameter α) (s : ValueSet α) : Parameter α :=
  { p with within := some s, constrained := true }

def withSoft (p : Parameter α) (s : ValueSet α) : Parameter α := { p with soft := some s }

def withGuess (p : Parameter α) (s : ValueSet α) : Parameter α := { p with guess := some s }

def requireResolved (p : Parameter α) : Parameter α := { p with mustResolve := true }

/-- The unit that values are written in. -/
def displayUnit (p : Parameter α) : MeasureUnit α := p.sourceUnit.getD p.unit

def values (p : Parameter α) : ValueSet α := p.domain.values p.unit

def flagNames (p : Parameter α) : List String :=
  (if p.constrained then ["CONSTRAINED"] else [])
    ++ (if p.mustResolve then ["MUST_RESOLVE"] else [])
    ++ (if p.domainApplied then ["DOMAIN_APPLIED"] else [])

end Parameter

/-- A constant as it was declared. -/
inductive Constant (α : Type) where
  | number (value : α) (unit : MeasureUnit α)
  | range (lo hi : α) (unit : MeasureUnit α)
  | bool (b : Bool)
  | member (e : Enumeration) (member : String)
  | text (s : String)

namespace Constant

/-- The set that a constant stands for. -/
def toSet : Constant α → Except (SetError α) (ValueSet α)
  | number value unit => .ok (.quantity value unit)
  | range lo hi unit => .ok (.interval lo hi unit)
  | bool b => .ok (.truth b)
  | member e m => .enum <$> e.choose [m]
  | text s => .ok (.text (.ofList [s]))

/-- The constant with all its fields. -/
def dump : Constant α → String
  | number value unit =>
    "Number \x7b value: " ++ Scalar.dump value ++ ", unit: " ++ unit.dump ++ " \x7d"
  | range lo hi unit =>
    "Range \x7b lo: " ++ Scalar.dump lo ++ ", hi: " ++ Scalar.dump hi ++ ", unit: " ++ unit.dump
      ++ " \x7d"
  | bool b => "Bool(" ++ (if b then "true" else "false") ++ ")"
  | member e m =>
    "EnumMember \x7b domain: " ++ e.dump ++ ", member: " ++ Text.quoted m ++ " \x7d"
  | text s => "Text(" ++ Text.quoted s ++ ")"

end Constant

structure Expression where
  op : Operator
  operands : List NodeId
  /-- It has to hold. -/
  asserted : Bool
deriving DecidableEq

inductive Node (α : Type) where
  | parameter (p : Parameter α)
  | expression (e : Expression)
  /-- A set of values, and the unit it was declared in if it has been stripped of it. -/
  | literal (value : ValueSet α) (sourceUnit : Option (MeasureUnit α))
  | constant (c : Constant α)

namespace Node

def operands : Node α → List NodeId
  | expression e => e.operands
  | _ => []

def parameter? : Node α → Option (Parameter α)
  | parameter p => some p
  | _ => none

def expression? : Node α → Option Expression
  | expression e => some e
  | _ => none

def literal? : Node α → Option (ValueSet α)
  | literal value _ => some value
  | _ => none

/-- A node whose value is given. -/
def isGiven : Node α → Bool
  | literal .. | constant _ => true
  | _ => false

end Node

end ParameterSolver
