import ParameterSolver.ValueSet.Choices
import ParameterSolver.ValueSet.Quantities
import ParameterSolver.ValueSet.Texts
import ParameterSolver.ValueSet.Truths

/-!
Sets of values of one kind. Only sets of one kind can be combined.
-/

namespace ParameterSolver

/-- A single value; a number is in base units. -/
inductive Value (α : Type) where
  | number (x : α)
  | boolean (b : Bool)
  | enum (member : String)
  | text (s : String)

def Value.kindName {α : Type} : Value α → String
  | number _ => "Number"
  | boolean _ => "Boolean"
  | enum _ => "Enum"
  | text _ => "Text"

/-- The value as it stands in a text for people. -/
def Value.render {α : Type} [Scalar α] : Value α → String
  | number x => Scalar.text x
  | boolean b => if b then "true" else "false"
  | enum member => member
  | text s => Text.quoted s

inductive ValueSet (α : Type) where
  | numeric (q : Quantities α)
  | boolean (b : Truths)
  | enum (c : Choices)
  | text (t : Texts)

namespace ValueSet

variable {α : Type} [Scalar α]

instance : BEq (ValueSet α) where
  beq
    | numeric a, numeric b => a == b
    | boolean a, boolean b => a == b
    | enum a, enum b => a == b
    | text a, text b => a == b
    | _, _ => false

/-- A single number without a dimension. -/
def number (x : α) : ValueSet α := numeric (.plain (.singleton x))

def quantity (x : α) (unit : MeasureUnit α) : ValueSet α := numeric (.singleton x unit)

def interval (lo hi : α) (unit : MeasureUnit α) : ValueSet α := numeric (.interval lo hi unit)

def truth (b : Bool) : ValueSet α := boolean (.of b)

def kind : ValueSet α → Kind
  | numeric _ => .numeric
  | boolean _ => .boolean
  | enum _ => .enum
  | text _ => .text

/-- Exactly the value true. -/
def isTrue : ValueSet α → Bool
  | boolean b => b == .of true
  | _ => false

/-- Exactly the value false. -/
def isFalse : ValueSet α → Bool
  | boolean b => b == .of false
  | _ => false

def isEmpty : ValueSet α → Bool
  | numeric q => q.isEmpty
  | boolean b => b.isEmpty
  | enum c => c.isEmpty
  | text t => t.isEmpty

/-- The only element; a number is in base units. -/
def single? : ValueSet α → Option (Value α)
  | numeric q => q.single?.map .number
  | boolean b => b.single?.map .boolean
  | enum c => c.single?.map .enum
  | text t => t.single?.map .text

def isSingleton (s : ValueSet α) : Bool := s.single?.isSome

def quantities? : ValueSet α → Option (Quantities α)
  | numeric q => some q
  | _ => none

def truths? : ValueSet α → Option Truths
  | boolean b => some b
  | _ => none

def unit? (s : ValueSet α) : Option (MeasureUnit α) := s.quantities?.map (·.unit)

def union : ValueSet α → ValueSet α → Except (SetError α) (ValueSet α)
  | numeric a, numeric b => numeric <$> a.union b
  | boolean a, boolean b => .ok (boolean (a.union b))
  | enum a, enum b => enum <$> a.union b
  | text a, text b => .ok (text (a.union b))
  | a, b => .error (.kindMismatch a.kind b.kind)

def inter : ValueSet α → ValueSet α → Except (SetError α) (ValueSet α)
  | numeric a, numeric b => numeric <$> a.inter b
  | boolean a, boolean b => .ok (boolean (a.inter b))
  | enum a, enum b => enum <$> a.inter b
  | text a, text b => .ok (text (a.inter b))
  | a, b => .error (.kindMismatch a.kind b.kind)

def diff : ValueSet α → ValueSet α → Except (SetError α) (ValueSet α)
  | numeric a, numeric b => numeric <$> a.diff b
  | boolean a, boolean b => .ok (boolean (a.diff b))
  | enum a, enum b => enum <$> a.diff b
  | text a, text b => .ok (text (a.diff b))
  | a, b => .error (.kindMismatch a.kind b.kind)

def symmDiff : ValueSet α → ValueSet α → Except (SetError α) (ValueSet α)
  | numeric a, numeric b => numeric <$> a.symmDiff b
  | boolean a, boolean b => .ok (boolean (a.symmDiff b))
  | enum a, enum b => enum <$> a.symmDiff b
  | text a, text b => .ok (text (a.symmDiff b))
  | a, b => .error (.kindMismatch a.kind b.kind)

def isSubset : ValueSet α → ValueSet α → Except (SetError α) Bool
  | numeric a, numeric b => a.isSubset b
  | boolean a, boolean b => .ok (a.isSubset b)
  | enum a, enum b => a.isSubset b
  | text a, text b => .ok (a.isSubset b)
  | a, b => .error (.kindMismatch a.kind b.kind)

/-- The values without their unit. -/
def stripped : ValueSet α → ValueSet α
  | numeric q => numeric q.stripped
  | s => s

def render : ValueSet α → String
  | numeric q => q.text
  | boolean b => b.text
  | enum c => c.text
  | text t => t.text

end ValueSet

end ParameterSolver
