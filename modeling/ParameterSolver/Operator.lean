/-!
The operators of expressions, how many operands each takes and what is known of each.
-/

namespace ParameterSolver

/-- How many operands an operator takes. -/
inductive Arity where
  | exactly (n : Nat)
  | atLeast (n : Nat)
deriving DecidableEq, Repr

namespace Arity

def accepts (a : Arity) (count : Nat) : Bool :=
  match a with
  | exactly n => count == n
  | atLeast n => n ≤ count

def text : Arity → String
  | exactly n => "exactly " ++ toString n
  | atLeast n => "at least " ++ toString n

end Arity

inductive Operator where
  | add
  | multiply
  | power
  | round
  | abs
  | sin
  | log
  | or
  | not
  | union
  | symmetricDifference
  | greaterOrEqual
  | isSubset
  | is
  | subtract
  | divide
  | and
  | implies
  | xor
  | lessOrEqual
  | lessThan
  | greaterThan
  | isSuperset
  | floor
  | ceil
  | cos
  | sqrt
  | min
  | max
  | intersection
  | difference
  | cardinality
  | differentiate
  | integrate
deriving DecidableEq, Repr

/-- What can be known of an operator. -/
inductive Trait where
  /-- Its values are truth values, and its expressions may be asserted. -/
  | predicate
  /-- The order of the operands does not matter. -/
  | commutative
  /-- An operand with the same operator can be replaced by its own operands. -/
  | associative
  /-- An operand that is listed again changes nothing. -/
  | idempotent
  /-- It belongs to the basis that all others are expressed in. -/
  | canonical
  | arithmetic
  | logic
  | set
  /-- It compares two values. -/
  | relation
deriving DecidableEq, Repr

namespace Trait

def all : List Trait :=
  [predicate, commutative, associative, idempotent, canonical, arithmetic, logic, set, relation]

def name : Trait → String
  | predicate => "PREDICATE"
  | commutative => "COMMUTATIVE"
  | associative => "ASSOCIATIVE"
  | idempotent => "IDEMPOTENT"
  | canonical => "CANONICAL"
  | arithmetic => "ARITHMETIC"
  | logic => "LOGIC"
  | set => "SET"
  | relation => "RELATION"

end Trait

namespace Operator

/-- The basis, then the operators that are expressed in it, then those that cannot be. -/
def all : List Operator :=
  [add, multiply, power, round, abs, sin, log, or, not, union, symmetricDifference, greaterOrEqual,
    isSubset, is, subtract, divide, and, implies, xor, lessOrEqual, lessThan, greaterThan,
    isSuperset, floor, ceil, cos, sqrt, min, max, intersection, difference, cardinality,
    differentiate, integrate]

def name : Operator → String
  | add => "Add"
  | multiply => "Multiply"
  | power => "Power"
  | round => "Round"
  | abs => "Abs"
  | sin => "Sin"
  | log => "Log"
  | or => "Or"
  | not => "Not"
  | union => "Union"
  | symmetricDifference => "SymmetricDifference"
  | greaterOrEqual => "GreaterOrEqual"
  | isSubset => "IsSubset"
  | is => "Is"
  | subtract => "Subtract"
  | divide => "Divide"
  | and => "And"
  | implies => "Implies"
  | xor => "Xor"
  | lessOrEqual => "LessOrEqual"
  | lessThan => "LessThan"
  | greaterThan => "GreaterThan"
  | isSuperset => "IsSuperset"
  | floor => "Floor"
  | ceil => "Ceil"
  | cos => "Cos"
  | sqrt => "Sqrt"
  | min => "Min"
  | max => "Max"
  | intersection => "Intersection"
  | difference => "Difference"
  | cardinality => "Cardinality"
  | differentiate => "Differentiate"
  | integrate => "Integrate"

def logical : List Operator := [or, not, and, implies, xor]

def relational : List Operator :=
  [greaterOrEqual, isSubset, is, lessOrEqual, lessThan, greaterThan, isSuperset]

/-- The operators with a trait. -/
def having : Trait → List Operator
  | .predicate => logical ++ relational
  | .commutative =>
    [add, multiply, or, union, symmetricDifference, is, and, xor, min, max, intersection]
  | .associative => [add, multiply, or, union, and, intersection]
  | .idempotent => [or, union, and, min, max, intersection]
  | .canonical =>
    [add, multiply, power, round, abs, sin, log, or, not, union, symmetricDifference,
      greaterOrEqual, isSubset, is]
  | .arithmetic =>
    [add, multiply, power, round, abs, sin, log, subtract, divide, floor, ceil, cos, sqrt, min,
      max, cardinality, differentiate, integrate]
  | .logic => logical
  | .set => [union, symmetricDifference, intersection, difference, cardinality]
  | .relation => relational

def has (op : Operator) (t : Trait) : Bool := op ∈ having t

def isCanonical (op : Operator) : Bool := op.has .canonical

def isPredicate (op : Operator) : Bool := op.has .predicate

/-- The operators that a finished graph does not hold. -/
def nonCanonical : List Operator := all.filter fun op => !op.isCanonical

def arity : Operator → Arity
  | round | abs | sin | log | not | floor | ceil | cos | sqrt | cardinality => .exactly 1
  | power | symmetricDifference | greaterOrEqual | isSubset | is | divide | lessOrEqual | lessThan
  | greaterThan | isSuperset | differentiate | integrate => .exactly 2
  | subtract | implies | xor | difference | intersection => .atLeast 2
  | add | multiply | or | union | and | min | max => .atLeast 1

end Operator

end ParameterSolver
