/-!
The seven base dimensions and the exponents a unit has in them.
-/

namespace ParameterSolver

inductive Dimension where
  | time
  | length
  | mass
  | current
  | temperature
  | amount
  | luminosity
deriving DecidableEq, Repr

namespace Dimension

def all : List Dimension := [time, length, mass, current, temperature, amount, luminosity]

theorem mem_all (d : Dimension) : d ∈ all := by cases d <;> decide

def name : Dimension → String
  | time => "Time"
  | length => "Length"
  | mass => "Mass"
  | current => "Current"
  | temperature => "Temperature"
  | amount => "Amount"
  | luminosity => "Luminosity"

/-- The symbol of the base unit. -/
def symbol : Dimension → String
  | time => "s"
  | length => "m"
  | mass => "kg"
  | current => "A"
  | temperature => "K"
  | amount => "mol"
  | luminosity => "cd"

end Dimension

/-- One exponent per dimension. -/
structure Exponents where
  time : Int
  length : Int
  mass : Int
  current : Int
  temperature : Int
  amount : Int
  luminosity : Int
deriving DecidableEq, Repr

namespace Exponents

def get (e : Exponents) : Dimension → Int
  | .time => e.time
  | .length => e.length
  | .mass => e.mass
  | .current => e.current
  | .temperature => e.temperature
  | .amount => e.amount
  | .luminosity => e.luminosity

def ofFn (f : Dimension → Int) : Exponents :=
  ⟨f .time, f .length, f .mass, f .current, f .temperature, f .amount, f .luminosity⟩

@[simp] theorem get_ofFn (f : Dimension → Int) (d : Dimension) : (ofFn f).get d = f d := by
  cases d <;> rfl

theorem ext_get {e e' : Exponents} (h : ∀ d, e.get d = e'.get d) : e = e' := by
  cases e; cases e'
  simp only [mk.injEq]
  exact ⟨h .time, h .length, h .mass, h .current, h .temperature, h .amount, h .luminosity⟩

/-- No dimension at all. -/
def zero : Exponents := ofFn fun _ => 0

/-- The exponents a unit may have. -/
def inRange (e : Exponents) : Bool := Dimension.all.all fun d => (e.get d).natAbs ≤ 127

theorem inRange_iff {e : Exponents} : e.inRange ↔ ∀ d, (e.get d).natAbs ≤ 127 := by
  simp only [inRange, List.all_eq_true, decide_eq_true_eq]
  exact ⟨fun h d => h d d.mem_all, fun h d _ => h d⟩

end Exponents

end ParameterSolver
