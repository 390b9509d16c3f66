import ParameterSolver.MeasureUnit.Dimension
import ParameterSolver.Scalar
import ParameterSolver.Text.Quoted

/-!
Units of measurement: exponents of the base dimensions and a scale relative to the base unit. The
symbol only decides how a unit is written; two units with the same exponents and scale are equal.
-/

namespace ParameterSolver

/-- Decimal multiples of a unit. -/
inductive SiPrefix where
  | pico
  | nano
  | micro
  | milli
  | none
  | kilo
  | mega
  | giga
deriving DecidableEq, Repr

namespace SiPrefix

def all : List SiPrefix := [pico, nano, micro, milli, none, kilo, mega, giga]

def power : SiPrefix → Int
  | pico => -12
  | nano => -9
  | micro => -6
  | milli => -3
  | none => 0
  | kilo => 3
  | mega => 6
  | giga => 9

def factor {α : Type} [Scalar α] (p : SiPrefix) : α := Scalar.ofDecimal 1 p.power

def symbol : SiPrefix → String
  | pico => "p"
  | nano => "n"
  | micro => "µ"
  | milli => "m"
  | none => ""
  | kilo => "k"
  | mega => "M"
  | giga => "G"

def name : SiPrefix → String
  | pico => "Pico"
  | nano => "Nano"
  | micro => "Micro"
  | milli => "Milli"
  | none => "None"
  | kilo => "Kilo"
  | mega => "Mega"
  | giga => "Giga"

end SiPrefix

structure MeasureUnit (α : Type) where
  exponents : Exponents
  /-- How many base units make one of this unit. -/
  scale : α
  symbol : Option (SiPrefix × String)

namespace MeasureUnit

variable {α : Type} [Scalar α]

instance : BEq (MeasureUnit α) := ⟨fun u v => u.exponents == v.exponents && u.scale == v.scale⟩

/-- The plain unit of numbers without a dimension. -/
def one : MeasureUnit α := ⟨.zero, 1, .none⟩

instance : Inhabited (MeasureUnit α) := ⟨one⟩

def named (exponents : Exponents) (symbol : String) : MeasureUnit α :=
  ⟨exponents, 1, some (.none, symbol)⟩

/-- The base unit of a dimension. -/
def base (d : Dimension) : MeasureUnit α :=
  named (.ofFn fun d' => if d' = d then 1 else 0) d.symbol

def hertz : MeasureUnit α := named ⟨-1, 0, 0, 0, 0, 0, 0⟩ "Hz"
def watt : MeasureUnit α := named ⟨-3, 2, 1, 0, 0, 0, 0⟩ "W"
def volt : MeasureUnit α := named ⟨-3, 2, 1, -1, 0, 0, 0⟩ "V"
def ohm : MeasureUnit α := named ⟨-3, 2, 1, -2, 0, 0, 0⟩ "Ω"
def farad : MeasureUnit α := named ⟨4, -2, -1, 2, 0, 0, 0⟩ "F"
def henry : MeasureUnit α := named ⟨-2, 2, 1, -2, 0, 0, 0⟩ "H"

/-- A hundredth, without a dimension. -/
def percent : MeasureUnit α := ⟨.zero, 0.01, some (.none, "%")⟩

/-- The units that have a symbol of their own at scale one, in order of preference. -/
def coherentUnits : List (MeasureUnit α) :=
  Dimension.all.map base ++ [hertz, watt, volt, ohm, farad, henry]

/-- A decimal multiple. The symbol survives only on a unit that had no multiple yet. -/
def prefixed (u : MeasureUnit α) (p : SiPrefix) : MeasureUnit α where
  exponents := u.exponents
  scale := u.scale * p.factor
  symbol :=
    match u.symbol with
    | some (.none, symbol) => some (p, symbol)
    | _ => .none

def isDimensionless (u : MeasureUnit α) : Bool := u.exponents == .zero

/-- The plain unit: no dimension and scale one. -/
def isOne (u : MeasureUnit α) : Bool := u.isDimensionless && u.scale == 1

/-- The two units measure the same dimension. -/
def commensurable (u v : MeasureUnit α) : Bool := u.exponents == v.exponents

def toBase (u : MeasureUnit α) (x : α) : α := x * u.scale

def fromBase (u : MeasureUnit α) (x : α) : α := x / u.scale

/-- The same dimension at scale one, with a symbol if there is one for it. -/
def coherent (u : MeasureUnit α) : MeasureUnit α :=
  (coherentUnits.find? (·.commensurable u)).getD ⟨u.exponents, 1, .none⟩

/-- The base units with their exponents, those with exponent zero left out. -/
def powers (u : MeasureUnit α) : List String :=
  Dimension.all.filterMap fun d =>
    match u.exponents.get d with
    | 0 => .none
    | 1 => some d.symbol
    | e => some (d.symbol ++ "^" ++ toString e)

/-- A symbol if there is one, else the scale (unless it is one) and the powers of the base units. -/
def text (u : MeasureUnit α) : String :=
  match u.symbol with
  | some (p, symbol) => p.symbol ++ symbol
  | .none =>
    match (if u.scale == 1 then [] else [Scalar.text u.scale]) ++ u.powers with
    | [] => "1"
    | parts => "·".intercalate parts

/-- The unit with all its fields. -/
def dump (u : MeasureUnit α) : String :=
  let dims := Dimension.all.map fun d => d.name ++ ": " ++ toString (u.exponents.get d)
  let symbol :=
    match u.symbol with
    | .none => "None"
    | some (p, s) => "Some((" ++ p.name ++ ", " ++ Text.quoted s ++ "))"
  "Unit \x7b dims: \x7b" ++ ", ".intercalate dims ++ "\x7d, scale: " ++ Scalar.dump u.scale
    ++ ", symbol: " ++ symbol ++ " \x7d"

end MeasureUnit

end ParameterSolver
