import ParameterSolver.Decimal.Layout
import ParameterSolver.Decimal.Numeral
import ParameterSolver.Scalar

/-!
Double-precision numbers: their texts, how they are read, and how the solver computes with them.
-/

namespace ParameterSolver.Machine

open Decimal

/-- The parts of the bits of a number: sign, exponent field and fraction. -/
def fields (x : Float) : Bool × Nat × Nat :=
  let bits := x.toBits.toNat
  (bits / Nat.pow 2 63 == 1, bits / Nat.pow 2 52 % Nat.pow 2 11, bits % Nat.pow 2 52)

/-- The magnitude of a finite number from its exponent field and fraction. -/
def binary (field fraction : Nat) : Binary :=
  if field == 0 then ⟨fraction, -1074, false⟩
  else ⟨Nat.pow 2 52 + fraction, (field : Int) - 1075, fraction == 0 && 1 < field⟩

def write (layout : Layout) (x : Float) : String :=
  let (negative, field, fraction) := fields x
  let sign := if negative then "-" else ""
  if field == 2047 then
    if fraction == 0 then sign ++ "inf" else "NaN"
  else
    let magnitude := binary field fraction
    sign ++ layout.write (if magnitude.significand == 0 then ⟨0, 0⟩ else magnitude.shortest)

/-- The integer that a finite number without a fraction is. -/
def toInt? (x : Float) : Option Int :=
  let (negative, field, fraction) := fields x
  if field == 2047 then none
  else
    let magnitude := binary field fraction
    let scale := Nat.pow 2 (-magnitude.exponent).toNat
    let whole := magnitude.significand * Nat.pow 2 magnitude.exponent.toNat
    if whole % scale == 0 then
      let n : Int := (whole / scale : Nat)
      some (if negative then -n else n)
    else none

/-- The number nearest to `m * 10 ^ e`. Powers beyond the range of finite numbers are settled
without computing them. -/
def ofNatDecimal (m : Nat) (e : Int) : Float :=
  if m == 0 then 0
  else if 400 < e then 1 / 0
  else if e + (Nat.repr m).length < -400 then 0
  else if e < 0 then Float.ofScientific m true (-e).toNat
  else Float.ofScientific m false e.toNat

def ofDecimal (m e : Int) : Float :=
  if m < 0 then -ofNatDecimal m.natAbs e else ofNatDecimal m.natAbs e

def ofNumeral (n : Numeral) : Float :=
  let x : Float :=
    match n.magnitude with
    | .notANumber => 0 / 0
    | .infinite => 1 / 0
    | .finite digits exponent => ofNatDecimal digits exponent
  if n.negative then -x else x

def read? (text : String) : Option Float := (Numeral.read? text).map ofNumeral

instance : Scalar Float where
  decLt := fun x y => Float.decLt x y
  decLe := fun x y => Float.decLe x y
  ofDecimal := ofDecimal
  infinity := 1 / 0
  halfPi := 1.5707963267948966
  tau := 6.283185307179586
  floor := Float.floor
  ceil := Float.ceil
  sin := Float.sin
  ln := Float.log
  pow := Float.pow
  toInt? := toInt?
  text := write .plain
  dump := write .tagged

end ParameterSolver.Machine
