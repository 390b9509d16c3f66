import ParameterSolver.Decimal.Shortest

/-!
How the digits of a number are laid out: with a point among them, or with one digit before the
point and a power of ten.
-/

namespace ParameterSolver.Decimal

/-- The decisions of a number format. -/
structure Layout where
  /-- Written after a number without a fraction. -/
  wholeMark : String
  /-- Whether a number whose point stands after that many digits is written without a power of
  ten. -/
  positional : Int → Bool

/-- Never a power of ten, and nothing after a whole number. -/
def Layout.plain : Layout := ⟨"", fun _ => true⟩

/-- Whole numbers end in `.0`; numbers below `10 ^ -4` or from `10 ^ 16` on have a power of ten. -/
def Layout.tagged : Layout := ⟨".0", fun point => -3 ≤ point && point ≤ 16⟩

/-- A digit string without its trailing zeros. -/
def trimZeros (ds : List Char) : List Char :=
  (ds.reverse.dropWhile (· == '0')).reverse

/-- Writes `0.ds * 10 ^ point` without a power of ten. -/
def Layout.spread (f : Layout) (ds : List Char) (point : Int) : String :=
  if point ≤ 0 then
    "0." ++ String.ofList (List.replicate (-point).toNat '0' ++ ds)
  else if ds.length ≤ point.toNat then
    String.ofList (ds ++ List.replicate (point.toNat - ds.length) '0') ++ f.wholeMark
  else
    String.ofList (ds.take point.toNat) ++ "." ++ String.ofList (ds.drop point.toNat)

/-- Writes `0.ds * 10 ^ point` as one digit, a fraction if there is one, and a power of ten. -/
def raised (ds : List Char) (point : Int) : String :=
  let fraction := ds.drop 1
  String.ofList (ds.take 1) ++ (if fraction.isEmpty then "" else "." ++ String.ofList fraction)
    ++ "e" ++ toString (point - 1)

def Layout.write (f : Layout) (d : Digits) : String :=
  let all := (Nat.repr d.digits).toList
  let point := all.length + d.exponent
  let ds := trimZeros all
  if ds.isEmpty then "0" ++ f.wholeMark
  else if f.positional point then f.spread ds point
  else raised ds point

end ParameterSolver.Decimal
