/-!
The fewest decimal digits that identify a binary floating-point number.

A number `significand * 2 ^ exponent` is the nearest one to every real between the midpoints to
its two neighbours; the midpoints themselves belong to it when the significand is even. `shortest`
looks for a decimal among those reals on coarser and then finer grids and takes the nearest point
of the first grid that has one. All comparisons are exact, in natural numbers.
-/

namespace ParameterSolver.Decimal

/-- A positive number `significand * 2 ^ exponent`. -/
structure Binary where
  significand : Nat
  exponent : Int
  /-- The neighbour below is half as far away as the neighbour above. -/
  tight : Bool

/-- A decimal `digits * 10 ^ exponent`. -/
structure Digits where
  digits : Nat
  exponent : Int
deriving DecidableEq, Repr

/-- Numerator and denominator of `n * 2 ^ (exponent - 2) / 10 ^ grid`, per unit of `n`. -/
def Binary.ratio (x : Binary) (grid : Int) : Nat × Nat :=
  let q := x.exponent - 2
  (Nat.pow 2 q.toNat * Nat.pow 10 (-grid).toNat, Nat.pow 2 (-q).toNat * Nat.pow 10 grid.toNat)

/-- The position of the decimal point: the least `k` with `x < 10 ^ k`. -/
def Binary.magnitude (x : Binary) : Int :=
  let (num, den) := x.ratio (-330)
  (Nat.repr (4 * x.significand * num / den)).length - 330

/-- The point `d * 10 ^ grid` lies among the reals that `x` stands for. -/
def Binary.covers (x : Binary) (grid : Int) (d : Nat) : Bool :=
  let (num, den) := x.ratio grid
  let low := (4 * x.significand - if x.tight then 1 else 2) * num
  let high := (4 * x.significand + 2) * num
  if x.significand % 2 == 0 then low ≤ d * den && d * den ≤ high
  else low < d * den && d * den < high

/-- The point of the grid that `x` covers and that is nearest to it; the upper one of two equally
near ones. -/
def Binary.onGrid? (x : Binary) (grid : Int) : Option Nat :=
  let (num, den) := x.ratio grid
  let value := 4 * x.significand * num
  let below := value / den
  match x.covers grid below, x.covers grid (below + 1) with
  | true, true => some (if 2 * value < (2 * below + 1) * den then below else below + 1)
  | true, false => some below
  | false, true => some (below + 1)
  | false, false => none

/-- The digits of `x` on the first of the given grids that has some. -/
def Binary.firstOnGrids (x : Binary) : List Int → Option Digits
  | [] => none
  | grid :: rest =>
    match x.onGrid? grid with
    | some d => some ⟨d, grid⟩
    | none => x.firstOnGrids rest

/-- The fewest digits that identify `x`. Seventeen always do; were they not to, the exact value of
`x` is written out. -/
def Binary.shortest (x : Binary) : Digits :=
  let k := x.magnitude
  match x.firstOnGrids ((List.range 17).map fun n : Nat => k - 1 - (n : Int)) with
  | some d => d
  | none =>
    ⟨x.significand * Nat.pow 2 x.exponent.toNat * Nat.pow 5 (-x.exponent).toNat,
      if x.exponent < 0 then x.exponent else 0⟩

end ParameterSolver.Decimal
