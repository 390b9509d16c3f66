/-!
The text of a number: an optional sign, then `inf`, `infinity` or `nan` in any case, or digits with
an optional point and an optional power of ten. There is a digit on at least one side of the point.
-/

namespace ParameterSolver.Decimal

/-- What a numeral without its sign says. -/
inductive Magnitude where
  | notANumber
  | infinite
  /-- The number `digits * 10 ^ exponent`. -/
  | finite (digits : Nat) (exponent : Int)
deriving DecidableEq, Repr

structure Numeral where
  negative : Bool
  magnitude : Magnitude
deriving DecidableEq, Repr

/-- The value of a string of digits. -/
def digitsValue (ds : List Char) : Nat :=
  ds.foldl (fun acc c => 10 * acc + (c.toNat - '0'.toNat)) 0

/-- Splits off a sign; `true` is minus. -/
def takeSign : List Char → Bool × List Char
  | '-' :: rest => (true, rest)
  | '+' :: rest => (false, rest)
  | rest => (false, rest)

/-- A power of ten up to the end of the text. -/
def exponent? : List Char → Option Int
  | [] => some 0
  | c :: rest =>
    let (negative, ds) := takeSign rest
    if (c == 'e' || c == 'E') && !ds.isEmpty && ds.all Char.isDigit then
      some (if negative then -(digitsValue ds : Int) else digitsValue ds)
    else none

/-- Digits, point and power of ten. -/
def finite? (cs : List Char) : Option Magnitude :=
  let whole := cs.takeWhile Char.isDigit
  let (fraction, rest) :=
    match cs.dropWhile Char.isDigit with
    | '.' :: tail => (tail.takeWhile Char.isDigit, tail.dropWhile Char.isDigit)
    | tail => ([], tail)
  if whole.isEmpty && fraction.isEmpty then none
  else (exponent? rest).map fun e =>
    .finite (digitsValue (whole ++ fraction)) (e - fraction.length)

def Magnitude.read? (cs : List Char) : Option Magnitude :=
  let word := String.ofList (cs.map Char.toLower)
  if word == "inf" || word == "infinity" then some .infinite
  else if word == "nan" then some .notANumber
  else finite? cs

def Numeral.read? (text : String) : Option Numeral :=
  let (negative, cs) := takeSign text.toList
  (Magnitude.read? cs).map (⟨negative, ·⟩)

end ParameterSolver.Decimal
