/-!
Names of positions: `A` to `Z`, then `AA`, `AB` and so on.
-/

namespace ParameterSolver.ShortName

def letter (n : Nat) : Char := Char.ofNat ('A'.toNat + n % 26)

def letters (n : Nat) : List Char :=
  if n < 26 then [letter n] else letters (n / 26 - 1) ++ [letter n]
termination_by n
decreasing_by omega

def text (n : Nat) : String := String.ofList (letters n)

end ParameterSolver.ShortName
