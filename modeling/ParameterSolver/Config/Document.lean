/-!
Settings as text: lines `key = value` with comments from `#` on. A key is bare or between quotes, a
value is `true`, `false` or an integer in base ten, sixteen, eight or two with underscores between
digits.
-/

namespace ParameterSolver.Config

inductive Setting where
  | integer (n : Int)
  | boolean (b : Bool)
deriving DecidableEq, Repr

def isBlank (c : Char) : Bool := c == ' ' || c == '\t'

def skipBlanks (cs : List Char) : List Char := cs.dropWhile isBlank

/-- Blanks up to the end of the line, and perhaps a comment without control characters. -/
def isEnd (cs : List Char) : Bool :=
  match skipBlanks cs with
  | [] => true
  | '#' :: comment => comment.all fun c => c == '\t' || (0x20 ≤ c.toNat && c.toNat != 0x7F)
  | _ => false

def digit? (base : Nat) (c : Char) : Option Nat :=
  let n :=
    if c.isDigit then c.toNat - '0'.toNat
    else if 'a' ≤ c && c ≤ 'f' then c.toNat - 'a'.toNat + 10
    else if 'A' ≤ c && c ≤ 'F' then c.toNat - 'A'.toNat + 10
    else base
  if n < base then some n else none

/-- The value of digits that follow those of `acc`; an underscore stands only between digits. -/
def moreDigits (base acc : Nat) : List Char → Option Nat
  | [] => some acc
  | '_' :: c :: rest => do moreDigits base (base * acc + (← digit? base c)) rest
  | c :: rest => do moreDigits base (base * acc + (← digit? base c)) rest

def digits? (base : Nat) : List Char → Option Nat
  | [] => none
  | c :: rest => do moreDigits base (← digit? base c) rest

/-- A number in base ten has no leading zero. -/
def decimal? : List Char → Option Nat
  | ['0'] => some 0
  | '0' :: _ => none
  | cs => digits? 10 cs

def integer? : List Char → Option Int
  | '0' :: 'x' :: ds => (digits? 16 ds).map Int.ofNat
  | '0' :: 'o' :: ds => (digits? 8 ds).map Int.ofNat
  | '0' :: 'b' :: ds => (digits? 2 ds).map Int.ofNat
  | '+' :: ds => (decimal? ds).map Int.ofNat
  | '-' :: ds => (decimal? ds).map fun n => -(n : Int)
  | ds => (decimal? ds).map Int.ofNat

def setting? (word : List Char) : Option Setting :=
  match String.ofList word with
  | "true" => some (.boolean true)
  | "false" => some (.boolean false)
  | _ => (integer? word).map .integer

def isBareKeyChar (c : Char) : Bool := c.isAlphanum || c == '_' || c == '-'

/-- The character with a code given in hexadecimal digits. -/
def codePoint? (ds : List Char) : Option Char := do
  let n ← ds.foldlM (fun acc c => do return 16 * acc + (← digit? 16 c)) 0
  if n.isValidChar then some (Char.ofNat n) else none

/-- The rest of a key between double quotes, and what follows it. The only escapes read are codes
of characters: no other escape yields a character that a key in use has. -/
def quotedKey? : List Char → Option (List Char × List Char)
  | '"' :: rest => some ([], rest)
  | '\\' :: 'u' :: a :: b :: c :: d :: rest => do
    let x ← codePoint? [a, b, c, d]
    let (key, rest) ← quotedKey? rest
    return (x :: key, rest)
  | '\\' :: 'U' :: a :: b :: c :: d :: e :: f :: g :: h :: rest => do
    let x ← codePoint? [a, b, c, d, e, f, g, h]
    let (key, rest) ← quotedKey? rest
    return (x :: key, rest)
  | '\\' :: _ => none
  | x :: rest => do
    let (key, rest) ← quotedKey? rest
    return (x :: key, rest)
  | [] => none

/-- A key and what follows it. -/
def key? : List Char → Option (String × List Char)
  | '"' :: rest => (quotedKey? rest).map fun (key, rest) => (String.ofList key, rest)
  | '\x27' :: rest =>
    match rest.span (· != '\x27') with
    | (key, '\x27' :: rest) => some (String.ofList key, rest)
    | _ => none
  | cs =>
    match cs.span isBareKeyChar with
    | ([], _) => none
    | (key, rest) => some (String.ofList key, rest)

/-- One line: nothing, or a key and its value. -/
def line? (cs : List Char) : Option (Option (String × Setting)) :=
  let cs := skipBlanks cs
  if isEnd cs then some none
  else do
    let (key, rest) ← key? cs
    match skipBlanks rest with
    | '=' :: rest =>
      let (word, rest) := (skipBlanks rest).span fun c => !isBlank c && c != '#'
      let value ← setting? word
      if isEnd rest then return some (key, value) else none
    | _ => none

/-- The lines of a text; a line that another follows may end in a carriage return. -/
def lines (current : List Char) : List Char → List (List Char)
  | [] => [current.reverse]
  | '\r' :: '\n' :: rest => current.reverse :: lines [] rest
  | '\n' :: rest => current.reverse :: lines [] rest
  | c :: rest => lines (c :: current) rest

/-- The settings of a text, in order. A byte order mark before it does not count. -/
def settings? (text : String) : Option (List (String × Setting)) := do
  let cs :=
    match text.toList with
    | '\uFEFF' :: cs => cs
    | cs => cs
  return (← (lines [] cs).mapM line?).filterMap id

end ParameterSolver.Config
