import ParameterSolver.SortedSet
import ParameterSolver.Text.Quoted

/-!
Sets of texts: finitely many, or all but finitely many.
-/

namespace ParameterSolver

inductive Texts where
  | only (values : SortedSet String)
  | allBut (values : SortedSet String)
deriving DecidableEq

namespace Texts

/-- Every text. -/
def any : Texts := allBut .empty

def ofList (values : List String) : Texts := only (.ofList values)

def contains (s : Texts) (x : String) : Bool :=
  match s with
  | only values => x ∈ values
  | allBut values => x ∉ values

instance : Membership String Texts := ⟨fun s x => s.contains x⟩

instance (x : String) (s : Texts) : Decidable (x ∈ s) := inferInstanceAs (Decidable (s.contains x))

theorem mem_def {s : Texts} {x : String} : x ∈ s ↔ s.contains x := Iff.rfl

def isEmpty : Texts → Bool
  | only values => values.isEmpty
  | allBut _ => false

def single? : Texts → Option String
  | only values => values.single?
  | allBut _ => none

def compl : Texts → Texts
  | only values => allBut values
  | allBut values => only values

def union : Texts → Texts → Texts
  | only a, only b => only (a.union b)
  | only a, allBut b => allBut (b.diff a)
  | allBut a, only b => allBut (a.diff b)
  | allBut a, allBut b => allBut (a.inter b)

def inter : Texts → Texts → Texts
  | only a, only b => only (a.inter b)
  | only a, allBut b => only (a.diff b)
  | allBut a, only b => only (b.diff a)
  | allBut a, allBut b => allBut (a.union b)

def diff (s t : Texts) : Texts := s.inter t.compl

def symmDiff (s t : Texts) : Texts := (s.diff t).union (t.diff s)

def isSubset (s t : Texts) : Bool := (s.diff t).isEmpty

def listed (values : SortedSet String) : String :=
  "\x7b" ++ ", ".intercalate (values.toList.map Text.quoted) ++ "\x7d"

def text : Texts → String
  | only values => listed values
  | allBut values => if values.isEmpty then "String" else "String \\ " ++ listed values

end Texts

end ParameterSolver
