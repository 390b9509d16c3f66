import ParameterSolver.SetError
import ParameterSolver.SortedSet

/-!
Enumerations, and sets of members of one enumeration. A set carries the name of its enumeration and
combines only with sets of the same name.
-/

namespace ParameterSolver

structure Choices where
  enumeration : String
  values : SortedSet String
deriving DecidableEq

namespace Choices

variable {α : Type}

def ofList (enumeration : String) (values : List String) : Choices :=
  ⟨enumeration, .ofList values⟩

def isEmpty (s : Choices) : Bool := s.values.isEmpty

def single? (s : Choices) : Option String := s.values.single?

/-- Fails unless the two sets belong to one enumeration. -/
def requireSame (s t : Choices) : Except (SetError α) Unit :=
  if s.enumeration = t.enumeration then .ok ()
  else .error (.enumMismatch s.enumeration t.enumeration)

def combine (f : SortedSet String → SortedSet String → SortedSet String) (s t : Choices) :
    Except (SetError α) Choices := do
  requireSame s t
  return ⟨s.enumeration, f s.values t.values⟩

def union : Choices → Choices → Except (SetError α) Choices := combine SortedSet.union

def inter : Choices → Choices → Except (SetError α) Choices := combine SortedSet.inter

def diff : Choices → Choices → Except (SetError α) Choices := combine SortedSet.diff

def symmDiff : Choices → Choices → Except (SetError α) Choices := combine SortedSet.symmDiff

def isSubset (s t : Choices) : Except (SetError α) Bool := do
  requireSame s t
  return s.values.isSubset t.values

def text (s : Choices) : String :=
  s.enumeration ++ "\x7b" ++ ", ".intercalate s.values.toList ++ "\x7d"

end Choices

structure Enumeration where
  name : String
  members : List String
deriving DecidableEq

namespace Enumeration

variable {α : Type}

/-- All members. -/
def full (e : Enumeration) : Choices := .ofList e.name e.members

/-- The given names, which have to be members. -/
def choose (e : Enumeration) (values : List String) : Except (SetError α) Choices :=
  match values.find? (· ∉ e.members) with
  | some stranger => .error (.enumMismatch e.name stranger)
  | none => .ok (.ofList e.name values)

/-- The members outside of a set. -/
def compl (e : Enumeration) (s : Choices) : Except (SetError α) Choices := e.full.diff s

def dump (e : Enumeration) : String :=
  "EnumDomain \x7b name: " ++ Text.quoted e.name ++ ", members: ["
    ++ ", ".intercalate (e.members.map Text.quoted) ++ "] \x7d"

end Enumeration

end ParameterSolver
