/-!
Sets of truth values, and the images of logical operations over them.
-/

namespace ParameterSolver

structure Truths where
  hasFalse : Bool
  hasTrue : Bool
deriving DecidableEq, Repr

namespace Truths

def none : Truths := ⟨false, false⟩

def all : Truths := ⟨true, true⟩

def of (b : Bool) : Truths := ⟨!b, b⟩

def contains (s : Truths) (b : Bool) : Bool := if b then s.hasTrue else s.hasFalse

instance : Membership Bool Truths := ⟨fun s b => s.contains b⟩

instance (b : Bool) (s : Truths) : Decidable (b ∈ s) := inferInstanceAs (Decidable (s.contains b))

theorem mem_def {s : Truths} {b : Bool} : b ∈ s ↔ s.contains b := Iff.rfl

def isEmpty (s : Truths) : Bool := !s.hasFalse && !s.hasTrue

def single? (s : Truths) : Option Bool :=
  match s.hasFalse, s.hasTrue with
  | false, true => some true
  | true, false => some false
  | _, _ => Option.none

def union (s t : Truths) : Truths := ⟨s.hasFalse || t.hasFalse, s.hasTrue || t.hasTrue⟩

def inter (s t : Truths) : Truths := ⟨s.hasFalse && t.hasFalse, s.hasTrue && t.hasTrue⟩

def diff (s t : Truths) : Truths := ⟨s.hasFalse && !t.hasFalse, s.hasTrue && !t.hasTrue⟩

def symmDiff (s t : Truths) : Truths := ⟨s.hasFalse != t.hasFalse, s.hasTrue != t.hasTrue⟩

def isSubset (s t : Truths) : Bool := (!s.hasFalse || t.hasFalse) && (!s.hasTrue || t.hasTrue)

/-- The negations of the members. -/
def not (s : Truths) : Truths := ⟨s.hasTrue, s.hasFalse⟩

/-- The disjunctions of the pairs of members. -/
def or (s t : Truths) : Truths :=
  if s.isEmpty || t.isEmpty then none
  else ⟨s.hasFalse && t.hasFalse, s.hasTrue || t.hasTrue⟩

/-- The values of `f` on all lists with one member of each set. -/
def image (f : List Bool → Bool) : List Truths → Truths
  | [] => of (f [])
  | s :: rest =>
    union (if s.hasFalse then image (fun l => f (false :: l)) rest else none)
      (if s.hasTrue then image (fun l => f (true :: l)) rest else none)

def text (s : Truths) : String :=
  match s.hasFalse, s.hasTrue with
  | false, false => "∅"
  | true, false => "\x7bfalse\x7d"
  | false, true => "\x7btrue\x7d"
  | true, true => "\x7bfalse, true\x7d"

end Truths

end ParameterSolver
