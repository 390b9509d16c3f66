/-!
What the solver reports while it works: records in the order they arise, without time or place, so
that two runs on one graph write the same journal.
-/

namespace ParameterSolver

inductive Level where
  | trace
  | debug
  | info
  | warn
  | error
deriving DecidableEq, Repr

namespace Level

def all : List Level := [trace, debug, info, warn, error]

def name : Level → String
  | trace => "Trace"
  | debug => "Debug"
  | info => "Info"
  | warn => "Warn"
  | error => "Error"

/-- Levels are numbered from zero. -/
def ofNat? (n : Nat) : Option Level := all[n]?

end Level

structure Record where
  level : Level
  /-- The part of the solver that reports. -/
  source : String
  message : String
deriving DecidableEq, Repr

def Record.text (r : Record) : String :=
  "[" ++ r.level.name ++ "] " ++ r.source ++ ": " ++ r.message

structure Journal where
  records : Array Record
deriving DecidableEq, Repr

namespace Journal

def empty : Journal := ⟨#[]⟩

def add (j : Journal) (level : Level) (source message : String) : Journal :=
  ⟨j.records.push ⟨level, source, message⟩⟩

def toList (j : Journal) : List Record := j.records.toList

def size (j : Journal) : Nat := j.records.size

def isEmpty (j : Journal) : Bool := j.records.isEmpty

def atLevel (j : Journal) (level : Level) : List Record :=
  j.toList.filter (·.level = level)

def count (j : Journal) (level : Level) : Nat := (j.atLevel level).length

def warnings (j : Journal) : List Record := j.atLevel .warn

end Journal

end ParameterSolver
