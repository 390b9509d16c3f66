import ParameterSolver.Proofs.Models

/-! Graphs that passes are run on: linked, over operators that have a meaning, and without unions of
unions. Every operation keeps them so. -/

namespace ParameterSolver

open Exact ParameterSolver.Valuation

/-- The operators that have a meaning here. -/
def Operator.meant : List Operator :=
  [.add, .subtract, .multiply, .divide, .power, .round, .floor, .ceil, .abs, .min, .max, .or, .not,
    .and, .implies, .xor, .greaterOrEqual, .lessOrEqual, .greaterThan, .lessThan, .is, .isSubset,
    .isSuperset, .union]

/-- The operators whose operands stand for one value each, even where a set is made of them. -/
def Operator.gathers : List Operator := [.union, .min, .max]

/-- Content that a graph can hold. What gathers is no predicate, so it is never asserted, and no
union is gathered into another. -/
def Generation.Admits (g : Generation Exact) (n : Node Exact) : Prop :=
  ∀ e, n = .expression e → e.op ∈ Operator.meant ∧
    (e.op ∈ Operator.gathers → e.asserted = false ∧ ∀ o ∈ e.operands, ¬ g.isUnion o)

structure Generation.Tame (g : Generation Exact) : Prop where
  linked : g.Linked
  admits : ∀ id n, g.node? id = some n → g.Admits n

namespace Generation

variable {g g' : Generation Exact} {id j : NodeId} {n : Node Exact} {e : Expression}

theorem isUnion_congr (h : g'.node? id = g.node? j) : g'.isUnion id ↔ g.isUnion j := by
  rw [isUnion, expression?_congr h, isUnion]

theorem Admits.congr (h : g.Admits n) (hu : ∀ o ∈ n.operands, g'.isUnion o → g.isUnion o) :
    g'.Admits n := by
  rintro e rfl
  obtain ⟨hm, ho⟩ := h e rfl
  exact ⟨hm, fun hop => ⟨(ho hop).1, fun o hmem hun => (ho hop).2 o hmem (hu o hmem hun)⟩⟩

theorem admits_leaf (h : ∀ e, n ≠ .expression e) : g.Admits n := fun e he => absurd he (h e)

theorem Tame.insert (h : g.Tame) (hi : g.Inserted id n g') (hn : g.Admits n) : g'.Tame := by
  have hu : ∀ o, g.contains o → g'.isUnion o → g.isUnion o := fun o ho =>
    (isUnion_congr (hi.node?_of_ne (hi.ne_of_contains ho))).1
  refine ⟨hi.linked h.linked, fun j m hj => ?_⟩
  rw [hi.node?] at hj
  split_ifs at hj
  · cases hj
    exact hn.congr fun o ho => hu o (hi.operands o ho)
  · exact (h.admits j m hj).congr fun o ho => hu o (h.linked.contains hj ho)

theorem Tame.replace (h : g.Tame) (hr : g.Replaced id n g') (hn : g.Admits n)
    (hu : g'.isUnion id → g.isUnion id) : g'.Tame := by
  have hall : ∀ o, g'.isUnion o → g.isUnion o := fun o ho => by
    by_cases hoid : o = id
    · subst hoid
      exact hu ho
    · exact (isUnion_congr (hr.node?_of_ne hoid)).1 ho
  refine ⟨hr.linked h.linked, fun j m hj => ?_⟩
  rw [hr.node?] at hj
  split_ifs at hj
  · cases hj
    exact hn.congr fun o _ => hall o
  · exact (h.admits j m hj).congr fun o _ => hall o

theorem Tame.remove (h : g.Tame) (hr : g.Removed id g') (hu : g.users id = []) : g'.Tame := by
  have hall : ∀ o, g'.isUnion o → g.isUnion o := by
    rintro o ⟨e, he, hop⟩
    refine ⟨e, ?_, hop⟩
    rw [expression?, hr.node?] at he
    split_ifs at he
    · cases he
    · exact he
  refine ⟨hr.linked hu h.linked, fun j m hj => ?_⟩
  rw [hr.node?] at hj
  split_ifs at hj
  exact (h.admits j m hj).congr fun o _ => hall o

theorem Tame.addProvenance {p : Provenance} (h : g.Tame) : (g.addProvenance id p).Tame := by
  refine ⟨h.linked.addProvenance, fun j m hj => ?_⟩
  rw [node?_addProvenance] at hj
  exact (h.admits j m hj).congr fun o _ => (isUnion_congr (node?_addProvenance o)).1

end Generation

namespace Valuation

variable {g g' : Generation Exact} {id : NodeId} {n : Node Exact} {f f' : NodeId → NodeId}

theorem isUnion_iff_of_node? (h : g.node? id = some n) :
    g.isUnion id ↔ ∃ e, n = .expression e ∧ e.op = .union := by
  rw [Generation.isUnion, Generation.expression?, h]
  cases n <;> simp [Node.expression?]

/-- A renamed copy is read like the node it copies. -/
theorem outlines_of_rename (h : g.node? id = some n) (h' : g'.node? (f id) = some (n.rename f)) :
    Outlines g g' f id := by
  refine ⟨?_, fun y => ?_⟩
  · rw [Generation.givenSet?, Generation.given?, h', Generation.givenSet?, Generation.given?, h]
    simp [Node.given?_rename]
  · by_cases hu : g.isUnion id
    · obtain ⟨e, rfl, hop⟩ := (isUnion_iff_of_node? h).1 hu
      rw [members_of_isUnion (e := { e with operands := e.operands.map f })
        (Generation.expression?_eq.2 h') hop,
        members_of_isUnion (e := e) (Generation.expression?_eq.2 h) hop]
      simp
    · have hu' : ¬ g'.isUnion (f id) := by
        rw [isUnion_iff_of_node? h']
        rw [isUnion_iff_of_node? h] at hu
        rintro ⟨e, he, hop⟩
        cases n <;> cases he
        exact hu ⟨_, rfl, hop⟩
      rw [mem_members_of_not_isUnion hu', members_of_not_isUnion hu]
      simp [eq_comm]

/-- Outlines only look at the node that `f` gives and at what `f` does to the members. -/
theorem Outlines.congr {g'' : Generation Exact} (h : Outlines g g' f id)
    (hn : g''.node? (f id) = g'.node? (f id)) (hid : f' id = f id)
    (hf : ∀ m ∈ Knowledge.members g id, f' m = f m) : Outlines g g'' f' id := by
  refine ⟨by rw [hid, givenSet?_congr hn, h.given], fun y => ?_⟩
  rw [hid, Knowledge.members, expression?_congr hn, ← Knowledge.members, h.members]
  refine exists_congr fun m => and_congr_right fun hm => ?_
  rw [hf m hm]

theorem Outlines.comp {g'' : Generation Exact} (h : Outlines g g' f id)
    (h' : Outlines g' g'' f' (f id)) : Outlines g g'' (fun i => f' (f i)) id := by
  refine ⟨h'.given.trans h.given, fun y => ?_⟩
  rw [h'.members]
  constructor
  · rintro ⟨k, hk, rfl⟩
    obtain ⟨m, hm, rfl⟩ := (h.members k).1 hk
    exact ⟨m, hm, rfl⟩
  · rintro ⟨m, hm, rfl⟩
    exact ⟨f m, (h.members _).2 ⟨m, hm, rfl⟩, rfl⟩

theorem Outlines.trans {g'' : Generation Exact} (h : Outlines g g' f id)
    (h' : Outlines g' g'' (fun j => j) (f id)) : Outlines g g'' f id := by
  exact h.comp h'

end Valuation

end ParameterSolver
