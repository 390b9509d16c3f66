import Mathlib.Data.List.Forall2
import Mathlib.Data.List.Nodup
import ParameterSolver.Proofs.Graph.Linked

/-! The lists of the nodes of a graph hold each node once, and lists of operands are as long as the
operator takes them. -/

namespace ParameterSolver.Generation

variable {α : Type} {g : Generation α} {id : NodeId}

theorem nodup_keys {β : Type} (m : NodeMap β) : m.keys.Nodup := by
  refine List.Nodup.filter _ (List.Nodup.map ?_ List.nodup_range)
  intro a b h
  cases h
  rfl

theorem nodup_toList : (g.toList.map (·.1)).Nodup := by
  have hsub : ∀ l : List NodeId, List.Sublist
      ((l.filterMap fun id => (g.entries.get? id).map (id, ·)).map (·.1)) l := by
    intro l
    induction l with
    | nil => exact .slnil
    | cons a l ih =>
      rw [List.filterMap_cons]
      cases g.entries.get? a with
      | none => exact ih.cons a
      | some e => exact ih.cons_cons a
  exact (hsub _).nodup (nodup_keys g.entries)

theorem nodup_filterMap {β γ : Type} {l : List (NodeId × β)} (h : (l.map (·.1)).Nodup)
    (f : β → Option γ) : ((l.filterMap fun p => (f p.2).map (p.1, ·)).map (·.1)).Nodup := by
  have hsub : List.Sublist ((l.filterMap fun p => (f p.2).map (p.1, ·)).map (·.1)) (l.map (·.1)) := by
    clear h
    induction l with
    | nil => exact .slnil
    | cons a l ih =>
      rw [List.filterMap_cons]
      cases f a.2 with
      | none => exact ih.cons _
      | some e => exact ih.cons_cons _
  exact hsub.nodup h

theorem nodup_expressions : (g.expressions.map (·.1)).Nodup :=
  nodup_filterMap nodup_toList fun e => e.node.expression?

theorem nodup_parameters : (g.parameters.map (·.1)).Nodup :=
  nodup_filterMap nodup_toList fun e => e.node.parameter?

/-- Nodes are listed in the order in which they entered. -/
theorem pairwise_order : g.order.Pairwise fun i j => i.rank < j.rank :=
  List.Pairwise.filter _ (List.pairwise_map.2 List.pairwise_lt_range)

theorem pairwise_expressions : g.expressions.Pairwise fun x y => x.1.rank < y.1.rank := by
  refine List.Pairwise.filterMap _ (R := fun x y => x.1.rank < y.1.rank) ?_
    (List.Pairwise.filterMap _ ?_ pairwise_order)
  · rintro x y hxy a ha b hb
    obtain ⟨_, -, rfl⟩ := Option.map_eq_some_iff.1 ha
    obtain ⟨_, -, rfl⟩ := Option.map_eq_some_iff.1 hb
    exact hxy
  · rintro i j hij a ha b hb
    obtain ⟨_, -, rfl⟩ := Option.map_eq_some_iff.1 ha
    obtain ⟨_, -, rfl⟩ := Option.map_eq_some_iff.1 hb
    exact hij

theorem mem_toList {e : Entry α} : (id, e) ∈ g.toList ↔ g.get? id = some e := NodeMap.mem_toList

theorem mem_expressions {e : Expression} :
    (id, e) ∈ g.expressions ↔ g.node? id = some (.expression e) := by
  simp only [expressions, List.mem_filterMap, Option.map_eq_some_iff, Prod.mk.injEq, node?,
    Prod.exists, mem_toList]
  constructor
  · rintro ⟨i, entry, hi, e', he', rfl, rfl⟩
    refine ⟨entry, hi, ?_⟩
    cases hn : entry.node <;> simp_all [Node.expression?]
  · rintro ⟨entry, hi, hn⟩
    exact ⟨id, entry, hi, e, by rw [hn]; rfl, rfl, rfl⟩

theorem mem_parameters {p : Parameter α} :
    (id, p) ∈ g.parameters ↔ g.node? id = some (.parameter p) := by
  simp only [parameters, List.mem_filterMap, Option.map_eq_some_iff, Prod.mk.injEq, node?,
    Prod.exists, mem_toList]
  constructor
  · rintro ⟨i, entry, hi, e', he', rfl, rfl⟩
    refine ⟨entry, hi, ?_⟩
    cases hn : entry.node <;> simp_all [Node.parameter?]
  · rintro ⟨entry, hi, hn⟩
    exact ⟨id, entry, hi, p, by rw [hn]; rfl, rfl, rfl⟩

end ParameterSolver.Generation

namespace ParameterSolver

section Lists

variable {γ δ : Type} {R : γ → δ → Prop} {a a' : γ} {l : List δ}

theorem exists_single (h : List.Forall₂ R [a] l) : ∃ b, l = [b] ∧ R a b := by
  obtain ⟨b, _, hb, hnil, rfl⟩ := List.forall₂_cons_left_iff.1 h
  cases List.forall₂_nil_left_iff.1 hnil
  exact ⟨b, rfl, hb⟩

theorem exists_pair (h : List.Forall₂ R [a, a'] l) : ∃ b b', l = [b, b'] ∧ R a b ∧ R a' b' := by
  obtain ⟨b, _, hb, hrest, rfl⟩ := List.forall₂_cons_left_iff.1 h
  obtain ⟨b', rfl, hb'⟩ := exists_single hrest
  exact ⟨b, b', rfl, hb, hb'⟩

end Lists

namespace Arity

variable {β : Type} {l : List β}

theorem eq_pair (h : (exactly 2).accepts l.length) : ∃ a b, l = [a, b] :=
  List.length_eq_two.1 (by simpa [accepts] using h)

theorem eq_singleton (h : (exactly 1).accepts l.length) : ∃ a, l = [a] :=
  List.length_eq_one_iff.1 (by simpa [accepts] using h)

theorem eq_cons {n : ℕ} (h : (atLeast (n + 1)).accepts l.length) : ∃ a rest, l = a :: rest := by
  cases l with
  | nil => simp [accepts] at h
  | cons a rest => exact ⟨a, rest, rfl⟩

theorem eq_cons_cons {n : ℕ} (h : (atLeast (n + 2)).accepts l.length) :
    ∃ a b rest, l = a :: b :: rest := by
  match l with
  | [] | [_] => simp [accepts] at h
  | a :: b :: rest => exact ⟨a, b, rest, rfl⟩

end Arity

end ParameterSolver
