import ParameterSolver.Blueprint.Basic
import ParameterSolver.Proofs.Draft.Calls
import ParameterSolver.Proofs.Graph.Listing
import ParameterSolver.Scalar.Machine

/-! The output of a draft is well-formed after every call, whatever was called before and whether or
not it failed: the lists of users say what the operands say, every node comes from somewhere, and what
stands for an input node is there. Each step keeps it so. -/

namespace ParameterSolver

variable {α : Type}

namespace Generation

variable {g g' : Generation α} {id : NodeId} {n : Node α} {p : Provenance}

/-- Users and operands fit together, every node comes from somewhere, and no user is listed twice. -/
structure Neat (g : Generation α) : Prop extends g.Linked where
  entries : ∀ id e, g.get? id = some e → (∃ x, x ∈ e.provenance) ∧ e.users.Nodup

theorem Neat.origin (hg : g.Neat) (h : g.provenance? id = some p) : ∃ x, x ∈ p := by
  obtain ⟨e, he, rfl⟩ := Option.map_eq_some_iff.1 h
  exact (hg.entries id e he).1

theorem Neat.nodup_users (hg : g.Neat) (id : NodeId) : (g.users id).Nodup := by
  unfold Generation.users
  cases h : g.get? id with
  | none => exact List.nodup_nil
  | some e => exact (hg.entries id e h).2

theorem neat_empty (index : ℕ) (origins : OriginTable) :
    (Generation.empty index origins : Generation α).Neat :=
  ⟨linked_empty index origins, fun id e he => by simp [get?, Generation.empty] at he⟩

theorem nodup_addUser {e : Entry α} (u : NodeId) (h : e.users.Nodup) : (e.addUser u).users.Nodup := by
  unfold Entry.addUser
  split_ifs with hu
  · exact h
  · refine List.nodup_append.2 ⟨h, List.nodup_singleton u, ?_⟩
    rintro x hx y hy rfl
    exact hu (List.mem_singleton.1 hy ▸ hx)

theorem Neat.insert (hg : g.Neat) (hp : ∃ x, x ∈ p) (h : g.insert n p = .ok (id, g')) : g'.Neat :=
  ⟨(inserted_of_insert h).linked hg.toLinked, entries_insert
    (fun e u he => ⟨by simpa using he.1, nodup_addUser u he.2⟩) ⟨hp, List.nodup_nil⟩ hg.entries h⟩

theorem Neat.replace (hg : g.Neat) (hp : ∃ x, x ∈ p) (h : g.replace id n p = .ok g') : g'.Neat :=
  ⟨(replaced_of_replace h).linked hg.toLinked, entries_replace
    (fun e u he => ⟨by simpa using he.1, nodup_addUser u he.2⟩)
    (fun e u he => ⟨he.1, he.2.filter _⟩) (fun e he => ⟨hp, he.2⟩) hg.entries h⟩

theorem Neat.addProvenance (hg : g.Neat) : (g.addProvenance id p).Neat :=
  ⟨hg.toLinked.addProvenance, entries_addProvenance
    (fun _ he => ⟨he.1.imp fun _ hx => SortedSet.mem_union.2 (Or.inl hx), he.2⟩) hg.entries⟩

theorem Neat.remove (hg : g.Neat) (id : NodeId) : (g.remove id).2.Neat :=
  ⟨(cleared_of_remove g id).1.linked hg.toLinked,
    entries_remove (fun _ _ he => ⟨he.1, he.2.filter _⟩) hg.entries id⟩

end Generation

namespace Draft

variable {d d' : Draft α}

/-- What every step keeps. -/
structure Healthy (d : Draft α) : Prop where
  input : ∀ id p, d.input.provenance? id = some p → ∃ x, x ∈ p
  output : d.output.Neat
  mapped : ∀ i j, d.mapping.get? i = some j → d.output.contains j

theorem Healthy.founded {q : Provenance} (hd : d.Healthy) (hq : d.Founded q) : ∃ x, x ∈ q := by
  rcases hq with (⟨i, hi⟩ | hq) | (⟨j, hj⟩ | hq)
  · exact hd.input i q hi
  · exact hq
  · exact hd.output.origin hj
  · exact hq

theorem Healthy.clear (hd : d.Healthy) (id out : NodeId) :
    (removeOutput { d with mapping := d.mapping.erase id } out).Healthy := by
  refine ⟨hd.input, hd.output.remove out, fun i j hj => ?_⟩
  obtain ⟨hj, hgone⟩ := (get?_removeOutput out i j).1 hj
  exact (Generation.cleared_of_remove d.output out).1.contains_iff.2
    ⟨hd.mapped i j (NodeMap.get?_of_erase hj), hgone⟩

/-- Every step keeps a draft healthy. -/
theorem Step.healthy (h : Step d d') (hd : d.Healthy) : d'.Healthy := by
  cases h with
  | note | mark | strike | remember => exact ⟨hd.input, hd.output, hd.mapped⟩
  | insert h hq =>
    refine ⟨hd.input, hd.output.insert (hd.founded hq) h, fun i j hj => ?_⟩
    exact (Generation.inserted_of_insert h).contains (hd.mapped i j hj)
  | replace h hq =>
    refine ⟨hd.input, hd.output.replace (hd.founded hq) h, fun i j hj => ?_⟩
    exact (Generation.replaced_of_replace h).contains_iff.2 (hd.mapped i j hj)
  | credit out q =>
    refine ⟨hd.input, hd.output.addProvenance, fun i j hj => ?_⟩
    rw [Generation.contains_iff, Generation.node?_addProvenance, ← Generation.contains_iff]
    exact hd.mapped i j hj
  | bind id hj =>
    refine ⟨hd.input, hd.output, fun i k hk => ?_⟩
    rcases NodeMap.get?_insert_cases hk with ⟨-, rfl⟩ | hk
    · exact hj
    · exact hd.mapped i k hk
  | clear id out => exact hd.clear id out
  | @divert id old target hne ht ho hu =>
    have hclear := Generation.cleared_of_remove d.output old
    have hgone := Generation.remove_fst ho hu
    refine ⟨hd.input, hd.output.remove old, fun i k hk => ?_⟩
    rcases NodeMap.get?_insert_cases hk with ⟨-, rfl⟩ | hk
    · exact hclear.1.contains_iff.2 ⟨ht, by simp [hgone, hne.symm]⟩
    · obtain ⟨hk, hk'⟩ := (get?_removeOutput old i k).1 hk
      exact hclear.1.contains_iff.2 ⟨hd.mapped i k hk, hk'⟩

theorem Steps.healthy (h : Steps d d') (hd : d.Healthy) : d'.Healthy := by
  induction h with
  | refl => exact hd
  | tail _ hstep ih => exact hstep.healthy ih

theorem Healthy.afterAll [Scalar α] (hd : d.Healthy) (calls : List (Call α)) :
    (d.afterAll calls).Healthy := by
  induction calls generalizing d with
  | nil => exact hd
  | cons c calls ih => exact ih ((steps_after hd.output.toLinked c).healthy hd)

/-- What a draft looks like from outside, whatever has been called. -/
structure WellFormed (d : Draft α) : Prop where
  order_nodup : d.output.order.Nodup
  mem_order : ∀ id, id ∈ d.output.order ↔ d.output.contains id
  operands : ∀ id e, d.output.expression? id = some e → ∀ o ∈ e.operands, d.output.contains o
  users : ∀ id u, u ∈ d.output.users id ↔ ∃ e, d.output.expression? u = some e ∧ id ∈ e.operands
  users_nodup : ∀ id, (d.output.users id).Nodup
  provenance : ∀ id p, d.output.provenance? id = some p → p.isEmpty = false
  mapped : ∀ i j, d.mapping.get? i = some j → d.output.contains j

theorem Healthy.wellFormed (hd : d.Healthy) : d.WellFormed where
  order_nodup := Generation.nodup_keys _
  mem_order id := NodeMap.mem_keys
  operands id e he o ho := hd.output.contains (Generation.expression?_eq.1 he) ho
  users id u := by
    rw [hd.output.users, Generation.mem_operands_iff]
  users_nodup := hd.output.nodup_users
  provenance id p hp := SortedSet.isEmpty_eq_false_iff.2 (hd.output.origin hp)
  mapped := hd.mapped

theorem healthy_start {g : Generation α} (hg : g.validate = .ok ()) (deduplicate : Bool)
    (journal : Journal) : (start g deduplicate journal).Healthy := by
  exact ⟨fun id p hp => Generation.origin_of_validate hg hp, Generation.neat_empty _ _, by simp [start]⟩

variable [Scalar α]

/-- On a valid graph any calls leave a draft well-formed, those that fail included. -/
theorem wellFormed_afterAll {g : Generation α} (hg : g.validate = .ok ()) (deduplicate : Bool)
    (journal : Journal) (calls : List (Call α)) :
    ((start g deduplicate journal).afterAll calls).WellFormed :=
  ((healthy_start hg deduplicate journal).afterAll calls).wellFormed

end Draft

namespace Sample

/-- The sum of two numbers is at least the first of them. -/
def sum : Blueprint Float :=
  let b := (Blueprint.empty.addParameter .real).2
  let b := (b.addParameter .real).2
  let b := (b.addExpression .add [.nth 0, .nth 1]).2
  (b.addAssertion .greaterOrEqual [.nth 2, .nth 0]).2

/-- Copies everything, fails to create an expression, and takes out one of the numbers. -/
def calls : List (Call Float) :=
  [.copy (.nth 3), .createExpression .add [.literal (.number 1), .output .null] false [.nth 0],
    .remove (.nth 1)]

theorem sum_validate : sum.generation.validate = .ok () := rfl

end Sample

/-- What the failed call leaves and what the cascade takes out do not matter. -/
theorem Draft.wellFormed_afterAll_sum : Sample.sum.generation.validate = .ok () ∧
    ((start Sample.sum.generation false .empty).afterAll Sample.calls).output.order
      = [.nth 0, .nth 4] ∧
    ((start Sample.sum.generation false .empty).afterAll Sample.calls).WellFormed :=
  ⟨Sample.sum_validate, by decide +kernel, wellFormed_afterAll Sample.sum_validate _ _ _⟩

end ParameterSolver
