import ParameterSolver.Proofs.Propagation.BottomUp
import ParameterSolver.Proofs.ValueSet.Operations

/-! Evaluation of the operators that combine sets. On exact operands it gives the set itself, on others
one that holds whatever the operator makes of parts of them. An operand without elements is looked at
before the operator is, and leaves no elements, which is right for intersections only. From the bottom of a
graph of sets that are all known exactly, an operator makes of them what its operation makes of their
points, but for sets without elements. -/

namespace ParameterSolver

open Scalar Scalar.Ordered

namespace Operator

variable {β : Type} {op op' : Operator} {a b : Set β} {l m : List (Set β)}

theorem foldl_onSets_subset
    (hop : ∀ a a' b b' : Set β, a ⊆ a' → b ⊆ b' → op.onSets a b ⊆ op'.onSets a' b')
    (h : List.Forall₂ (· ⊆ ·) l m) (hab : a ⊆ b) : l.foldl op.onSets a ⊆ m.foldl op'.onSets b := by
  induction h generalizing a b with
  | nil => exact hab
  | cons hx _ ih => exact ih (hop _ _ _ _ hab hx)

theorem overSets_subset
    (hop : ∀ a a' b b' : Set β, a ⊆ a' → b ⊆ b' → op.onSets a b ⊆ op'.onSets a' b')
    (h : List.Forall₂ (· ⊆ ·) l m) : op.overSets l ⊆ op'.overSets m := by
  cases h with
  | nil => exact subset_rfl
  | cons hx h => exact foldl_onSets_subset hop h hx

/-- A difference is a part of what is taken away from. -/
theorem foldl_difference_subset : l.foldl difference.onSets a ⊆ a := by
  induction l generalizing a with
  | nil => exact subset_rfl
  | cons b l ih => exact ih.trans Set.sdiff_subset

theorem foldl_intersection_empty : l.foldl intersection.onSets (∅ : Set β) = ∅ := by
  induction l with
  | nil => rfl
  | cons b l ih => rw [List.foldl_cons, onSets, Set.empty_inter, ih]

theorem foldl_intersection_of_mem (h : ∅ ∈ l) : l.foldl intersection.onSets a = ∅ := by
  induction l generalizing a with
  | nil => cases h
  | cons b l ih =>
    rcases List.mem_cons.1 h with rfl | h
    · rw [List.foldl_cons, onSets, Set.inter_empty, foldl_intersection_empty]
    · exact ih h

/-- An intersection with a set without elements has none. -/
theorem overSets_intersection_of_mem (h : ∅ ∈ l) : intersection.overSets l = ∅ := by
  cases l with
  | nil => rfl
  | cons b l =>
    rcases List.mem_cons.1 h with rfl | h
    · exact foldl_intersection_empty
    · exact foldl_intersection_of_mem h

end Operator

namespace Propagation

variable {α : Type} [Scalar α] {op : Operator} {l : List (ValueSet α)} {exact : List Bool}
  {k : Family}

theorem has_set_of_keepsExactness (hop : keepsExactness op) :
    op.has .logic = false ∧ op.has .relation = false ∧ op.has .set = true ∧
      op.isPredicate = false := by
  cases op <;> cases hop <;> decide

theorem evaluate?_of_isEmpty (hop : keepsExactness op) (h : ∃ s ∈ l, s.isEmpty) (exact : List Bool) :
    ∃ s ∈ l, s.isEmpty ∧ evaluate? op (l.map some) exact = some s := by
  obtain ⟨-, -, -, hpred⟩ := has_set_of_keepsExactness hop
  have hall : (l.map some).filterMap id = l := by simp
  obtain ⟨s, hs⟩ := Option.isSome_iff_exists.1 (List.find?_isSome.2 h)
  refine ⟨s, List.mem_of_find?_eq_some hs, List.find?_some hs, ?_⟩
  unfold evaluate?
  rw [hall, hs]
  simp [hpred]

theorem evaluate?_of_nonempty (h : ∀ s ∈ l, s.isEmpty = false) :
    evaluate? op (l.map some) exact = (evaluateKnown? op l exact).or (unknown? op) := by
  have hall : (l.map some).filterMap id = l := by simp
  have hnone : l.find? ValueSet.isEmpty = none := List.find?_eq_none.2 (by simpa using h)
  have hknown : (l.map some).mapM id = some l := by
    rw [List.mapM_map]
    exact List.mapM_pure.trans (congrArg some (List.map_id l))
  unfold evaluate?
  rw [hall, hnone]
  simp only [hknown]

theorem evaluate?_of_fed (hop : keepsExactness op) (h : ∀ s ∈ l, s.isEmpty = false) :
    evaluate? op (l.map some) exact = sets? op l exact := by
  obtain ⟨hlogic, hrelation, hset, hpred⟩ := has_set_of_keepsExactness hop
  rw [evaluate?_of_nonempty h]
  simp [evaluateKnown?, hlogic, hrelation, hset, unknown?, hpred]

/-- On exact operands the operator is the operation of its name, from the left. -/
theorem sets?_of_exact (hop : keepsExactness op) (h : ∀ x ∈ exact, x = true) :
    sets? op l exact = reduce? (fun a b => (ValueSet.operation op a b).toOption) l := by
  have hall : exact.all id = true := List.all_eq_true.2 h
  unfold sets?
  rw [hall]
  cases op <;> cases hop <;> rfl

theorem sets?_union : sets? .union l exact =
    reduce? (fun a b => (ValueSet.operation .union a b).toOption) l := by
  unfold sets?
  cases exact.all id <;> rfl

theorem sets?_intersection : sets? .intersection l exact =
    reduce? (fun a b => (ValueSet.operation .intersection a b).toOption) l := by
  unfold sets?
  cases exact.all id <;> rfl

variable [Ordered α] [Scalar.Reading α] {f : ValueSet α → ValueSet α → Option (ValueSet α)}
  {s : ValueSet α}

/-- The steps of an operation over sets of one family all succeed, so their result is that of the
operation on the points. -/
theorem exists_foldlM (hop : keepsExactness op) (hs : s.Canonical)
    (hl : ∀ t ∈ l, t.Canonical ∧ t.family = s.family) :
    ∃ v, l.foldlM (fun a b => (ValueSet.operation op a b).toOption) s = some v ∧ v.Canonical ∧
      v.family = s.family ∧ v.points = (l.map ValueSet.points).foldl op.onSets s.points := by
  induction l generalizing s with
  | nil => exact ⟨s, rfl, hs, rfl, rfl⟩
  | cons t l ih =>
    obtain ⟨ht, hfamily⟩ := hl t List.mem_cons_self
    obtain ⟨u, hok, hu, hfu, hpu⟩ := ValueSet.results_operation hop hs ht hfamily.symm
    have hrest : ∀ x ∈ l, x.Canonical ∧ x.family = u.family := by
      intro x hx
      rw [hfu]
      exact hl x (List.mem_cons_of_mem _ hx)
    obtain ⟨v, hv, hcanonical, hfv, hpv⟩ := ih hu hrest
    refine ⟨v, ?_, hcanonical, hfv.trans hfu, ?_⟩
    · rw [List.foldlM_cons, hok]
      exact hv
    · rw [hpv, hpu]
      rfl

theorem exists_reduce? (hop : keepsExactness op) (hne : l ≠ [])
    (hl : ∀ t ∈ l, t.Canonical ∧ t.family = k) :
    ∃ v, reduce? (fun a b => (ValueSet.operation op a b).toOption) l = some v ∧ v.Canonical ∧
      v.family = k ∧ v.points = op.overSets (l.map ValueSet.points) := by
  cases l with
  | nil => exact absurd rfl hne
  | cons s l =>
    obtain ⟨hs, rfl⟩ := hl s List.mem_cons_self
    exact exists_foldlM hop hs fun t ht => hl t (List.mem_cons_of_mem _ ht)

/-- The sets that operands may stand for: the known ones where these are exact, parts of them
elsewhere. -/
def Within (l : List (ValueSet α × Bool)) (X : List (Set (Value ℝ))) : Prop :=
  List.Forall₂ (fun x Y => Y ⊆ x.1.points ∧ (x.2 = true → Y = x.1.points)) l X

variable {m : List (ValueSet α × Bool)} {X : List (Set (Value ℝ))}

omit [Ordered α] in
theorem Within.subset (h : Within m X) : List.Forall₂ (· ⊆ ·) X (m.map fun x => x.1.points) := by
  rw [List.forall₂_map_right_iff]
  exact (h.imp fun _ _ hx => hx.1).flip

omit [Ordered α] in
theorem Within.eq (h : Within m X) (hm : ∀ x ∈ m, x.2 = true) :
    X = m.map fun x => x.1.points := by
  induction h with
  | nil => rfl
  | cons hx _ ih =>
    rw [List.map_cons, ← hx.2 (hm _ List.mem_cons_self),
      ← ih fun x hx => hm x (List.mem_cons_of_mem _ hx)]

/-- A value for an operator over known sets: the set itself if these are exact, and one that holds
whatever the operator makes of the sets that the operands may stand for. -/
structure Approximates (op : Operator) (k : Family) (m : List (ValueSet α × Bool))
    (v : ValueSet α) : Prop where
  canonical : v.Canonical
  family : v.family = k
  exact : (∀ x ∈ m, x.2 = true) → v.points = op.overSets (m.map fun x => x.1.points)
  encloses : ∀ X, Within m X → op.overSets X ⊆ v.points

theorem exists_sets?_of_exact (hop : keepsExactness op) (hne : m ≠ [])
    (hm : ∀ x ∈ m, x.1.Canonical ∧ x.1.family = k) (hexact : ∀ x ∈ m, x.2 = true) :
    ∃ v, sets? op (m.map (·.1)) (m.map (·.2)) = some v ∧ Approximates op k m v := by
  obtain ⟨v, hv, hcanonical, hfamily, hpoints⟩ :=
    exists_reduce? hop (mt List.map_eq_nil_iff.1 hne) (List.forall_mem_map.2 hm)
  rw [List.map_map] at hpoints
  refine ⟨v, (sets?_of_exact hop (List.forall_mem_map.2 hexact)).trans hv, hcanonical, hfamily,
    fun _ => hpoints, fun X hX => ?_⟩
  rw [hX.eq hexact]
  exact hpoints.ge

/-- Another operator may stand in for one, if it is monotone and gives more. -/
theorem exists_sets?_of_le (op' : Operator) (hop : keepsExactness op') (hne : m ≠ [])
    (hm : ∀ x ∈ m, x.1.Canonical ∧ x.1.family = k) (hexact : ¬∀ x ∈ m, x.2 = true)
    (heq : sets? op (m.map (·.1)) (m.map (·.2)) =
      reduce? (fun a b => (ValueSet.operation op' a b).toOption) (m.map (·.1)))
    (hle : ∀ a a' b b' : Set (Value ℝ), a ⊆ a' → b ⊆ b' → op.onSets a b ⊆ op'.onSets a' b') :
    ∃ v, sets? op (m.map (·.1)) (m.map (·.2)) = some v ∧ Approximates op k m v := by
  obtain ⟨v, hv, hcanonical, hfamily, hpoints⟩ :=
    exists_reduce? hop (mt List.map_eq_nil_iff.1 hne) (List.forall_mem_map.2 hm)
  rw [List.map_map] at hpoints
  refine ⟨v, heq.trans hv, hcanonical, hfamily, fun h => absurd h hexact, fun X hX => ?_⟩
  rw [hpoints]
  exact Operator.overSets_subset hle hX.subset

/-- With an operand that is not exact, a difference is taken to be the first set and a symmetric
difference the union. -/
theorem exists_sets? (hop : keepsExactness op) (hne : m ≠ [])
    (hm : ∀ x ∈ m, x.1.Canonical ∧ x.1.family = k) :
    ∃ v, sets? op (m.map (·.1)) (m.map (·.2)) = some v ∧ Approximates op k m v := by
  by_cases hexact : ∀ x ∈ m, x.2 = true
  · exact exists_sets?_of_exact hop hne hm hexact
  have hall : (m.map (·.2)).all id = false := by simpa using hexact
  match op, hop with
  | .union, _ =>
    apply exists_sets?_of_le .union rfl hne hm hexact sets?_union
    exact fun _ _ _ _ => Set.union_subset_union
  | .intersection, _ =>
    apply exists_sets?_of_le .intersection rfl hne hm hexact sets?_intersection
    exact fun _ _ _ _ => Set.inter_subset_inter
  | .symmetricDifference, _ =>
    apply exists_sets?_of_le .union rfl hne hm hexact
    · unfold sets?
      rw [hall]
      rfl
    · exact fun _ _ _ _ ha hb => symmDiff_le_sup.trans (Set.union_subset_union ha hb)
  | .difference, _ =>
    obtain ⟨x, m, rfl⟩ := List.exists_cons_of_ne_nil hne
    obtain ⟨hcanonical, hfamily⟩ := hm x List.mem_cons_self
    refine ⟨x.1, ?_, hcanonical, hfamily, fun h => absurd h hexact, fun X hX => ?_⟩
    · unfold sets?
      rw [hall]
      rfl
    · cases hX with
      | cons hx _ => exact Operator.foldl_difference_subset.trans hx.1

theorem encloses_of_isEmpty {x : ValueSet α × Bool} (hm : ∀ x ∈ m, x.1.Canonical)
    (hx : x ∈ m) (hempty : x.1.isEmpty) (hX : Within m X)
    (hop : op = .intersection ∨ op = .difference ∧ m.head? = some x) : op.overSets X = ∅ := by
  have hpoints : x.1.points = ∅ := (ValueSet.isEmpty_iff_points (hm x hx)).1 hempty
  rcases hop with rfl | ⟨rfl, hhead⟩
  · apply Operator.overSets_intersection_of_mem
    obtain ⟨i, hi, rfl⟩ := List.mem_iff_getElem.1 hx
    have hlen : i < X.length := hX.length_eq ▸ hi
    have hsub := (List.forall₂_iff_get.1 hX).2 i hi hlen
    rw [← Set.subset_empty_iff.1 (hpoints ▸ hsub.1)]
    exact List.getElem_mem hlen
  · obtain ⟨m', rfl⟩ := List.head?_eq_some_iff.1 hhead
    cases hX with
    | cons hY _ =>
      rw [hpoints] at hY
      exact Set.subset_empty_iff.1 (Operator.foldl_difference_subset.trans hY.1)

/-- An operator over known sets of one family has a value of the family. Without an operand that is
empty the value approximates the operator. An empty operand makes the value empty, which is right for an
intersection and for a difference that starts with it. -/
theorem approximates_evaluate? (hop : keepsExactness op) (hne : m ≠ [])
    (hm : ∀ x ∈ m, x.1.Canonical ∧ x.1.family = k) :
    ∃ v, evaluate? op (m.map fun x => some x.1) (m.map (·.2)) = some v ∧
      ((∃ x ∈ m, x.1.isEmpty) → v.Canonical ∧ v.family = k ∧ v.points = ∅) ∧
      (op = .intersection ∨ (op = .difference ∧ ∃ x ∈ m.head?, x.1.isEmpty) ∨
        (∀ x ∈ m, x.1.isEmpty = false) → Approximates op k m v) := by
  have hmap : (m.map fun x => some x.1) = (m.map (·.1)).map some := by simp
  rw [hmap]
  by_cases hempty : ∃ x ∈ m, x.1.isEmpty
  · have hsome : ∃ s ∈ m.map (·.1), s.isEmpty := by simpa using hempty
    obtain ⟨s, hs, hse, hv⟩ := evaluate?_of_isEmpty hop hsome (m.map (·.2))
    obtain ⟨y, hy, rfl⟩ := List.mem_map.1 hs
    obtain ⟨hcanonical, hfamily⟩ := hm y hy
    have hpoints : y.1.points = ∅ := (ValueSet.isEmpty_iff_points hcanonical).1 hse
    refine ⟨y.1, hv, fun _ => ⟨hcanonical, hfamily, hpoints⟩, fun h => ?_⟩
    have hnone : ∀ X, Within m X → op.overSets X = ∅ := by
      intro X hX
      rcases h with rfl | ⟨rfl, x, hx, hxe⟩ | h
      · exact encloses_of_isEmpty (fun x hx => (hm x hx).1) hy hse hX (.inl rfl)
      · exact encloses_of_isEmpty (fun x hx => (hm x hx).1) (List.mem_of_mem_head? hx) hxe hX
          (.inr ⟨rfl, hx⟩)
      · rw [h y hy] at hse
        cases hse
    refine ⟨hcanonical, hfamily, fun _ => ?_, fun X hX => ?_⟩
    · have hself : Within m (m.map fun x => x.1.points) := by
        unfold Within
        rw [List.forall₂_map_right_iff, List.forall₂_same]
        exact fun _ _ => ⟨subset_rfl, fun _ => rfl⟩
      rw [hpoints, hnone _ hself]
    · rw [hnone X hX]
      exact Set.empty_subset _
  · have hfed : ∀ s ∈ m.map (·.1), s.isEmpty = false := by simpa using hempty
    obtain ⟨v, hv, happrox⟩ := exists_sets? hop hne hm
    exact ⟨v, (evaluate?_of_fed hop hfed).trans hv, fun h => absurd h hempty, fun _ => happrox⟩

/-- Of the two truth values without a set that may be smaller both are left. -/
theorem approximates_evaluate?_truths :
    keepsExactness .difference ∧ ∃ v : ValueSet Float,
      evaluate? .difference [some (.boolean .all), some (.boolean (.of true))] [true, false] = some v ∧
        Approximates .difference .truths [(.boolean .all, true), (.boolean (.of true), false)] v := by
  have hm : ∀ x ∈ [((.boolean .all : ValueSet Float), true), (.boolean (.of true), false)],
      x.1.Canonical ∧ x.1.family = .truths := by
    simp [ValueSet.Canonical, ValueSet.family]
  have hop : keepsExactness .difference := rfl
  obtain ⟨v, hv, -, happrox⟩ := approximates_evaluate? hop (by simp) hm
  exact ⟨hop, v, hv, happrox (.inr (.inr (by decide)))⟩

/-- An empty operand of a union makes the value empty, though the union is not. -/
theorem evaluate?_union_none :
    evaluate? .union [some (.boolean .none : ValueSet Float), some (.boolean (.of true))]
        [true, true] = some (.boolean .none) ∧
      (Operator.union.overSets [(.boolean .none : ValueSet Float).points,
        (.boolean (.of true) : ValueSet Float).points] = {.boolean true}) ∧
      (.boolean .none : ValueSet Float).points = ∅ := by
  have hnone : (.boolean .none : ValueSet Float).points = ∅ :=
    (ValueSet.isEmpty_iff_points (s := .boolean .none) trivial).1 rfl
  refine ⟨rfl, ?_, hnone⟩
  rw [hnone, Operator.overSets, List.foldl_cons, List.foldl_nil, Operator.onSets, Set.empty_union]
  ext x
  cases x <;> simp [ValueSet.points, Truths.mem_def, Truths.contains, Truths.of]

end Propagation

namespace Operator

variable {β : Type} {op : Operator} {l : List (Set β)}

/-- What evaluation makes of exact sets: if one of them has no elements, nothing is left. -/
def onFed (op : Operator) (l : List (Set β)) : Set β := {x | ∅ ∉ l ∧ x ∈ op.overSets l}

theorem onFed_of_mem (h : ∅ ∈ l) : op.onFed l = ∅ :=
  Set.eq_empty_of_forall_notMem fun _ hx => hx.1 h

theorem onFed_of_notMem (h : ∅ ∉ l) : op.onFed l = op.overSets l :=
  Set.ext fun _ => and_iff_right h

end Operator

/-- A node means the set that evaluation makes of the sets of the literals. -/
def Interpretation.extents {α : Type} [Scalar α] [Scalar.Reading α] :
    Interpretation α (Set (Value ℝ)) := ⟨ValueSet.points, Operator.onFed⟩

namespace Estimate

open Propagation

variable {α : Type} [Scalar α] [Scalar.Ordered α] [Scalar.Reading α] {k : Family} {op : Operator}
  {r r' : Estimate α} {rs : List (Estimate α)} {a : Set (Value ℝ)} {l : List (Set (Value ℝ))}

/-- The node is known to be exactly that set of the family. -/
structure Shows (k : Family) (r : Estimate α) (a : Set (Value ℝ)) : Prop where
  exact : r.exact = true
  value : ∃ s, r.value = some s ∧ s.Canonical ∧ s.family = k ∧ s.points = a

omit [Scalar.Ordered α] in
theorem shows_given {s : ValueSet α} (hs : s.Canonical) :
    (given s).Shows s.family s.points := ⟨rfl, s, rfl, hs, rfl, rfl⟩

omit [Scalar.Ordered α] in
theorem exists_sets (h : List.Forall₂ (Shows k) rs l) :
    ∃ ss : List (ValueSet α), rs.map value = ss.map some ∧ l = ss.map ValueSet.points ∧
      ∀ s ∈ ss, s.Canonical ∧ s.family = k := by
  induction h with
  | nil => exact ⟨[], rfl, rfl, by simp⟩
  | cons hr _ ih =>
    obtain ⟨s, hv, hs, hfamily, rfl⟩ := hr.value
    obtain ⟨ss, hvs, rfl, hss⟩ := ih
    exact ⟨s :: ss, by simp [hv, hvs], rfl, List.forall_mem_cons.2 ⟨⟨hs, hfamily⟩, hss⟩⟩

omit [Scalar.Ordered α] in
theorem all_exact (h : List.Forall₂ (Shows k) rs l) : ∀ x ∈ rs.map exact, x = true := by
  induction h with
  | nil => simp
  | cons hr _ ih => exact List.forall_mem_cons.2 ⟨hr.exact, ih⟩

/-- The operators on sets keep to what evaluation makes of sets. -/
theorem Shows.combine (hop : keepsExactness op) (hne : rs ≠ []) (h : List.Forall₂ (Shows k) rs l) :
    (combine op rs).Shows k (op.onFed l) := by
  obtain ⟨ss, hvs, rfl, hss⟩ := exists_sets h
  have hall := all_exact h
  have hss' : ss ≠ [] := by
    rintro rfl
    exact hne (List.map_eq_nil_iff.1 hvs)
  refine ⟨?_, ?_⟩
  · rw [Estimate.combine, hop, Bool.true_and, List.all_eq_true]
    exact fun r hr => hall _ (List.mem_map_of_mem hr)
  · rw [Estimate.combine, hvs]
    by_cases hempty : ∃ s ∈ ss, s.isEmpty
    · obtain ⟨s, hs, hse, hv⟩ := evaluate?_of_isEmpty hop hempty (rs.map Estimate.exact)
      obtain ⟨hc, hfamily⟩ := hss s hs
      have hpoints : s.points = ∅ := (ValueSet.isEmpty_iff_points hc).1 hse
      refine ⟨s, hv, hc, hfamily, ?_⟩
      rw [hpoints, Operator.onFed_of_mem (List.mem_map.2 ⟨s, hs, hpoints⟩)]
    · have hfed : ∀ s ∈ ss, s.isEmpty = false := by simpa using hempty
      obtain ⟨v, hv, hc, hfamily, hpoints⟩ := exists_reduce? hop hss' hss
      refine ⟨v, (evaluate?_of_fed hop hfed).trans ((sets?_of_exact hop hall).trans hv), hc, hfamily, ?_⟩
      rw [hpoints, Operator.onFed_of_notMem]
      intro hmem
      obtain ⟨s, hs, hpoints⟩ := List.mem_map.1 hmem
      have hse := hfed s hs
      rw [(ValueSet.isEmpty_iff_points (hss s hs).1).2 hpoints] at hse
      cases hse

end Estimate

end ParameterSolver
