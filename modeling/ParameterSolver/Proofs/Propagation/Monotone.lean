import ParameterSolver.Propagation.Evaluate
import ParameterSolver.Proofs.ValueSet.Points

/-! Evaluation of predicates on smaller sets. Where each operand is known to lie in a part of a set, a
predicate has no truth value that it does not have on the whole sets. Membership is the exception: it
looks at the set itself, which has to be the same. -/

namespace ParameterSolver

open Scalar Scalar.Ordered Scalar.Reading

theorem forall₂_mapM {β γ β' γ' : Type} {R : β' → β → Prop} {S : γ' → γ → Prop} {f : β → Option γ}
    {f' : β' → Option γ'} (hf : ∀ a' a b, R a' a → f a = some b → ∃ b', f' a' = some b' ∧ S b' b)
    {l : List β} {l' : List β'} {m : List γ} (h : List.Forall₂ R l' l) (hm : l.mapM f = some m) :
    ∃ m', l'.mapM f' = some m' ∧ List.Forall₂ S m' m := by
  induction h generalizing m with
  | nil =>
    cases hm
    exact ⟨[], rfl, .nil⟩
  | @cons a' a l' l ha _ ih =>
    rw [List.mapM_cons] at hm
    obtain ⟨b, hb, hm⟩ := Option.bind_eq_some_iff.1 hm
    obtain ⟨m, hl, hm⟩ := Option.bind_eq_some_iff.1 hm
    cases hm
    obtain ⟨b', hb', hS⟩ := hf a' a b ha hb
    obtain ⟨m', hm', hS'⟩ := ih hl
    refine ⟨b' :: m', ?_, .cons hS hS'⟩
    rw [List.mapM_cons, hb', hm']
    rfl

namespace Truths

variable {s s' t t' : Truths} {b : Bool}

theorem isSubset_all (s : Truths) : s.isSubset all := isSubset_iff.2 fun b _ => mem_all b

theorem not_isSubset (h : s'.isSubset s) : s'.not.isSubset s.not := by
  rw [isSubset_iff] at h ⊢
  intro b hb
  rw [← b.not_not, mem_not] at hb ⊢
  exact h _ hb

theorem inter_isSubset (h : s'.isSubset s) : (s'.inter t).isSubset (s.inter t) := by
  rw [isSubset_iff] at h ⊢
  intro b hb
  rw [mem_inter] at hb ⊢
  exact ⟨h b hb.1, hb.2⟩

theorem or_isSubset (hs : s'.isSubset s) (ht : t'.isSubset t) : (s'.or t').isSubset (s.or t) := by
  obtain ⟨f, g⟩ := s
  obtain ⟨f', g'⟩ := s'
  obtain ⟨p, q⟩ := t
  obtain ⟨p', q'⟩ := t'
  revert f g f' g' p q p' q'
  decide

theorem eq_of_isSubset_of (h : s.isSubset (of b)) (hs : s.isEmpty = false) : s = of b := by
  obtain ⟨f, g⟩ := s
  revert f g b
  decide

theorem union_isSubset (hs : s'.isSubset s) (ht : t'.isSubset t) :
    (s'.union t').isSubset (s.union t) := by
  rw [isSubset_iff] at hs ht ⊢
  intro b hb
  rw [mem_union] at hb ⊢
  exact hb.imp (hs b) (ht b)

theorem none_isSubset (s : Truths) : none.isSubset s := by
  rw [isSubset_iff]
  rintro ⟨⟩ ⟨⟩

theorem isSubset_refl (s : Truths) : s.isSubset s := isSubset_iff.2 fun _ h => h

theorem isSubset_trans (h : s.isSubset t) (h' : t.isSubset t') : s.isSubset t' := by
  rw [isSubset_iff] at *
  exact fun b hb => h' b (h b hb)

theorem image_isSubset {f : List Bool → Bool} {l l' : List Truths}
    (h : List.Forall₂ (fun s' s => s'.isSubset s) l' l) : (image f l').isSubset (image f l) := by
  induction h generalizing f with
  | nil => exact isSubset_refl _
  | @cons s' s l' l hs _ ih =>
    have hpart (b b' : Bool) (hb : b' → b) (f : List Bool → Bool) :
        (if b' then image f l' else none).isSubset (if b then image f l else none) := by
      cases b' with
      | false => exact none_isSubset _
      | true =>
        rw [if_pos rfl, if_pos (hb rfl)]
        exact ih
    have hmem := isSubset_iff.1 hs
    exact union_isSubset (hpart _ _ (hmem false) _) (hpart _ _ (hmem true) _)

theorem foldl_or_isSubset {l l' : List Truths} (hs : s'.isSubset s)
    (h : List.Forall₂ (fun s' s => s'.isSubset s) l' l) :
    (l'.foldl or s').isSubset (l.foldl or s) := by
  induction h generalizing s s' with
  | nil => exact hs
  | cons ht _ ih => exact ih (or_isSubset hs ht)

end Truths

variable {α : Type} [Scalar α] [Ordered α] [Reading α]

namespace ValueSet

variable {s s' t t' u : ValueSet α} {b : Truths}

/-- A part of a set that is not empty, both in normal form. -/
structure PartOf (s t : ValueSet α) : Prop where
  canonical : s.Canonical
  whole : t.Canonical
  family : s.family = t.family
  subset : s.points ⊆ t.points
  nonempty : s.isEmpty = false

omit [Ordered α] in
theorem PartOf.refl (hs : s.Canonical) (h : s.isEmpty = false) : s.PartOf s :=
  ⟨hs, hs, rfl, subset_rfl, h⟩

theorem PartOf.exists_point (h : s.PartOf t) : s.points.Nonempty := by
  rw [Set.nonempty_iff_ne_empty]
  exact fun hempty => by simpa [h.nonempty] using (isEmpty_iff_points h.canonical).2 hempty

theorem PartOf.whole_nonempty (h : s.PartOf t) : t.isEmpty = false := by
  rw [Bool.eq_false_iff, Ne, isEmpty_iff_points h.whole]
  exact (h.exists_point.mono h.subset).ne_empty

theorem PartOf.inter (hs : s'.PartOf s) (ht : t'.PartOf t) (h : s.inter t = .ok u) :
    ∃ u', s'.inter t' = .ok u' ∧ u'.points ⊆ u.points := by
  obtain ⟨u', hu'⟩ := exists_inter (hs.family.trans ((family_of_inter h).1.trans ht.family.symm))
  refine ⟨u', hu', ?_⟩
  rw [points_inter hs.canonical ht.canonical hu', points_inter hs.whole ht.whole h]
  exact Set.inter_subset_inter hs.subset ht.subset

theorem isEmpty_of_subset (hs : s.Canonical) (ht : t.Canonical) (h : s.points ⊆ t.points)
    (hempty : t.isEmpty) : s.isEmpty := by
  rw [isEmpty_iff_points hs]
  rw [isEmpty_iff_points ht] at hempty
  exact Set.subset_empty_iff.1 (hempty ▸ h)

/-- All that is left of a single value is that value. -/
theorem PartOf.points_eq (h : s.PartOf t) (ht : t.isSingleton) : s.points = t.points := by
  obtain ⟨x, hx⟩ := (isSingleton_iff_points h.whole).1 ht
  rw [hx]
  exact (Set.subset_singleton_iff_eq.1 (hx ▸ h.subset)).resolve_left h.exists_point.ne_empty

theorem PartOf.isSingleton (h : s.PartOf t) (ht : t.isSingleton) : s.isSingleton := by
  rw [isSingleton_iff_points h.canonical, h.points_eq ht]
  exact (isSingleton_iff_points h.whole).1 ht

omit [Ordered α] in
theorem PartOf.exists_boolean (h : s.PartOf (boolean b)) : ∃ b', s = boolean b' ∧ b'.isSubset b := by
  have hfamily := h.family
  cases s with
  | boolean b' =>
    refine ⟨b', rfl, Truths.isSubset_iff.2 fun x hx => ?_⟩
    exact (Set.image_subset_image_iff boolean_injective).1 h.subset hx
  | numeric q => cases hfamily
  | enum c => cases hfamily
  | text x => cases hfamily

omit [Ordered α] in
theorem PartOf.isTrue (h : s.PartOf t) (ht : t.isTrue) : s.isTrue := by
  cases t with
  | boolean b =>
    obtain ⟨b', rfl, hb⟩ := h.exists_boolean
    obtain rfl : b = .of true := eq_of_beq ht
    exact beq_of_eq (Truths.eq_of_isSubset_of hb h.nonempty)
  | numeric q => cases ht
  | enum c => cases ht
  | text x => cases ht

end ValueSet

namespace Propagation

open ValueSet

variable {a a' b b' : ValueSet α} {t : Truths}

theorem equals?_isSubset (ha : a'.PartOf a) (hb : b'.PartOf b) (h : equals? a b = some t) :
    ∃ t', equals? a' b' = some t' ∧ t'.isSubset t := by
  obtain ⟨u, hu, ht⟩ := Option.bind_eq_some_iff.1 h
  cases hab : a.inter b with
  | error => simp [hab, Except.toOption] at hu
  | ok v =>
    obtain rfl : v = u := by simpa [hab, Except.toOption] using hu
    cases ht
    obtain ⟨v', hv', hsub⟩ := ha.inter hb hab
    refine ⟨⟨!(a'.isSingleton && b'.isSingleton) || v'.isEmpty, !v'.isEmpty⟩, ?_, ?_⟩
    · simp [equals?, hv', Except.toOption]
    · have hempty : v.isEmpty → v'.isEmpty :=
        isEmpty_of_subset (canonical_inter hv') (canonical_inter hab) hsub
      rw [Truths.isSubset_iff]
      rintro ⟨⟩ h
      · -- two values that are certain and alike stay so
        simp only [Truths.mem_def, Truths.contains, Bool.false_eq_true, if_false, Bool.or_eq_true,
          Bool.not_eq_true'] at h ⊢
        by_contra hcertain
        rw [not_or, Bool.not_eq_false, Bool.and_eq_true] at hcertain
        obtain ⟨⟨hsa, hsb⟩, hne⟩ := hcertain
        have hpoints : v'.points = v.points := by
          rw [points_inter ha.canonical hb.canonical hv', points_inter ha.whole hb.whole hab,
            ha.points_eq hsa, hb.points_eq hsb]
        rw [ha.isSingleton hsa, hb.isSingleton hsb] at h
        have hv := h.resolve_left (by simp)
        rw [isEmpty_iff_points (canonical_inter hv'), hpoints] at hv
        exact hne ((isEmpty_iff_points (canonical_inter hab)).2 hv)
      · simp only [Truths.mem_def, Truths.contains, if_true, Bool.not_eq_true'] at h ⊢
        exact Bool.eq_false_iff.2 fun hv => by simp [hempty hv] at h

theorem belongs?_isSubset {exact : Bool} (ha : a'.PartOf a) (hb : b.Canonical)
    (h : belongs? a b exact = some t) :
    ∃ t', belongs? a' b exact = some t' ∧ t'.isSubset t := by
  obtain ⟨u, hu, ht⟩ := Option.bind_eq_some_iff.1 h
  cases hab : a.inter b with
  | error => simp [hab, Except.toOption] at hu
  | ok v =>
    obtain rfl : v = u := by simpa [hab, Except.toOption] using hu
    have hfamily := (family_of_inter hab).1
    obtain ⟨v', hv'⟩ := exists_inter (ha.family.trans hfamily)
    have hpoints := points_inter ha.whole hb hab
    have hpoints' := points_inter ha.canonical hb hv'
    obtain ⟨c, hc, hcsub⟩ := isSubset_eq ha.whole hb hfamily
    obtain ⟨c', hc', hcsub'⟩ := isSubset_eq ha.canonical hb (ha.family.trans hfamily)
    have hle : c → c' := fun h => hcsub'.2 (ha.subset.trans (hcsub.1 h))
    by_cases hempty : v.isEmpty
    · have hempty' : v'.isEmpty := by
        refine isEmpty_of_subset (canonical_inter hv') (canonical_inter hab) ?_ hempty
        rw [hpoints, hpoints']
        exact Set.inter_subset_inter_left _ ha.subset
      rw [if_pos hempty] at ht
      cases ht
      exact ⟨.of false, by simp [belongs?, hv', hempty', Except.toOption], by decide⟩
    · rw [if_neg hempty, hc] at ht
      cases ht
      by_cases hempty' : v'.isEmpty
      · refine ⟨.of false, by simp [belongs?, hv', hempty', Except.toOption], ?_⟩
        -- a part of a set that is included has something in common with it
        have hout : c = false := by
          rw [Bool.eq_false_iff]
          intro hin
          have hsub := ha.subset.trans (hcsub.1 hin)
          rw [isEmpty_iff_points (canonical_inter hv'), hpoints',
            Set.inter_eq_left.2 hsub] at hempty'
          exact ha.exists_point.ne_empty hempty'
        simp [hout, Truths.isSubset, Truths.of]
      · refine ⟨⟨!(c' && (exact || b.isSingleton)), true⟩,
          by simp [belongs?, hv', hempty', hc', Except.toOption], ?_⟩
        rw [Truths.isSubset_iff]
        rintro ⟨⟩ h
        · simp only [Truths.mem_def, Truths.contains, Bool.false_eq_true, if_false,
            Bool.not_eq_true', Bool.and_eq_false_iff] at h ⊢
          exact h.imp (fun h => Bool.eq_false_iff.2 fun hin => by simp [hle hin] at h) id
        · rfl

omit [Ordered α] [Reading α] in
theorem exceeds?_eq_some_iff {p q : Quantities α} {strict : Bool} :
    exceeds? (numeric p) (numeric q) strict = some t ↔ p.unit.commensurable q.unit ∧
      ∃ x y z w, p.base.min? = some x ∧ p.base.max? = some y ∧ q.base.min? = some z ∧
        q.base.max? = some w ∧
        (if strict then ⟨x ≤ w, z < y⟩ else ⟨x < w, z ≤ y⟩ : Truths) = t := by
  simp only [exceeds?, quantities?, Option.bind_eq_bind, Option.bind_some]
  cases hunit : p.unit.commensurable q.unit <;> simp [Option.bind_eq_some_iff]

omit [Scalar α] [Ordered α] [Reading α] in
theorem exists_limits {s : Numbers α} (h : s.isEmpty = false) :
    ∃ x y, s.min? = some x ∧ s.max? = some y := by
  have hne : s.intervals ≠ [] := by
    intro hnil
    simp [Numbers.isEmpty, hnil] at h
  refine ⟨(s.intervals.head hne).lo.value, (s.intervals.getLast hne).hi.value, ?_, ?_⟩
  · rw [Numbers.min?, List.head?_eq_some_head hne]
    rfl
  · rw [Numbers.max?, List.getLast?_eq_some_getLast hne]
    rfl

/-- The ends of a part lie between those of the whole. -/
theorem exceeds?_isSubset {strict : Bool} (ha : a'.PartOf a) (hb : b'.PartOf b)
    (h : exceeds? a b strict = some t) : ∃ t', exceeds? a' b' strict = some t' ∧ t'.isSubset t := by
  cases a <;> try cases h
  cases b <;> try cases h
  rename_i p q
  have hp := ha.family
  have hq := hb.family
  cases a' <;> try cases hp
  cases b' <;> try cases hq
  rename_i p' q'
  have hpp : p'.base.points ⊆ p.base.points := (Set.image_subset_image_iff number_injective).1 ha.subset
  have hqq : q'.base.points ⊆ q.base.points := (Set.image_subset_image_iff number_injective).1 hb.subset
  obtain ⟨hunit, x, y, z, w, hx, hy, hz, hw, rfl⟩ := exceeds?_eq_some_iff.1 h
  obtain ⟨x', y', hx', hy'⟩ := exists_limits ha.nonempty
  obtain ⟨z', w', hz', hw'⟩ := exists_limits hb.nonempty
  have hxx := Numbers.min?_le_of_subset ha.canonical ha.whole hpp hx' hx
  have hyy := Numbers.le_max?_of_subset ha.canonical ha.whole hpp hy' hy
  have hzz := Numbers.min?_le_of_subset hb.canonical hb.whole hqq hz' hz
  have hww := Numbers.le_max?_of_subset hb.canonical hb.whole hqq hw' hw
  have hunit' : p'.unit.commensurable q'.unit := by
    simp only [MeasureUnit.commensurable, Family.numbers.injEq, family] at hp hq hunit ⊢
    rwa [hp, hq]
  refine ⟨_, exceeds?_eq_some_iff.2 ⟨hunit', x', y', z', w', hx', hy', hz', hw', rfl⟩, ?_⟩
  rw [Truths.isSubset_iff]
  cases strict with
  | true =>
    rintro ⟨⟩ h <;> simp only [Truths.mem_def, Truths.contains, if_true, Bool.false_eq_true, if_false,
      decide_eq_true_eq] at h ⊢
    · exact le_chain hxx (le_chain h hww)
    · exact le_lt_chain hzz (lt_le_chain h hyy)
  | false =>
    rintro ⟨⟩ h <;> simp only [Truths.mem_def, Truths.contains, if_true, Bool.false_eq_true, if_false,
      decide_eq_true_eq] at h ⊢
    · exact le_lt_chain hxx (lt_le_chain h hww)
    · exact le_chain hzz (le_chain h hyy)

variable {op : Operator} {known known' : List (ValueSet α)}

omit [Ordered α] in
theorem logic?_isSubset (h : List.Forall₂ (fun s' s => s'.PartOf s) known' known)
    (ht : logic? op known = some t) : ∃ t', logic? op known' = some t' ∧ t'.isSubset t := by
  obtain ⟨sets, hsets, ht⟩ := Option.bind_eq_some_iff.1 ht
  have hkind (s' s : ValueSet α) (b : Truths) (hs : s'.PartOf s) (hb : s.truths? = some b) :
      ∃ b', s'.truths? = some b' ∧ b'.isSubset b := by
    cases s <;> cases hb
    obtain ⟨b', rfl, hsub⟩ := hs.exists_boolean
    exact ⟨b', rfl, hsub⟩
  obtain ⟨sets', hsets', hsub⟩ := forall₂_mapM hkind h hsets
  unfold logic?
  rw [hsets', Option.bind_eq_bind, Option.bind_some]
  cases hsub with
  | nil => cases ht
  | cons hfirst hrest =>
    cases op <;> cases ht
    · exact ⟨_, rfl, Truths.foldl_or_isSubset hfirst hrest⟩
    · exact ⟨_, rfl, Truths.not_isSubset hfirst⟩
    all_goals exact ⟨_, rfl, Truths.image_isSubset (.cons hfirst hrest)⟩

/-- Where a test for membership has its set. -/
def setIndex? : Operator → Option ℕ
  | .isSubset => some 1
  | .isSuperset => some 0
  | _ => none

theorem relation?_isSubset {exact exact' : List Bool}
    (h : List.Forall₂ (fun s' s => s'.PartOf s) known' known)
    (hset : ∀ i, setIndex? op = some i →
      known'[i]? = known[i]? ∧ exact'.getD i false = exact.getD i false)
    (ht : relation? op known exact = some t) :
    ∃ t', relation? op known' exact' = some t' ∧ t'.isSubset t := by
  cases h with
  | nil => cases ht
  | @cons a' a l' l ha h =>
    cases h with
    | nil => cases ht
    | @cons b' b l' l hb h =>
      simp only [relation?] at ht ⊢
      cases op <;> try cases ht
      case is => exact equals?_isSubset ha hb ht
      case isSubset =>
        obtain ⟨hsame, hexact⟩ := hset 1 rfl
        obtain rfl : b' = b := Option.some.inj hsame
        simp only [hexact]
        exact belongs?_isSubset ha hb.canonical ht
      case isSuperset =>
        obtain ⟨hsame, hexact⟩ := hset 0 rfl
        obtain rfl : a' = a := Option.some.inj hsame
        simp only [hexact]
        exact belongs?_isSubset hb ha.canonical ht
      case greaterOrEqual => exact exceeds?_isSubset ha hb ht
      case lessOrEqual => exact exceeds?_isSubset hb ha ht
      case greaterThan => exact exceeds?_isSubset ha hb ht
      case lessThan => exact exceeds?_isSubset hb ha ht

omit [Ordered α] [Reading α] in
theorem evaluateKnown?_of_isPredicate {exact : List Bool} (hop : op.isPredicate) :
    evaluateKnown? op known exact =
      (if op.has .logic then logic? op known else relation? op known exact).map .boolean := by
  unfold evaluateKnown?
  revert hop
  cases op <;> first | exact fun _ => rfl | exact fun h => absurd h (by decide)

variable {ι : Type} {l : List ι} {values values' : ι → Option (ValueSet α)} {exact exact' : ι → Bool}

omit [Ordered α] [Reading α] in
/-- Something is known of a predicate whatever is known of its operands. -/
theorem evaluate?_of_isPredicate (hop : op.isPredicate) (l : List (Option (ValueSet α)))
    (exact : List Bool) : ∃ t, evaluate? op l exact = some (.boolean t) := by
  unfold evaluate?
  split
  · exact ⟨.none, by simp [hop]⟩
  · split
    · rename_i known _
      rw [evaluateKnown?_of_isPredicate hop, unknown?, if_pos hop]
      cases (if op.has .logic then logic? op known else relation? op known exact) with
      | none => exact ⟨.all, rfl⟩
      | some t => exact ⟨t, rfl⟩
    · exact ⟨.all, by simp [unknown?, hop]⟩

omit [Ordered α] [Reading α] in
/-- Only a test for membership asks whether a set is exact, and only of its set. -/
theorem evaluate?_congr_exact {flags flags' : List Bool} (hop : op.isPredicate)
    (h : ∀ i, setIndex? op = some i → flags'.getD i false = flags.getD i false)
    (l : List (Option (ValueSet α))) : evaluate? op l flags' = evaluate? op l flags := by
  have hknown (known : List (ValueSet α)) :
      evaluateKnown? op known flags' = evaluateKnown? op known flags := by
    rw [evaluateKnown?_of_isPredicate hop, evaluateKnown?_of_isPredicate hop]
    congr 2
    rcases known with _ | ⟨a, _ | ⟨b, rest⟩⟩
    · rfl
    · rfl
    · cases op <;> try rfl
      · simp only [relation?, h 1 rfl]
      · simp only [relation?, h 0 rfl]
  simp only [evaluate?, hknown]

omit [Ordered α] [Reading α] in
/-- Operands that all have some value are evaluated if all of them are known. -/
theorem evaluate?_eq (hfed : ∀ o ∈ l, ∀ s, values o = some s → s.isEmpty = false) {flags : List Bool} :
    evaluate? op (l.map values) flags = ((l.mapM values).bind (evaluateKnown? op · flags)).or
      (unknown? op) := by
  have hfind : ((l.map values).filterMap id).find? ValueSet.isEmpty = none := by
    refine List.find?_eq_none.2 fun s hs => ?_
    simp only [List.filterMap_map, List.mem_filterMap, Function.comp_apply, id_eq] at hs
    obtain ⟨o, ho, hs⟩ := hs
    simp [hfed o ho s hs]
  rw [evaluate?, hfind, List.mapM_map]
  dsimp only [Function.comp_def, id_eq]
  cases l.mapM values <;> rfl

theorem getElem?_of_mapM {β γ : Type} {f : β → Option γ} {l : List β} {m : List γ}
    (h : l.mapM f = some m) (i : ℕ) : m[i]? = l[i]?.bind f := by
  induction l generalizing m i with
  | nil =>
    cases h
    rfl
  | cons a l ih =>
    rw [List.mapM_cons] at h
    obtain ⟨b, hb, h⟩ := Option.bind_eq_some_iff.1 h
    obtain ⟨m, hl, h⟩ := Option.bind_eq_some_iff.1 h
    cases h
    cases i with
    | zero => exact hb.symm
    | succ i => simpa using ih hl i

/-- A predicate of parts of some sets has no truth value that it does not have on the sets. -/
theorem evaluate?_isSubset (hop : op.isPredicate)
    (h : ∀ o ∈ l, ∀ s, values o = some s → ∃ s', values' o = some s' ∧ s'.PartOf s)
    (hfed : ∀ o ∈ l, ∀ s, values' o = some s → s.isEmpty = false)
    (hset : ∀ i o, setIndex? op = some i → l[i]? = some o →
      values' o = values o ∧ exact' o = exact o) {t t' : Truths}
    (ht : evaluate? op (l.map values) (l.map exact) = some (.boolean t))
    (ht' : evaluate? op (l.map values') (l.map exact') = some (.boolean t')) : t'.isSubset t := by
  have hwhole : ∀ o ∈ l, ∀ s, values o = some s → s.isEmpty = false := by
    intro o ho s hs
    obtain ⟨s', -, hpart⟩ := h o ho s hs
    exact hpart.whole_nonempty
  rw [evaluate?_eq hwhole, unknown?, if_pos hop] at ht
  rw [evaluate?_eq hfed, unknown?, if_pos hop] at ht'
  cases hknown : l.mapM values with
  | none =>
    rw [hknown] at ht
    cases ht
    exact Truths.isSubset_all t'
  | some known =>
    have hstep (o' o : ι) (s : ValueSet α) (ho : o ∈ l ∧ o' = o) (hs : values o = some s) :
        ∃ s', values' o' = some s' ∧ s'.PartOf s := ho.2 ▸ h o ho.1 s hs
    have hsame : List.Forall₂ (fun o' o => o ∈ l ∧ o' = o) l l :=
      List.forall₂_same.2 fun o ho => ⟨ho, rfl⟩
    obtain ⟨known', hknown', hparts⟩ := forall₂_mapM hstep hsame hknown
    rw [hknown, Option.bind_some, evaluateKnown?_of_isPredicate hop] at ht
    rw [hknown', Option.bind_some, evaluateKnown?_of_isPredicate hop] at ht'
    cases hr : (if op.has .logic then logic? op known else relation? op known (l.map exact)) with
    | none =>
      rw [hr] at ht
      cases ht
      exact Truths.isSubset_all t'
    | some r =>
      obtain ⟨r', hr', hsub⟩ : ∃ r', (if op.has .logic then logic? op known'
          else relation? op known' (l.map exact')) = some r' ∧ r'.isSubset r := by
        split_ifs at hr ⊢
        · exact logic?_isSubset hparts hr
        · refine relation?_isSubset hparts (fun i hi => ?_) hr
          rw [getElem?_of_mapM hknown, getElem?_of_mapM hknown']
          cases ho : l[i]? with
          | none => simp [ho]
          | some o =>
            obtain ⟨hvalue, hexact⟩ := hset i o hi ho
            simp [ho, hvalue, hexact]
      rw [hr] at ht
      rw [hr'] at ht'
      cases ht
      cases ht'
      exact hsub

end Propagation

end ParameterSolver
