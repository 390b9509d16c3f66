import ParameterSolver.Proofs.Numbers.Closure
import ParameterSolver.Proofs.Propagation.Settling
import ParameterSolver.Proofs.Propagation.Sweep

/-! Whatever propagation finds is in normal form. A set is written where there was none, and then it
is a value of an expression or a bound from another node; all further sets are intersections. -/

namespace ParameterSolver

open Scalar Scalar.Ordered

variable {α : Type} [Scalar α] [Ordered α]

namespace ValueSet

variable {s t u : ValueSet α}

omit [Ordered α] in
theorem canonical_boolean (b : Truths) : (boolean b : ValueSet α).Canonical := trivial

theorem canonical_atLeast (x : α) (unit : MeasureUnit α) :
    (numeric ⟨.atLeast x, unit⟩).Canonical := canonical_ofBounds? _ _

theorem canonical_atMost (x : α) (unit : MeasureUnit α) :
    (numeric ⟨.atMost x, unit⟩).Canonical := canonical_ofBounds? _ _

omit [Ordered α] in
theorem canonical_of_combine {f : Numbers α → Numbers α → Numbers α} {a b : Quantities α}
    (hf : (f a.base b.base).Canonical) (h : numeric <$> Quantities.combine f a b = .ok u) :
    u.Canonical := by
  obtain ⟨c, hc, rfl⟩ := map_ok h
  rw [Canonical, (combine_ok hc).1]
  exact hf

omit [Scalar α] [Ordered α] in
theorem exists_enum {e : Except (SetError α) Choices} (h : enum <$> e = .ok u) : ∃ c, u = enum c := by
  obtain ⟨c, -, rfl⟩ := map_ok h
  exact ⟨c, rfl⟩

theorem canonical_union (hs : s.Canonical) (ht : t.Canonical) (h : s.union t = .ok u) :
    u.Canonical := by
  cases s <;> cases t <;> simp only [union] at h <;> try cases h
  case numeric.numeric a b => exact canonical_of_combine (hs.union ht) h
  case enum.enum a b =>
    obtain ⟨c, rfl⟩ := exists_enum h
    trivial
  all_goals trivial

theorem canonical_diff (h : s.diff t = .ok u) : u.Canonical := by
  cases s <;> cases t <;> simp only [diff] at h <;> try cases h
  case numeric.numeric a b => exact canonical_of_combine (Numbers.canonical_diff _ _) h
  case enum.enum a b =>
    obtain ⟨c, rfl⟩ := exists_enum h
    trivial
  all_goals trivial

theorem canonical_symmDiff (h : s.symmDiff t = .ok u) : u.Canonical := by
  cases s <;> cases t <;> simp only [symmDiff] at h <;> try cases h
  case numeric.numeric a b => exact canonical_of_combine (Numbers.canonical_symmDiff _ _) h
  case enum.enum a b =>
    obtain ⟨c, rfl⟩ := exists_enum h
    trivial
  all_goals trivial

end ValueSet

namespace Propagation

variable {op : Operator} {operands : List (ValueSet α)} {sets : List (Quantities α)}
  {q first : Quantities α} {s : ValueSet α} {exact : List Bool}

section Fold

variable {β : Type} {P : β → Prop} {f : β → β → Option β} {l : List β} {a c : β}
  (hf : ∀ a b c, P a → P b → f a b = some c → P c)

include hf

theorem foldlM_closed (ha : P a) (hl : ∀ x ∈ l, P x) (h : l.foldlM f a = some c) : P c := by
  induction l generalizing a with
  | nil =>
    cases h
    exact ha
  | cons b l ih =>
    obtain ⟨hb, hl⟩ := List.forall_mem_cons.1 hl
    rw [List.foldlM_cons] at h
    obtain ⟨d, hd, h⟩ := Option.bind_eq_some_iff.1 h
    exact ih (hf a b d ha hb hd) hl h

theorem reduce?_closed (hl : ∀ x ∈ l, P x) (h : reduce? f l = some c) : P c := by
  cases l with
  | nil => cases h
  | cons a l =>
    obtain ⟨ha, hl⟩ := List.forall_mem_cons.1 hl
    exact foldlM_closed hf ha hl h

end Fold

theorem canonical_shift? {x : α} (h : shift? first x = some q) : q.base.Canonical := by
  rw [(ValueSet.combine_ok (toOption_eq_some h)).1]
  exact Numbers.canonical_add

theorem canonical_extremum? {pick : α → α → α} {start : α}
    (h : extremum? pick start sets = some q) : q.base.Canonical := by
  unfold extremum? at h
  simp only [Option.bind_eq_bind, Option.bind_eq_some_iff] at h
  obtain ⟨first, -, h⟩ := h
  split at h
  · simp at h
  · simp only [Option.bind_eq_some_iff] at h
    obtain ⟨lo, -, hi, -, h⟩ := h
    cases h
    exact canonical_ofBounds? _ _

theorem canonical_mul {a b : Quantities α} (h : (a.mul b).toOption = some q) : q.base.Canonical := by
  rw [Quantities.mul_ok (toOption_eq_some h)]
  exact Numbers.canonical_mul

theorem canonical_add {a b : Quantities α} (h : (a.add b).toOption = some q) : q.base.Canonical := by
  rw [(ValueSet.combine_ok (toOption_eq_some h)).1]
  exact Numbers.canonical_add

theorem canonical_pow {a b : Quantities α} (h : (a.pow b).toOption = some q) : q.base.Canonical := by
  rw [Quantities.pow_ok (toOption_eq_some h)]
  exact Numbers.canonical_pow

theorem canonical_sin (hsin : SineBounded α) {a : Quantities α} (ha : a.base.Canonical)
    (h : a.sin.toOption = some q) : q.base.Canonical := by
  have hok := toOption_eq_some h
  unfold Quantities.sin Quantities.requireDimensionless at hok
  split at hok <;> cases hok
  exact ha.sin hsin

theorem canonical_ln {a : Quantities α} (ha : a.base.Canonical) (h : a.ln.toOption = some q) :
    q.base.Canonical := by
  have hok := toOption_eq_some h
  unfold Quantities.ln Quantities.requireDimensionless at hok
  split at hok <;> cases hok
  exact ha.ln

theorem canonical_arithmetic? (hsin : SineBounded α) (hs : ∀ s ∈ operands, s.Canonical)
    (h : arithmetic? op operands = some q) : q.base.Canonical := by
  unfold arithmetic? at h
  obtain ⟨sets, hsets, h⟩ := Option.bind_eq_some_iff.1 h
  obtain ⟨first, hfirst, h⟩ := Option.bind_eq_some_iff.1 h
  have hcanonical : ∀ a ∈ sets, a.base.Canonical := by
    intro a ha
    obtain ⟨s, hmem, hsa⟩ := (Knowledge.mem_of_mapM hsets).2 a ha
    have hc := hs s hmem
    cases s <;> cases hsa
    exact hc
  have hf := hcanonical first (List.mem_of_head? hfirst)
  split at h
  · exact reduce?_closed (P := fun a => a.base.Canonical) (fun a b c _ _ hc => canonical_add hc)
      hcanonical h
  · exact reduce?_closed (P := fun a => a.base.Canonical) (fun a b c _ _ hc => canonical_add hc)
      hcanonical h
  · exact reduce?_closed (P := fun a => a.base.Canonical) (fun a b c _ _ hc => canonical_mul hc)
      hcanonical h
  · obtain ⟨inverse, -, h⟩ := Option.bind_eq_some_iff.1 h
    exact canonical_mul h
  · exact canonical_pow h
  · cases h
    exact hf.round
  · cases h
    exact hf.abs
  · exact canonical_sin hsin hf h
  · exact canonical_ln hf h
  · obtain ⟨a, ha, rfl⟩ := Option.map_eq_some_iff.1 h
    exact (canonical_shift? ha).round
  · obtain ⟨a, ha, rfl⟩ := Option.map_eq_some_iff.1 h
    exact (canonical_shift? ha).round.neg
  · obtain ⟨a, ha, h⟩ := Option.bind_eq_some_iff.1 h
    exact canonical_sin hsin (canonical_shift? ha) h
  · exact canonical_pow h
  · exact canonical_extremum? h
  · exact canonical_extremum? h
  · cases h

theorem canonical_sets? (hs : ∀ s ∈ operands, s.Canonical) (h : sets? op operands exact = some s) :
    s.Canonical := by
  have hunion (h : reduce? (fun a b : ValueSet α => (a.union b).toOption) operands = some s) :
      s.Canonical :=
    reduce?_closed (fun a b c ha hb hc => ValueSet.canonical_union ha hb (toOption_eq_some hc)) hs h
  unfold sets? at h
  dsimp only at h
  split at h
  · exact hunion h
  · exact reduce?_closed (fun a b c _ _ hc => ValueSet.canonical_inter (toOption_eq_some hc)) hs h
  · exact reduce?_closed (fun a b c _ _ hc => ValueSet.canonical_symmDiff (toOption_eq_some hc)) hs h
  · exact hunion h
  · exact reduce?_closed (fun a b c _ _ hc => ValueSet.canonical_diff (toOption_eq_some hc)) hs h
  · exact hs s (List.mem_of_head? h)
  · cases h

omit [Ordered α] in
theorem canonical_unknown? (h : unknown? op = some s) : s.Canonical := by
  unfold unknown? at h
  split_ifs at h
  cases h
  trivial

theorem canonical_evaluateKnown? (hsin : SineBounded α) (hs : ∀ s ∈ operands, s.Canonical)
    (h : evaluateKnown? op operands exact = some s) : s.Canonical := by
  unfold evaluateKnown? at h
  split_ifs at h
  · obtain ⟨t, -, rfl⟩ := Option.map_eq_some_iff.1 h
    trivial
  · obtain ⟨t, -, rfl⟩ := Option.map_eq_some_iff.1 h
    trivial
  · exact canonical_sets? hs h
  · obtain ⟨q, hq, rfl⟩ := Option.map_eq_some_iff.1 h
    exact canonical_arithmetic? hsin hs hq

/-- Sets in normal form leave one in normal form for the expression. -/
theorem canonical_evaluate? {values : List (Option (ValueSet α))} (hsin : SineBounded α)
    (hs : ∀ s, some s ∈ values → s.Canonical) (h : evaluate? op values exact = some s) :
    s.Canonical := by
  unfold evaluate? at h
  split at h
  · rename_i t ht
    cases h
    split_ifs
    · trivial
    · obtain ⟨u, hu, hut⟩ := List.mem_filterMap.1 (List.mem_of_find?_eq_some ht)
      exact hs t (hut ▸ hu)
  · split at h
    · rename_i known hknown
      have hall : ∀ s ∈ known, s.Canonical := by
        intro t ht
        obtain ⟨u, hu, hut⟩ := (Knowledge.mem_of_mapM hknown).2 t ht
        exact hs t (hut ▸ hu)
      rcases Option.or_eq_some_iff.1 h with h | ⟨-, h⟩
      · exact canonical_evaluateKnown? hsin hall h
      · exact canonical_unknown? h
    · exact canonical_unknown? h

end Propagation

namespace Knowledge

variable {g : Generation α} {k : Knowledge α} {because : Provenance} {id n : NodeId} {e : Expression}
  {s bound : ValueSet α}

/-- All sets are in normal form. -/
def Canonical (k : Knowledge α) : Prop := ∀ id s, k.value? id = some s → s.Canonical

theorem canonical_seed (hg : ∀ id s source, g.node? id = some (.literal s source) → s.Canonical) :
    (seed g).Canonical := by
  intro id s hs
  obtain ⟨m, hm, hinitial⟩ := initial?_of_seed hs
  exact canonical_initial? (fun t source hlit => hg id t source (hlit ▸ hm)) hinitial

theorem Canonical.restrict (h : k.Canonical) (hb : bound.Canonical) :
    (restrict g because k n bound).Canonical := by
  obtain ⟨hr, -⟩ | ⟨next, emptied, hr, hvalue, -⟩ := restrict_cases g because k n bound <;> rw [hr]
  · exact h
  intro id s hs
  by_cases hid : id = n
  · subst hid
    have hnull : id ≠ .null := by
      rintro rfl
      cases hs
    rw [value?, NodeMap.get?_insert_self hnull] at hs
    cases hs
    rcases hvalue with ⟨-, rfl⟩ | ⟨current, -, hinter⟩
    · exact hb
    · exact ValueSet.canonical_inter hinter
  · exact h id s ((NodeMap.get?_insert_other hid).symm.trans hs)

theorem Canonical.forwardValue? (h : k.Canonical) (hsin : SineBounded α)
    (hs : k.forwardValue? e = some s) : s.Canonical := by
  have hevaluate (v : ValueSet α) (hv : Propagation.evaluate? e.op (e.operands.map k.value?)
      (e.operands.map k.exact.contains) = some v) : v.Canonical := by
    refine Propagation.canonical_evaluate? hsin (fun u hu => ?_) hv
    obtain ⟨o, -, ho⟩ := List.mem_map.1 hu
    exact h o u ho
  unfold Knowledge.forwardValue? at hs
  dsimp only at hs
  split_ifs at hs
  · split at hs
    · rename_i v hv
      cases hi : v.inter (.truth true) with
      | error =>
        rw [hi] at hs
        cases hs
        exact hevaluate v hv
      | ok u =>
        rw [hi] at hs
        cases hs
        exact ValueSet.canonical_inter hi
    · cases hs
      exact ValueSet.canonical_boolean _
  · exact hevaluate s hs

theorem Canonical.forwardStep (h : k.Canonical) (hsin : SineBounded α) (id : NodeId) :
    (forwardStep g k id).Canonical := by
  cases he : g.expression? id with
  | none =>
    rw [Knowledge.forwardStep, he]
    exact h
  | some e =>
    have hmark : (k.marked id e).Canonical := by
      unfold marked
      split_ifs
      · exact h
      · exact h
    obtain ⟨because, hstep⟩ := exists_forwardStep_eq (k := k) he
    rw [hstep]
    cases hv : k.forwardValue? e with
    | none => exact hmark
    | some v => exact hmark.restrict (h.forwardValue? hsin hv)

theorem Canonical.narrow (h : k.Canonical) (hb : bound.Canonical) (n : NodeId) :
    (narrow g because k n bound).Canonical := by
  unfold Knowledge.narrow
  split_ifs
  · exact h
  · exact h.restrict hb

theorem Canonical.narrowIs (h : k.Canonical) (a b : NodeId) :
    (narrowIs g because k a b).Canonical := by
  unfold Knowledge.narrowIs
  split
  · split
    · rename_i common hcommon
      have hc := ValueSet.canonical_inter hcommon
      exact (h.narrow hc a).narrow hc b
    · exact h
  · rename_i vb _ hb
    exact h.narrow (h b vb hb) a
  · rename_i va ha _
    exact h.narrow (h a va ha) b
  · exact h

theorem Canonical.narrowPair (h : k.Canonical) (high low : NodeId) :
    (narrowPair g because k high low).Canonical :=
  narrowPair_inv h (fun _ _ _ h => h.narrow (ValueSet.canonical_atLeast _ _) high)
    fun _ _ _ h => h.narrow (ValueSet.canonical_atMost _ _) low

theorem Canonical.narrowOrder (h : k.Canonical) (high low : NodeId) :
    (narrowOrder g because k high low).Canonical :=
  foldl_inv (fun _ a h => foldl_inv (fun _ b h => h.narrowPair a b) _ h) _ h

theorem Canonical.narrowOr (h : k.Canonical) (operands : List NodeId) (value : ValueSet α) :
    (narrowOr g because k operands value).Canonical := by
  unfold Knowledge.narrowOr
  split_ifs
  · exact foldl_inv (fun _ o h => h.narrow (ValueSet.canonical_boolean _) o) _ h
  · split
    · exact h.narrow (ValueSet.canonical_boolean _) _
    · exact h
  · exact h

theorem canonical_termBound? {total q : Quantities α} {terms : List (Quantities α)} {index : ℕ}
    (ht : total.base.Canonical) (h : termBound? total terms index = some q) : q.base.Canonical := by
  unfold termBound? at h
  split at h
  · exact Propagation.canonical_add h
  · cases h
    exact ht
  · cases h

theorem canonical_factorBound? {product q : Quantities α} {factors : List (Quantities α)} {index : ℕ}
    (hp : product.base.Canonical) (h : factorBound? product factors index = some q) :
    q.base.Canonical := by
  unfold factorBound? at h
  split at h
  · split_ifs at h
    obtain ⟨inverse, -, h⟩ := Option.bind_eq_some_iff.1 h
    exact Propagation.canonical_mul h
  · cases h
    exact hp
  · cases h

theorem Canonical.narrowEach (h : k.Canonical)
    {bound? : Quantities α → List (Quantities α) → ℕ → Option (Quantities α)}
    (hbound : ∀ whole parts index q, whole.base.Canonical → bound? whole parts index = some q →
      q.base.Canonical) (operands : List NodeId) (hs : s.Canonical) :
    (narrowEach g because k bound? operands s).Canonical := by
  unfold Knowledge.narrowEach
  split
  · rename_i whole parts hwhole _
    have hw : whole.base.Canonical := by
      cases s <;> cases hwhole
      exact hs
    refine foldl_inv ?_ _ h
    rintro k ⟨o, index⟩ hk
    dsimp only
    split
    · rename_i q hq
      have hc : (ValueSet.numeric q).Canonical := hbound whole parts index q hw hq
      exact hk.narrow hc o
    · exact hk
  · exact h

theorem Canonical.narrowOperands (h : k.Canonical) (e : Expression) (hs : s.Canonical) :
    (narrowOperands g because k e s).Canonical := by
  unfold Knowledge.narrowOperands
  split
  · split_ifs
    · exact h.narrowIs _ _
    · exact h
  · split
    · rename_i outer _ houter
      exact h.narrow (h _ outer houter) _
    · exact h
  · split_ifs
    · exact h.narrowOrder _ _
    · exact h
  · split
    · exact h.narrow (ValueSet.canonical_boolean _) _
    · exact h
  · exact h.narrowOr _ s
  · exact h.narrowEach (fun _ _ _ _ ht hq => canonical_termBound? ht hq) _ hs
  · exact h.narrowEach (fun _ _ _ _ hp hq => canonical_factorBound? hp hq) _ hs
  · exact h

theorem Canonical.backwardStep (h : k.Canonical) (id : NodeId) :
    (backwardStep g k id).Canonical := by
  unfold Knowledge.backwardStep
  split
  · rename_i e s he hs
    split_ifs
    · exact h
    · exact h.narrowOperands e (h id s hs)
  · exact h

theorem Canonical.sweep (h : k.Canonical) (hsin : SineBounded α) (order : List NodeId) :
    (sweep g order k).Canonical := by
  have hclear : Canonical { k with changed := false } := h
  have hforward := foldl_inv (fun _ id h => h.forwardStep (g := g) hsin id) order hclear
  exact foldl_inv (fun _ id h => h.backwardStep id) order.reverse hforward

end Knowledge

theorem Propagation.canonical_iterate {g : Generation α} (hsin : SineBounded α) (order : List NodeId)
    (budget : ℕ) (p : Propagation α) (h : p.knowledge.Canonical) :
    (iterate g order budget p).knowledge.Canonical := by
  induction budget generalizing p with
  | zero => exact h
  | succ budget ih =>
    have hsweep := h.sweep (g := g) hsin order
    unfold iterate
    dsimp only
    split_ifs
    · exact ih ⟨_, p.rounds + 1⟩ hsweep
    · exact hsweep

end ParameterSolver
