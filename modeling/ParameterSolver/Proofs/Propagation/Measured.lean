import ParameterSolver.Proofs.Propagation.Calculation
import ParameterSolver.Proofs.Propagation.Dimensions
import ParameterSolver.Proofs.Propagation.Settling

/-! Units during propagation. What is known of a node only shrinks, so that its unit is the one that it
got first; and what it gets first, from its operands or from an expression that uses it, is of the
dimension inferred for it. Then no operation on sets with elements fails because of units. -/

namespace ParameterSolver

variable {α : Type} [Scalar α]

theorem ValueSet.Fits.inter {a b c : ValueSet α} {d : Dimension → ℤ} (h : a.Fits d)
    (hc : a.inter b = .ok c) : c.Fits d :=
  h.imp (isEmpty_of_inter hc) fun hm => dimensional_inter.measures hm hc

theorem exists_left_of_forall₂ {β γ : Type} {R : β → γ → Prop} {l : List β} {m : List γ}
    (h : List.Forall₂ R l m) : ∀ y ∈ m, ∃ x ∈ l, R x y := by
  induction h with
  | nil => simp
  | cons hr _ ih =>
    refine List.forall_mem_cons.2 ⟨⟨_, List.mem_cons_self, hr⟩, fun y hy => ?_⟩
    obtain ⟨x, hx, hr⟩ := ih y hy
    exact ⟨x, .tail _ hx, hr⟩

namespace Knowledge

variable {g : Generation α} {k k' k'' : Knowledge α} {because : Provenance} {id n o a b : NodeId}
  {e : Expression} {s bound v : ValueSet α}

/-- The numbers that a node is known to take, if there are any, are of the dimension inferred for it. -/
def Measured (g : Generation α) (k : Knowledge α) : Prop :=
  ∀ id s, k.value? id = some s → s.Fits (g.dims id)

/-- Every node that is known to take numbers only has a unit. -/
def Inferred (g : Generation α) (k : Knowledge α) : Prop :=
  ∀ id q, k.value? id = some (.numeric q) → (g.unit? id).isSome

/-- What is known of a node stays of one family. -/
theorem Learns.family (h : Learns g k k') (hs : k.value? id = some s) :
    ∃ s', k'.value? id = some s' ∧ s'.family = s.family := by
  induction h with
  | refl => exact ⟨s, hs, rfl⟩
  | @restrict k' _ because n bound ih =>
    obtain ⟨t, ht, hfamily⟩ := ih
    obtain ⟨hr, -⟩ | ⟨next, emptied, hr, hvalue, -⟩ := restrict_cases g because k' n bound <;> rw [hr]
    · exact ⟨t, ht, hfamily⟩
    · by_cases hn : id = n
      · subst hn
        refine ⟨next, ?_, ?_⟩
        · rw [value?, NodeMap.get?_insert_self (NodeMap.ne_null_of_get? hs)]
        · obtain ⟨hnone, -⟩ | ⟨current, hcurrent, hinter⟩ := hvalue
          · cases hnone.symm.trans ht
          · cases hcurrent.symm.trans ht
            exact (ValueSet.family_of_inter hinter).2.trans hfamily
      · exact ⟨t, (NodeMap.get?_insert_other hn).trans ht, hfamily⟩
  | exact _ n ih => exact ih
  | clear _ ih => exact ih

omit [Scalar α] in
theorem exists_numeric_of_family {d : Exponents} (h : s.family = .numbers d) : ∃ q, s = .numeric q := by
  cases s <;> cases h
  exact ⟨_, rfl⟩

omit [Scalar α] in
/-- What has limits is a set of numbers with elements. -/
theorem exists_numeric_of_limits? {lo hi : α} {unit : MeasureUnit α}
    (h : k.limits? n = some (lo, hi, unit)) :
    ∃ q, k.value? n = some (.numeric q) ∧ q.isEmpty = false ∧ unit = q.unit := by
  unfold limits? at h
  obtain ⟨s, hs, h⟩ := Option.bind_eq_some_iff.1 h
  obtain ⟨q, hq, h⟩ := Option.bind_eq_some_iff.1 h
  obtain ⟨x, hx, h⟩ := Option.bind_eq_some_iff.1 h
  obtain ⟨y, -, h⟩ := Option.bind_eq_some_iff.1 h
  cases h
  obtain rfl := eq_numeric_of_quantities? hq
  refine ⟨q, hs, ?_, rfl⟩
  rw [Bool.eq_false_iff]
  intro hempty
  rw [Numbers.min?, List.isEmpty_iff.1 hempty] at hx
  cases hx

theorem Inferred.of_learns (h : Inferred g k') (hl : Learns g k k') : Inferred g k := by
  intro id q hq
  obtain ⟨s, hs, hfamily⟩ := hl.family hq
  obtain ⟨q', rfl⟩ := exists_numeric_of_family hfamily
  exact h id q' hs

/-- The strict step `r` from `k` is the step to `k'`, provided that there are units, and then what is
known stays of the dimensions inferred. -/
def Agrees (g : Generation α) (k : Knowledge α) (r : Except (SetError α) (Knowledge α))
    (k' : Knowledge α) : Prop :=
  Measured g k → Inferred g k' → r = .ok k' ∧ Measured g k'

theorem Agrees.refl (k : Knowledge α) : Agrees g k (.ok k) k := fun hk _ => ⟨rfl, hk⟩

theorem Agrees.bind {r : Except (SetError α) (Knowledge α)}
    {f : Knowledge α → Except (SetError α) (Knowledge α)} (h : Agrees g k r k')
    (hl : Learns g k' k'') (hf : Agrees g k' (f k') k'') : Agrees g k (r >>= f) k'' := by
  intro hk hi
  obtain ⟨rfl, hk'⟩ := h hk (hi.of_learns hl)
  exact hf hk' hi

theorem Agrees.foldlM {β : Type} {l : List β} {f : Knowledge α → β → Knowledge α}
    {f' : Knowledge α → β → Except (SetError α) (Knowledge α)} (hl : ∀ k x, Learns g k (f k x))
    (h : ∀ x ∈ l, ∀ k, Agrees g k (f' k x) (f k x)) (k : Knowledge α) :
    Agrees g k (l.foldlM f' k) (l.foldl f k) := by
  induction l generalizing k with
  | nil => exact .refl k
  | cons x l ih =>
    rw [List.foldlM_cons, List.foldl_cons]
    exact (h x (by simp) k).bind (Learns.foldl hl l _) (ih (fun y hy => h y (.tail _ hy)) _)

/-! Restrictions. -/

theorem value?_restrict_none (hid : id ≠ .null) (h : k.value? id = none) :
    (restrict g because k id bound).value? id = some bound := by
  obtain ⟨-, current, hcurrent, -⟩ | ⟨next, emptied, hr, hvalue, -⟩ := restrict_cases g because k id bound
  · cases h.symm.trans hcurrent
  · obtain ⟨-, rfl⟩ | ⟨current, hcurrent, -⟩ := hvalue
    · rw [hr, value?, NodeMap.get?_insert_self hid]
    · cases h.symm.trans hcurrent

/-- A set that is restricted keeps its unit, so that the bound matters only for a node of which nothing
is known. -/
theorem Measured.restrict (h : Measured g k) (hb : k.value? id = none → bound.Fits (g.dims id)) :
    Measured g (restrict g because k id bound) := by
  obtain ⟨hr, -⟩ | ⟨next, emptied, hr, hvalue, -⟩ := restrict_cases g because k id bound <;> rw [hr]
  · exact h
  · intro n s hs
    rcases NodeMap.get?_insert_cases hs with ⟨rfl, rfl⟩ | hs
    · obtain ⟨hnone, rfl⟩ | ⟨current, hcurrent, hinter⟩ := hvalue
      · exact hb hnone
      · exact (h n current hcurrent).inter hinter
    · exact h n s hs

theorem agrees_restrict (hid : id ≠ .null) (hb : (g.unit? id).isSome → bound.Fits (g.dims id)) :
    Agrees g k (Strict.restrict g because k id bound) (restrict g because k id bound) := by
  intro hk hi
  cases hv : k.value? id with
  | none =>
    have hvalue : (restrict g because k id bound).value? id = some bound := value?_restrict_none hid hv
    refine ⟨?_, hk.restrict fun _ hfed q hq => ?_⟩
    · unfold Strict.restrict
      rw [hv]
      rfl
    · subst hq
      exact hb (hi id q hvalue) hfed q rfl
  | some current =>
    have hcomparable : current.Comparable bound := by
      rintro p q rfl rfl hunit
      have hsome := (hi.of_learns (Learns.refl.restrict because id (.numeric q))) id p hv
      exact (hk id _ hv).comparable (hb hsome) p q rfl rfl hunit
    refine ⟨?_, hk.restrict fun hnone => ?_⟩
    · unfold Strict.restrict
      rw [hv]
      dsimp only
      rw [Strict.attempt_op ValueSet.dimensional_inter hcomparable]
      rfl
    · cases hv.symm.trans hnone

theorem agrees_narrow (hid : id ≠ .null) (hb : (g.unit? id).isSome → bound.Fits (g.dims id)) :
    Agrees g k (Strict.narrow g because k id bound) (narrow g because k id bound) := by
  unfold Strict.narrow narrow
  split_ifs
  · exact .refl k
  · exact agrees_restrict hid hb

/-! Relations narrow one operand to what is known of the other. -/

section Relation

variable (hg : g.Accepted) (he : g.expression? id = some e)

include hg he

/-- What is known of an operand is of the dimension of the others. -/
theorem fits_operand (hop : Blueprint.needsSameUnit e.op) (ha : a ∈ e.operands) (hb : b ∈ e.operands)
    (hk : Measured g k) (hi : Inferred g k) (hv : k.value? b = some v) (hu : (g.unit? a).isSome) :
    v.Fits (g.dims a) := by
  rintro hfed q rfl
  rw [hg.dims_eq he hop ha hb hu (hi b q hv)]
  exact hk b _ hv hfed q rfl

theorem agrees_narrowIs (hop : Blueprint.needsSameUnit e.op) (ha : a ∈ e.operands)
    (hb : b ∈ e.operands) :
    Agrees g k (Strict.narrowIs g because k a b) (narrowIs g because k a b) := by
  have hna := hg.ne_null he ha
  have hnb := hg.ne_null he hb
  intro hk hi
  have hnarrows : Narrows g because (fun _ => True) k (narrowIs g because k a b) :=
    narrows_narrowIs trivial trivial k
  have hi₀ := hi.of_learns hnarrows.learns
  revert hk hi
  unfold Strict.narrowIs narrowIs
  cases hva : k.value? a with
  | none =>
    cases hvb : k.value? b with
    | none => exact Agrees.refl k
    | some vb =>
      intro hk
      exact agrees_narrow hna (fits_operand hg he hop ha hb hk hi₀ hvb) hk
  | some va =>
    cases hvb : k.value? b with
    | none =>
      intro hk
      exact agrees_narrow hnb (fits_operand hg he hop hb ha hk hi₀ hva) hk
    | some vb =>
      intro hk
      have hcomparable : va.Comparable vb := by
        rintro p q rfl rfl
        exact (hk a _ hva).comparable
          (fits_operand hg he hop ha hb hk hi₀ hvb (hi₀ a p hva)) p q rfl rfl
      dsimp only
      rw [Strict.attempt_op ValueSet.dimensional_inter hcomparable]
      cases hcommon : va.inter vb with
      | error _ => exact Agrees.refl k hk
      | ok common =>
        have hfirst : Agrees g k (Strict.narrow g because k a common) (narrow g because k a common) :=
          agrees_narrow hna fun _ => (hk a va hva).inter hcommon
        refine hfirst.bind (learns_narrow _ _ _) (agrees_narrow hnb fun hu => ?_) hk
        exact (fits_operand hg he hop hb ha hk hi₀ hva hu).inter hcommon

omit he in
/-- A union is of the dimension of each of its members. -/
theorem dims_of_members (hm : n ∈ members g a) (hu : (g.unit? n).isSome) :
    (g.unit? a).isSome ∧ g.dims a = g.dims n := by
  unfold members at hm
  split at hm
  · rename_i e he
    split_ifs at hm with hop
    · exact hg.dims_of_keepsDimension he (by rw [hop]; rfl) hm hu
    · obtain rfl := List.mem_singleton.1 hm
      exact ⟨hu, rfl⟩
  · obtain rfl := List.mem_singleton.1 hm
    exact ⟨hu, rfl⟩

omit he in
theorem contains_of_members (ha : g.contains a) (hm : n ∈ members g a) : g.contains n := by
  obtain rfl | ⟨m, -, hm⟩ := (uses_of_mem_members hm).cases_tail
  · exact ha
  · exact hg.orderly.closed m n hm

omit hg he in
theorem dims_of_limits {lo hi : α} {unit : MeasureUnit α} (hk : Measured g k) (hi₀ : Inferred g k)
    (h : k.limits? n = some (lo, hi, unit)) : (g.unit? n).isSome ∧ unit.dims = g.dims n := by
  obtain ⟨q, hq, hfed, rfl⟩ := exists_numeric_of_limits? h
  exact ⟨hi₀ n q hq, hk n _ hq hfed q rfl⟩

omit hg he in
/-- A node is narrowed to a bound in the unit of another node of its dimension. -/
theorem agrees_toward (ha : a ≠ .null) {lo hi : α} {unit : MeasureUnit α} {base : Numbers α}
    (hd : (g.unit? a).isSome → (g.unit? b).isSome → g.dims b = g.dims a)
    (hlimits : k.limits? b = some (lo, hi, unit)) :
    Agrees g k (Strict.narrow g because k a (.numeric ⟨base, unit⟩))
      (narrow g because k a (.numeric ⟨base, unit⟩)) := by
  intro hk hi
  obtain ⟨hb, hdims⟩ := dims_of_limits hk (hi.of_learns (learns_narrow _ _ _)) hlimits
  refine agrees_narrow ha (fun hu => ?_) hk hi
  exact (ValueSet.measures_numeric.2 (hdims.trans (hd hu hb))).fits

omit hg he in
/-- The second half of an order: the upper limit of the one side bounds the other. -/
theorem agrees_ceiling (hb : b ≠ .null)
    (hd : (g.unit? a).isSome → (g.unit? b).isSome → g.dims a = g.dims b) (k : Knowledge α) :
    Agrees g k
      (match k.limits? a with
        | some (_, hi, unit) => Strict.narrow g because k b (.numeric ⟨.atMost hi, unit⟩)
        | none => .ok k)
      (match k.limits? a with
        | some (_, hi, unit) => narrow g because k b (.numeric ⟨.atMost hi, unit⟩)
        | none => k) := by
  cases hlimits : k.limits? a with
  | none => exact .refl k
  | some x => exact agrees_toward hb (fun hub hua => hd hua hub) hlimits

omit hg he in
theorem learns_ceiling (k : Knowledge α) : Learns g k
    (match k.limits? a with
      | some (_, hi, unit) => narrow g because k b (.numeric ⟨.atMost hi, unit⟩)
      | none => k) := by
  split
  · exact learns_narrow _ _ _
  · exact .refl

omit hg he in
theorem agrees_narrowPair (ha : a ≠ .null) (hb : b ≠ .null)
    (hd : (g.unit? a).isSome → (g.unit? b).isSome → g.dims a = g.dims b) (k : Knowledge α) :
    Agrees g k (Strict.narrowPair g because k a b) (narrowPair g because k a b) := by
  unfold Strict.narrowPair narrowPair
  cases hlimits : k.limits? b with
  | none => exact agrees_ceiling hb hd k
  | some x =>
    have hfloor : Agrees g k (Strict.narrow g because k a (.numeric ⟨.atLeast x.1, x.2.2⟩))
        (narrow g because k a (.numeric ⟨.atLeast x.1, x.2.2⟩)) :=
      agrees_toward ha (fun hua hub => (hd hua hub).symm) hlimits
    exact hfloor.bind (learns_ceiling _) (agrees_ceiling hb hd _)

/-- The sides of an order are of one dimension, and so are their members. -/
theorem agrees_narrowOrder (hop : Blueprint.needsSameUnit e.op) (ha : a ∈ e.operands)
    (hb : b ∈ e.operands) :
    Agrees g k (Strict.narrowOrder g because k a b) (narrowOrder g because k a b) := by
  have hlearns (k : Knowledge α) (h l : NodeId) : Learns g k (narrowPair g because k h l) :=
    narrowPair_inv .refl (fun _ _ _ hk => hk.trans (learns_narrow _ _ _))
      fun _ _ _ hk => hk.trans (learns_narrow _ _ _)
  refine Agrees.foldlM (fun k h => Learns.foldl (fun k l => hlearns k h l) _ k) (fun h hh k => ?_) k
  refine Agrees.foldlM (fun k l => hlearns k h l) (fun l hl k => ?_) k
  have hh' := contains_of_members hg (hg.contains he ha) hh
  have hl' := contains_of_members hg (hg.contains he hb) hl
  refine agrees_narrowPair (Generation.ne_null_of_contains hh') (Generation.ne_null_of_contains hl')
    (fun hu hu' => ?_) k
  obtain ⟨hua, hda⟩ := dims_of_members hg hh hu
  obtain ⟨hub, hdb⟩ := dims_of_members hg hl hu'
  rw [← hda, ← hdb]
  exact hg.dims_eq he hop ha hb hua hub

end Relation

/-! Disjunctions narrow to truth values, which have no unit. -/

theorem agrees_narrowOr {l : List NodeId} (hl : ∀ o ∈ l, o ≠ .null) :
    Agrees g k (Strict.narrowOr g because k l v) (narrowOr g because k l v) := by
  unfold Strict.narrowOr narrowOr
  split_ifs
  · exact Agrees.foldlM (fun k o => learns_narrow k o _)
      (fun o ho k => agrees_narrow (hl o ho) fun _ => ValueSet.measures_boolean.fits) k
  · have hmem : ∀ o ∈ l.filter fun o => !(k.value? o).any ValueSet.isFalse, o ≠ .null :=
      fun o ho => hl o (List.mem_of_mem_filter ho)
    revert hmem
    generalize (l.filter fun o => !(k.value? o).any ValueSet.isFalse) = candidates
    intro hmem
    match candidates with
    | [] | _ :: _ :: _ => exact .refl k
    | [only] => exact agrees_narrow (hmem only (by simp)) fun _ => ValueSet.measures_boolean.fits
  · exact .refl k

/-! Sums and products narrow each operand to what the others leave for it. -/

section Parts

variable {d : Dimension → ℤ} {p q c whole : Quantities α} {l parts : List (Quantities α)} {i : ℕ}

theorem fits_add (hp : (ValueSet.numeric p).Fits d) (h : p.add q = .ok c) :
    (ValueSet.numeric c).Fits d := by
  refine hp.imp (Quantities.isEmpty_of_add h) fun hm => ?_
  rw [ValueSet.measures_numeric, (ValueSet.combine_ok h).2]
  exact ValueSet.measures_numeric.1 hm

theorem foldlM_add (hl : ∀ q ∈ l, (ValueSet.numeric q).Fits d) (hp : (ValueSet.numeric p).Fits d) :
    l.foldlM Strict.add p = Strict.known (l.foldlM (fun a b => (a.add b).toOption) p) ∧
      ∀ c, l.foldlM (fun a b => (a.add b).toOption) p = some c → (ValueSet.numeric c).Fits d :=
  Strict.foldlM_known (P := fun p => (ValueSet.numeric p).Fits d)
    (fun _ hp q hq => ⟨Strict.add_eq (hp.comparable (hl q hq)),
      fun _ hc => fits_add hp (Propagation.toOption_eq_some hc)⟩) hp

/-- The rest of a sum is a sum of sets of one dimension, as far as they have elements. -/
theorem sumOthers_eq (hparts : ∀ p ∈ parts, (ValueSet.numeric p).Fits d) (i : ℕ) :
    Strict.sumOthers parts i = Strict.known (combineOthers? Quantities.add parts i) ∧
      ∀ rest, combineOthers? Quantities.add parts i = some (some rest) →
        (ValueSet.numeric rest).Fits d := by
  unfold Strict.sumOthers combineOthers?
  have hothers (p : Quantities α) (hp : p ∈ parts.eraseIdx i) : (ValueSet.numeric p).Fits d :=
    hparts p (List.mem_of_mem_eraseIdx hp)
  revert hothers
  cases parts.eraseIdx i with
  | nil =>
    exact fun _ => ⟨rfl, fun _ h => by cases h⟩
  | cons first rest =>
    intro hothers
    obtain ⟨hfirst, hrest⟩ := List.forall_mem_cons.1 hothers
    obtain ⟨heq, hfits⟩ := foldlM_add hrest hfirst
    dsimp only
    rw [heq, Strict.map_known]
    refine ⟨rfl, fun c hc => ?_⟩
    obtain ⟨sum, hsum, ⟨⟩⟩ := Option.map_eq_some_iff.1 hc
    exact hfits _ hsum

theorem termBound_eq (hwhole : whole.unit.dims = d)
    (hparts : ∀ p ∈ parts, (ValueSet.numeric p).Fits d) (i : ℕ) :
    Strict.termBound whole parts i = Strict.known (termBound? whole parts i) ∧
      ∀ c, termBound? whole parts i = some c → (ValueSet.numeric c).Fits d := by
  obtain ⟨heq, hfits⟩ := sumOthers_eq hparts i
  unfold Strict.termBound termBound?
  rw [heq]
  cases hrest : combineOthers? Quantities.add parts i with
  | none => exact ⟨rfl, fun _ h => by cases h⟩
  | some rest =>
    have hw := (ValueSet.measures_numeric.2 hwhole).fits
    cases rest with
    | none => exact ⟨rfl, by rintro _ ⟨⟩; exact hw⟩
    | some rest =>
      have hneg : (ValueSet.numeric rest.neg).Fits d :=
        (hfits rest hrest).imp Quantities.isEmpty_neg fun hm =>
          ValueSet.measures_numeric.2 (hm rest rfl)
      exact ⟨Strict.add_eq (hw.comparable hneg),
        fun c hc => fits_add hw (Propagation.toOption_eq_some hc)⟩

/-- What a product leaves for a factor has no elements if one of the other factors has none. -/
theorem dims_of_factorBound? (h : factorBound? whole parts i = some c) (hfed : c.isEmpty = false) :
    c.unit.dims = whole.unit.dims - ((parts.eraseIdx i).map fun q => q.unit.dims).sum ∧
      ∀ q ∈ parts.eraseIdx i, q.isEmpty = false := by
  unfold factorBound? combineOthers? at h
  revert h
  cases parts.eraseIdx i with
  | nil =>
    rintro ⟨⟩
    simp
  | cons first others =>
    intro h
    dsimp only at h
    cases hrest : others.foldlM (fun a b => (Quantities.mul a b).toOption) first with
    | none =>
      rw [hrest] at h
      cases h
    | some rest =>
      rw [hrest] at h
      dsimp only [Option.map_some] at h
      split_ifs at h
      obtain ⟨inverse, hinverse, hc⟩ := Option.bind_eq_some_iff.1 h
      have hinverse := Propagation.toOption_eq_some hinverse
      have hc := Propagation.toOption_eq_some hc
      obtain ⟨hdims, hall⟩ := Propagation.dims_of_product hrest
      have hinverted := eq_false_of_imp (fun h => Quantities.isEmpty_of_mul hc (Or.inr h)) hfed
      have hrestfed := eq_false_of_imp (Quantities.isEmpty_of_invert hinverse) hinverted
      refine ⟨?_, List.forall_mem_cons.2 (hall hrestfed)⟩
      rw [Quantities.dims_of_mul hc, Quantities.dims_of_invert hinverse, hdims, List.map_cons,
        List.sum_cons, sub_eq_add_neg]

omit [Scalar α] in
/-- Operands that are all known to be numbers. -/
theorem forall₂_numeric {l : List NodeId}
    (h : l.mapM (fun o => (k.value? o).bind ValueSet.quantities?) = some parts) :
    List.Forall₂ (fun o p => k.value? o = some (.numeric p)) l parts := by
  refine (Propagation.forall₂_of_mapM h).imp fun o p hp => ?_
  obtain ⟨s, hs, hp⟩ := Option.bind_eq_some_iff.1 hp
  rw [hs, eq_numeric_of_quantities? hp]

/-- Bounds that are found without comparing dimensions and are of those of the operands narrow them. -/
theorem agrees_narrowEach {l : List NodeId} (hl : ∀ o ∈ l, o ≠ .null)
    {bound : Quantities α → List (Quantities α) → ℕ → Attempt α (Quantities α)}
    {bound? : Quantities α → List (Quantities α) → ℕ → Option (Quantities α)}
    (hbound : ∀ whole parts, v = .numeric whole → Measured g k → Inferred g k →
      List.Forall₂ (fun o p => k.value? o = some (.numeric p)) l parts → ∀ i o, l[i]? = some o →
        bound whole parts i = Strict.known (bound? whole parts i) ∧ ((g.unit? o).isSome →
          ∀ c, bound? whole parts i = some c → (ValueSet.numeric c).Fits (g.dims o))) :
    Agrees g k (Strict.narrowEach g because k bound l v) (narrowEach g because k bound? l v) := by
  intro hk hi
  have hnarrows : Narrows g because (fun _ => True) k (narrowEach g because k bound? l v) :=
    narrows_narrowEach (fun _ _ => trivial) k bound? v
  have hi₀ := hi.of_learns hnarrows.learns
  revert hk hi
  unfold Strict.narrowEach narrowEach
  cases hwhole : v.quantities? with
  | none => exact Agrees.refl k
  | some whole =>
    cases hparts : l.mapM fun o => (k.value? o).bind ValueSet.quantities? with
    | none => exact Agrees.refl k
    | some parts =>
      intro hk
      have hknown := hbound whole parts (eq_numeric_of_quantities? hwhole) hk hi₀ (forall₂_numeric hparts)
      refine Agrees.foldlM (fun k x => ?_) (fun x hx k => ?_) k hk
      · dsimp only
        split
        · exact learns_narrow _ _ _
        · exact .refl
      · obtain ⟨heq, hfits⟩ := hknown x.2 x.1 (List.mem_zipIdx_iff_getElem?.1 hx)
        dsimp only
        rw [heq]
        cases hc : bound? whole parts x.2 with
        | none => exact .refl k
        | some c =>
          exact agrees_narrow (hl x.1 (List.fst_mem_of_mem_zipIdx hx)) fun hu => hfits hu c hc

end Parts

/-! Backward steps. -/

theorem Measured.dims_of_parts (hk : Measured g k) {l : List NodeId} {parts : List (Quantities α)}
    (h : List.Forall₂ (fun o p => k.value? o = some (.numeric p)) l parts)
    (hfed : ∀ p ∈ parts, p.isEmpty = false) : parts.map (fun p => p.unit.dims) = l.map g.dims := by
  induction h with
  | nil => rfl
  | @cons o p l parts hp _ ih =>
    obtain ⟨hfirst, hrest⟩ := List.forall_mem_cons.1 hfed
    rw [List.map_cons, List.map_cons, ih hrest, hk o _ hp hfirst p rfl]

section Backward

variable (hg : g.Accepted) (he : g.expression? id = some e) (hvalue : k.value? id = some v)
  (hfed : v.isEmpty = false)

include hg he hvalue hfed

/-- What a sum leaves for a term is of the dimension of the sum, and so is the term. -/
theorem agrees_narrowTerms (hop : e.op = .add) :
    Agrees g k (Strict.narrowEach g because k Strict.termBound e.operands v)
      (narrowEach g because k termBound? e.operands v) := by
  have hkeeps : e.op.keepsDimension := by
    rw [hop]
    rfl
  refine agrees_narrowEach (fun o ho => hg.ne_null he ho) fun whole parts hwhole hk hi hparts i o ho => ?_
  subst hwhole
  have hall : ∀ p ∈ parts, (ValueSet.numeric p).Fits (g.dims id) := by
    intro p hp
    obtain ⟨o, ho, hop⟩ := exists_left_of_forall₂ hparts p hp
    rw [(hg.dims_of_keepsDimension he hkeeps ho (hi o p hop)).2]
    exact hk o _ hop
  obtain ⟨heq, hfits⟩ := termBound_eq (hk id _ hvalue hfed whole rfl) hall i
  refine ⟨heq, fun hu => ?_⟩
  rwa [← (hg.dims_of_keepsDimension he hkeeps (List.mem_of_getElem? ho) hu).2]

/-- What a product leaves for a factor is of the dimension of the product without those of the other
factors. -/
theorem agrees_narrowFactors (hop : e.op = .multiply) :
    Agrees g k (Strict.narrowEach g because k Strict.factorBound e.operands v)
      (narrowEach g because k factorBound? e.operands v) := by
  refine agrees_narrowEach (fun o ho => hg.ne_null he ho) fun whole parts hwhole hk hi hparts i o ho => ?_
  subst hwhole
  refine ⟨rfl, fun _ c hc hcfed => ValueSet.measures_numeric.2 ?_⟩
  obtain ⟨hdims, hothers⟩ := dims_of_factorBound? hc hcfed
  have hsum := (hg.dims_of_multiply he hop (hi id whole hvalue)).2
  rw [hdims, hk.dims_of_parts (forall₂_eraseIdx hparts i) hothers, hk id _ hvalue hfed whole rfl, hsum]
  obtain ⟨hlt, rfl⟩ := List.getElem?_eq_some_iff.1 ho
  have hlt' : i < (e.operands.map g.dims).length := by rwa [List.length_map]
  rw [← List.CommMonoid.add_sum_eraseIdx hlt', List.eraseIdx_map, List.getElem_map,
    add_sub_cancel_right]

/-- Where an expression with a value that has elements narrows its operands, no dimensions clash. -/
theorem agrees_narrowOperands :
    Agrees g k (Strict.narrowOperands g because k e v) (narrowOperands g because k e v) := by
  have hnull := fun o (ho : o ∈ e.operands) => hg.ne_null he ho
  obtain ⟨op, operands, asserted⟩ := e
  unfold Strict.narrowOperands narrowOperands
  cases op
  case is =>
    match operands with
    | [] | [_] => exact .refl k
    | a :: b :: rest =>
      dsimp only
      split_ifs
      · exact agrees_narrowIs hg he rfl (by simp) (by simp)
      · exact .refl k
  case isSubset =>
    match operands with
    | [] | [_] => exact .refl k
    | a :: b :: rest =>
      dsimp only
      cases v.isTrue with
      | false => exact .refl k
      | true =>
        cases houter : k.value? b with
        | none => exact .refl k
        | some outer =>
          intro hk hi
          have hi₀ := hi.of_learns (learns_narrow k a outer)
          exact agrees_narrow (hnull a (by simp))
            (fits_operand hg he rfl (by simp) (by simp) hk hi₀ houter) hk hi
  case greaterOrEqual =>
    match operands with
    | [] | [_] => exact .refl k
    | a :: b :: rest =>
      dsimp only
      split_ifs
      · exact agrees_narrowOrder hg he rfl (by simp) (by simp)
      · exact .refl k
  case not =>
    match operands with
    | [] => exact .refl k
    | a :: rest =>
      cases v with
      | boolean t => exact agrees_narrow (hnull a (by simp)) fun _ => ValueSet.measures_boolean.fits
      | numeric q => exact .refl k
      | enum c => exact .refl k
      | text t => exact .refl k
  case or => exact agrees_narrowOr hnull
  case add => exact agrees_narrowTerms hg he hvalue hfed rfl
  case multiply => exact agrees_narrowFactors hg he hvalue hfed rfl
  all_goals exact .refl k

end Backward

theorem agrees_backwardStep (hg : g.Accepted) (k : Knowledge α) (id : NodeId) :
    Agrees g k (Strict.backwardStep g k id) (backwardStep g k id) := by
  unfold Strict.backwardStep backwardStep
  cases he : g.expression? id with
  | none => exact .refl k
  | some e =>
    cases hvalue : k.value? id with
    | none => exact .refl k
    | some v =>
      dsimp only
      split_ifs with hempty
      · exact .refl k
      · exact agrees_narrowOperands hg he hvalue (Bool.eq_false_iff.2 hempty)

end Knowledge

end ParameterSolver
