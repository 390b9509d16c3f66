import ParameterSolver.Proofs.Graph.Linked
import ParameterSolver.Proofs.Propagation.Evaluate

/-! Sweeps lose no value. What is known of a node holds every value that the node stands for in a
solution, and each step forward or backward keeps it so. -/

namespace ParameterSolver

open Exact ParameterSolver.Valuation Propagation

/-- What the sets of a graph look like and where its unions stand. A union is read only as a set or
member by member, and only predicates are asserted. -/
structure Generation.Regular (g : Generation Exact) : Prop where
  literal : ∀ id s u, g.node? id = some (.literal s u) → s.Normal
  within : ∀ id p, g.node? id = some (.parameter p) → ∀ s ∈ p.within, s.Normal
  values : ∀ id e, g.expression? id = some e → ∀ o ∈ e.valueOperands, ¬ g.isUnion o
  asserted : ∀ id e, g.expression? id = some e → e.asserted → e.op.isPredicate

/-- The exponent of every power is given as one value. It is small enough to be taken for an
integer, or the base is not negative. -/
def Valuation.PowersReadable (g : Generation Exact) (v : Valuation) : Prop :=
  ∀ id e, g.expression? id = some e → e.op = .power →
    (∀ b ∈ e.operands[1]?, ∃ s, g.given? b = some s ∧ s.isSingleton) ∧
      ∀ a n, e.operands.map v = [.number a, .number n] → n.num.natAbs < 2147483647 ∨ 0 ≤ a

/-- A valuation of the graph that fits, chooses an element of every given set, and makes all
assertions true. -/
structure Valuation.Solves (g : Generation Exact) (v : Valuation) : Prop where
  fits : Fits g v
  chooses : Chooses g v
  satisfies : Satisfies g v

namespace Generation

variable {g : Generation Exact} {id : NodeId} {e : Expression} {s : ValueSet Exact}

theorem given?_of_expression (h : g.expression? id = some e) : g.given? id = none := by
  rw [given?, expression?_eq.1 h]
  rfl

theorem not_isUnion_of_given (h : g.given? id = some s) : ¬ g.isUnion id := by
  rintro ⟨e, he, -⟩
  simp [given?_of_expression he] at h

theorem Regular.given (hg : g.Regular) (h : g.given? id = some s) : s.Normal := by
  unfold given? at h
  obtain ⟨n, hn, h⟩ := Option.bind_eq_some_iff.1 h
  cases n with
  | parameter p => cases h
  | expression e => cases h
  | literal t u => cases h; exact hg.literal id _ u hn
  | constant c =>
    have hs := toOption_eq_some h
    cases c with
    | number x u => cases hs; exact Numbers.normal_scale (Numbers.normal_singleton x) u.scale
    | range lo hi u => cases hs; exact Numbers.normal_scale (Numbers.normal_closed lo hi) u.scale
    | bool b => cases hs; trivial
    | member en m =>
      obtain ⟨c, -, rfl⟩ := ValueSet.map_ok hs
      trivial
    | text t => cases hs; trivial

/-- A node whose set is that of what is given: a given node, or a union of given nodes. -/
def IsSet (g : Generation Exact) (id : NodeId) : Prop :=
  (∃ s, g.given? id = some s) ∨
    ∃ e, g.expression? id = some e ∧ e.op = .union ∧ ∀ o ∈ e.operands, ∃ s, g.given? o = some s

end Generation

namespace Valuation

variable {g : Generation Exact} {v : Valuation} {id : NodeId} {e : Expression} {s : ValueSet Exact}

theorem extent_of_given (h : g.given? id = some s) : extent g v id = { x | x ∈ s } := by
  ext x
  simp [extent, members_of_not_isUnion (Generation.not_isUnion_of_given h), h]

theorem extent_eq_singleton (hu : ¬ g.isUnion id) (h : g.given? id = none) :
    extent g v id = {v id} := by
  ext x
  simp [extent, members_of_not_isUnion hu, h]

/-- A union of nodes that are no unions has the values of its operands. -/
theorem extent_of_union (he : g.expression? id = some e) (hop : e.op = .union)
    (hu : ∀ o ∈ e.operands, ¬ g.isUnion o) :
    extent g v id = { x | ∃ o ∈ e.operands, x ∈ extent g v o } := by
  ext x
  simp only [extent, members_of_isUnion he hop, Set.mem_ofPred_eq]
  refine exists_congr fun o => and_congr_right fun ho => ?_
  simp [members_of_not_isUnion (hu o ho)]

theorem Solves.denotes (hv : Solves g v) (he : g.expression? id = some e) :
    Denotes g v e (v id) := hv.fits id _ (Generation.expression?_eq.1 he)

theorem Solves.nonempty (hv : Solves g v) (id : NodeId) : (extent g v id).Nonempty := by
  by_cases hu : g.isUnion id
  · obtain ⟨e, he, hop⟩ := hu
    have hd := hv.denotes he
    obtain ⟨op, l, a⟩ := e
    subst hop
    obtain ⟨o, ho⟩ := List.exists_mem_of_ne_nil l (by simpa [Denotes, Operator.Denotes] using hd)
    exact ⟨v o, hv.chooses.mem_extent (by simpa [members_of_isUnion he rfl] using ho)⟩
  · exact ⟨v id, hv.chooses.mem_extent_self hu⟩

end Valuation

namespace Knowledge

structure Sound (g : Generation Exact) (v : Valuation) (k : Knowledge Exact) : Prop where
  normal : ∀ id s, k.value? id = some s → s.Normal
  holds : ∀ id s, k.value? id = some s → ∀ x ∈ extent g v id, x ∈ s
  given : ∀ id s t, g.given? id = some s → k.value? id = some t → t = s
  sets : ∀ id s, g.IsSet id → k.value? id = some s → ∀ x ∈ s, x ∈ extent g v id
  exact : ∀ id, k.exact.contains id → g.IsSet id
  emptied : k.emptied = []

variable {g : Generation Exact} {v : Valuation} {k : Knowledge Exact} {id : NodeId}
  {e : Expression} {s bound : ValueSet Exact} {because : Provenance}

theorem Sound.covers (h : Sound g v k) (hv : Solves g v) (o : NodeId) (s : ValueSet Exact)
    (hs : k.value? o = some s) : Covers g v k.exact.contains o s where
  normal := h.normal o s hs
  mem := h.holds o s hs
  exact he := h.sets o s (h.exact o he) hs
  nonempty := hv.nonempty o

/-- What a restricted node is known to be is what it was and also the bound. -/
theorem refined?_spec (h : Sound g v k) (hb : bound.Normal) (hbm : ∀ x ∈ extent g v id, x ∈ bound)
    (hr : k.refined? id bound = some s) : s.Normal ∧ (∀ x ∈ extent g v id, x ∈ s) ∧
      (k.value? id = none ∧ s = bound ∨ ∃ t, k.value? id = some t ∧ ∀ x ∈ s, x ∈ t) := by
  unfold refined? at hr
  cases hk : k.value? id with
  | none =>
    rw [hk] at hr
    cases hr
    exact ⟨hb, hbm, Or.inl ⟨rfl, rfl⟩⟩
  | some t =>
    rw [hk] at hr
    dsimp only at hr
    split at hr
    · cases hr
    · rename_i u hu
      split_ifs at hr
      cases hr
      have hmem := fun x => ValueSet.mem_inter (x := x) (h.normal id t hk) hb hu
      exact ⟨.inter hu, fun x hx => (hmem x).2 ⟨h.holds id t hk x hx, hbm x hx⟩,
        Or.inr ⟨t, rfl, fun x hx => ((hmem x).1 hx).1⟩⟩

theorem Sound.restrict (h : Sound g v k) (hv : Solves g v) (hg : g.given? id = none)
    (hb : bound.Normal) (hbm : ∀ x ∈ extent g v id, x ∈ bound)
    (hset : g.IsSet id → ∀ x ∈ bound, x ∈ extent g v id) :
    Sound g v (restrict g because k id bound) := by
  unfold Knowledge.restrict
  split
  · exact h
  · rename_i next hr
    obtain ⟨hn, hmem, hfrom⟩ := refined?_spec h hb hbm hr
    have hne : next.isEmpty = false := by
      obtain ⟨x, hx⟩ := hv.nonempty id
      exact Bool.eq_false_iff.2 fun he => ValueSet.not_mem_of_isEmpty hn he (hmem x hx)
    have hval : ∀ {j s}, (k.values.insert id next).get? j = some s →
        (j = id ∧ s = next) ∨ k.value? j = some s := NodeMap.get?_insert_cases
    simp only [hne, Bool.false_and, Bool.false_eq_true, if_false]
    constructor
    · intro j s hs
      rcases hval hs with ⟨rfl, rfl⟩ | hs
      · exact hn
      · exact h.normal j s hs
    · intro j s hs
      rcases hval hs with ⟨rfl, rfl⟩ | hs
      · exact hmem
      · exact h.holds j s hs
    · intro j s t hj hs
      rcases hval hs with ⟨rfl, rfl⟩ | hs
      · simp [hg] at hj
      · exact h.given j s t hj hs
    · intro j s hj hs
      rcases hval hs with ⟨rfl, rfl⟩ | hs
      · rcases hfrom with ⟨-, rfl⟩ | ⟨t, ht, hsub⟩
        · exact hset hj
        · exact fun x hx => h.sets j t hj ht x (hsub x hx)
      · exact h.sets j s hj hs
    · exact h.exact
    · exact h.emptied

theorem Sound.narrow (h : Sound g v k) (hv : Solves g v) (hu : ¬ g.isUnion id)
    (hb : bound.Normal) (hx : v id ∈ bound) : Sound g v (narrow g because k id bound) := by
  unfold Knowledge.narrow
  split_ifs with hgiv
  · exact h
  · have hg : g.given? id = none := by
      rw [Generation.given?]
      cases hn : g.node? id with
      | none => rfl
      | some n => cases n <;> simp_all [Node.isGiven, Node.given?]
    have hext : extent g v id = {v id} := extent_eq_singleton hu hg
    refine h.restrict hv hg hb (by simpa [hext] using hx) ?_
    rintro (⟨s, hs⟩ | ⟨e, he, hop, -⟩)
    · simp [hg] at hs
    · exact absurd ⟨e, he, hop⟩ hu

theorem mem_of_mapM {α β : Type} {f : α → Option β} {l : List α} {m : List β}
    (h : l.mapM f = some m) :
    (∀ a ∈ l, ∃ b ∈ m, f a = some b) ∧ ∀ b ∈ m, ∃ a ∈ l, f a = some b := by
  have hf := forall₂_of_mapM h
  clear h
  induction hf with
  | nil => simp
  | @cons a b l m hab _ ih =>
    simp only [List.mem_cons, exists_eq_or_imp]
    constructor
    · rintro c (rfl | hc)
      · exact Or.inl hab
      · exact Or.inr (ih.1 c hc)
    · rintro c (rfl | hc)
      · exact Or.inl hab
      · exact Or.inr (ih.2 c hc)

theorem mapM_getElem {α β : Type} {f : α → Option β} {l : List α} {m : List β}
    (h : l.mapM f = some m) {i : ℕ} {b : β} (hb : m[i]? = some b) :
    ∃ a, l[i]? = some a ∧ f a = some b := by
  have hf := forall₂_of_mapM h
  clear h
  induction hf generalizing i with
  | nil => simp at hb
  | cons hac _ ih =>
    cases i with
    | zero => cases hb; exact ⟨_, rfl, hac⟩
    | succ i => exact ih hb

theorem not_isUnion_of_operand (hg : g.Regular) (he : g.expression? id = some e)
    (hop : e.op = .union) : ∀ o ∈ e.operands, ¬ g.isUnion o := by
  have h := hg.values id e he
  obtain ⟨op, l, a⟩ := e
  subst hop
  exact h

theorem not_isUnion_of_op (he : g.expression? id = some e) (hop : e.op ≠ .union) :
    ¬ g.isUnion id := by
  rintro ⟨e', he', hop'⟩
  rw [he] at he'
  cases he'
  exact hop hop'

theorem not_isSet (he : g.expression? id = some e) (hop : e.op ≠ .union) : ¬ g.IsSet id := by
  rintro (⟨t, ht⟩ | ⟨e', he', hop', -⟩)
  · simp [Generation.given?_of_expression he] at ht
  · exact not_isUnion_of_op he hop ⟨e', he', hop'⟩

variable (hg : g.Regular) (hv : Solves g v) (hp : PowersReadable g v)

include hg hv hp

/-- What is computed for an expression holds its value, for a union all values it stands for. -/
theorem Sound.evaluate (h : Sound g v k) (he : g.expression? id = some e)
    (hs : evaluate? e.op (e.operands.map k.value?) (e.operands.map k.exact.contains) = some s) :
    s.Normal ∧ (∀ x ∈ extent g v id, x ∈ s) ∧ (g.IsSet id → ∀ x ∈ s, x ∈ extent g v id) := by
  have hcov := fun o (_ : o ∈ e.operands) => h.covers hv o
  by_cases hop : e.op = .union
  · have hno := not_isUnion_of_operand hg he hop
    obtain ⟨known, hk, hn, hmem⟩ := evaluate?_union hop hcov hs
    obtain ⟨hk1, hk2⟩ := mem_of_mapM hk
    rw [extent_of_union he hop hno]
    refine ⟨hn, fun x ⟨o, ho, hx⟩ => ?_, fun hset x hx => ?_⟩
    · obtain ⟨t, ht, hot⟩ := hk1 o ho
      exact (hmem x).2 ⟨t, ht, h.holds o t hot x hx⟩
    · obtain ⟨t, ht, hxt⟩ := (hmem x).1 hx
      obtain ⟨o, ho, hot⟩ := hk2 t ht
      rcases hset with ⟨u, hu⟩ | ⟨e', he', -, hgiven⟩
      · simp [Generation.given?_of_expression he] at hu
      · rw [he] at he'
        cases he'
        exact ⟨o, ho, h.sets o t (Or.inl (hgiven o ho)) hot x hxt⟩
  · have hread : ∀ known, e.operands.mapM k.value? = some known → PowerReadable v e known := by
      intro known hk hpow
      obtain ⟨h1, h2⟩ := hp id e he hpow
      refine ⟨fun t ht => ?_, h2⟩
      obtain ⟨b, hb, hbt⟩ := mapM_getElem hk ht
      obtain ⟨u, hu, hsing⟩ := h1 b hb
      rwa [h.given b u t hu hbt]
    obtain ⟨hn, hx⟩ := evaluate?_mem hv.chooses (hv.denotes he) hop (hg.values id e he) hread hcov hs
    have hext : extent g v id = {v id} :=
      extent_eq_singleton (not_isUnion_of_op he hop) (Generation.given?_of_expression he)
    exact ⟨hn, by simpa [hext] using hx, fun hset => absurd hset (not_isSet he hop)⟩

theorem Sound.forwardValue (h : Sound g v k) (he : g.expression? id = some e)
    (hs : k.forwardValue? e = some s) :
    s.Normal ∧ (∀ x ∈ extent g v id, x ∈ s) ∧ (g.IsSet id → ∀ x ∈ s, x ∈ extent g v id) := by
  unfold forwardValue? at hs
  dsimp only at hs
  split_ifs at hs with ha
  · have hop : e.op ≠ .union := by
      intro hop
      have hpred := hg.asserted id e he ha
      simp [hop, Operator.isPredicate, Operator.has, Operator.having, Operator.logical,
        Operator.relational] at hpred
    have hset : g.IsSet id → ∀ x ∈ s, x ∈ extent g v id := fun h => absurd h (not_isSet he hop)
    have hext : extent g v id = {v id} :=
      extent_eq_singleton (not_isUnion_of_op he hop) (Generation.given?_of_expression he)
    have htrue := hv.satisfies id e he ha
    split at hs
    · rename_i t ht
      obtain ⟨hn, hmem, -⟩ := h.evaluate hg hv hp he ht
      cases hi : t.inter (.truth true) with
      | error => simp [hi, Except.toOption] at hs; exact hs ▸ ⟨hn, hmem, hs ▸ hset⟩
      | ok u =>
        simp only [hi, Except.toOption, Option.getD_some, Option.some.injEq] at hs
        subst hs
        refine ⟨.inter hi, fun x hx => (ValueSet.mem_inter hn (ValueSet.normal_truth _) hi).2
          ⟨hmem x hx, ?_⟩, hset⟩
        rw [hext, htrue] at hx
        exact ValueSet.mem_truth.2 hx
    · cases hs
      refine ⟨trivial, fun x hx => ?_, hset⟩
      rw [hext, htrue] at hx
      exact ValueSet.mem_truth.2 hx
  · exact h.evaluate hg hv hp he hs

theorem Sound.forwardStep (h : Sound g v k) (id : NodeId) : Sound g v (forwardStep g k id) := by
  unfold Knowledge.forwardStep
  cases he : g.expression? id with
  | none => exact h
  | some e =>
    dsimp only
    set k' : Knowledge Exact :=
      if (keepsExactness e.op && e.operands.all k.exact.contains) = true then
        { k with exact := k.exact.insert id () } else k with hk'
    have h' : Sound g v k' := by
      rw [hk']
      split_ifs with hex
      · refine ⟨h.normal, h.holds, h.given, h.sets, fun j hj => ?_, h.emptied⟩
        obtain ⟨y, hy⟩ := Option.isSome_iff_exists.1 hj
        rcases NodeMap.get?_insert_cases hy with ⟨rfl, -⟩ | hy
        · rw [Bool.and_eq_true, List.all_eq_true] at hex
          have hop : e.op = .union := by
            by_contra hop
            refine not_denotes_of_set ?_ hop (hv.denotes he)
            have := hex.1
            cases hop : e.op <;> simp_all [keepsExactness, Operator.has, Operator.having]
          refine Or.inr ⟨e, he, hop, fun o ho => ?_⟩
          rcases h.exact o (hex.2 o ho) with hs | ⟨e', he', hop', -⟩
          · exact hs
          · exact absurd ⟨e', he', hop'⟩ (not_isUnion_of_operand hg he hop o ho)
        · exact h.exact j (by rw [NodeMap.contains, hy]; rfl)
      · exact h
    cases hs : k.forwardValue? e with
    | none => exact h'
    | some s =>
      obtain ⟨hn, hmem, hset⟩ := h.forwardValue hg hv hp he hs
      exact h'.restrict hv (Generation.given?_of_expression he) hn hmem hset

omit hg hv hp in
theorem Sound.foldl {β : Type} {f : Knowledge Exact → β → Knowledge Exact} {l : List β}
    (h : Sound g v k) (hf : ∀ x ∈ l, ∀ k, Sound g v k → Sound g v (f k x)) :
    Sound g v (l.foldl f k) := by
  induction l generalizing k with
  | nil => exact h
  | cons x l ih => exact ih (hf x (by simp) k h) fun y hy => hf y (by simp [hy])

omit hg hp in
theorem Sound.value_mem (h : Sound g v k) (hu : ¬ g.isUnion id) (hs : k.value? id = some s) :
    v id ∈ s := h.holds id s hs _ (hv.chooses.mem_extent_self hu)

omit hg hp in
theorem Sound.narrowIs (h : Sound g v k) {a b : NodeId} (ha : ¬ g.isUnion a) (hb : ¬ g.isUnion b)
    (hab : v a = v b) : Sound g v (narrowIs g because k a b) := by
  unfold Knowledge.narrowIs
  split
  · rename_i s t hs ht
    split
    · rename_i u hu
      have hmem := ValueSet.mem_inter (x := v a) (h.normal a s hs) (h.normal b t ht) hu
      have hu' : v a ∈ u := hmem.2 ⟨h.value_mem hv ha hs, hab ▸ h.value_mem hv hb ht⟩
      exact (h.narrow hv ha (.inter hu) hu').narrow hv hb (.inter hu) (hab ▸ hu')
    · exact h
  · rename_i t _ ht
    exact h.narrow hv ha (h.normal b t ht) (hab ▸ h.value_mem hv hb ht)
  · rename_i s hs _
    exact h.narrow hv hb (h.normal a s hs) (hab ▸ h.value_mem hv ha hs)
  · exact h

omit hg hv hp in
theorem limits?_eq {lo hi : Exact} {u : MeasureUnit Exact} (h : k.limits? id = some (lo, hi, u)) :
    ∃ q, k.value? id = some (.numeric q) ∧ q.base.min? = some lo ∧ q.base.max? = some hi := by
  unfold limits? at h
  simp only [Option.bind_eq_bind, Option.bind_eq_some_iff] at h
  obtain ⟨s, hs, q, hq, x, hx, y, hy, h⟩ := h
  cases h
  cases s <;> cases hq
  exact ⟨q, hs, hx, hy⟩

omit hg hp in
/-- Both sides are narrowed, the second with what is known after the first. -/
theorem Sound.narrowPair (h : Sound g v k) {high low : NodeId} {q r : ℚ} (hh : ¬ g.isUnion high)
    (hl : ¬ g.isUnion low) (hq : v high = .number q) (hr : v low = .number r) (hle : r ≤ q) :
    Sound g v (narrowPair g because k high low) := by
  unfold Knowledge.narrowPair
  extract_lets k'
  have h' : Sound g v k' := by
    unfold k'
    split
    · rename_i lowMin _ unit hlim
      obtain ⟨a, ha, hmin, -⟩ := limits?_eq hlim
      have hmem := h.value_mem hv hl ha
      rw [hr] at hmem
      refine h.narrow hv hh (Numbers.normal_atLeast _) ?_
      rw [hq]
      exact Numbers.mem_atLeast.2 (Exact.le_trans
        (Numbers.Normal.min?_le (h.normal low _ ha) hmin hmem) (finite_le_finite.2 hle))
    · exact h
  split
  · rename_i _ highMax unit hlim
    obtain ⟨a, ha, -, hmax⟩ := limits?_eq hlim
    have hmem := h'.value_mem hv hh ha
    rw [hq] at hmem
    refine h'.narrow hv hl (Numbers.normal_atMost _) ?_
    rw [hr]
    exact Numbers.mem_atMost.2 (Exact.le_trans (finite_le_finite.2 hle)
      (Numbers.Normal.le_max? (h'.normal high _ ha) hmax hmem))
  · exact h'

omit hv hp in
/-- The operands of a union are no unions themselves. -/
theorem not_isUnion_of_member {m : NodeId} (hm : m ∈ members g id) : ¬ g.isUnion m := by
  by_cases hu : g.isUnion id
  · obtain ⟨e, he, hop⟩ := hu
    rw [members_of_isUnion he hop] at hm
    exact not_isUnion_of_operand hg he hop m hm
  · rw [members_of_not_isUnion hu, List.mem_singleton] at hm
    rwa [hm]

omit hp in
theorem Sound.narrowOrder (h : Sound g v k) {high low : NodeId}
    (hq : ∀ y ∈ spread g v high, ∃ q, y = .number q) (hr : ∀ y ∈ spread g v low, ∃ q, y = .number q)
    (hle : ∀ q r, .number q ∈ spread g v high → .number r ∈ spread g v low → q ≥ r) :
    Sound g v (narrowOrder g because k high low) := by
  refine h.foldl fun a ha k h => h.foldl fun b hb k h => ?_
  obtain ⟨q, hva⟩ := hq _ (mem_spread ha)
  obtain ⟨r, hvb⟩ := hr _ (mem_spread hb)
  exact h.narrowPair hv (not_isUnion_of_member hg ha) (not_isUnion_of_member hg hb) hva hvb
    (hle q r (hva ▸ mem_spread ha) (hvb ▸ mem_spread hb))

omit hg hp in
theorem Sound.narrowOr (h : Sound g v k) {l : List NodeId} {bs : List Bool} {value : ValueSet Exact}
    (hu : ∀ o ∈ l, ¬ g.isUnion o) (hb : l.map v = bs.map .boolean)
    (hval : .boolean (bs.any fun b => b) ∈ value) : Sound g v (narrowOr g because k l value) := by
  have hbool : ∀ o ∈ l, ∃ b ∈ bs, v o = .boolean b := by
    intro o ho
    obtain ⟨b, hb, hv⟩ := List.mem_map.1 (hb ▸ List.mem_map_of_mem (f := v) ho)
    exact ⟨b, hb, hv.symm⟩
  unfold Knowledge.narrowOr
  split_ifs with hf ht
  · have hall : (bs.any fun b => b) = false := by simpa using ValueSet.mem_of_isFalse hf hval
    refine h.foldl fun o ho k h => h.narrow hv (hu o ho) (ValueSet.normal_truth _) ?_
    obtain ⟨b, hb, hvo⟩ := hbool o ho
    rw [hvo, ValueSet.mem_truth, Bool.eq_false_iff.2 (List.any_eq_false.1 hall b hb)]
  · have hany : (bs.any fun b => b) = true := by simpa using ValueSet.mem_of_isTrue ht hval
    split
    · rename_i only honly
      have hmem : only ∈ l := List.mem_of_mem_filter (honly ▸ List.mem_singleton_self only)
      refine h.narrow hv (hu only hmem) (ValueSet.normal_truth _) ?_
      -- some operand is true, and it has not been found false, so it is the only one left
      obtain ⟨b, hbs, rfl⟩ := List.any_eq_true.1 hany
      obtain ⟨o, ho, hvo⟩ := List.mem_map.1 (hb ▸ List.mem_map_of_mem (f := Value.boolean) hbs)
      have hopen : o ∈ l.filter fun o => !(k.value? o).any ValueSet.isFalse := by
        refine List.mem_filter.2 ⟨ho, ?_⟩
        cases hk : k.value? o with
        | none => rfl
        | some t =>
          have hvt := h.value_mem hv (hu o ho) hk
          rw [hvo] at hvt
          have : t.isFalse ≠ true := fun hft => by simpa using ValueSet.mem_of_isFalse hft hvt
          simpa using this
      rw [honly, List.mem_singleton] at hopen
      rw [← hopen, hvo]
      exact ValueSet.mem_truth.2 rfl
    · exact h
  · exact h

/-! Sums and products. What a whole leaves for one part is what the other parts take from it. -/

omit hg hv hp

section Parts

variable {qs : List ℚ} {parts : List (Quantities Exact)} {whole b : Quantities Exact} {q : ℚ}
  {index : ℕ}

theorem forall₂_eraseIdx {α β : Type} {R : α → β → Prop} {l : List α} {m : List β}
    (h : List.Forall₂ R l m) (i : ℕ) : List.Forall₂ R (l.eraseIdx i) (m.eraseIdx i) := by
  induction h generalizing i with
  | nil => exact .nil
  | cons hab h ih =>
    cases i with
    | zero => exact h
    | succ i => exact .cons hab (ih i)

theorem combineOthers?_bounds
    {f : Quantities Exact → Quantities Exact → Except (SetError Exact) (Quantities Exact)}
    {op : ℚ → ℚ → ℚ} (hf : ∀ {a b c q r}, Quantities.Bounds a q → b.Bounds r → f a b = .ok c →
      c.Bounds (op q r)) (h : List.Forall₂ (fun q a => a.Bounds q) qs parts)
    {others : Option (Quantities Exact)} (hc : combineOthers? f parts index = some others) :
    match others with
    | none => qs.eraseIdx index = []
    | some rest => ∃ r l, qs.eraseIdx index = r :: l ∧ rest.Bounds (l.foldl op r) := by
  have hrest := forall₂_eraseIdx h index
  generalize qs.eraseIdx index = rs at hrest ⊢
  unfold combineOthers? at hc
  split at hc
  · rename_i hnil
    cases hc
    rw [hnil] at hrest
    cases hrest
    rfl
  · rename_i first rest hcons
    rw [hcons] at hrest
    obtain ⟨c, hfold, rfl⟩ := Option.map_eq_some_iff.1 hc
    obtain _ | ⟨h0, hl⟩ := hrest
    exact ⟨_, _, rfl, foldlM_bounds (fun ha hb h => hf ha hb (toOption_eq_some h)) h0 hl hfold⟩

theorem termBound?_bounds (h : List.Forall₂ (fun q a => a.Bounds q) qs parts)
    (hw : whole.Bounds qs.sum) (hq : qs[index]? = some q)
    (hb : termBound? whole parts index = some b) : b.Bounds q := by
  obtain ⟨hlt, hget⟩ := List.getElem?_eq_some_iff.1 hq
  have hsum : q + (qs.eraseIdx index).sum = qs.sum := by
    rw [← hget]
    exact List.add_sum_eraseIdx hlt fun _ _ => AddCommute.all _ _
  unfold termBound? at hb
  split at hb
  · rename_i rest hc
    obtain ⟨r, l, he, hrest⟩ := combineOthers?_bounds Quantities.Bounds.add h hc
    rw [foldl_add, ← List.sum_cons, ← he] at hrest
    have hq' := hw.add hrest.neg (toOption_eq_some hb)
    rwa [← hsum, add_neg_cancel_right] at hq'
  · rename_i hc
    have he := combineOthers?_bounds Quantities.Bounds.add h hc
    cases hb
    rwa [← hsum, show qs.eraseIdx index = [] from he, List.sum_nil, add_zero] at hw
  · cases hb

theorem factorBound?_bounds (h : List.Forall₂ (fun q a => a.Bounds q) qs parts)
    (hw : whole.Bounds qs.prod) (hq : qs[index]? = some q)
    (hb : factorBound? whole parts index = some b) : b.Bounds q := by
  obtain ⟨hlt, hget⟩ := List.getElem?_eq_some_iff.1 hq
  have hprod : q * (qs.eraseIdx index).prod = qs.prod := by
    rw [← hget]
    exact List.CommMonoid.mul_prod_eraseIdx hlt
  unfold factorBound? at hb
  split at hb
  · rename_i rest hc
    obtain ⟨r, l, he, hrest⟩ := combineOthers?_bounds Quantities.Bounds.mul h hc
    rw [foldl_mul, ← List.prod_cons, ← he] at hrest
    split_ifs at hb with h0
    -- the product of the others lies in a set without zero
    have hne : (qs.eraseIdx index).prod ≠ 0 := by
      intro hzero
      rw [hzero] at hrest
      exact h0 (by rw [zero_eq]; exact hrest.2)
    obtain ⟨inv, hinv, hb⟩ := Option.bind_eq_some_iff.1 hb
    have hq' := hw.mul (hrest.invert hne (toOption_eq_some hinv)) (toOption_eq_some hb)
    rwa [← hprod, mul_assoc, mul_inv_cancel₀ hne, mul_one] at hq'
  · rename_i hc
    have he := combineOthers?_bounds Quantities.Bounds.mul h hc
    cases hb
    rwa [← hprod, show qs.eraseIdx index = [] from he, List.prod_nil, mul_one] at hw
  · cases hb

end Parts

theorem mapM_bind {α β γ : Type} {f : α → Option β} {f' : β → Option γ} {l : List α} {m : List γ}
    (h : l.mapM (fun a => (f a).bind f') = some m) :
    ∃ n, l.mapM f = some n ∧ n.mapM f' = some m := by
  induction l generalizing m with
  | nil => exact ⟨[], rfl, h⟩
  | cons a l ih =>
    rw [List.mapM_cons] at h
    obtain ⟨c, hc, h⟩ := Option.bind_eq_some_iff.1 h
    obtain ⟨m, hm, h⟩ := Option.bind_eq_some_iff.1 h
    obtain ⟨b, hb, hbc⟩ := Option.bind_eq_some_iff.1 hc
    obtain ⟨n, hn, hnm⟩ := ih hm
    cases h
    exact ⟨b :: n, by simp [hb, hn], by simp [hbc, hnm]⟩

theorem Sound.forall₂_mem (h : Sound g v k) (hv : Solves g v) {l : List NodeId}
    {known : List (ValueSet Exact)} (hu : ∀ o ∈ l, ¬ g.isUnion o)
    (hk : l.mapM k.value? = some known) :
    List.Forall₂ (fun o s => s.Normal ∧ v o ∈ s) l known := by
  have hf := forall₂_of_mapM hk
  clear hk
  induction hf with
  | nil => exact .nil
  | cons ho _ ih =>
    rw [List.forall_mem_cons] at hu
    exact .cons ⟨h.normal _ _ ho, h.value_mem hv hu.1 ho⟩ (ih hu.2)

theorem Sound.narrowEach (h : Sound g v k) (hv : Solves g v) {l : List NodeId} {qs : List ℚ}
    {total : ℚ} {value : ValueSet Exact}
    {bound? : Quantities Exact → List (Quantities Exact) → ℕ → Option (Quantities Exact)}
    (hbound : ∀ {whole parts index q b}, List.Forall₂ (fun q a => Quantities.Bounds a q) qs parts →
      whole.Bounds total → qs[index]? = some q → bound? whole parts index = some b → b.Bounds q)
    (hu : ∀ o ∈ l, ¬ g.isUnion o) (hq : l.map v = qs.map .number) (hn : value.Normal)
    (hval : .number total ∈ value) : Sound g v (narrowEach g because k bound? l value) := by
  unfold Knowledge.narrowEach
  split
  · rename_i whole parts hwhole hparts
    have hw : whole.Bounds total := by
      cases value <;> cases hwhole
      exact ⟨hn, hval⟩
    obtain ⟨known, hknown, hparts⟩ := mapM_bind hparts
    have hp := forall₂_quantities (h.forall₂_mem hv hu hknown) hq hparts
    refine h.foldl fun ⟨o, index⟩ ho k h => ?_
    dsimp only
    split
    · rename_i b hb
      rw [List.mk_mem_zipIdx_iff_getElem?] at ho
      have hqi : (qs.map Value.number)[index]? = some (v o) := by
        rw [← hq, List.getElem?_map, ho]
        rfl
      rw [List.getElem?_map] at hqi
      obtain ⟨q, hqq, hvq⟩ := Option.map_eq_some_iff.1 hqi
      obtain ⟨hbn, hbm⟩ := hbound hp hw hqq hb
      refine h.narrow hv (hu o (List.mem_of_getElem? ho)) hbn ?_
      rw [← hvq]
      exact hbm
    · exact h
  · exact h

theorem Sound.narrowOperands (h : Sound g v k) (hg : g.Regular) (hv : Solves g v)
    (he : g.expression? id = some e) (hs : k.value? id = some s) :
    Sound g v (narrowOperands g because k e s) := by
  have hd := hv.denotes he
  have hu := hg.values id e he
  have hn := h.normal id s hs
  have hmem : e.op ≠ .union → v id ∈ s := fun hop => h.value_mem hv (not_isUnion_of_op he hop) hs
  obtain ⟨op, l, asserted⟩ := e
  cases op
  case is =>
    obtain ⟨a, b, rfl⟩ := hd.relation rfl
    simp only [Knowledge.narrowOperands]
    split_ifs with htrue
    · obtain ⟨c, hc, hab⟩ := hd
      have ht := ValueSet.mem_of_isTrue htrue (hmem (by simp))
      refine h.narrowIs hv (hu a (by simp [Expression.valueOperands]))
        (hu b (by simp [Expression.valueOperands])) (hab.1 ?_)
      rw [hc] at ht
      simpa using ht
    · exact h
  case isSubset =>
    obtain ⟨a, b, rfl⟩ := hd.relation rfl
    simp only [Knowledge.narrowOperands]
    split
    · rename_i outer htrue houter
      obtain ⟨c, hc, hab⟩ := hd
      have ht := ValueSet.mem_of_isTrue htrue (hmem (by simp))
      refine h.narrow hv (hu a (by simp [Expression.valueOperands])) (h.normal b outer houter)
        (h.holds b outer houter _ (hab.1 ?_))
      rw [hc] at ht
      simpa using ht
    · exact h
  case greaterOrEqual =>
    obtain ⟨a, b, rfl⟩ := hd.relation rfl
    simp only [Knowledge.narrowOperands]
    split_ifs with htrue
    · obtain ⟨hq, hr, c, hc, hab⟩ := hd
      have ht := ValueSet.mem_of_isTrue htrue (hmem (by simp))
      refine h.narrowOrder hg hv hq hr (hab.1 ?_)
      rw [hc] at ht
      simpa using ht
    · exact h
  case not =>
    obtain ⟨bs, b, hb, hlog, hx⟩ := hd.logic rfl
    obtain _ | ⟨c, _ | ⟨_, _⟩⟩ := bs <;> cases hlog
    obtain ⟨a, rfl, hva⟩ : ∃ a, l = [a] ∧ v a = .boolean c := by
      obtain _ | ⟨a, _ | ⟨_, _⟩⟩ := l <;> simp at hb
      exact ⟨a, rfl, hb⟩
    have hm := hmem (by simp)
    simp only [Knowledge.narrowOperands]
    split
    · rename_i t
      refine h.narrow hv (hu a (by simp [Expression.valueOperands])) trivial ?_
      rw [hva]
      rw [hx, ValueSet.boolean_mem] at hm
      rw [ValueSet.boolean_mem, ← Bool.not_not c]
      exact Truths.mem_not.2 hm
    · exact h
  case or =>
    obtain ⟨bs, b, hb, hlog, hx⟩ := hd.logic rfl
    cases hlog
    have hm := hmem (by simp)
    rw [hx] at hm
    exact h.narrowOr hv hu hb hm
  case add =>
    obtain ⟨qs, q, hq, har, hx⟩ := hd.arithmetic rfl
    cases har
    have hm := hmem (by simp)
    rw [hx] at hm
    exact h.narrowEach hv termBound?_bounds hu hq hn hm
  case multiply =>
    obtain ⟨qs, q, hq, har, hx⟩ := hd.arithmetic rfl
    cases har
    have hm := hmem (by simp)
    rw [hx] at hm
    exact h.narrowEach hv factorBound?_bounds hu hq hn hm
  all_goals exact h

theorem Sound.backwardStep (h : Sound g v k) (hg : g.Regular) (hv : Solves g v) (id : NodeId) :
    Sound g v (backwardStep g k id) := by
  unfold Knowledge.backwardStep
  split
  · rename_i e s he hs
    split_ifs
    · exact h
    · exact h.narrowOperands hg hv he hs
  · exact h

theorem Sound.sweep (h : Sound g v k) (hg : g.Regular) (hv : Solves g v)
    (hp : PowersReadable g v) (order : List NodeId) : Sound g v (sweep g order k) := by
  have h' : Sound g v { k with changed := false } :=
    ⟨h.normal, h.holds, h.given, h.sets, h.exact, h.emptied⟩
  exact (h'.foldl fun id _ _ h => h.forwardStep hg hv hp id).foldl
    fun id _ _ h => h.backwardStep hg hv id

end Knowledge

end ParameterSolver
