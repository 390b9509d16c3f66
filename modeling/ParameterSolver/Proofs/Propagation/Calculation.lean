import ParameterSolver.Proofs.Numbers.Settled
import ParameterSolver.Proofs.Propagation.Emptiness
import ParameterSolver.Proofs.Propagation.Sweep
import ParameterSolver.Proofs.Scalar.Machine

/-! Graphs that only calculate: every parameter is given its number, and sums and products are made
of them. Each sweep computes what each operand has to be from the result and the other operands.
Where rounding makes that another number than the operand has, the operand is left without a value;
where it does not, nothing is reported. -/

namespace ParameterSolver

open Scalar (Lawful)

variable {α : Type} [Scalar α]

namespace Scalar

/-- A sum or a product of numbers, from the left. -/
def combine (f : α → α → α) : List α → α
  | [] => 0
  | x :: l => l.foldl f x

/-- Nothing overflows on the way. -/
def Bounded (f : α → α → α) : List α → Prop
  | [] => True
  | x :: l => ∀ m, m <+: l → isFinite (m.foldl f x)

end Scalar

/-- An expression that gives a leaf its number, or that is the sum or the product of its
operands. -/
inductive Generation.Performs (g : Generation α) (num : NodeId → α) (id : NodeId) :
    Expression → Prop
  | assignment {a b : NodeId} (ha : g.expression? a = none) (hb : g.expression? b = none)
    (h : num a == num b) : Performs g num id ⟨.is, [a, b], true⟩
  | sum {operands : List NodeId} (hb : Scalar.Bounded (· + ·) (operands.map num))
    (h : Scalar.combine (· + ·) (operands.map num) == num id) :
    Performs g num id ⟨.add, operands, false⟩
  | product {operands : List NodeId} (hb : Scalar.Bounded (· * ·) (operands.map num))
    (h : Scalar.combine (· * ·) (operands.map num) == num id) :
    Performs g num id ⟨.multiply, operands, false⟩

/-- A graph that computes these numbers. -/
structure Generation.Calculates (g : Generation α) (num : NodeId → α) : Prop where
  finite : ∀ id, Scalar.isFinite (num id)
  parameter : ∀ id p, g.node? id = some (.parameter p) → p.domain = .real ∧ p.within = none
  literal : ∀ id s u, g.node? id = some (.literal s u) →
    ∃ x unit, s = .numeric ⟨.singleton x, unit⟩ ∧ x == num id
  constant : ∀ id c, g.node? id ≠ some (.constant c)
  expression : ∀ id e, g.node? id = some (.expression e) → g.Performs num id e

/-- What the result leaves for an operand, given the others, is the operand. Where the other factors
are zero nothing is asked of a product. -/
def Operator.Restores (op : Operator) (total : α) (others : List α) (x : α) : Prop :=
  match op with
  | .add => Scalar.Bounded (· + ·) others ∧ total + -Scalar.combine (· + ·) others == x
  | .multiply => Scalar.Bounded (· * ·) others ∧ (¬ Scalar.combine (· * ·) others == 0 →
      Scalar.isFinite (1 / Scalar.combine (· * ·) others) ∧
        total * (1 / Scalar.combine (· * ·) others) == x)
  | _ => True

def Generation.Restores (g : Generation α) (num : NodeId → α) : Prop :=
  ∀ id e, g.node? id = some (.expression e) → ∀ i o, e.operands[i]? = some o →
    (g.node? o).any Node.isGiven = false → (e.operands.map num).eraseIdx i ≠ [] →
      e.op.Restores (num id) ((e.operands.map num).eraseIdx i) (num o)

section Sets

variable [Lawful α] {f : α → α → α} {F : Quantities α → Quantities α → Except (SetError α) (Quantities α)}
  {sets : List (Quantities α)} {xs : List α} {total bound : Quantities α} {x t : α} {i : ℕ}

omit [Lawful α] in
theorem Scalar.isFinite_combine (h : Scalar.Bounded f xs) (hxs : xs ≠ []) :
    Scalar.isFinite (Scalar.combine f xs) := by
  cases xs with
  | nil => exact absurd rfl hxs
  | cons x l => exact h l List.prefix_rfl

/-- The operation on sets computes as the one on numbers does. -/
def Follows (F : Quantities α → Quantities α → Except (SetError α) (Quantities α))
    (f : α → α → α) : Prop :=
  ∀ {a b c x y}, F a b = .ok c → a.base.Settles x → b.base.Settles y → Scalar.isFinite x →
    Scalar.isFinite y → Scalar.isFinite (f x y) → c.base.Settles (f x y)

theorem follows_add : Follows (α := α) Quantities.add (· + ·) := by
  intro a b c x y h ha hb hx hy hxy
  rw [(ValueSet.combine_ok h).1]
  exact ha.add hb hx hy hxy

theorem follows_mul : Follows (α := α) Quantities.mul (· * ·) := by
  intro a b c x y h ha hb hx hy hxy
  rw [Quantities.mul_ok h]
  exact ha.mul hb hx hy hxy

omit [Lawful α] in
theorem Follows.foldlM (hF : Follows F f) {a c : Quantities α} (ha : a.base.Settles x)
    (h : List.Forall₂ (fun q y => q.base.Settles y ∧ Scalar.isFinite y) sets xs)
    (hb : ∀ m, m <+: xs → Scalar.isFinite (m.foldl f x))
    (hc : sets.foldlM (fun a b => (F a b).toOption) a = some c) :
    c.base.Settles (xs.foldl f x) := by
  induction h generalizing a x with
  | nil =>
    cases hc
    exact ha
  | @cons q y sets xs hq _ ih =>
    rw [List.foldlM_cons] at hc
    obtain ⟨d, hd, hc⟩ := Option.bind_eq_some_iff.1 hc
    have hx := hb [] (List.nil_prefix)
    have hxy := hb [y] (List.prefix_cons_inj y |>.2 List.nil_prefix)
    refine ih (hF (Propagation.toOption_eq_some hd) ha hq.1 hx hq.2 hxy) (fun m hm => ?_) hc
    exact hb (y :: m) ((List.prefix_cons_inj y).2 hm)

omit [Lawful α] in
theorem Follows.reduce (hF : Follows F f) {c : Quantities α}
    (h : List.Forall₂ (fun q y => q.base.Settles y ∧ Scalar.isFinite y) sets xs)
    (hb : Scalar.Bounded f xs)
    (hc : Propagation.reduce? (fun a b => (F a b).toOption) sets = some c) :
    c.base.Settles (Scalar.combine f xs) := by
  cases h with
  | nil => cases hc
  | cons hq h => exact hF.foldlM hq.1 h hb hc

theorem forall₂_eraseIdx {β γ : Type} {R : β → γ → Prop} {l : List β} {m : List γ}
    (h : List.Forall₂ R l m) (i : ℕ) : List.Forall₂ R (l.eraseIdx i) (m.eraseIdx i) := by
  induction h generalizing i with
  | nil => exact .nil
  | cons hr h ih =>
    cases i with
    | zero => exact h
    | succ i => exact .cons hr (ih i)

omit [Lawful α] in
theorem Follows.others (hF : Follows F f) {r : Option (Quantities α)}
    (h : List.Forall₂ (fun q y => q.base.Settles y ∧ Scalar.isFinite y) sets xs)
    (hb : xs.eraseIdx i ≠ [] → Scalar.Bounded f (xs.eraseIdx i))
    (hr : Knowledge.combineOthers? F sets i = some r) :
    r = none ∧ xs.eraseIdx i = [] ∨
      ∃ q, r = some q ∧ xs.eraseIdx i ≠ [] ∧
        q.base.Settles (Scalar.combine f (xs.eraseIdx i)) := by
  have herase := forall₂_eraseIdx h i
  unfold Knowledge.combineOthers? at hr
  split at hr
  · rename_i hnil
    rw [hnil] at herase
    cases hr
    exact Or.inl ⟨rfl, List.forall₂_nil_left_iff.1 herase⟩
  · rename_i first rest hcons
    rw [hcons] at herase
    obtain ⟨q, hq, rfl⟩ := Option.map_eq_some_iff.1 hr
    have hne : xs.eraseIdx i ≠ [] := by
      intro hnil
      rw [hnil] at herase
      cases herase
    exact Or.inr ⟨q, rfl, hne, hF.reduce herase (hb hne) hq⟩

theorem termBound?_settles (ht : total.base.Settles t) (htf : Scalar.isFinite t)
    (hx : Scalar.isFinite x)
    (h : List.Forall₂ (fun q y => q.base.Settles y ∧ Scalar.isFinite y) sets xs)
    (hone : xs.eraseIdx i = [] → t == x)
    (hrest : xs.eraseIdx i ≠ [] → Operator.add.Restores t (xs.eraseIdx i) x)
    (hb : Knowledge.termBound? total sets i = some bound) : bound.base.Settles x := by
  unfold Knowledge.termBound? at hb
  split at hb
  · rename_i rest hr
    obtain ⟨hnone, -⟩ | ⟨q, hq, hne, hs⟩ := follows_add.others h (fun hne => (hrest hne).1) hr
    · cases hnone
    · cases hq
      obtain ⟨hbounded, hback⟩ := hrest hne
      have hneg := Lawful.isFinite_neg (Scalar.isFinite_combine hbounded hne)
      rw [(ValueSet.combine_ok (Propagation.toOption_eq_some hb)).1]
      refine (ht.add (y := -Scalar.combine _ _) hs.neg htf hneg ?_).congr hback
      exact Scalar.isFinite_congr (Lawful.symm hback) hx
  · rename_i hr
    obtain ⟨-, hnil⟩ | ⟨q, hq, -⟩ := follows_add.others h (fun hne => (hrest hne).1) hr
    · cases hb
      exact ht.congr (hone hnil)
    · cases hq
  · cases hb

theorem factorBound?_settles (ht : total.base.Settles t) (htf : Scalar.isFinite t)
    (hx : Scalar.isFinite x)
    (h : List.Forall₂ (fun q y => q.base.Settles y ∧ Scalar.isFinite y) sets xs)
    (hone : xs.eraseIdx i = [] → t == x)
    (hrest : xs.eraseIdx i ≠ [] → Operator.multiply.Restores t (xs.eraseIdx i) x)
    (hb : Knowledge.factorBound? total sets i = some bound) : bound.base.Settles x := by
  unfold Knowledge.factorBound? at hb
  split at hb
  · rename_i rest hr
    obtain ⟨hnone, -⟩ | ⟨q, hq, hne, hs⟩ := follows_mul.others h (fun hne => (hrest hne).1) hr
    · cases hnone
    · cases hq
      split_ifs at hb with hzero
      rw [Bool.not_eq_true] at hzero
      obtain ⟨hbounded, hback⟩ := hrest hne
      obtain ⟨hinv, hback⟩ := hback (hs.ne_zero hzero)
      obtain ⟨inverse, hinverse, hb⟩ := Option.bind_eq_some_iff.1 hb
      have hrestFinite := Scalar.isFinite_combine hbounded hne
      rw [Quantities.mul_ok (Propagation.toOption_eq_some hb),
        Quantities.invert_ok (Propagation.toOption_eq_some hinverse)]
      refine (ht.mul (hs.invert hrestFinite hinv hzero) htf hinv ?_).congr hback
      exact Scalar.isFinite_congr (Lawful.symm hback) hx
  · rename_i hr
    obtain ⟨-, hnil⟩ | ⟨q, hq, -⟩ := follows_mul.others h (fun hne => (hrest hne).1) hr
    · cases hb
      exact ht.congr (hone hnil)
    · cases hq
  · cases hb

end Sets

/-- Nothing is known of the number, or that it is this one. -/
def ValueSet.Settles (s : ValueSet α) (x : α) : Prop := ∃ q, s = .numeric q ∧ q.base.Settles x

theorem ValueSet.Settles.inter [Lawful α] {s t u : ValueSet α} {x : α} (hs : s.Settles x)
    (ht : t.Settles x) (hx : Scalar.isFinite x) (h : s.inter t = .ok u) : u.Settles x := by
  obtain ⟨q, rfl, hq⟩ := hs
  obtain ⟨r, rfl, hr⟩ := ht
  obtain ⟨c, hc, rfl⟩ := ValueSet.map_ok h
  refine ⟨c, rfl, ?_⟩
  rw [(ValueSet.combine_ok hc).1]
  exact hq.inter hr hx

theorem ValueSet.Settles.congr [Lawful α] {s : ValueSet α} {x y : α} (hs : s.Settles x)
    (h : x == y) : s.Settles y := by
  obtain ⟨q, rfl, hq⟩ := hs
  exact ⟨q, rfl, hq.congr h⟩

namespace Knowledge

/-- What may be known of a node: an assertion can be true, and a number is the one computed. -/
def Suits (g : Generation α) (num : NodeId → α) (id : NodeId) (s : ValueSet α) : Prop :=
  if (g.expression? id).any Expression.asserted then ∃ b : Truths, s = .boolean b ∧ b.hasTrue
  else s.Settles (num id)

structure Settled (g : Generation α) (num : NodeId → α) (k : Knowledge α) : Prop where
  suits : ∀ id s, k.value? id = some s → Suits g num id s
  emptied : k.emptied = []

variable {g : Generation α} {num : NodeId → α} {k : Knowledge α} {id o : NodeId}
  {s t u bound : ValueSet α} {because : Provenance} {x : α}

theorem Suits.not_isEmpty (h : Suits g num id s) : s.isEmpty = false := by
  unfold Suits at h
  split_ifs at h
  · obtain ⟨b, rfl, hb⟩ := h
    simp [ValueSet.isEmpty, Truths.isEmpty, hb]
  · obtain ⟨q, rfl, hq⟩ := h
    exact hq.not_isEmpty

theorem suits_of_leaf (h : g.expression? id = none) : Suits g num id s ↔ s.Settles (num id) := by
  simp [Suits, h]

/-- Where a set of numbers suits, every set suits that settles the number. -/
theorem Suits.of_settles {q : Quantities α} (h : Suits g num id (.numeric q)) :
    q.base.Settles (num id) ∧ ∀ s : ValueSet α, s.Settles (num id) → Suits g num id s := by
  unfold Suits at h ⊢
  split_ifs at h ⊢
  · obtain ⟨b, hb, -⟩ := h
    cases hb
  · obtain ⟨r, ⟨⟩, hr⟩ := h
    exact ⟨hr, fun s hs => hs⟩

variable [Lawful α]

theorem Suits.inter (hs : Suits g num id s) (ht : Suits g num id t)
    (hx : Scalar.isFinite (num id)) (h : s.inter t = .ok u) : Suits g num id u := by
  unfold Suits at hs ht ⊢
  split_ifs at hs ht ⊢
  · obtain ⟨b, rfl, hb⟩ := hs
    obtain ⟨c, rfl, hc⟩ := ht
    cases h
    exact ⟨_, rfl, by simp [Truths.inter, hb, hc]⟩
  · exact hs.inter ht hx h

theorem Settled.restrict (h : Settled g num k) (hx : Scalar.isFinite (num id))
    (hb : Suits g num id bound) : Settled g num (restrict g because k id bound) := by
  unfold Knowledge.restrict
  split
  · exact h
  · rename_i next hr
    have hnext : Suits g num id next := by
      unfold refined? at hr
      split at hr
      · cases hr
        exact hb
      · rename_i current hcurrent
        split at hr
        · cases hr
        · rename_i u hu
          split_ifs at hr
          cases hr
          exact (h.suits id current hcurrent).inter hb hx hu
    simp only [hnext.not_isEmpty, Bool.false_and, Bool.false_eq_true, if_false]
    refine ⟨fun j s hs => ?_, h.emptied⟩
    rcases NodeMap.get?_insert_cases hs with ⟨rfl, rfl⟩ | hs
    · exact hnext
    · exact h.suits j s hs

theorem Settled.narrow (h : Settled g num k) (hx : Scalar.isFinite (num id))
    (hb : (g.node? id).any Node.isGiven = false → Suits g num id bound) :
    Settled g num (narrow g because k id bound) := by
  unfold Knowledge.narrow
  split_ifs with hgiven
  · exact h
  · exact h.restrict hx (hb (Bool.eq_false_iff.2 hgiven))

theorem settled_seed (hg : g.Calculates num) : Settled g num (seed g) := by
  refine ⟨fun id s hs => ?_, emptied_seed g⟩
  obtain ⟨n, hn, hinitial⟩ := initial?_of_seed hs
  cases n with
  | parameter p =>
    obtain ⟨hdomain, hwithin⟩ := hg.parameter id p hn
    have hleaf : g.expression? id = none := by
      rw [Generation.expression?, hn]
      rfl
    rw [suits_of_leaf hleaf]
    simp only [initial?, hwithin, Option.bind_none, Option.getD_none, Option.some.injEq] at hinitial
    subst hinitial
    refine ⟨⟨.unbounded, p.unit⟩, ?_, Numbers.settles_unbounded⟩
    rw [Parameter.values, hdomain]
    rfl
  | literal t u =>
    have hleaf : g.expression? id = none := by
      rw [Generation.expression?, hn]
      rfl
    obtain ⟨x, unit, rfl, hx⟩ := hg.literal id t u hn
    rw [suits_of_leaf hleaf]
    cases hinitial
    have hfinite := Scalar.isFinite_congr (Lawful.symm hx) (hg.finite id)
    exact ⟨_, rfl, (Numbers.settles_singleton hfinite).congr hx⟩
  | constant c => exact absurd hn (hg.constant id c)
  | expression e => cases hinitial

omit [Lawful α] in
theorem Settled.evaluate?_eq (h : Settled g num k) (op : Operator) (l : List NodeId)
    (exact : List Bool) : Propagation.evaluate? op (l.map k.value?) exact =
      match l.mapM k.value? with
      | some known => (Propagation.evaluateKnown? op known exact).or (Propagation.unknown? op)
      | none => Propagation.unknown? op := by
  have hfind : ((l.map k.value?).filterMap id).find? ValueSet.isEmpty = none := by
    rw [List.find?_eq_none]
    intro s hs
    obtain ⟨v, hv, rfl⟩ := List.mem_filterMap.1 hs
    obtain ⟨o, -, ho⟩ := List.mem_map.1 hv
    rw [(h.suits o s ho).not_isEmpty]
    exact Bool.false_ne_true
  rw [Propagation.evaluate?, hfind, List.mapM_map]
  rfl

omit [Lawful α] in
/-- The sets of operands that are all known to be numbers. -/
theorem Settled.parts (h : Settled g num k) (hg : ∀ id, Scalar.isFinite (num id))
    {l : List NodeId} {parts : List (Quantities α)}
    (hp : l.mapM (fun o => (k.value? o).bind ValueSet.quantities?) = some parts) :
    List.Forall₂ (fun q y => q.base.Settles y ∧ Scalar.isFinite y) parts (l.map num) := by
  have hall := Propagation.forall₂_of_mapM hp
  clear hp
  induction hall with
  | nil => exact .nil
  | @cons o q l parts hq _ ih =>
    obtain ⟨s, hs, hsq⟩ := Option.bind_eq_some_iff.1 hq
    refine .cons ⟨?_, hg o⟩ ih
    cases s with
    | numeric r =>
      cases hsq
      exact (h.suits o _ hs).of_settles.1
    | _ => cases hsq

omit [Scalar α] [Lawful α] in
theorem mapM_bind_quantities {f : NodeId → Option (ValueSet α)} {l : List NodeId}
    {known : List (ValueSet α)} {parts : List (Quantities α)} (h : l.mapM f = some known)
    (hp : known.mapM ValueSet.quantities? = some parts) :
    l.mapM (fun o => (f o).bind ValueSet.quantities?) = some parts := by
  have hall := Propagation.forall₂_of_mapM h
  clear h
  induction hall generalizing parts with
  | nil => exact hp
  | @cons o s l known hs _ ih =>
    rw [List.mapM_cons] at hp
    obtain ⟨q, hq, hp⟩ := Option.bind_eq_some_iff.1 hp
    obtain ⟨qs, hqs, hp⟩ := Option.bind_eq_some_iff.1 hp
    rw [List.mapM_cons, ih hqs, hs, Option.bind_some, hq]
    exact hp

omit [Lawful α] in
/-- A sum or product of what is known settles the sum or product of the numbers. -/
theorem Settled.arithmetic (h : Settled g num k) (hg : ∀ id, Scalar.isFinite (num id))
    {op : Operator} {f : α → α → α}
    {F : Quantities α → Quantities α → Except (SetError α) (Quantities α)}
    (hF : ParameterSolver.Follows F f)
    (hop : op = .add ∧ F = Quantities.add ∨ op = .multiply ∧ F = Quantities.mul)
    {l : List NodeId} (hb : Scalar.Bounded f (l.map num)) {exact : List Bool}
    (hs : Propagation.evaluate? op (l.map k.value?) exact = some s) :
    s.Settles (Scalar.combine f (l.map num)) := by
  rw [h.evaluate?_eq] at hs
  have hunknown : Propagation.unknown? (α := α) op = none := by
    rcases hop with ⟨rfl, -⟩ | ⟨rfl, -⟩ <;> rfl
  rw [hunknown] at hs
  cases hk : l.mapM k.value? with
  | none => rw [hk] at hs; cases hs
  | some known =>
    rw [hk] at hs
    dsimp only at hs
    rw [Option.or_none] at hs
    obtain ⟨c, hc, rfl⟩ : ∃ c, Propagation.arithmetic? op known = some c ∧ .numeric c = s := by
      rcases hop with ⟨rfl, -⟩ | ⟨rfl, -⟩ <;> exact Option.map_eq_some_iff.1 hs
    unfold Propagation.arithmetic? at hc
    obtain ⟨sets, hsets, hc⟩ := Option.bind_eq_some_iff.1 hc
    obtain ⟨first, -, hc⟩ := Option.bind_eq_some_iff.1 hc
    refine ⟨c, rfl, ?_⟩
    have hparts := h.parts hg (mapM_bind_quantities hk hsets)
    rcases hop with ⟨rfl, rfl⟩ | ⟨rfl, rfl⟩ <;> exact hF.reduce hparts hb hc

/-- Two leaves with one number can be equal. -/
theorem Settled.equality (h : Settled g num k) (hg : ∀ id, Scalar.isFinite (num id))
    {a b : NodeId} (ha : g.expression? a = none) (hb : g.expression? b = none)
    (hab : num a == num b) (exact : List Bool) :
    ∃ t : Truths, Propagation.evaluate? .is ([a, b].map k.value?) exact = some (.boolean t) ∧
      t.hasTrue := by
  rw [h.evaluate?_eq]
  split
  · rename_i known hk
    rw [List.mapM_cons] at hk
    obtain ⟨va, hva, hk⟩ := Option.bind_eq_some_iff.1 hk
    obtain ⟨vs, hvs, hk⟩ := Option.bind_eq_some_iff.1 hk
    rw [List.mapM_cons] at hvs
    obtain ⟨vb, hvb, hvs⟩ := Option.bind_eq_some_iff.1 hvs
    cases hvs
    cases hk
    have hsa := (suits_of_leaf ha).1 (h.suits a va hva)
    have hsb := ((suits_of_leaf hb).1 (h.suits b vb hvb)).congr (Lawful.symm hab)
    cases hi : va.inter vb with
    | error e =>
      refine ⟨.all, ?_, rfl⟩
      simp [Propagation.evaluateKnown?, Operator.has, Operator.having, Operator.logical,
        Operator.relational, Propagation.relation?, Propagation.equals?, hi, Except.toOption,
        Propagation.unknown?, Operator.isPredicate]
    | ok common =>
      obtain ⟨q, rfl, hq⟩ := hsa.inter hsb (hg a) hi
      refine ⟨_, by
        simp only [Propagation.evaluateKnown?, Operator.has, Operator.having, Operator.logical,
          Operator.relational, Propagation.relation?, Propagation.equals?, hi, Except.toOption]
        rfl, ?_⟩
      simp [ValueSet.isEmpty, Quantities.isEmpty, hq.not_isEmpty]
  · exact ⟨.all, rfl, rfl⟩

theorem Settled.suits_forwardValue (h : Settled g num k) (hg : g.Calculates num) {e : Expression}
    (he : g.expression? id = some e) (hs : k.forwardValue? e = some s) : Suits g num id s := by
  have hp := hg.expression id e (Generation.expression?_eq.1 he)
  cases hp with
  | @assignment a b ha hb hab =>
    obtain ⟨t, ht, htrue⟩ := h.equality hg.finite ha hb hab ([a, b].map k.exact.contains)
    simp only [Suits, he, Option.any_some, if_true]
    simp only [forwardValue?, ht, if_true] at hs
    cases hs
    exact ⟨_, rfl, by simp [Truths.inter, htrue, Truths.of]⟩
  | sum hb hsum =>
    simp only [Suits, he, Option.any_some, Bool.false_eq_true, if_false]
    simp only [forwardValue?, Bool.false_eq_true, if_false] at hs
    exact (h.arithmetic hg.finite follows_add (Or.inl ⟨rfl, rfl⟩) hb hs).congr hsum
  | product hb hprod =>
    simp only [Suits, he, Option.any_some, Bool.false_eq_true, if_false]
    simp only [forwardValue?, Bool.false_eq_true, if_false] at hs
    exact (h.arithmetic hg.finite follows_mul (Or.inr ⟨rfl, rfl⟩) hb hs).congr hprod

theorem Settled.forwardStep (h : Settled g num k) (hg : g.Calculates num) (id : NodeId) :
    Settled g num (forwardStep g k id) := by
  unfold Knowledge.forwardStep
  split
  · exact h
  · rename_i e he
    have hexact : Settled g num
        (if Propagation.keepsExactness e.op && e.operands.all k.exact.contains then
          { k with exact := k.exact.insert id () } else k) := by
      split_ifs
      · exact ⟨h.suits, h.emptied⟩
      · exact h
    dsimp only
    split
    · exact hexact
    · rename_i s hs
      exact hexact.restrict (hg.finite id) (h.suits_forwardValue hg he hs)

theorem Settled.narrowIs (h : Settled g num k) (hg : ∀ id, Scalar.isFinite (num id))
    {a b : NodeId} (ha : g.expression? a = none) (hb : g.expression? b = none)
    (hab : num a == num b) : Settled g num (narrowIs g because k a b) := by
  have hsuits : ∀ s : ValueSet α, s.Settles (num a) → Suits g num a s ∧ Suits g num b s :=
    fun s hs => ⟨(suits_of_leaf ha).2 hs, (suits_of_leaf hb).2 (hs.congr hab)⟩
  have hleft : ∀ s, k.value? a = some s → s.Settles (num a) := fun s hs =>
    (suits_of_leaf ha).1 (h.suits a s hs)
  have hright : ∀ s, k.value? b = some s → s.Settles (num a) := fun s hs =>
    ((suits_of_leaf hb).1 (h.suits b s hs)).congr (Lawful.symm hab)
  unfold Knowledge.narrowIs
  split
  · rename_i va vb hva hvb
    split
    · rename_i common hcommon
      obtain ⟨hsa, hsb⟩ := hsuits common ((hleft va hva).inter (hright vb hvb) (hg a) hcommon)
      exact (h.narrow (hg a) fun _ => hsa).narrow (hg b) fun _ => hsb
    · exact h
  · rename_i vb _ hvb
    exact h.narrow (hg a) fun _ => (hsuits vb (hright vb hvb)).1
  · rename_i va hva _
    exact h.narrow (hg b) fun _ => (hsuits va (hleft va hva)).2
  · exact h

theorem Settled.narrowEach (h : Settled g num k) (hg : ∀ id, Scalar.isFinite (num id))
    {bound? : Quantities α → List (Quantities α) → ℕ → Option (Quantities α)} {l : List NodeId}
    (hs : s.Settles x)
    (hbound : ∀ whole parts i o bound, whole.base.Settles x →
      List.Forall₂ (fun q y => q.base.Settles y ∧ Scalar.isFinite y) parts (l.map num) →
      l[i]? = some o → (g.node? o).any Node.isGiven = false → bound? whole parts i = some bound →
      bound.base.Settles (num o)) : Settled g num (narrowEach g because k bound? l s) := by
  unfold Knowledge.narrowEach
  split
  · rename_i whole parts hwhole hparts
    obtain ⟨q, rfl, hq⟩ := hs
    cases hwhole
    have hall := h.parts hg hparts
    have hnumeric : ∀ o ∈ l, ∃ q, Suits g num o (.numeric q) := by
      intro o ho
      obtain ⟨q, -, hq⟩ := (mem_of_mapM hparts).1 o ho
      obtain ⟨s, hs, hsq⟩ := Option.bind_eq_some_iff.1 hq
      cases s with
      | numeric r => exact ⟨r, h.suits o _ hs⟩
      | _ => cases hsq
    refine foldl_inv_of_mem ?_ h
    rintro ⟨o, i⟩ hmem k hk
    have ho := List.mem_zipIdx_iff_getElem?.1 hmem
    dsimp only
    split
    · rename_i bound hb
      refine hk.narrow (hg o) fun hgiven => ?_
      obtain ⟨r, hr⟩ := hnumeric o (List.mem_of_getElem? ho)
      exact hr.of_settles.2 _ ⟨bound, rfl, hbound _ _ i o bound hq hall ho hgiven hb⟩
    · exact hk
  · exact h

omit [Lawful α] in
/-- The only operand is the result. -/
theorem combine_of_eraseIdx {f : α → α → α} {l : List NodeId} {i : ℕ} (ho : l[i]? = some o)
    (h : (l.map num).eraseIdx i = []) : Scalar.combine f (l.map num) = num o := by
  match l, i with
  | [_], 0 =>
    cases ho
    rfl
  | _ :: _ :: _, 0 => cases h
  | _ :: _, _ + 1 => cases h

theorem Settled.backwardStep (h : Settled g num k) (hg : g.Calculates num) (hr : g.Restores num)
    (id : NodeId) : Settled g num (backwardStep g k id) := by
  unfold Knowledge.backwardStep
  split
  · rename_i e s he hs
    have hn := Generation.expression?_eq.1 he
    have hsuits := h.suits id s hs
    split_ifs
    · exact h
    · have hp := hg.expression id e hn
      cases hp with
      | assignment ha hb hab =>
        unfold narrowOperands
        dsimp only
        split_ifs
        · exact h.narrowIs hg.finite ha hb hab
        · exact h
      | sum _ hsum =>
        simp only [Suits, he, Option.any_some, Bool.false_eq_true, if_false] at hsuits
        refine h.narrowEach hg.finite hsuits fun whole parts i o bound hw hall ho hgiven hb => ?_
        refine termBound?_settles hw (hg.finite id) (hg.finite o) hall (fun hnil => ?_)
          (hr id _ hn i o ho hgiven) hb
        rw [← combine_of_eraseIdx ho hnil]
        exact Lawful.symm hsum
      | product _ hprod =>
        simp only [Suits, he, Option.any_some, Bool.false_eq_true, if_false] at hsuits
        refine h.narrowEach hg.finite hsuits fun whole parts i o bound hw hall ho hgiven hb => ?_
        refine factorBound?_settles hw (hg.finite id) (hg.finite o) hall (fun hnil => ?_)
          (hr id _ hn i o ho hgiven) hb
        rw [← combine_of_eraseIdx ho hnil]
        exact Lawful.symm hprod
  · exact h

theorem Settled.sweep (h : Settled g num k) (hg : g.Calculates num) (hr : g.Restores num)
    (order : List NodeId) : Settled g num (sweep g order k) := by
  have hfold : ∀ {f : Knowledge α → NodeId → Knowledge α},
      (∀ k id, Settled g num k → Settled g num (f k id)) →
      ∀ (l : List NodeId) k, Settled g num k → Settled g num (l.foldl f k) := by
    intro f hf l
    induction l with
    | nil => exact fun k hk => hk
    | cons id l ih => exact fun k hk => ih _ (hf k id hk)
  refine hfold (fun k id hk => hk.backwardStep hg hr id) _ _ ?_
  exact hfold (fun k id hk => hk.forwardStep hg id) _ _ ⟨h.suits, h.emptied⟩

end Knowledge

variable {g : Generation α} {num : NodeId → α} [Lawful α]

theorem Propagation.settled_iterate (hg : g.Calculates num) (hr : g.Restores num)
    (order : List NodeId) (budget : ℕ) (p : Propagation α) (h : p.knowledge.Settled g num) :
    (iterate g order budget p).knowledge.Settled g num := by
  induction budget generalizing p with
  | zero => exact h
  | succ budget ih =>
    have hsweep := h.sweep hg hr order
    unfold iterate
    dsimp only
    split_ifs
    · exact ih ⟨_, p.rounds + 1⟩ hsweep
    · exact hsweep

namespace Analysis

/-- A calculation in which rounding loses no operand has no contradiction. -/
theorem isSatisfiable_of_restores {g : Generation Float} {num : NodeId → Float}
    (hg : g.Calculates num) (hr : g.Restores num) (budget : ℕ) :
    (ofGeneration g budget).isSatisfiable := by
  rw [ofGeneration, isSatisfiable_iff]
  exact (Propagation.settled_iterate hg hr _ budget ⟨.seed g, 0⟩
    (Knowledge.settled_seed hg)).emptied

end Analysis

/-! A calculation to look at: three times a number that is given, and its square. -/

namespace Sample

variable {x : Float}

def multiples (x : Float) : Blueprint Float :=
  let b := (Blueprint.empty.addParameter .real).2
  let b := (b.addLiteral (.number x)).2
  let b := (b.addAssertion .is [.nth 0, .nth 1]).2
  let b := (b.addExpression .add [.nth 0, .nth 0, .nth 0]).2
  (b.addExpression .multiply [.nth 0, .nth 0]).2

def multipleNodes (x : Float) : List (NodeId × Node Float) :=
  [(.nth 0, .parameter .real), (.nth 1, .literal (.number x) none),
    (.nth 2, .expression ⟨.is, [.nth 0, .nth 1], true⟩),
    (.nth 3, .expression ⟨.add, [.nth 0, .nth 0, .nth 0], false⟩),
    (.nth 4, .expression ⟨.multiply, [.nth 0, .nth 0], false⟩)]

def multiple (x : Float) : NodeId → Float
  | .nth 0 | .nth 1 => x
  | .nth 3 => x + x + x
  | .nth 4 => x * x
  | _ => Scalar.ofDecimal 0 0

theorem multiples_calculates (hnodes : (multiples x).generation.nodes = multipleNodes x)
    (hx : Scalar.isFinite x) (htwice : Scalar.isFinite (x + x))
    (hsum : Scalar.isFinite (x + x + x)) (hsquare : Scalar.isFinite (x * x)) :
    (multiples x).generation.Calculates (multiple x) := by
  have hnode : ∀ {id n}, (multiples x).generation.node? id = some n →
      (id, n) ∈ multipleNodes x := fun h => hnodes ▸ Generation.mem_nodes.2 h
  simp only [multipleNodes, List.mem_cons, Prod.mk.injEq, List.not_mem_nil, or_false] at hnode
  refine ⟨fun id => ?_, fun id p h => ?_, fun id s u h => ?_, fun id c h => ?_, fun id e h => ?_⟩
  · unfold multiple
    split
    exacts [hx, hx, hsum, hsquare, Lawful.isFinite_zero]
  · rcases hnode h with ⟨-, hn⟩ | ⟨-, hn⟩ | ⟨-, hn⟩ | ⟨-, hn⟩ | ⟨-, hn⟩ <;> cases hn
    exact ⟨rfl, rfl⟩
  · rcases hnode h with ⟨-, hn⟩ | ⟨rfl, hn⟩ | ⟨-, hn⟩ | ⟨-, hn⟩ | ⟨-, hn⟩ <;> cases hn
    exact ⟨x, .one, rfl, Scalar.beq_of_isFinite hx⟩
  · rcases hnode h with ⟨-, hn⟩ | ⟨-, hn⟩ | ⟨-, hn⟩ | ⟨-, hn⟩ | ⟨-, hn⟩ <;> cases hn
  · rcases hnode h with ⟨-, hn⟩ | ⟨-, hn⟩ | ⟨rfl, hn⟩ | ⟨rfl, hn⟩ | ⟨rfl, hn⟩ <;> cases hn
    · have hleaf : ∀ id n, (id, n) ∈ multipleNodes x → n.expression? = none →
          (multiples x).generation.expression? id = none := by
        intro id n hmem hn
        rw [Generation.expression?, Generation.mem_nodes.1 (hnodes ▸ hmem), Option.bind_some, hn]
      exact .assignment (hleaf _ _ List.mem_cons_self rfl)
        (hleaf _ _ (List.mem_cons_of_mem _ List.mem_cons_self) rfl) (Scalar.beq_of_isFinite hx)
    · refine .sum (fun m hm => ?_) (Scalar.beq_of_isFinite hsum)
      rcases List.prefix_cons_iff.1 hm with rfl | ⟨m', rfl, hm'⟩
      · exact hx
      · rcases List.prefix_cons_iff.1 hm' with rfl | ⟨m'', rfl, hm''⟩
        · exact htwice
        · rw [List.prefix_nil.1 hm'']
          exact hsum
    · refine .product (fun m hm => ?_) (Scalar.beq_of_isFinite hsquare)
      rcases List.prefix_cons_iff.1 hm with rfl | ⟨m', rfl, hm'⟩
      · exact hx
      · rw [List.prefix_nil.1 hm']
        exact hsquare

theorem multiples_restores (hnodes : (multiples x).generation.nodes = multipleNodes x)
    (hx : Scalar.isFinite x) (htwice : Scalar.isFinite (x + x))
    (hterm : x + x + x + -(x + x) == x) (hinverse : Scalar.isFinite (Scalar.ofDecimal 1 0 / x))
    (hfactor : x * x * (Scalar.ofDecimal 1 0 / x) == x) :
    (multiples x).generation.Restores (multiple x) := by
  intro id e h i o ho _ _
  have hmem : (id, Node.expression e) ∈ multipleNodes x := hnodes ▸ Generation.mem_nodes.2 h
  have hbounded : ∀ m, m <+: [x] → Scalar.isFinite (m.foldl (· + ·) x) := by
    intro m hm
    rcases List.prefix_cons_iff.1 hm with rfl | ⟨m', rfl, hm'⟩
    · exact hx
    · rw [List.prefix_nil.1 hm']
      exact htwice
  simp only [multipleNodes, List.mem_cons, Prod.mk.injEq, List.not_mem_nil, or_false] at hmem
  rcases hmem with ⟨-, hn⟩ | ⟨-, hn⟩ | ⟨rfl, hn⟩ | ⟨rfl, hn⟩ | ⟨rfl, hn⟩ <;> cases hn
  · trivial
  · match i with
    | 0 | 1 | 2 =>
      cases ho
      exact ⟨hbounded, hterm⟩
    | i + 3 => cases ho
  · match i with
    | 0 | 1 =>
      cases ho
      refine ⟨fun m hm => ?_, fun _ => ⟨hinverse, hfactor⟩⟩
      rw [List.prefix_nil.1 hm]
      exact hx
    | i + 2 => cases ho

end Sample

namespace Analysis

theorem isSatisfiable_of_restores_half :
    (Sample.multiples 0.5).generation.Calculates (Sample.multiple 0.5) ∧
      (Sample.multiples 0.5).generation.Restores (Sample.multiple 0.5) ∧
      (ofGeneration (Sample.multiples 0.5).generation 64).isSatisfiable := by
  have hcalculates := Sample.multiples_calculates (x := 0.5) rfl (by decide +kernel)
    (by decide +kernel) (by decide +kernel) (by decide +kernel)
  have hrestores := Sample.multiples_restores (x := 0.5) rfl (by decide +kernel)
    (by decide +kernel) (by decide +kernel) (by decide +kernel) (by decide +kernel)
  exact ⟨hcalculates, hrestores, isSatisfiable_of_restores hcalculates hrestores 64⟩

/-- Three times a tenth is rounded up, and what that leaves for one of them is more than a tenth. -/
theorem not_isSatisfiable_of_tenth :
    (Sample.multiples 0.1).generation.Calculates (Sample.multiple 0.1) ∧
      ¬ (ofGeneration (Sample.multiples 0.1).generation 64).isSatisfiable := by
  refine ⟨Sample.multiples_calculates rfl ?_ ?_ ?_ ?_, ?_⟩ <;> decide +kernel

end Analysis

end ParameterSolver
