import ParameterSolver.Proofs.Graph.Order
import ParameterSolver.Proofs.Propagation.Emptiness
import ParameterSolver.Proofs.Propagation.Monotone

/-! Predicates that reach their operands directly. Such a predicate bounds an operand by its own truth
value and by given sets, never by what happens to be known of another operand. After its turn in a
sweep its own set is within what its operands leave for it, and the sets of its operands are within
the bounds that it passes on. -/

namespace ParameterSolver

open Scalar Scalar.Ordered Scalar.Reading

variable {α : Type} [Scalar α]

namespace Generation

/-- The value of the node is given, so that it is never narrowed. -/
def isGiven (g : Generation α) (id : NodeId) : Bool := (g.node? id).any Node.isGiven

/-- The expression is a predicate that compares with a given set wherever it narrows an operand. -/
def isDirect (g : Generation α) (e : Expression) : Bool :=
  e.op.isPredicate && match e.op, e.operands with
    | .is, a :: b :: _ => g.isGiven a || g.isGiven b
    | .greaterOrEqual, a :: b :: _ => g.isGiven a || g.isGiven b
    | .isSubset, _ :: b :: _ => g.isGiven b
    | .isSuperset, a :: _ => g.isGiven a
    | .or, _ => false
    | _, _ => true

/-- The bounds that a direct predicate with truth value `v` passes on to its operands. -/
inductive Passes (g : Generation α) (e : Expression) (v : ValueSet α) : NodeId → ValueSet α → Prop
  | left {a b : NodeId} {rest : List NodeId} {s : ValueSet α} (op : e.op = .is)
    (operands : e.operands = a :: b :: rest) (holds : v.isTrue) (given : g.isGiven b)
    (value : (Knowledge.seed g).value? b = some s) : Passes g e v a s
  | right {a b : NodeId} {rest : List NodeId} {s : ValueSet α} (op : e.op = .is)
    (operands : e.operands = a :: b :: rest) (holds : v.isTrue) (given : g.isGiven a)
    (value : (Knowledge.seed g).value? a = some s) : Passes g e v b s
  | member {a b : NodeId} {rest : List NodeId} {s : ValueSet α} (op : e.op = .isSubset)
    (operands : e.operands = a :: b :: rest) (holds : v.isTrue)
    (value : (Knowledge.seed g).value? b = some s) : Passes g e v a s
  | floor {a b h : NodeId} {rest : List NodeId} {lo hi : α} {unit : MeasureUnit α}
    (op : e.op = .greaterOrEqual) (operands : e.operands = a :: b :: rest) (holds : v.isTrue)
    (given : g.isGiven b) (high : h ∈ Knowledge.members g a)
    (limits : (Knowledge.seed g).limits? b = some (lo, hi, unit)) :
    Passes g e v h (.numeric ⟨.atLeast lo, unit⟩)
  | ceiling {a b l : NodeId} {rest : List NodeId} {lo hi : α} {unit : MeasureUnit α}
    (op : e.op = .greaterOrEqual) (operands : e.operands = a :: b :: rest) (holds : v.isTrue)
    (given : g.isGiven a) (low : l ∈ Knowledge.members g b)
    (limits : (Knowledge.seed g).limits? a = some (lo, hi, unit)) :
    Passes g e v l (.numeric ⟨.atMost hi, unit⟩)
  | opposite {a : NodeId} {rest : List NodeId} {t : Truths} (op : e.op = .not)
    (operands : e.operands = a :: rest) (value : v = .boolean t) :
    Passes g e v a (.boolean t.not)

variable {g : Generation α} {e : Expression} {v bound : ValueSet α} {id n : NodeId}

omit [Scalar α] in
theorem isPredicate_of_isDirect (h : g.isDirect e) : e.op.isPredicate := (Bool.and_eq_true_iff.1 h).1

omit [Scalar α] in
theorem isGiven_eq_false_of_expression? (h : g.expression? id = some e) : g.isGiven id = false := by
  rw [isGiven, expression?_eq.1 h]
  rfl

omit [Scalar α] in
/-- A direct test for membership has a given set. -/
theorem isGiven_of_setIndex? {i : ℕ} (h : g.isDirect e) (hi : Propagation.setIndex? e.op = some i)
    (hn : e.operands[i]? = some n) : g.isGiven n := by
  obtain ⟨op, operands, asserted⟩ := e
  replace h := (Bool.and_eq_true_iff.1 h).2
  cases op <;> cases hi
  · rcases operands with _ | ⟨a, _ | ⟨b, rest⟩⟩ <;> cases hn
    exact h
  · rcases operands with _ | ⟨a, rest⟩ <;> cases hn
    exact h

/-- A predicate that passes a bound on is a negation, or a relation that holds. -/
theorem Passes.shape (h : g.Passes e v n bound) :
    (e.op = .not ∧ (∃ a rest, e.operands = a :: rest) ∧ ∃ t, v = .boolean t) ∨
      ((e.op = .is ∨ e.op = .isSubset ∨ e.op = .greaterOrEqual) ∧ v.isTrue ∧
        ∃ a b rest, e.operands = a :: b :: rest) := by
  cases h with
  | left hop hops hv => exact Or.inr ⟨Or.inl hop, hv, _, _, _, hops⟩
  | right hop hops hv => exact Or.inr ⟨Or.inl hop, hv, _, _, _, hops⟩
  | member hop hops hv => exact Or.inr ⟨Or.inr (Or.inl hop), hv, _, _, _, hops⟩
  | floor hop hops hv => exact Or.inr ⟨Or.inr (Or.inr hop), hv, _, _, _, hops⟩
  | ceiling hop hops hv => exact Or.inr ⟨Or.inr (Or.inr hop), hv, _, _, _, hops⟩
  | opposite hop hops hv => exact Or.inl ⟨hop, ⟨_, _, hops⟩, _, hv⟩

/-- Bounds go down. -/
theorem Passes.uses (h : g.Passes e v n bound) (he : g.expression? id = some e) :
    Relation.TransGen g.Uses id n := by
  have hstep {o : NodeId} (ho : o ∈ e.operands) : g.Uses id o := mem_operands_iff.2 ⟨e, he, ho⟩
  cases h with
  | left _ hops => exact .single (hstep (by simp [hops]))
  | right _ hops => exact .single (hstep (by simp [hops]))
  | member _ hops => exact .single (hstep (by simp [hops]))
  | @floor a _ _ _ _ _ _ _ hops _ _ hm =>
    exact .head' (hstep (by simp [hops])) (Knowledge.uses_of_mem_members hm)
  | @ceiling _ b _ _ _ _ _ _ hops _ _ hm =>
    exact .head' (hstep (by simp [hops])) (Knowledge.uses_of_mem_members hm)
  | opposite _ hops => exact .single (hstep (by simp [hops]))

end Generation

namespace Knowledge

variable {g : Generation α} {k k' : Knowledge α} {because : Provenance} {id n : NodeId}
  {e : Expression} {s bound v : ValueSet α}

theorem isSome_of_learns (hl : Learns g k k') (h : (k.value? n).isSome) : (k'.value? n).isSome := by
  obtain ⟨s, hs⟩ := Option.isSome_iff_exists.1 h
  have hk : k.Inherits n false := ⟨s, hs, nofun⟩
  obtain ⟨s', hs', -⟩ := hk.learns hl
  rw [hs']
  rfl

/-- What no sweep changes: given sets, and that predicates have truth values. -/
structure Kept (g : Generation α) (k : Knowledge α) : Prop where
  learnt : Learns g (seed g) k
  given : ∀ n, g.isGiven n → k.value? n = (seed g).value? n
  exact : ∀ n, g.isGiven n → k.exact.contains n = (seed g).exact.contains n
  truths : ∀ n e s, g.expression? n = some e → e.op.isPredicate → k.value? n = some s →
    s.family = .truths

/-- Something is known of every predicate. -/
def Filled (g : Generation α) (k : Knowledge α) : Prop :=
  ∀ n e, g.expression? n = some e → e.op.isPredicate → (k.value? n).isSome

theorem Filled.learns (h : Filled g k) (hl : Learns g k k') : Filled g k' :=
  fun n e he hp => isSome_of_learns hl (h n e he hp)

theorem kept_seed (g : Generation α) : Kept g (seed g) where
  learnt := .refl
  given _ _ := rfl
  exact _ _ := rfl
  truths n e s he _ hs := by
    obtain ⟨m, hm, hinitial⟩ := initial?_of_seed hs
    rw [Generation.expression?_eq.1 he] at hm
    cases hm
    cases hinitial

/-- A node that is not given may be restricted, a predicate to truth values or if it has some. -/
theorem Kept.restrict (h : Kept g k) (hn : g.isGiven n = false)
    (hp : ∀ e, g.expression? n = some e → e.op.isPredicate →
      bound.family = .truths ∨ (k.value? n).isSome) : Kept g (restrict g because k n bound) := by
  have hlearnt := h.learnt.restrict because n bound
  obtain ⟨hr, -⟩ | ⟨next, emptied, hr, hvalue, -⟩ := restrict_cases g because k n bound
  · rw [hr]
    exact h
  rw [hr] at hlearnt ⊢
  have hother {m : NodeId} (hm : g.isGiven m) : m ≠ n := fun heq => by simp [heq, hn] at hm
  refine ⟨hlearnt, fun m hm => ?_, h.exact, fun m e s he hpred hs => ?_⟩
  · rw [← h.given m hm]
    exact NodeMap.get?_insert_other (hother hm)
  · rcases NodeMap.get?_insert_cases hs with ⟨rfl, rfl⟩ | hs
    · rcases hvalue with ⟨hnone, rfl⟩ | ⟨current, hcurrent, hinter⟩
      · exact (hp e he hpred).resolve_right (by simp [hnone])
      · rw [(ValueSet.family_of_inter hinter).2]
        exact h.truths m e current he hpred hcurrent
    · exact h.truths m e s he hpred hs

theorem Kept.narrow (h : Kept g k) (hf : Filled g k) (n : NodeId) (bound : ValueSet α) :
    Kept g (narrow g because k n bound) := by
  unfold Knowledge.narrow
  split_ifs with hn
  · exact h
  · exact h.restrict (Bool.eq_false_iff.2 hn) fun e he hp => Or.inr (hf n e he hp)

theorem Kept.narrows {targets : NodeId → Prop} (h : Kept g k) (hf : Filled g k)
    (hn : Narrows g because targets k k') : Kept g k' := by
  induction hn with
  | refl => exact h
  | narrow hn _ bound ih => exact ih.narrow (hf.learns hn.learns) _ bound

theorem Kept.backwardStep (h : Kept g k) (hf : Filled g k) (id : NodeId) :
    Kept g (backwardStep g k id) := h.narrows hf (narrows_backwardStep k id)

/-! Forward, a predicate is restricted to the truth values that its operands leave for it. -/

theorem forwardValue?_of_evaluate? {t : Truths}
    (h : Propagation.evaluate? e.op (e.operands.map k.value?) (e.operands.map k.exact.contains) =
      some (.boolean t)) :
    k.forwardValue? e = some (.boolean (if e.asserted then t.inter (.of true) else t)) := by
  unfold forwardValue?
  rw [h]
  cases e.asserted <;> rfl

theorem forwardValue?_of_isPredicate (k : Knowledge α) (hp : e.op.isPredicate) :
    ∃ t, k.forwardValue? e = some (.boolean t) := by
  obtain ⟨t, ht⟩ := Propagation.evaluate?_of_isPredicate hp (e.operands.map k.value?)
    (e.operands.map k.exact.contains)
  exact ⟨_, forwardValue?_of_evaluate? ht⟩

/-- The origins that a forward step gives as its reasons. -/
def reasons (g : Generation α) (k : Knowledge α) (e : Expression) : Provenance :=
  e.operands.foldl (fun p o => p.union (explanation g k o)) .empty

omit [Scalar α] in
theorem mem_explanations {o : Origin} {l : List NodeId} {p : Provenance} :
    o ∈ l.foldl (fun p n => p.union (explanation g k n)) p ↔
      o ∈ p ∨ ∃ m ∈ l, o ∈ explanation g k m := by
  induction l generalizing p with
  | nil => simp
  | cons m l ih =>
    rw [List.foldl_cons, ih]
    simp [or_assoc]

omit [Scalar α] in
theorem mem_reasons {o : Origin} :
    o ∈ reasons g k e ↔ ∃ m ∈ e.operands, o ∈ explanation g k m := by
  simp [reasons, mem_explanations]

theorem forwardStep_of_isPredicate (he : g.expression? id = some e) (hp : e.op.isPredicate) :
    ∃ t, k.forwardValue? e = some (.boolean t) ∧
      forwardStep g k id = restrict g (reasons g k e) k id (.boolean t) := by
  obtain ⟨t, ht⟩ := forwardValue?_of_isPredicate k hp
  have hexact : Propagation.keepsExactness e.op = false := by
    revert hp
    cases e.op <;> decide
  refine ⟨t, ht, ?_⟩
  unfold forwardStep
  rw [he]
  simp only [ht, hexact, Bool.false_and, Bool.false_eq_true, if_false]
  rfl

theorem Kept.forwardStep (h : Kept g k) (id : NodeId) : Kept g (forwardStep g k id) := by
  by_cases hp : ∃ e, g.expression? id = some e ∧ e.op.isPredicate
  · obtain ⟨e, he, hp⟩ := hp
    obtain ⟨t, -, hstep⟩ := forwardStep_of_isPredicate (k := k) he hp
    rw [hstep]
    exact h.restrict (Generation.isGiven_eq_false_of_expression? he) fun _ _ _ => Or.inl rfl
  · obtain hsame | ⟨e, he, exact, hexact, hstep⟩ := forwardStep_cases (g := g) k id
    · rw [hsame]
      exact h
    have hgiven := Generation.isGiven_eq_false_of_expression? he
    have hk : Kept g { k with exact := exact } := by
      rcases hexact with rfl | rfl
      · exact h
      · refine ⟨h.learnt.exact id, h.given, fun m hm => ?_, h.truths⟩
        have hother : m ≠ id := fun heq => by simp [heq, hgiven] at hm
        rw [← h.exact m hm, NodeMap.contains, NodeMap.get?_insert_other hother, NodeMap.contains]
    rcases hstep with hstep | ⟨because, v, hstep⟩ <;> rw [hstep]
    · exact hk
    · exact hk.restrict hgiven fun e' he' hp' => absurd ⟨e', he', hp'⟩ hp

theorem isSome_forwardStep (he : g.expression? id = some e) (hp : e.op.isPredicate) :
    ((forwardStep g k id).value? id).isSome := by
  obtain ⟨t, -, hstep⟩ := forwardStep_of_isPredicate (k := k) he hp
  have hnull := Generation.ne_null_of_contains
    (Generation.contains_of_node? (Generation.expression?_eq.1 he))
  rw [hstep]
  obtain ⟨hr, current, hcurrent, -⟩ | ⟨next, emptied, hr, -⟩ := restrict_cases g _ k id _
  · rw [hr, hcurrent]
    rfl
  · rw [hr, value?, NodeMap.get?_insert_self hnull]
    rfl

/-- A pass over all nodes leaves no predicate out. -/
theorem filled_forward {order : List NodeId} (horder : ∀ n, g.contains n → n ∈ order)
    (k : Knowledge α) : Filled g (order.foldl (forwardStep g) k) := by
  intro n e he hp
  obtain ⟨l, m, rfl⟩ := List.append_of_mem
    (horder n (Generation.contains_of_node? (Generation.expression?_eq.1 he)))
  rw [List.foldl_append, List.foldl_cons]
  exact isSome_of_learns (Learns.foldl learns_forwardStep m _) (isSome_forwardStep he hp)

/-! Backward, a direct predicate narrows each operand to the bound that it passes on, or to what that
leaves of the operand. -/

/-- The set `bound` is `b`, or what the set of the node has in common with `b`. -/
def Leaves (k : Knowledge α) (n : NodeId) (b bound : ValueSet α) : Prop :=
  bound = b ∨ ∃ s, k.value? n = some s ∧ (s.inter b = .ok bound ∨ b.inter s = .ok bound)

/-- The list holds a bound for every operand that a predicate passes one on to, and no others. -/
structure Carries (g : Generation α) (k : Knowledge α) (e : Expression) (v : ValueSet α)
    (l : List (NodeId × ValueSet α)) : Prop where
  passes : ∀ x ∈ l, ∃ b, g.Passes e v x.1 b ∧ Leaves k x.1 b x.2
  covers : ∀ n b, g.Passes e v n b → g.isGiven n = false →
    (∃ bound, (n, bound) ∈ l ∧ Leaves k n b bound) ∨ ∃ s, k.value? n = some s ∧ s.family ≠ b.family

/-- Narrows the nodes of a list, each to its bound. -/
def narrowAll (g : Generation α) (because : Provenance) (k : Knowledge α)
    (l : List (NodeId × ValueSet α)) : Knowledge α :=
  l.foldl (fun k x => narrow g because k x.1 x.2) k

theorem narrow_of_isGiven (hn : g.isGiven n) : narrow g because k n bound = k := if_pos hn

theorem narrow_of_not_isGiven (hn : g.isGiven n = false) :
    narrow g because k n bound = restrict g because k n bound := if_neg (Bool.eq_false_iff.1 hn)

theorem value?_narrow_of_ne {m : NodeId} (h : n ≠ m) :
    (narrow g because k m bound).value? n = k.value? n := by
  unfold narrow
  split_ifs
  · rfl
  · obtain ⟨hr, -⟩ | ⟨next, emptied, hr, -⟩ := restrict_cases g because k m bound <;> rw [hr]
    exact NodeMap.get?_insert_other h

theorem Narrows.value? {targets : NodeId → Prop} (h : Narrows g because targets k k')
    (hn : ¬ targets n) : k'.value? n = k.value? n := by
  induction h with
  | refl => rfl
  | narrow _ hid bound ih =>
    have hne : n ≠ _ := fun heq => hn (heq ▸ hid)
    exact (value?_narrow_of_ne hne).trans ih

theorem narrows_narrowAll (l : List (NodeId × ValueSet α)) (k : Knowledge α) :
    Narrows g because (fun _ => True) k (narrowAll g because k l) :=
  Narrows.foldl (fun x _ k => narrows_narrow trivial k x.2) k

theorem carries_nil (h : ∀ n b, g.Passes e v n b → g.isGiven n) : Carries g k e v [] where
  passes _ hx := absurd hx List.not_mem_nil
  covers n b hb hn := absurd (h n b hb) (Bool.eq_false_iff.1 hn)

section Single

variable {t : ValueSet α} (hpass : g.Passes e v n s)
  (honly : ∀ m b, g.Passes e v m b → g.isGiven m ∨ m = n ∧ b = s)

include hpass honly

theorem carries_singleton (hleaves : Leaves k n s bound) : Carries g k e v [(n, bound)] where
  passes x hx := by
    rw [List.mem_singleton.1 hx]
    exact ⟨s, hpass, hleaves⟩
  covers m b hp hm := by
    obtain ⟨rfl, rfl⟩ := (honly m b hp).resolve_left (Bool.eq_false_iff.1 hm)
    exact Or.inl ⟨bound, List.mem_singleton_self _, hleaves⟩

omit hpass in
theorem carries_apart (ht : k.value? n = some t) (hne : t.family ≠ s.family) :
    Carries g k e v [] where
  passes _ hx := absurd hx List.not_mem_nil
  covers m b hp hm := by
    obtain ⟨rfl, rfl⟩ := (honly m b hp).resolve_left (Bool.eq_false_iff.1 hm)
    exact Or.inr ⟨t, ht, hne⟩

end Single

/-- Of two nodes that have one value and of which one is given, the other is narrowed. -/
theorem exists_carries_narrowIs (h : Kept g k) (hop : e.op = .is) {a b : NodeId}
    {rest : List NodeId} (hops : e.operands = a :: b :: rest) (hv : v.isTrue)
    (hgiven : g.isGiven a ∨ g.isGiven b) :
    ∃ l, narrowIs g because k a b = narrowAll g because k l ∧ Carries g k e v l := by
  have hcases (m : NodeId) (c : ValueSet α) (hp : g.Passes e v m c) :
      (m = a ∧ g.isGiven b ∧ k.value? b = some c) ∨ (m = b ∧ g.isGiven a ∧ k.value? a = some c) := by
    cases hp <;> simp_all [h.given]
  unfold narrowIs
  by_cases hb : g.isGiven b
  · have honly {vb : ValueSet α} (hvb : k.value? b = some vb) (m : NodeId) (c : ValueSet α)
        (hp : g.Passes e v m c) : g.isGiven m ∨ m = a ∧ c = vb := by
      rcases hcases m c hp with ⟨rfl, -, hc⟩ | ⟨rfl, -, -⟩
      · exact Or.inr ⟨rfl, Option.some.inj (hc.symm.trans hvb)⟩
      · exact Or.inl hb
    cases hvb : k.value? b with
    | none =>
      refine ⟨[], ?_, carries_nil fun m c hp => ?_⟩
      · cases k.value? a with
        | none => rfl
        | some va => exact narrow_of_isGiven hb
      · rcases hcases m c hp with ⟨-, -, hc⟩ | ⟨rfl, -, -⟩
        · cases hvb.symm.trans hc
        · exact hb
    | some vb =>
      have hpass : g.Passes e v a vb := .left hop hops hv hb (h.given b hb ▸ hvb)
      cases hva : k.value? a with
      | none => exact ⟨[(a, vb)], rfl, carries_singleton hpass (honly hvb) (Or.inl rfl)⟩
      | some va =>
        dsimp only
        cases hr : va.inter vb with
        | ok common =>
          exact ⟨[(a, common)], narrow_of_isGiven hb,
            carries_singleton hpass (honly hvb) (Or.inr ⟨va, hva, Or.inl hr⟩)⟩
        | error =>
          refine ⟨[], rfl, carries_apart (honly hvb) hva fun hfamily => ?_⟩
          obtain ⟨u, hu⟩ := ValueSet.exists_inter hfamily
          cases hr.symm.trans hu
  · have ha := hgiven.resolve_right hb
    have honly {va : ValueSet α} (hva : k.value? a = some va) (m : NodeId) (c : ValueSet α)
        (hp : g.Passes e v m c) : g.isGiven m ∨ m = b ∧ c = va := by
      rcases hcases m c hp with ⟨rfl, hb', -⟩ | ⟨rfl, -, hc⟩
      · exact absurd hb' hb
      · exact Or.inr ⟨rfl, Option.some.inj (hc.symm.trans hva)⟩
    cases hva : k.value? a with
    | none =>
      refine ⟨[], ?_, carries_nil fun m c hp => ?_⟩
      · cases k.value? b with
        | none => rfl
        | some vb => exact narrow_of_isGiven ha
      · rcases hcases m c hp with ⟨rfl, -, -⟩ | ⟨-, -, hc⟩
        · exact ha
        · cases hva.symm.trans hc
    | some va =>
      have hpass : g.Passes e v b va := .right hop hops hv ha (h.given a ha ▸ hva)
      cases hvb : k.value? b with
      | none => exact ⟨[(b, va)], rfl, carries_singleton hpass (honly hva) (Or.inl rfl)⟩
      | some vb =>
        dsimp only
        cases hr : va.inter vb with
        | ok common =>
          refine ⟨[(b, common)], ?_,
            carries_singleton hpass (honly hva) (Or.inr ⟨vb, hvb, Or.inr hr⟩)⟩
          exact congrArg (narrow g because · b common) (narrow_of_isGiven ha)
        | error =>
          refine ⟨[], rfl, carries_apart (honly hva) hvb fun hfamily => ?_⟩
          obtain ⟨u, hu⟩ := ValueSet.exists_inter hfamily.symm
          cases hr.symm.trans hu

omit [Scalar α] in
theorem members_of_isGiven (hn : g.isGiven n) : members g n = [n] := by
  unfold members
  split
  · rename_i x hx
    simp [Generation.isGiven_eq_false_of_expression? hx] at hn
  · rfl

theorem value?_narrow_of_isGiven (hn : g.isGiven n) (m : NodeId) :
    (narrow g because k m bound).value? n = k.value? n := by
  by_cases hm : n = m
  · rw [← hm, narrow_of_isGiven hn]
  · exact value?_narrow_of_ne hm

/-- What is not less than a node. -/
def floor? (k : Knowledge α) (n : NodeId) : Option (ValueSet α) :=
  (k.limits? n).map fun (lo, _, unit) => .numeric ⟨.atLeast lo, unit⟩

/-- What a node is not less than. -/
def ceiling? (k : Knowledge α) (n : NodeId) : Option (ValueSet α) :=
  (k.limits? n).map fun (_, hi, unit) => .numeric ⟨.atMost hi, unit⟩

omit [Scalar α] in
theorem limits?_congr (h : k'.value? n = k.value? n) : k'.limits? n = k.limits? n := by
  rw [limits?, h, limits?]

theorem narrowPair_of_right {a b : NodeId} (hb : g.isGiven b) :
    narrowPair g because k a b = narrowAll g because k ((floor? k b).toList.map (a, ·)) := by
  unfold narrowPair floor?
  cases k.limits? b with
  | none =>
    dsimp only
    split
    · exact narrow_of_isGiven hb
    · rfl
  | some limits =>
    dsimp only
    split
    · exact narrow_of_isGiven hb
    · rfl

theorem narrowPair_of_left {a b : NodeId} (ha : g.isGiven a) :
    narrowPair g because k a b = narrowAll g because k ((ceiling? k a).toList.map (b, ·)) := by
  unfold narrowPair ceiling?
  cases k.limits? b with
  | none =>
    dsimp only
    cases k.limits? a <;> rfl
  | some limits =>
    simp only [narrow_of_isGiven ha]
    cases k.limits? a <;> rfl

/-- Comparing several nodes with a given one narrows each by it. -/
theorem foldl_eq_narrowAll {f : Knowledge α → NodeId → Knowledge α} {c : Option (ValueSet α)}
    (hn : g.isGiven n) (hf : ∀ k', k'.value? n = k.value? n → ∀ m,
      f k' m = narrowAll g because k' (c.toList.map (m, ·))) (l : List NodeId) :
    l.foldl f k = narrowAll g because k (l.flatMap fun m => c.toList.map (m, ·)) := by
  have hfold : ∀ (l : List NodeId) (k' : Knowledge α), k'.value? n = k.value? n →
      l.foldl f k' = narrowAll g because k' (l.flatMap fun m => c.toList.map (m, ·)) := by
    intro l
    induction l with
    | nil => exact fun _ _ => rfl
    | cons m l ih =>
      intro k' hk'
      have hstep : (narrowAll g because k' (c.toList.map (m, ·))).value? n = k.value? n := by
        cases c with
        | none => exact hk'
        | some bound => exact (value?_narrow_of_isGiven hn m).trans hk'
      rw [List.foldl_cons, hf k' hk' m, ih _ hstep, List.flatMap_cons, narrowAll, narrowAll, narrowAll,
        List.foldl_append]
  exact hfold l k rfl

omit [Scalar α] in
theorem mem_flatMap_pair {c : Option (ValueSet α)} {l : List NodeId} :
    (n, bound) ∈ l.flatMap (fun m => c.toList.map (m, ·)) ↔ n ∈ l ∧ c = some bound := by
  cases c <;> simp [eq_comm]

/-- Of two sides in order of which one is given, the members of the other are narrowed. -/
theorem exists_carries_narrowOrder (h : Kept g k) (hop : e.op = .greaterOrEqual) {a b : NodeId}
    {rest : List NodeId} (hops : e.operands = a :: b :: rest) (hv : v.isTrue)
    (hgiven : g.isGiven a ∨ g.isGiven b) :
    ∃ l, narrowOrder g because k a b = narrowAll g because k l ∧ Carries g k e v l := by
  have hlimits {n : NodeId} (hn : g.isGiven n) : k.limits? n = (seed g).limits? n :=
    limits?_congr (h.given n hn)
  have hcases {m : NodeId} {c : ValueSet α} (hp : g.Passes e v m c) :
      (g.isGiven b ∧ m ∈ members g a ∧ k.floor? b = some c) ∨
        (g.isGiven a ∧ m ∈ members g b ∧ k.ceiling? a = some c) := by
    cases hp with
    | floor _ hops' _ hb hm hl =>
      cases hops.symm.trans hops'
      exact Or.inl ⟨hb, hm, by rw [floor?, hlimits hb, hl]; rfl⟩
    | ceiling _ hops' _ ha hm hl =>
      cases hops.symm.trans hops'
      exact Or.inr ⟨ha, hm, by rw [ceiling?, hlimits ha, hl]; rfl⟩
    | _ => simp_all
  unfold narrowOrder
  by_cases hb : g.isGiven b
  · refine ⟨(members g a).flatMap fun m => (floor? k b).toList.map (m, ·), ?_, ?_, ?_⟩
    · rw [members_of_isGiven hb]
      refine foldl_eq_narrowAll hb (fun k' hk' m => ?_) _
      have hfloor : k'.floor? b = k.floor? b := by rw [floor?, limits?_congr hk', floor?]
      exact hfloor ▸ narrowPair_of_right hb
    · rintro ⟨m, c⟩ hx
      obtain ⟨hm, hc⟩ := mem_flatMap_pair.1 hx
      obtain ⟨⟨lo, hi, unit⟩, hl, rfl⟩ := Option.map_eq_some_iff.1 hc
      exact ⟨_, .floor hop hops hv hb hm (hlimits hb ▸ hl), Or.inl rfl⟩
    · intro m c hp hm
      rcases hcases hp with ⟨-, hmem, hc⟩ | ⟨-, hmem, -⟩
      · exact Or.inl ⟨c, mem_flatMap_pair.2 ⟨hmem, hc⟩, Or.inl rfl⟩
      · rw [members_of_isGiven hb, List.mem_singleton] at hmem
        simp [hmem, hb] at hm
  · have ha := hgiven.resolve_right hb
    refine ⟨(members g b).flatMap fun m => (ceiling? k a).toList.map (m, ·), ?_, ?_, ?_⟩
    · rw [members_of_isGiven ha]
      change (members g b).foldl (fun k m => narrowPair g because k a m) k = _
      refine foldl_eq_narrowAll ha (fun k' hk' m => ?_) _
      have hceiling : k'.ceiling? a = k.ceiling? a := by
        rw [ceiling?, limits?_congr hk', ceiling?]
      exact hceiling ▸ narrowPair_of_left ha
    · rintro ⟨m, c⟩ hx
      obtain ⟨hm, hc⟩ := mem_flatMap_pair.1 hx
      obtain ⟨⟨lo, hi, unit⟩, hl, rfl⟩ := Option.map_eq_some_iff.1 hc
      exact ⟨_, .ceiling hop hops hv ha hm (hlimits ha ▸ hl), Or.inl rfl⟩
    · intro m c hp _
      obtain ⟨-, hmem, hc⟩ := (hcases hp).resolve_left fun h => hb h.1
      exact Or.inl ⟨c, mem_flatMap_pair.2 ⟨hmem, hc⟩, Or.inl rfl⟩

/-- A direct predicate narrows its operands by the bounds that it passes on. -/
theorem exists_carries (h : Kept g k) (he : g.isDirect e) (v : ValueSet α) :
    ∃ l, narrowOperands g because k e v = narrowAll g because k l ∧ Carries g k e v l := by
  have hidle (hk : narrowOperands g because k e v = k) (hp : ∀ n b, ¬ g.Passes e v n b) :
      ∃ l, narrowOperands g because k e v = narrowAll g because k l ∧ Carries g k e v l :=
    ⟨[], hk, carries_nil fun n b hb => absurd hb (hp n b)⟩
  obtain ⟨op, operands, asserted⟩ := e
  obtain ⟨hpred, hdirect⟩ := Bool.and_eq_true_iff.1 he
  cases op <;> try cases hpred
  case is =>
    rcases operands with _ | ⟨a, _ | ⟨b, rest⟩⟩
    · exact hidle rfl fun n b hp => by simpa using hp.shape
    · exact hidle rfl fun n b hp => by simpa using hp.shape
    · by_cases hv : v.isTrue
      · simp only [narrowOperands, if_pos hv]
        exact exists_carries_narrowIs h rfl rfl hv (Bool.or_eq_true_iff.1 hdirect)
      · exact hidle (if_neg hv) fun n b hp => by simpa [hv] using hp.shape
  case greaterOrEqual =>
    rcases operands with _ | ⟨a, _ | ⟨b, rest⟩⟩
    · exact hidle rfl fun n b hp => by simpa using hp.shape
    · exact hidle rfl fun n b hp => by simpa using hp.shape
    · by_cases hv : v.isTrue
      · simp only [narrowOperands, if_pos hv]
        exact exists_carries_narrowOrder h rfl rfl hv (Bool.or_eq_true_iff.1 hdirect)
      · exact hidle (if_neg hv) fun n b hp => by simpa [hv] using hp.shape
  case isSubset =>
    rcases operands with _ | ⟨a, _ | ⟨b, rest⟩⟩
    · exact hidle rfl fun n b hp => by simpa using hp.shape
    · exact hidle rfl fun n b hp => by simpa using hp.shape
    · have honly (m : NodeId) (c : ValueSet α) (hp : g.Passes ⟨.isSubset, a :: b :: rest, asserted⟩ v m c) :
          m = a ∧ k.value? b = some c := by
        rw [h.given b hdirect]
        cases hp <;> simp_all
      cases hv : v.isTrue with
      | false =>
        refine hidle ?_ fun n b hp => by simpa [hv] using hp.shape
        simp only [narrowOperands, hv]
      | true =>
        cases hvb : k.value? b with
        | none =>
          refine hidle ?_ fun n c hp => by simpa [hvb] using (honly n c hp).2
          simp only [narrowOperands, hv, hvb]
        | some outer =>
          refine ⟨[(a, outer)], ?_, carries_singleton (s := outer) ?_ (fun m c hp => ?_) (Or.inl rfl)⟩
          · simp only [narrowOperands, hv, hvb]
            rfl
          · exact .member rfl rfl hv (h.given b hdirect ▸ hvb)
          · obtain ⟨rfl, hc⟩ := honly m c hp
            exact Or.inr ⟨rfl, Option.some.inj (hc.symm.trans hvb)⟩
  case not =>
    rcases operands with _ | ⟨a, rest⟩
    · exact hidle rfl fun n b hp => by simpa using hp.shape
    · cases v with
      | boolean t =>
        refine ⟨[(a, .boolean t.not)], rfl, carries_singleton (s := .boolean t.not)
          (.opposite rfl rfl rfl) (fun m c hp => Or.inr ?_) (Or.inl rfl)⟩
        cases hp <;> simp_all
      | numeric q => exact hidle rfl fun n b hp => by simpa using hp.shape
      | enum c => exact hidle rfl fun n b hp => by simpa using hp.shape
      | text t => exact hidle rfl fun n b hp => by simpa using hp.shape
  case or => cases hdirect
  all_goals exact hidle rfl fun n b hp => by simpa using hp.shape

theorem backwardStep_of_isDirect (h : Kept g k) (he : g.expression? id = some e)
    (hd : g.isDirect e) (hv : k.value? id = some v) (hne : v.isEmpty = false) :
    ∃ l, backwardStep g k id = narrowAll g (explanation g k id) k l ∧ Carries g k e v l := by
  obtain ⟨l, hl, hcarries⟩ := exists_carries h hd v
  refine ⟨l, ?_, hcarries⟩
  unfold backwardStep
  rw [he, hv]
  simp only [hne, Bool.false_eq_true, if_false]
  exact hl

/-- No expression narrows itself. -/
theorem value?_backwardStep_self (hacyclic : g.Acyclic) (k : Knowledge α) (id : NodeId) :
    (backwardStep g k id).value? id = k.value? id :=
  (narrows_backwardStep k id).value? (hacyclic id)

end Knowledge

end ParameterSolver
