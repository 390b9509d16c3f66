import ParameterSolver.Proofs.Pass.Enforcement
import ParameterSolver.Proofs.Pass.Sets
import ParameterSolver.Proofs.Propagation.SetDesigns

/-! The passes over leaves and over nested expressions give a graph of sets another form that means the
same: literals lose their units, which their points do not depend on, and a union lists no operand
twice. -/

namespace ParameterSolver

open Draft Pass

variable {α : Type} [Scalar α] [Scalar.Reading α] {g g' : Generation α} {m : NodeMap NodeId}
  {k : Family} {x j : NodeId} {a : Set (Value ℝ)} {l l' : List (Set (Value ℝ))}

namespace Operator

variable {β : Type} {l l' : List (Set β)}

theorem onFed_union_congr (h : ∀ a, a ∈ l ↔ a ∈ l') : union.onFed l = union.onFed l' := by
  ext x
  change _ ∧ _ ↔ _ ∧ _
  rw [Operator.mem_overSets_union, Operator.mem_overSets_union, h]
  simp only [h]

end Operator

/-- What a node has become: a literal of the family with the same points, or an expression over the nodes
that its operands have become, of which a union may list each just once. -/
inductive Node.Renders (m : NodeMap NodeId) (k : Family) : Node α → Node α → Prop
  | literal {s s' : ValueSet α} {u u' : Option (MeasureUnit α)} (hs : s'.Canonical)
    (hfamily : s'.family = k) (hpoints : s'.points = s.points) :
    Renders m k (.literal s u) (.literal s' u')
  | expression {e : Expression} {l js : List NodeId}
    (hl : l = e.operands ∨ e.op = .union ∧ ∀ o, o ∈ l ↔ o ∈ e.operands)
    (hjs : List.Forall₂ (fun o j => m.get? o = some j) l js) :
    Renders m k (.expression e) (.expression ⟨e.op, js, e.asserted⟩)

/-- The graph `g'` holds what the nodes of `g` have become, and nothing else. -/
structure Generation.Rendition (g g' : Generation α) (m : NodeMap NodeId) (k : Family) : Prop where
  image : ∀ x n, g.node? x = some n → ∃ j n', m.get? x = some j ∧ g'.node? j = some n' ∧ n.Renders m k n'
  onto : ∀ j, g'.contains j → ∃ x, g.contains x ∧ m.get? x = some j

namespace Generation

/-- A graph of sets in the basis, in which no union lists a union, and of which `E` says whether
evaluation leaves a node without elements. -/
structure Woven (g : Generation α) (k : Family) (E : Prop) : Prop where
  design : g.SetDesign k
  basis : ∀ id e, g.node? id = some (.expression e) → e.op.isCanonical
  flat : ∀ id e, g.node? id = some (.expression e) → e.op = .union → ∀ o ∈ e.operands, ∀ c,
    g.node? o = some (.expression c) → c.op ≠ .union
  hollow : g.Hollow ↔ E

/-- A graph with one expression, over literals that have these points. -/
structure Single (g : Generation α) (k : Family) (op : Operator) (ps : List (Set (Value ℝ)))
    (id : NodeId) (e : Expression) : Prop where
  node? : g.node? id = some (.expression e)
  op : e.op = op
  design : g.SetDesign k
  points : List.Forall₂ (g.Says .extents) e.operands ps
  alone : ∀ i e', g.node? i = some (.expression e') → i = id

namespace Rendition

variable (h : g.Rendition g' m k)

include h

theorem renders {n n' : Node α} (hn : g.node? x = some n) (hj : m.get? x = some j)
    (hn' : g'.node? j = some n') : n.Renders m k n' := by
  obtain ⟨j', m', hj', hm', hrenders⟩ := h.image x n hn
  cases hj.symm.trans hj'
  cases hn'.symm.trans hm'
  exact hrenders

/-- A node goes on meaning what it means. The induction is on the tree below it. -/
theorem means (hx : g.Means .extents x a) (hj : m.get? x = some j) : g'.Means .extents j a := by
  induction hx generalizing j with
  | literal hn =>
    obtain ⟨j', n', hj', hn', hrenders⟩ := h.image _ _ hn
    cases hj.symm.trans hj'
    cases hrenders with
    | literal _ _ hpoints =>
      change g'.Means .extents j (ValueSet.points _)
      rw [← hpoints]
      exact .literal hn'
  | @expression x e bs hn hlen hops ih =>
    obtain ⟨f, rfl, -⟩ := Means.exists_map (List.forall₂_iff_zip.2 ⟨hlen, fun hmem => hops _ _ hmem⟩)
    have hmap : ∀ o ∈ e.operands, ∀ j, m.get? o = some j → g'.Means .extents j (f o) := by
      intro o ho j hj
      have hzip : e.operands.zip (e.operands.map f) = e.operands.map fun o => (o, f o) := by
        simpa using List.zip_map' (f := id) (g := f) (l := e.operands)
      refine ih o (f o) ?_ hj
      rw [hzip]
      exact List.mem_map_of_mem ho
    obtain ⟨j', n', hj', hn', hrenders⟩ := h.image _ _ hn
    cases hj.symm.trans hj'
    cases hrenders with
    | @expression _ l js hl hjs =>
      have hsame : e.op.onFed (e.operands.map f) = e.op.onFed (l.map f) := by
        rcases hl with rfl | ⟨hop, hmem⟩
        · rfl
        · rw [hop]
          refine Operator.onFed_union_congr fun a => ?_
          simp only [List.mem_map, hmem]
      have hsub : ∀ o ∈ l, o ∈ e.operands := by
        rcases hl with rfl | ⟨-, hmem⟩
        · exact fun o ho => ho
        · exact fun o ho => (hmem o).1 ho
      change g'.Means .extents j (e.op.onFed (e.operands.map f))
      rw [hsame]
      refine Means.of_forall₂ (I := .extents) (e := ⟨e.op, js, e.asserted⟩) hn' ?_
      have hself : List.Forall₂ (fun o o' => o = o' ∧ o ∈ e.operands) l l :=
        List.forall₂_same.2 fun o ho => ⟨rfl, hsub o ho⟩
      rw [List.forall₂_map_right_iff]
      refine forall₂_through hjs hself ?_
      rintro o j _ hj ⟨rfl, ho⟩
      exact hmap o ho j hj

theorem hollow_iff (hall : ∀ x, g.contains x → ∃ a, g.Means .extents x a) : g'.Hollow ↔ g.Hollow := by
  constructor
  · rintro ⟨j, hj⟩
    obtain ⟨x, hx, hxj⟩ := h.onto j hj.contains
    obtain ⟨a, ha⟩ := hall x hx
    obtain rfl := (h.means ha hxj).unique hj
    exact ⟨x, ha⟩
  · rintro ⟨x, hx⟩
    obtain ⟨n, hn⟩ := contains_iff.1 hx.contains
    obtain ⟨j, -, hj, -⟩ := h.image x n hn
    exact ⟨j, h.means hx hj⟩

/-- Every node comes from one. -/
theorem exists_source {n' : Node α} (hn' : g'.node? j = some n') :
    ∃ x n, m.get? x = some j ∧ g.node? x = some n ∧ n.Renders m k n' := by
  obtain ⟨x, hx, hj⟩ := h.onto j (contains_of_node? hn')
  obtain ⟨n, hn⟩ := contains_iff.1 hx
  exact ⟨x, n, hj, hn, h.renders hn hj hn'⟩

theorem exists_expression {e' : Expression} (hn' : g'.node? j = some (.expression e')) :
    ∃ x e l, m.get? x = some j ∧ g.node? x = some (.expression e) ∧ e'.op = e.op ∧
      e'.asserted = e.asserted ∧ (l = e.operands ∨ e.op = .union ∧ ∀ o, o ∈ l ↔ o ∈ e.operands) ∧
      List.Forall₂ (fun o j => m.get? o = some j) l e'.operands := by
  obtain ⟨x, n, hj, hn, hrenders⟩ := h.exists_source hn'
  cases hrenders with
  | expression hl hjs => exact ⟨x, _, _, hj, hn, rfl, rfl, hl, hjs⟩

variable [Scalar.Ordered α]

theorem setDesign {k₀ : Family} (hg : g.SetDesign k₀) : g'.SetDesign k := by
  intro j n' hn'
  obtain ⟨x, n, hj, hn, hrenders⟩ := h.exists_source hn'
  cases hrenders with
  | literal hs hfamily hpoints =>
    obtain ⟨hc, -, hfed⟩ := hg.literal hn
    refine .inl ⟨_, _, rfl, hs, hfamily, ?_⟩
    rw [Bool.eq_false_iff] at hfed ⊢
    rwa [ne_eq, ValueSet.isEmpty_iff_points hs, hpoints, ← ValueSet.isEmpty_iff_points hc]
  | expression hl hjs =>
    obtain ⟨hop, hasserted⟩ := hg.expression hn
    exact .inr ⟨_, rfl, hop, hasserted⟩

theorem woven {k₀ : Family} {E : Prop} (hsound : g.Sound) (hg : g.Woven k₀ E) : g'.Woven k E := by
  refine ⟨h.setDesign hg.design, fun j e' he' => ?_, fun j e' he' hop o ho c hc => ?_, ?_⟩
  · obtain ⟨x, e, l, -, he, hop, -⟩ := h.exists_expression he'
    exact hop ▸ hg.basis x e he
  · obtain ⟨x, e, l, -, he, hop', -, hl, hjs⟩ := h.exists_expression he'
    obtain ⟨i, hi, rfl⟩ := List.mem_iff_getElem.1 ho
    have hi' : i < l.length := hjs.length_eq ▸ hi
    have hmap : m.get? l[i] = some e'.operands[i] := hjs.get hi' hi
    have hmem : l[i] ∈ e.operands := by
      rcases hl with rfl | ⟨-, hmem⟩
      · exact List.getElem_mem hi'
      · exact (hmem _).1 (List.getElem_mem hi')
    obtain ⟨n, hn⟩ := contains_iff.1 (hsound.contains he hmem)
    have hrenders := h.renders hn hmap hc
    cases hrenders with
    | expression =>
      have hne := hg.flat x e he (hop' ▸ hop) _ hmem _ hn
      exact hne
  · exact (h.hollow_iff fun x hx => hg.design.exists_means hsound hx).trans hg.hollow

omit [Scalar.Ordered α] in
theorem single {k₀ : Family} {op : Operator} {id : NodeId} {e : Expression} [Scalar.Ordered α]
    (hg : g.Single k₀ op l id e) (hop : op ≠ .union) : ∃ id' e', g'.Single k op l id' e' := by
  obtain ⟨id', n', hid', hn', hrenders⟩ := h.image id _ hg.node?
  cases hrenders with
  | @expression _ l' js hl hjs =>
    have hsame : l' = e.operands := hl.resolve_right fun hunion => hop (hg.op.symm.trans hunion.1)
    subst hsame
    refine ⟨id', _, hn', hg.op, h.setDesign hg.design, ?_, fun j e' he' => ?_⟩
    · refine forall₂_through hjs hg.points ?_
      rintro o j _ hj ⟨s, u, hs, rfl⟩
      obtain ⟨j', n', hj', hn', hrenders⟩ := h.image o _ hs
      cases hj.symm.trans hj'
      cases hrenders with
      | literal _ _ hsame => exact ⟨_, _, hn', hsame.symm⟩
    · obtain ⟨x, e, l, hx, he, -⟩ := h.exists_expression he'
      rw [hg.alone x e he, hid'] at hx
      exact (Option.some.inj hx).symm

end Rendition

end Generation

namespace Pass

open Generation

variable [Scalar.Ordered α] {deduplicate : Bool} {journal journal' : Journal} {rev : Revision α}

/-- The pass over the leaves only takes units away. -/
theorem rendition_leaves (hg : g.Acyclic) (hdesign : g.SetDesign k)
    (h : (leaves : Pass α).apply deduplicate journal g = .ok (rev, journal')) :
    ∃ k', g.Rendition rev.generation rev.mapping k' := by
  obtain ⟨k', hk'⟩ : ∃ k', ∀ id s u, g.node? id = some (.literal s u) → s.stripped.family = k' := by
    by_cases hnone : ∃ id s u, g.node? id = some (.literal s u)
    · obtain ⟨id, s, u, hs⟩ := hnone
      refine ⟨s.stripped.family, fun id' s' u' hs' => ValueSet.family_stripped_congr ?_⟩
      rw [(hdesign.literal hs).2.1, (hdesign.literal hs').2.1]
    · exact ⟨k, fun id s u hs => absurd ⟨id, s, u, hs⟩ hnone⟩
  obtain ⟨d, hd, rfl⟩ := outcome_leaves hg h
  refine ⟨k', fun x n hn => ?_, fun j hj => ?_⟩
  · by_cases hdue : Unplain g x
    · obtain ⟨j, n', hj, hn', n₀, hn₀, hretouched⟩ := (hd.stands x hdue).1
      cases hn.symm.trans hn₀
      refine ⟨j, n', hj, hn', ?_⟩
      rcases hdesign x n hn with ⟨s, u, rfl, hs, -⟩ | ⟨e, rfl, -⟩
      · obtain ⟨v, -, hv⟩ := Option.map_eq_some_iff.1 hretouched
        obtain rfl := Node.eq_of_skeleton_eq_leaf (m := .literal s.stripped (u.or (some v))) hv.symm rfl
        exact .literal ((ValueSet.canonical_stripped s).2 hs) (hk' x s u hn) (ValueSet.points_stripped s)
      · cases hretouched
    · obtain ⟨j, js, hj, himages, hn'⟩ := hd.reproduces images_leaves hn hdue
      refine ⟨j, _, hj, hn', ?_⟩
      rcases hdesign x n hn with ⟨s, u, rfl, hs, -⟩ | ⟨e, rfl, -⟩
      · refine .literal hs ?_ rfl
        have hnone : carriedUnit? s = none := by
          by_contra hsome
          obtain ⟨v, hv⟩ := Option.ne_none_iff_exists'.1 hsome
          exact hdue ⟨_, hn, by simp [retouched?, hv]⟩
        rw [← family_of_carriedUnit?_eq_none hnone, hk' x s u hn]
      · exact .expression (.inl rfl) himages
  · obtain ⟨n, hn⟩ := contains_iff.1 hj
    rcases hd.inventory (R := fun _ _ => False) (fun _ _ _ hcreated => hcreated) hn with
      ⟨i, -, hi, -⟩ | ⟨i, hi, -⟩ | ⟨-, i, -, hnone⟩
    · exact ⟨i, hd.input ▸ (hd.coherent.mapped i j hi).1, hi⟩
    · exact ⟨i, hd.input ▸ (hd.coherent.mapped i j hi).1, hi⟩
    · exact hnone.elim

variable {E : Prop}

omit [Scalar.Ordered α] in
/-- Where no union lists a union, nothing can be merged into what uses it. -/
theorem absorbable?_of_woven (hw : g.Woven k E) {id o : NodeId} {e : Expression}
    (hn : g.node? id = some (.expression e)) (ho : o ∈ e.operands) : absorbable? g o e = none := by
  rw [Option.eq_none_iff_forall_not_mem]
  intro c hc
  obtain ⟨hnode, hop, -, hflattens, -⟩ := absorbable?_eq_some.1 hc
  have hunion : c.op = .union := by
    have hkeeps := (hw.design.expression hnode).1
    revert hkeeps hflattens
    cases c.op <;> decide
  exact hw.flat id e hn (hop ▸ hunion) o ho c hnode hunion

omit [Scalar.Ordered α] in
theorem isAbsorbed_of_woven (hg : g.Linked) (hw : g.Woven k E) (x : NodeId) :
    isAbsorbed g x = false := by
  rw [Bool.eq_false_iff]
  intro habs
  obtain ⟨p, e, c, hu, hp, hc⟩ := exists_of_isAbsorbed habs
  have hmem : x ∈ g.operands p := (hg.users x p).1 (by simp [hu])
  rw [operands_of_node? hp] at hmem
  rw [absorbable?_of_woven hw hp hmem] at hc
  cases hc

omit [Scalar.Ordered α] in
/-- The pass over nested expressions only takes repeated operands away. -/
theorem rendition_nesting (hg : g.Sound) (hw : g.Woven k E)
    (h : (nesting : Pass α).apply deduplicate journal g = .ok (rev, journal')) :
    g.Rendition rev.generation rev.mapping k := by
  obtain ⟨d, hd, rfl⟩ := exists_compressed hg h
  refine ⟨fun x n hn => ?_, fun j hj => ?_⟩
  · obtain ⟨j, hj⟩ := hd.mapped hg.toLinked (contains_of_node? hn) (isAbsorbed_of_woven hg.toLinked hw x)
    obtain ⟨n', hn'⟩ := contains_iff.1 (hd.coherent.mapped x j hj).2
    refine ⟨j, n', hj, hn', ?_⟩
    obtain ⟨i, n₀, hi, hn₀, hsame⟩ := hd.inventory hg.toLinked hn'
    obtain rfl := hd.coherent.injective x i j hj hi
    cases hn.symm.trans hn₀
    rcases hw.design x n hn with ⟨s, u, rfl, hs, hfamily, -⟩ | ⟨e, rfl, hop, -⟩
    · obtain rfl := Node.eq_of_skeleton_eq_leaf hsame rfl
      exact .literal hs hfamily rfl
    · obtain ⟨e', rfl, hop', hasserted'⟩ := Node.expression_of_skeleton hsame
      obtain ⟨l, hl, himages⟩ := (hd.thinned hg.toLinked).mirrors x j trivial hj
      rw [operands_of_node? hn'] at himages
      obtain ⟨op', js, asserted'⟩ := e'
      cases hop'
      cases hasserted'
      refine .expression ?_ himages
      rcases hl with rfl | ⟨e₁, hover, rfl⟩
      · exact .inl (operands_of_node? hn)
      · cases hn.symm.trans hover.node?
        have hunion : e.op = .union := by
          have hbasis := hw.basis x e hn
          have hflat := hover.op
          revert hop hbasis hflat
          cases e.op <;> decide
        refine .inr ⟨hunion, fun o => ?_⟩
        rw [mem_keptOperands, flattened_of_none hn fun o ho => absorbable?_of_woven hw hn ho]
  · obtain ⟨i, hi⟩ := (hd.thinned hg.toLinked).bound j hj
    exact ⟨i, hd.input ▸ (hd.coherent.mapped i j hi).1, hi⟩

end Pass

end ParameterSolver
