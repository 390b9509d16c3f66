import ParameterSolver.Proofs.Draft.Invariants
import ParameterSolver.Proofs.Draft.Rewrites

/-! Leaves. Nothing that goes on around a leaf reaches it: what is removed with a node uses that node,
and a leaf uses nothing. So a leaf is lost, or changed, only by a move that is about it. -/

namespace ParameterSolver

variable {α : Type} {P : Draft α → Act α → Prop} {d d' : Draft α} {a : Act α} {x : NodeId}
  {n : Node α} {p : Provenance} {R : Node α → Prop}

/-- What may be done to the leaf `x` is to give it content of which `R` holds. -/
def Act.Spares (x : NodeId) (R : Node α → Prop) : Act α → Prop
  | .write id n => id = x → R n
  | .erase id | .redirect id _ => id ≠ x
  | _ => True

namespace Draft

/-- The leaf is not gone. Its output node has its origins, and content of which `R` holds. -/
structure Spared (x : NodeId) (R : Node α → Prop) (p : Provenance) (d : Draft α) : Prop where
  kept : d.isRemoved x = false
  node? : ∀ j, d.mapping.get? x = some j → ∃ m, d.output.node? j = some m ∧ R m
  provenance? : ∀ j, d.mapping.get? x = some j → d.output.provenance? j = some p

theorem eq_of_cites {g : Generation α} {q : Provenance} (hp : g.provenance? x = some p)
    (h : g.Cites [x] q) : q = p := by
  ext o
  simp [h o, hp]

/-- What happens to other output nodes does not matter to a leaf. -/
theorem Spared.of_same (h : Spared x R p d) (hkept : d'.isRemoved x = d.isRemoved x)
    (hmap : d'.mapping.get? x = d.mapping.get? x)
    (hsame : ∀ j, d.mapping.get? x = some j → d'.output.node? j = d.output.node? j ∧
      d'.output.provenance? j = d.output.provenance? j) : Spared x R p d' := by
  refine ⟨hkept.trans h.kept, fun j hj => ?_, fun j hj => ?_⟩
  · obtain ⟨hnode, -⟩ := hsame j (hmap ▸ hj)
    rw [hnode]
    exact h.node? j (hmap ▸ hj)
  · obtain ⟨-, hprov⟩ := hsame j (hmap ▸ hj)
    rw [hprov]
    exact h.provenance? j (hmap ▸ hj)

/-- A new output node for an input node, the leaf or another one. -/
theorem Spared.insertFor {id j : NodeId} {m : Node α} {q : Provenance} {o' : Generation α}
    (h : Spared x R p d) (hd : d.Coherent) (hid : id ≠ .null) (henter : d.output.Entered j m q o')
    (hx : id = x → R m ∧ q = p) (dirty : Bool) :
    Spared x R p { d with dirty := dirty, output := o', mapping := d.mapping.insert id j } := by
  by_cases hix : id = x
  · subst hix
    have hself : ∀ k, (d.mapping.insert id j).get? id = some k → k = j := fun k hk => by
      rw [NodeMap.get?_insert_self hid] at hk
      exact (Option.some.inj hk).symm
    refine ⟨h.kept, fun k hk => ?_, fun k hk => ?_⟩
    · rw [hself k hk]
      exact ⟨m, henter.node?_self, (hx rfl).1⟩
    · rw [hself k hk]
      exact (henter.provenance? j).trans ((if_pos rfl).trans (congrArg some (hx rfl).2))
  · refine h.of_same rfl ?_ fun k hk => ?_
    · exact NodeMap.get?_insert_other (Ne.symm hix)
    · have hne := henter.ne_of_contains (hd.mapped x k hk).2
      exact ⟨henter.node?_of_ne hne, (henter.provenance? k).trans (if_neg hne)⟩

theorem spared_start (g : Generation α) (deduplicate : Bool) (journal : Journal) :
    Spared x R p (start g deduplicate journal) := by
  refine ⟨?_, ?_, ?_⟩ <;> simp [start, isRemoved, NodeMap.contains]

/-- What goes with a node is its output node and expressions. -/
theorem Erased.mem {id j : NodeId} {gone : List NodeId} (h : Erased id gone d d')
    (hd : d.Coherent) (hj : j ∈ gone) :
    d.mapping.get? id = some j ∨ ∃ e, d.output.node? j = some (.expression e) := by
  refine h.least { j | d.mapping.get? id = some j ∨ ∃ e, d.output.node? j = some (.expression e) }
    (fun _ hk => Or.inl hk) (fun k _ u hu => Or.inr ?_) j hj
  have hops := (hd.linked.users k u).1 hu
  obtain ⟨m, hm⟩ := Generation.node?_of_mem_operands hops
  rw [Generation.operands_of_node? hm] at hops
  cases m with
  | expression e => exact ⟨e, hm⟩
  | _ => cases hops

end Draft

open Draft

/-- No move that spares a leaf takes anything from it. -/
theorem Move.spared (h : Move a d d') (hd : d.Coherent) (hn : d.input.node? x = some n)
    (hp : d.input.provenance? x = some p) (hleaf : n.expression? = none)
    (hR : ∀ m, R m → m.expression? = none) (hself : R n) (ha : a.Spares x R)
    (hs : Spared x R p d) : Spared x R p d' := by
  have houtput : ∀ j e, d.mapping.get? x = some j → d.output.node? j ≠ some (.expression e) := by
    intro j e hj he
    obtain ⟨m, hm, hRm⟩ := hs.node? j hj
    cases hm.symm.trans he
    cases hR _ hRm
  cases h with
  | note hnoted =>
    refine hs.of_same ?_ ?_ fun j _ => ?_
    · rw [isRemoved, hnoted.removed, isRemoved]
    · rw [hnoted.mapping]
    · rw [hnoted.output]
      exact ⟨rfl, rfl⟩
  | @copy _ id j m js q o' hm hremoved hmap hjs henter hq =>
    refine hs.insertFor hd (Generation.ne_null_of_contains (Generation.contains_of_node? hm)) henter
      ?_ d.dirty
    rintro rfl
    cases hn.symm.trans hm
    refine ⟨?_, eq_of_cites hp hq⟩
    cases n with
    | expression e => cases hleaf
    | _ => exact hself
  | @drop _ id o journal hid hmap ho hremoved =>
    have hne : x ≠ id := by
      rintro rfl
      rw [Generation.operands_of_node? hn] at ho
      cases n with
      | expression e => cases hleaf
      | _ => cases ho
    refine hs.of_same ?_ rfl fun _ _ => ⟨rfl, rfl⟩
    rw [Bool.eq_iff_iff]
    exact (NodeMap.contains_insert (Generation.ne_null_of_contains hid)).trans
      ⟨fun h => h.resolve_right hne, Or.inl⟩
  | create henter hq =>
    refine hs.of_same rfl rfl fun k hk => ?_
    have hne := henter.ne_of_contains (hd.mapped x k hk).2
    exact ⟨henter.node?_of_ne hne, (henter.provenance? k).trans (if_neg hne)⟩
  | place hid hremoved hmap henter hq =>
    refine hs.insertFor hd (Generation.ne_null_of_contains hid) henter ?_ true
    rintro rfl
    exact ⟨ha rfl, eq_of_cites hp hq⟩
  | @replace _ id j m q o' hmap hrep hq =>
    by_cases hix : id = x
    · subst hix
      refine ⟨hs.kept, fun k hk => ?_, fun k hk => ?_⟩
      · cases hmap.symm.trans hk
        exact ⟨m, (hrep.node? j).trans (if_pos rfl), ha rfl⟩
      · cases hmap.symm.trans hk
        refine (hrep.provenance? j).trans ((if_pos rfl).trans (congrArg some ?_))
        rcases hq with hq | ⟨-, hq⟩
        · exact eq_of_cites hp hq
        · exact Option.some.inj (hq.symm.trans (hs.provenance? j hmap))
    · refine hs.of_same rfl rfl fun k hk => ?_
      have hne : k ≠ j := by
        rintro rfl
        exact hix (hd.injective id x k hmap hk)
      exact ⟨hrep.node?_of_ne hne, (hrep.provenance? k).trans (if_neg hne)⟩
  | @credit _ out sources q hq hout =>
    refine hs.of_same rfl rfl fun k hk => ⟨Generation.node?_addProvenance k, ?_⟩
    have hne : k ≠ out := by
      rintro rfl
      obtain ⟨m, hm, -⟩ := hs.node? k hk
      obtain ⟨e, rfl, -⟩ := hout m hm
      exact houtput k e hk hm
    exact (Generation.provenance?_addProvenance k).trans (if_neg hne)
  | @erase _ _ id gone hid he =>
    have hstays : ∀ j, d.mapping.get? x = some j → j ∉ gone := by
      intro j hj hgone
      rcases he.mem hd hgone with hj' | ⟨e, he'⟩
      · exact ha (hd.injective id x j hj' hj)
      · exact houtput j e hj he'
    have hmap : d'.mapping.get? x = d.mapping.get? x := by
      refine Option.ext fun j => ?_
      rw [he.mapping]
      exact ⟨fun h => h.1, fun h => ⟨h, hstays j h⟩⟩
    refine hs.of_same ?_ hmap fun j hj => ?_
    · rw [Bool.eq_iff_iff, he.removed]
      refine ⟨?_, Or.inl⟩
      rintro (h | h | ⟨j, hgone, hj⟩)
      · exact h
      · exact absurd h.symm ha
      · exact absurd hgone (hstays j hj)
    · exact ⟨(he.output.node? j).trans (if_neg (hstays j hj)),
        (he.provenance? j).trans (if_neg (hstays j hj))⟩
  | @redirect _ _ id target _ q hid hremoved ht hfree hq hr =>
    have hmap : d'.mapping.get? x = d.mapping.get? x := by
      rw [hr.mapping, if_neg fun h => ha h.symm]
    have hne : ∀ j, d.mapping.get? x = some j → d.mapping.get? id ≠ some j := fun j hj hj' =>
      ha (hd.injective id x j hj' hj)
    refine ⟨?_, fun j hj => ?_, fun j hj => ?_⟩
    · rw [isRemoved, hr.removed]
      exact hs.kept
    · rw [hmap] at hj
      obtain ⟨m, hm, hRm⟩ := hs.node? j hj
      refine ⟨m, ?_, hRm⟩
      rw [hr.node?, if_neg (hne j hj), hm]
      cases m with
      | expression e => cases hR _ hRm
      | _ => rfl
    · rw [hmap] at hj
      have htarget : j ≠ target := fun h => hfree x (h ▸ hj)
      rw [hr.provenance?, if_neg (hne j hj), if_neg htarget]
      exact hs.provenance? j hj

theorem Moves.spared {g : Generation α} {deduplicate : Bool} {journal : Journal}
    (h : Moves P (start g deduplicate journal) d) (hn : g.node? x = some n)
    (hp : g.provenance? x = some p) (hleaf : n.expression? = none)
    (hR : ∀ m, R m → m.expression? = none) (hself : R n) (hP : ∀ d a, P d a → a.Spares x R) :
    Spared x R p d := by
  refine ((h.invariant (I := fun d => d.input = g ∧ Spared x R p d)
    (coherent_start g deduplicate journal) ⟨rfl, spared_start g deduplicate journal⟩
    fun d a d' hd ha hmove hI => ⟨hmove.input.trans hI.1, ?_⟩).1).2
  obtain ⟨hin, hs⟩ := hI
  exact hmove.spared hd (hin ▸ hn) (hin ▸ hp) hleaf hR hself (hP d a ha) hs

/-- Once a draft is closed, the leaf has an output node. -/
theorem Draft.Spared.exists_image {g : Generation α} (hs : Spared x R p d) (hin : d.input = g)
    (hclosed : d.Closed) (hn : g.node? x = some n) :
    ∃ j m, d.mapping.get? x = some j ∧ d.output.node? j = some m ∧ R m ∧
      d.output.provenance? j = some p := by
  obtain ⟨j, hj⟩ := (hclosed x (hin ▸ Generation.contains_of_node? hn)).resolve_right
    (by simp [hs.kept])
  obtain ⟨m, hm, hRm⟩ := hs.node? j hj
  exact ⟨j, m, hj, hm, hRm, hs.provenance? j hj⟩

end ParameterSolver
