import ParameterSolver.Proofs.Draft.Removals
import ParameterSolver.Proofs.Draft.Rewiring

/-! Redirecting an input node to a new parameter, whatever has been copied before. If the node has been
copied, the users of its copy are rewired and the copy goes; if not, its users will find the parameter
when they are copied. Either way the output becomes a copy of the input in which the parameter has taken
the place of the node. -/

namespace ParameterSolver

variable {α : Type}

/-- The graph `g'` is a copy of `g` but for the node `id`, whose place the parameter `p` has taken. -/
structure Generation.Reroutes (g : Generation α) (id : NodeId) (p : Parameter α) (f : NodeId → NodeId)
    (g' : Generation α) : Prop where
  /-- Every node has one counterpart, and there is nothing else. -/
  bijOn : Set.BijOn f { i | g.contains i } { j | g'.contains j }
  target : g'.node? (f id) = some (.parameter p)
  node? : ∀ i, g.contains i → i ≠ id →
    g'.node? (f i) = (g.node? i).map fun n => n.withOperands (n.operands.map f)
  provenance? : ∀ i, g.contains i → g'.provenance? (f i) = g.provenance? i
  users : ∀ j u, u ∈ g'.users j ↔ j ∈ g'.operands u
  users_nodup : ∀ j, (g'.users j).Nodup

namespace Draft

variable {g g' : Generation α} {T : Set NodeId} {d d' : Draft α} {id target : NodeId}

/-- The output is a copy of a part of `g`, but for the nodes in `T`; what has not been copied yet is the
same in the input. -/
structure Sketches (g : Generation α) (T : Set NodeId) (d : Draft α) : Prop where
  transcribes : Transcribes g d
  provenance : ∀ i j, d.mapping.get? i = some j → d.output.provenance? j = g.provenance? i
  onto : ∀ j, d.output.contains j → (∃ i, d.mapping.get? i = some j) ∨ j ∈ T
  kept : ∀ i, d.isRemoved i = false
  pending : ∀ i, d.mapping.get? i = none →
    g.node? i = d.input.node? i ∧ g.provenance? i = d.input.provenance? i

theorem sketches_start (g : Generation α) (deduplicate : Bool) (journal : Journal) :
    Sketches g ∅ (start g deduplicate journal) := by
  refine ⟨fun i j hj => ?_, ?_, ?_, ?_, fun _ _ => ⟨rfl, rfl⟩⟩
  · simp [start] at hj
  all_goals simp [start, isRemoved, NodeMap.contains, Generation.contains, Generation.empty]

theorem Sketches.copied (h : Sketches g T d) (hm : Move (.copy id) d d') : Sketches g T d' := by
  have hret := hm.retains trivial
  cases hm with | @copy _ _ j n js q o' hn hremoved hmap hjs henter hq
  have hid := Generation.contains_of_node? hn
  have hnull := Generation.ne_null_of_contains hid
  obtain ⟨hnode, hprov⟩ := h.pending id hmap
  refine ⟨h.transcribes.bind (hnode.trans hn) hmap hjs henter, fun i k hk => ?_, fun k hk => ?_, h.kept,
    fun i hi => h.pending i ?_⟩
  · rcases get?_bound hnull hk with ⟨rfl, rfl⟩ | ⟨-, hk⟩
    · rw [hprov, hq.provenance? hid, henter.provenance?, if_pos rfl]
    · rw [henter.provenance?, if_neg (henter.ne_of_contains (h.transcribes.contains hk).2),
        h.provenance i k hk]
  · obtain ⟨m, hm⟩ := Generation.contains_iff.1 hk
    by_cases hkj : k = j
    · exact Or.inl ⟨id, by rw [hkj]; exact NodeMap.get?_insert_self hnull⟩
    · rw [henter.node?_of_ne hkj] at hm
      exact (h.onto k (Generation.contains_of_node? hm)).imp_left fun ⟨i, hi⟩ => ⟨i, hret.mapping i k hi⟩
  · by_contra hsome
    obtain ⟨k, hk⟩ := Option.ne_none_iff_exists'.1 hsome
    rw [hret.mapping i k hk] at hi
    cases hi

/-- The parameter that is to take the place of a node. -/
structure Waits (target : NodeId) (p : Parameter α) (q : Provenance) (d : Draft α) : Prop where
  node? : d.output.node? target = some (.parameter p)
  provenance? : d.output.provenance? target = some q
  unbound : d.Unbound target

theorem Waits.copied {p : Parameter α} {q : Provenance} {i : NodeId} (h : Waits target p q d)
    (hm : Move (.copy i) d d') : Waits target p q d' := by
  have hret := hm.retains trivial
  have ht := Generation.contains_of_node? h.node?
  refine ⟨hret.node? _ _ h.node?, ?_, hret.unbound _ ht h.unbound⟩
  cases hm with | copy _ _ _ _ henter _
  rw [henter.provenance?, if_neg (henter.ne_of_contains ht), h.provenance?]

/-- What the operands of an output node become stands for the same operands. -/
theorem Images.diverted {l js : List NodeId} (hd : d.Coherent)
    (hmap : ∀ i, d'.mapping.get? i = if i = id then some target else d.mapping.get? i)
    (h : d.Images l js) : d'.Images l (js.map (d.diverted id target)) := by
  induction h with
  | nil => exact .nil
  | @cons o k l js hk _ ih =>
    refine .cons ?_ ih
    rw [hmap, Draft.diverted]
    by_cases ho : o = id
    · rw [if_pos ho, if_pos (ho ▸ hk)]
    · rw [if_neg ho, if_neg fun hk' => ho (hd.injective o id k hk hk'), hk]

/-- Redirecting a node makes of a copy of the graph a copy of the graph with the parameter in it. -/
theorem Sketches.redirected {p : Parameter α} {q : Provenance} (h : Sketches g {target} d)
    (hd : d.Coherent) (hin : d.input = g) (hw : Waits target p q d) (hq : g.provenance? id = some q)
    (hrep : g.Rewritten id (.parameter p) q g') (hm : Move (.redirect id target) d d') :
    Sketches g' ∅ d' := by
  cases hm with | @redirect _ _ _ _ p' q' hid hremoved ht hfree hcites hr
  obtain rfl : q' = q := by
    rw [hin] at hcites hid
    exact Option.some.inj ((hcites.provenance? hid).symm.trans hq)
  have hbinds : d.mapping.Binds id target d'.mapping := hr.mapping
  refine ⟨fun i k hk => ?_, fun i k hk => ?_, fun k hk => Or.inl ?_, fun i => ?_, fun i hi => ?_⟩
  · rcases hbinds.cases_of_injective hd.injective hk with ⟨rfl, rfl⟩ | ⟨hne, hk, hold⟩
    · refine ⟨.parameter p, [], hrep.node?_self, .nil, ?_⟩
      rw [hr.node?, if_neg (hfree i), hw.node?]
      rfl
    · obtain ⟨n, js, hn, hjs, hnode⟩ := h.transcribes i k hk
      refine ⟨n, _, (hrep.node?_of_ne hne).trans hn, hjs.diverted hd hr.mapping, ?_⟩
      rw [hr.node?, if_neg hold, hnode, Option.map_some, Node.withOperands_withOperands,
        Node.operands_withOperands_of_length (List.Forall₂.length_eq hjs)]
  · rw [hrep.provenance?, hr.provenance?]
    rcases hbinds.cases_of_injective hd.injective hk with ⟨rfl, rfl⟩ | ⟨hne, hk, hold⟩
    · rw [if_pos rfl, if_neg (hfree i), if_pos rfl, hw.provenance?, Option.map_some, Option.some_inj]
      ext x
      simp [SortedSet.mem_union]
    · have hkt : k ≠ target := fun hkt => hfree i (hkt ▸ hk)
      rw [if_neg hne, if_neg hold, if_neg hkt, h.provenance i k hk]
  · obtain ⟨m, hm⟩ := Generation.contains_iff.1 hk
    rw [hr.node?] at hm
    split_ifs at hm with hold
    obtain ⟨m', hm', -⟩ := Option.map_eq_some_iff.1 hm
    rcases h.onto k (Generation.contains_of_node? hm') with ⟨i, hi⟩ | hkt
    · have hne : i ≠ id := fun hi' => hold (hi' ▸ hi)
      exact ⟨i, (hbinds.of_ne hne).trans hi⟩
    · exact ⟨id, by rw [hbinds.self, hkt]⟩
  · rw [isRemoved, hr.removed]
    exact h.kept i
  · have hne : i ≠ id := by
      rintro rfl
      cases hbinds.self.symm.trans hi
    rw [hbinds.of_ne hne] at hi
    rw [hrep.node?_of_ne hne, hrep.provenance?, if_neg hne, hr.input]
    exact h.pending i hi

theorem Sketches.exists_iff (h : Sketches g' T d) (hd : d.Coherent) (hc : d.Closed) (i : NodeId) :
    (∃ j, d.mapping.get? i = some j) ↔ d.input.contains i := by
  refine ⟨fun ⟨j, hj⟩ => (hd.mapped i j hj).1, fun hi => (hc i hi).resolve_right ?_⟩
  rw [h.kept i]
  exact Bool.false_ne_true

/-- Once everything is copied, the output is a copy of the whole graph. -/
theorem Sketches.copies (h : Sketches g' ∅ d) (hd : d.Coherent) (hc : d.Closed)
    (hcont : ∀ i, g'.contains i ↔ d.input.contains i) :
    g'.Copies { i | g'.contains i } (image d.mapping) d.output := by
  refine h.transcribes.copies (fun i => ?_) hd.injective
    (fun j hj => (h.onto j hj).resolve_right (by simp)) h.provenance
  rw [h.exists_iff hd hc, ← hcont]
  rfl

/-- A copy of the graph with the parameter in it. -/
theorem copies_reroutes {p : Parameter α} {q : Provenance} {f : NodeId → NodeId}
    {o : Generation α} (h : g'.Copies { i | g'.contains i } f o) (ho : o.Neat)
    (hq : g.provenance? id = some q) (hrep : g.Rewritten id (.parameter p) q g') :
    g.Reroutes id p f o := by
  have hset : { i | g'.contains i } = { i | g.contains i } := Set.ext fun i => hrep.contains_iff
  rw [hset] at h
  refine ⟨h.bijOn, ?_, fun i hi hne => ?_, fun i hi => ?_, ho.users, ho.nodup_users⟩
  · rw [h.node? id hrep.contains, hrep.node?_self]
    rfl
  · rw [h.node? i hi, hrep.node?_of_ne hne]
  · rw [h.provenance? i hi, hrep.provenance?]
    split_ifs with hi'
    · rw [hi', hq]
    · rfl

/-- A parameter can be created for a node that has origins. -/
theorem exists_runs_createParameter {p : Parameter α} {q : Provenance}
    (hq : d.input.provenance? id = some q) (hne : ∃ x, x ∈ q) :
    ∃ j o', Runs (createParameter p [id]) d j { d with dirty := true, output := o' } ∧
      d.output.Entered j (.parameter p) q o' := by
  have hunion : SortedSet.empty.union q = q := by
    ext x
    simp [SortedSet.mem_union]
  have hprov : Runs (provenanceOf [id]) d q d := by
    refine runs_bind.2 ⟨q, d, ?_, ?_⟩
    · rw [List.foldlM_cons]
      refine runs_bind.2 ⟨q, d, runs_bind.2 ⟨q, d, runs_inputProvenance_of_eq hq, ?_⟩, runs_pure.2 ⟨rfl, rfl⟩⟩
      exact runs_pure.2 ⟨hunion.symm, rfl⟩
    · rw [SortedSet.isEmpty_eq_false_iff.2 hne]
      exact runs_pure.2 ⟨rfl, rfl⟩
  obtain ⟨j, d', hr⟩ := succeeds_insert (d := { d with dirty := true }) (n := .parameter p) (q := q)
    (by simp [Node.operands])
  obtain ⟨o', henter, rfl⟩ := entered_of_runs hr
  exact ⟨j, o', runs_bind.2 ⟨q, d, hprov, runs_modify_bind.2 hr⟩, henter⟩

theorem Sketches.created {p : Parameter α} {q : Provenance} {j : NodeId} {o' : Generation α}
    (h : Sketches g ∅ d) (hd : d.Coherent) (henter : d.output.Entered j (.parameter p) q o') :
    Sketches g {j} { d with dirty := true, output := o' } ∧
      Waits j p q { d with dirty := true, output := o' } := by
  have hret := retains_insert henter
  refine ⟨⟨fun i k hk => ?_, fun i k hk => ?_, fun k hk => ?_, h.kept, h.pending⟩, henter.node?_self, ?_,
    hd.unbound_fresh henter.toInserted⟩
  · obtain ⟨n, js, hn, hjs, hnode⟩ := h.transcribes i k hk
    exact ⟨n, js, hn, hjs, hret.node? k _ hnode⟩
  · have hne := henter.ne_of_contains (h.transcribes.contains hk).2
    rw [henter.provenance?, if_neg hne, h.provenance i k hk]
  · obtain ⟨m, hm⟩ := Generation.contains_iff.1 hk
    by_cases hkj : k = j
    · exact Or.inr hkj
    · rw [henter.node?_of_ne hkj] at hm
      exact Or.inl ((h.onto k (Generation.contains_of_node? hm)).resolve_right (by simp))
  · exact (henter.provenance? j).trans (if_pos rfl)

/-- What copies keep is kept by any copying, where nothing has been removed. -/
theorem keeps_moves {I : Draft α → Prop} (hkept : ∀ d, I d → ∀ i, d.isRemoved i = false)
    (hcopy : ∀ i d d', Move (.copy i) d d' → I d → I d')
    (hm : Moves (fun _ a => ∃ i, a = .copy i ∨ a = .drop i) d d') (hd : d.Coherent) (h : I d) : I d' := by
  refine (hm.invariant hd h ?_).1
  rintro d₁ a d₂ - ⟨i, rfl | rfl⟩ hm h
  · exact hcopy i d₁ d₂ hm h
  · cases hm with | drop _ _ _ hremoved
    rw [hkept d₁ h] at hremoved
    cases hremoved

variable [Scalar α]

theorem keeps_copies {I : Draft α → Prop} (hg : g.Acyclic) (hv : g.validate = .ok ())
    (hkept : ∀ d, I d → ∀ i, d.isRemoved i = false)
    (hcopy : ∀ i d d', Move (.copy i) d d' → I d → I d') {l : List NodeId}
    (hl : ∀ i ∈ l, g.contains i) (hd : d.Coherent) (hin : d.input = g) (h : I d) :
    I (d.afterAll (l.map .copy)) ∧ (d.afterAll (l.map .copy)).Coherent ∧
      (d.afterAll (l.map .copy)).input = g := by
  induction l generalizing d with
  | nil => exact ⟨h, hd, hin⟩
  | cons i l ih =>
    obtain ⟨r, d₁, hr⟩ := succeeds_copy hg hv hd hin (hl i List.mem_cons_self)
    have hmoves := (moves_copy hg hd hin hr).1
    have hafter : d.after (.copy i) = d₁ := after_eq (runs_discard.2 ⟨r, hr⟩)
    rw [List.map_cons, Draft.afterAll, List.foldl_cons, hafter]
    exact ih (fun i hi => hl i (.tail _ hi)) (hmoves.coherent hd) (hmoves.input.trans hin)
      (keeps_moves hkept hcopy (hmoves.mono fun _ _ ha => ha.copies) hd h)

/-- Creating, copying, redirecting and closing, after copies of some nodes. -/
theorem exists_copies_of_redirect {p : Parameter α} {q : Provenance} (hg : g.Acyclic)
    (hv : g.validate = .ok ()) (hq : g.provenance? id = some q) (hrep : g.Rewritten id (.parameter p) q g')
    {before between : List NodeId} (hbefore : ∀ i ∈ before, g.contains i)
    (hbetween : ∀ i ∈ between, g.contains i) (deduplicate : Bool) (journal : Journal) :
    ∃ target d₁ d₂ rev d',
      Runs (createParameter p [id]) ((start g deduplicate journal).afterAll (before.map .copy))
        target d₁ ∧
      Runs (redirect id target) (d₁.afterAll (between.map .copy)) ⟨⟩ d₂ ∧ Runs close d₂ rev d' ∧
      (∀ i, d'.isRemoved i = false) ∧ (∀ i, (∃ j, rev.mapping.get? i = some j) ↔ g.contains i) ∧
      rev.mapping.get? id = some target ∧
      g'.Copies { i | g'.contains i } (image rev.mapping) rev.generation ∧ rev.generation.Neat := by
  obtain ⟨h, hd, hin⟩ := keeps_copies (I := Sketches g ∅) hg hv (fun _ h => h.kept)
    (fun _ _ _ hm h => h.copied hm) hbefore (coherent_start g deduplicate journal) rfl
    (sketches_start g deduplicate journal)
  have hhealthy := (healthy_start hv deduplicate journal).afterAll (before.map .copy)
  generalize (start g deduplicate journal).afterAll (before.map .copy) = d at h hd hin hhealthy
  obtain ⟨target, o', hcreate, henter⟩ := exists_runs_createParameter (p := p)
    (d := d) (hin ▸ hq) (Generation.origin_of_validate hv hq)
  obtain ⟨h₁, hw₁⟩ := h.created hd henter
  have hd₁ : Coherent { d with dirty := true, output := o' } :=
    (hd.noted (noted_dirty d)).insert henter
  have hhealthy₁ := (goes_create.of_runs hcreate).1.healthy hhealthy
  -- Copies leave the parameter alone until the node is redirected to it.
  obtain ⟨⟨h₂, hw₂⟩, hd₂, hin₂⟩ := keeps_copies
    (I := fun d => Sketches g {target} d ∧ Waits target p q d) hg hv (fun _ h => h.1.kept)
    (fun _ _ _ hm h => ⟨h.1.copied hm, h.2.copied hm⟩) hbetween hd₁ hin ⟨h₁, hw₁⟩
  have hhealthy₂ := hhealthy₁.afterAll (between.map .copy)
  have hq₂ : ∀ d : Draft α, d.input = g → d.input.provenance? id = some q := fun _ h => h ▸ hq
  obtain ⟨d₃, hredirect, -⟩ := exists_runs_redirect hd₂.linked
    (Generation.contains_of_node? hw₂.node?) (hq₂ _ hin₂)
  have hmove := move_redirect hd₂ (hin₂ ▸ Generation.contains_of_provenance? hq) (h₂.kept id)
    hw₂.node? hw₂.unbound hredirect
  have h₃ := h₂.redirected hd₂ hin₂ hw₂ hq hrep hmove
  have hd₃ := hd₂.move hmove
  have hin₃ := hmove.input.trans hin₂
  have hhealthy₃ := ((goes_redirect hd₂.linked).of_runs hredirect).1.healthy hhealthy₂
  obtain ⟨rev, d₄, hclose⟩ := succeeds_close hg hv hd₃ hin₃
  obtain ⟨hmoves, hclosed, rfl⟩ := moves_close hg hd₃ hin₃ hclose
  have h₄ := keeps_moves (I := Sketches g' ∅) (fun _ h => h.kept) (fun _ _ _ hm h => h.copied hm) hmoves
    hd₃ h₃
  have hhealthy₄ := (goes_close.of_runs hclose).1.healthy hhealthy₃
  have hd₄ := hmoves.coherent hd₃
  have hin₄ := hmoves.input.trans hin₃
  refine ⟨target, _, d₃, _, d₄, hcreate, hredirect, hclose, h₄.kept, fun i => ?_, ?_,
    h₄.copies hd₄ hclosed fun i => ?_, hhealthy₄.output⟩
  · rw [h₄.exists_iff hd₄ hclosed, hin₄]
  · have hself : d₃.mapping.get? id = some target := by
      cases hmove with | redirect _ _ _ _ _ hr
      rw [hr.mapping, if_pos rfl]
    refine (hmoves.retains fun _ _ ha => ?_).mapping id target hself
    obtain ⟨i, rfl | rfl⟩ := ha <;> trivial
  · rw [hin₄]
    exact hrep.contains_iff

/-- On a valid graph without circles, after any copies before and after the parameter is created,
redirecting a node to it and closing succeed. Every node has one counterpart, that of the node is the
parameter, and the users of the node use it exactly where they used the node; there is nothing else, and
so no copy of the node is left. Without any copies before, the same comes out under other ids. -/
theorem reroutes_of_redirect (hg : g.Acyclic) (hv : g.validate = .ok ()) (hid : g.contains id)
    (p : Parameter α) {before between : List NodeId} (hbefore : ∀ i ∈ before, g.contains i)
    (hbetween : ∀ i ∈ between, g.contains i) (deduplicate : Bool) (journal : Journal) :
    ∃ target d₁ d₂ rev d',
      Runs (createParameter p [id]) ((start g deduplicate journal).afterAll (before.map .copy))
        target d₁ ∧
      Runs (redirect id target) (d₁.afterAll (between.map .copy)) ⟨⟩ d₂ ∧ Runs close d₂ rev d' ∧
      (∀ i, d'.isRemoved i = false) ∧ (∀ i, (∃ j, rev.mapping.get? i = some j) ↔ g.contains i) ∧
      rev.mapping.get? id = some target ∧
      (∀ i, g.contains i → (image rev.mapping i = target ↔ i = id)) ∧
      g.Reroutes id p (image rev.mapping) rev.generation ∧
      ∀ deduplicate' journal' target' e₁ e₂ rev' e',
        Runs (createParameter p [id]) (start g deduplicate' journal') target' e₁ →
        Runs (redirect id target') e₁ ⟨⟩ e₂ → Runs close e₂ rev' e' →
          ∃ k, rev.generation.Copies { j | rev.generation.contains j } k rev'.generation ∧
            ∀ i, g.contains i → k (image rev.mapping i) = image rev'.mapping i := by
  obtain ⟨q, hq⟩ := Generation.exists_provenance? hid
  obtain ⟨g', hg'⟩ := Generation.exists_replace (n := .parameter p) (p := q) hid (by simp [Node.operands])
  have hrep := Generation.rewritten_of_replace hg'
  obtain ⟨target, d₁, d₂, rev, d', hcreate, hredirect, hclose, hkept, hall, hself, hcopies, hneat⟩ :=
    exists_copies_of_redirect hg hv hq hrep hbefore hbetween deduplicate journal
  have hroutes := copies_reroutes hcopies hneat hq hrep
  refine ⟨target, d₁, d₂, rev, d', hcreate, hredirect, hclose, hkept, hall, hself, fun i hi => ?_, hroutes,
    fun deduplicate' journal' target' e₁ e₂ rev' e' hc hr hl => ?_⟩
  · rw [← image_eq hself]
    exact hroutes.bijOn.injOn.eq_iff hi hid
  · have hnone : ∀ i ∈ ([] : List NodeId), g.contains i := by simp
    obtain ⟨_, _, _, _, _, hc', hr', hl', -, -, -, hcopies', -⟩ :=
      exists_copies_of_redirect hg hv hq hrep hnone hnone deduplicate' journal'
    obtain ⟨rfl, rfl⟩ := hc.unique hc'
    obtain ⟨-, rfl⟩ := hr.unique hr'
    obtain ⟨rfl, -⟩ := hl.unique hl'
    obtain ⟨k, hk, halong⟩ := hcopies.exists_copies_along hcopies'
    exact ⟨k, hk, fun i hi => halong i (hrep.contains_iff.2 hi)⟩

end Draft

/-- The sum gives way to a parameter, after the assertion about it has been copied. -/
theorem Draft.reroutes_of_redirect_sum : ∃ target d₁ d₂ rev d',
    Runs (createParameter .real [.nth 2])
      ((start Sample.sum.generation false .empty).afterAll [.copy (.nth 3)]) target d₁ ∧
    Runs (redirect (.nth 2) target) d₁ ⟨⟩ d₂ ∧ Runs close d₂ rev d' ∧
    rev.mapping.get? (.nth 2) = some target ∧
    Sample.sum.generation.Reroutes (.nth 2) .real (image rev.mapping) rev.generation := by
  have hid : Sample.sum.generation.contains (.nth 2) := rfl
  have hbefore : ∀ i ∈ [NodeId.nth 3], Sample.sum.generation.contains i := by
    intro i hi
    rw [List.mem_singleton.1 hi]
    rfl
  have hbetween : ∀ i ∈ ([] : List NodeId), Sample.sum.generation.contains i := by simp
  obtain ⟨target, d₁, d₂, rev, d', hcreate, hredirect, hclose, -, -, hself, -, hroutes, -⟩ :=
    reroutes_of_redirect Sample.sum_acyclic Sample.sum_validate hid .real hbefore hbetween false .empty
  exact ⟨target, d₁, d₂, rev, d', hcreate, hredirect, hclose, hself, hroutes⟩

end ParameterSolver
