import ParameterSolver.Proofs.Draft.Clean

/-! Redirecting an input node, on any draft. Once the target is found to be there, rewiring the users
of what stood for the node does not fail, so that redirecting does nothing or all that it is to do. -/

namespace ParameterSolver

variable {α : Type}

/-- An output graph takes what replaces a node when the node and the operands are there. -/
theorem Generation.exists_replace {g : Generation α} {id : NodeId} {n : Node α} {p : Provenance}
    (hid : g.contains id) (ho : ∀ o ∈ n.operands, g.contains o) : ∃ g', g.replace id n p = .ok g' := by
  unfold replace
  rw [missing?_of_contains ho]
  simp [hid]

/-- An edit that runs does what its run does. -/
theorem Runs.ensures {β : Type} {m : Edit α β} {d d' : Draft α} {r : β} {Q : β → Draft α → Prop}
    {E : Draft α → Prop} (hr : Runs m d r d') (hQ : Q r d') : Ensures m d Q E := by
  unfold Ensures
  rwa [hr]

namespace Draft

variable {d d' : Draft α} {id old target : NodeId} {q : Provenance}

/-- A user can be rewired to what is there. -/
theorem exists_runs_rewire {g : Generation α} {D : Set NodeId} {u : NodeId} {e : Expression}
    (hdiv : g.Diverts old target D d.output) (ht : g.contains target)
    (hu : g.node? u = some (.expression e)) :
    ∃ o', Runs (rewire old target u) d ⟨⟩ { d with output := o' } ∧
      g.Diverts old target (D ∪ {u}) o' := by
  have hkept : ∀ k m, g.node? k = some m → ∃ l, d.output.node? k = some (m.withOperands l) := by
    intro k m hm
    by_cases hD : k ∈ D
    · exact ⟨_, by rw [hdiv.done k hD, hm]; rfl⟩
    · exact ⟨m.operands, by rw [hdiv.rest k hD, hm, Node.withOperands_operands]⟩
  obtain ⟨l, hl⟩ := hkept u _ hu
  obtain ⟨⟨node, p, users⟩, hentry, hnode⟩ := Option.map_eq_some_iff.1 hl
  dsimp only at hnode
  subst hnode
  have hp : d.output.provenance? u = some p := by rw [Generation.provenance?, hentry]; rfl
  have htarget : d.output.contains target := by
    obtain ⟨m, hm⟩ := Generation.contains_iff.1 ht
    obtain ⟨k, hk⟩ := hkept target m hm
    exact Generation.contains_of_node? hk
  have hops : ∀ o ∈ l.map (fun o => if o = old then target else o), d.output.contains o := by
    intro o ho
    obtain ⟨k, hk, rfl⟩ := List.mem_map.1 ho
    split_ifs
    · exact htarget
    · exact hdiv.linked.contains hl hk
  obtain ⟨o', ho'⟩ := Generation.exists_replace (p := p) (Generation.contains_of_node? hl)
    (n := .expression { e with operands := l.map fun o => if o = old then target else o }) hops
  refine ⟨o', ?_, hdiv.replace hl hp (Generation.rewritten_of_replace ho')⟩
  rw [rewire, runs_get_bind, hentry]
  dsimp only [Node.withOperands]
  rw [ho']
  exact runs_set.2 rfl

/-- Rewiring the users of an output node to one that is there does not fail. -/
theorem exists_runs_rewireAll (old : NodeId) (hd : d.output.Linked) (ht : d.output.contains target) :
    ∃ o', Runs ((d.output.users old).forM (rewire old target)) d ⟨⟩ { d with output := o' } ∧
      d.output.Diverts old target { u | u ∈ d.output.users old } o' := by
  have hstep : ∀ done u rest, done ++ u :: rest = d.output.users old → ∀ d₁ : Draft α,
      (∃ o', d₁ = { d with output := o' } ∧ d.output.Diverts old target { u | u ∈ done } o') →
      ∃ d₂, Runs (rewire old target u) d₁ ⟨⟩ d₂ ∧
        ∃ o', d₂ = { d with output := o' } ∧ d.output.Diverts old target { x | x ∈ done ++ [u] } o' := by
    rintro done u rest hl d₁ ⟨o₁, rfl, hdiv⟩
    obtain ⟨e, he, -⟩ := Generation.mem_operands_iff.1 ((hd.users old u).1 (hl ▸ by simp))
    obtain ⟨o₂, hr, hdiv'⟩ := exists_runs_rewire (d := { d with output := o₁ }) hdiv ht
      (Generation.expression?_eq.1 he)
    have hset : { x | x ∈ done ++ [u] } = { x | x ∈ done } ∪ {u} := by
      ext x
      simp [or_comm]
    exact ⟨_, hr, o₂, rfl, hset ▸ hdiv'⟩
  obtain ⟨d', hr, o', rfl, hdiv⟩ := exists_runs_forM hstep ⟨d.output, rfl, by simpa using .start hd⟩
  exact ⟨o', hr, hdiv⟩

/-- What redirecting comes down to. -/
inductive Redirects (id target : NodeId) (d : Draft α) : Draft α → Prop
  /-- Nothing stood for the node, or the target did. -/
  | seat {q : Provenance} (hq : d.input.provenance? id = some q)
    (hvacant : ∀ old, d.mapping.get? id = some old → old = target ∨ d.output.contains old = false) :
    Redirects id target d { d with
      dirty := true, output := d.output.addProvenance target q
      mapping := d.mapping.insert id target }
  /-- Another node stood for it, which goes. -/
  | swap {q : Provenance} {old : NodeId} {o' : Generation α} (hq : d.input.provenance? id = some q)
    (hold : d.mapping.get? id = some old) (hne : old ≠ target)
    (hdiv : (d.output.addProvenance target q).Diverts old target
      { u | u ∈ (d.output.addProvenance target q).users old } o')
    (hgone : (o'.remove old).1 = [old]) :
    Redirects id target d { removeOutput { d with
        dirty := true, output := o', mapping := d.mapping.insert id target } old with
      mapping := (removeOutput { d with
        dirty := true, output := o', mapping := d.mapping.insert id target } old).mapping.insert id target }

theorem runs_inputProvenance_of_eq (hq : d.input.provenance? id = some q) :
    Runs (inputProvenance id) d q d := by
  rw [inputProvenance, runs_get_bind, hq]
  exact runs_pure.2 ⟨rfl, rfl⟩

/-- A node can be redirected to what is there. -/
theorem exists_runs_redirect (hd : d.output.Linked) (ht : d.output.contains target)
    (hq : d.input.provenance? id = some q) :
    ∃ d', Runs (redirect id target) d ⟨⟩ d' ∧ Redirects id target d d' := by
  have hlinked : (d.output.addProvenance target q).Linked := hd.addProvenance
  have hrun : Runs (inputProvenance id) { d with dirty := true } q { d with dirty := true } :=
    runs_inputProvenance_of_eq hq
  by_cases hvacant : ∀ old, d.mapping.get? id = some old → old = target ∨ d.output.contains old = false
  · exact ⟨_, runs_redirect_of_vacant ht hrun hvacant, .seat hq hvacant⟩
  push Not at hvacant
  obtain ⟨old, hold, hne, hthere⟩ := hvacant
  rw [ne_eq, Bool.not_eq_false] at hthere
  obtain ⟨o', hloop, hdiv⟩ := exists_runs_rewireAll (d := { d with
    dirty := true, output := d.output.addProvenance target q, mapping := d.mapping.insert id target })
    old hlinked ((Generation.contains_addProvenance target).trans ht)
  have hall : ∀ u ∈ (d.output.addProvenance target q).users old,
      u ∈ { u | u ∈ (d.output.addProvenance target q).users old } := fun _ hu => hu
  have hthere' : o'.contains old := by
    obtain ⟨n, hn⟩ := Generation.contains_iff.1 ((Generation.contains_addProvenance old).trans hthere)
    exact Generation.contains_of_node? (by rw [hdiv.node?_eq hlinked hall, hn]; rfl)
  have hgone := Generation.remove_fst hthere' (hdiv.users_eq hlinked hne hall)
  exact ⟨_, runs_redirect_of_rewired ht hrun hold hne hthere hloop, .swap hq hold hne hdiv hgone⟩

/-- Redirecting fails at once or does all that it is to do. -/
theorem redirects (hd : d.output.Linked) : Ensures (redirect id target) d
    (fun _ d' => d.output.contains target ∧ Redirects id target d d')
    (fun d' => d' = d ∨ d' = { d with dirty := true }) := by
  cases ht : d.output.contains target with
  | false =>
    refine ensures_get_bind.2 ?_
    simp only [ht, Bool.not_false, if_true]
    exact Or.inl rfl
  | true =>
    cases hq : d.input.provenance? id with
    | none =>
      refine ensures_get_bind.2 ?_
      simp only [ht, Bool.not_true, Bool.false_eq_true, if_false]
      refine ensures_modify_bind.2 (ensures_bind.2 (ensures_get_bind.2 ?_))
      simp only [hq]
      exact Or.inr rfl
    | some q =>
      obtain ⟨d', hr, h⟩ := exists_runs_redirect hd ht hq
      exact hr.ensures ⟨rfl, h⟩

end Draft

end ParameterSolver
