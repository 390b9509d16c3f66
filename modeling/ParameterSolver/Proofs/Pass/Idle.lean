import ParameterSolver.Proofs.Draft.Runs

/-! A pass that finds nothing to do. Closing its draft only copies, so nothing is published. -/

namespace ParameterSolver

variable {α β γ : Type} [Scalar α] {d d' : Draft α} {id : NodeId}

namespace Draft

/-- Nothing has happened to the draft but copying. -/
structure Untouched (d : Draft α) : Prop where
  removed : ∀ id, d.isRemoved id = false
  dirty : d.dirty = false

omit [Scalar α] in
theorem untouched_start (g : Generation α) (deduplicate : Bool) (journal : Journal) :
    (start g deduplicate journal).Untouched :=
  ⟨fun id => by simp [isRemoved, start, NodeMap.contains], rfl⟩

omit [Scalar α] in
theorem Untouched.collect {f : β → Edit α (Option γ)} {l : List β} {r : Option (List γ)}
    (hf : ∀ x ∈ l, ∀ d r d', Untouched d → Runs (f x) d r d' → d'.Untouched ∧ r.isSome)
    (h : d.Untouched) (hr : Runs (Draft.collect f l) d r d') : d'.Untouched ∧ r.isSome := by
  induction l generalizing d r with
  | nil =>
    obtain ⟨rfl, rfl⟩ := runs_pure.1 hr
    exact ⟨h, rfl⟩
  | cons x l ih =>
    obtain ⟨y, d₁, hx, hr₁⟩ := runs_bind.1 hr
    obtain ⟨h₁, hsome⟩ := hf x (by simp) d y d₁ h hx
    obtain ⟨z, rfl⟩ := Option.isSome_iff_exists.1 hsome
    obtain ⟨zs, d₂, hl, hr₂⟩ := runs_bind.1 hr₁
    obtain ⟨rfl, rfl⟩ := runs_pure.1 hr₂
    obtain ⟨h₂, hsome₂⟩ := ih (fun w hw => hf w (.tail _ hw)) h₁ hl
    exact ⟨h₂, by simpa using hsome₂⟩

omit [Scalar α] in
theorem Untouched.insertCopy {n : Node α} {p : Provenance} {r : Option NodeId} (h : d.Untouched)
    (hr : Runs (Draft.insertCopy id n p) d r d') : d'.Untouched ∧ r.isSome := by
  unfold Draft.insertCopy Draft.insert at hr
  obtain ⟨out, d₁, hins, hr₁⟩ := runs_bind.1 hr
  rw [runs_get_bind] at hins
  rw [runs_modify_bind] at hr₁
  obtain ⟨rfl, rfl⟩ := runs_pure.1 hr₁
  split at hins
  · rw [runs_set_bind] at hins
    obtain ⟨-, rfl⟩ := runs_pure.1 hins
    exact ⟨⟨h.removed, h.dirty⟩, rfl⟩
  · exact absurd hins runs_throw

/-- The induction is on the fuel. -/
theorem Untouched.copyWith {fuel : ℕ} {r : Option NodeId} (h : d.Untouched)
    (hr : Runs (Draft.copyWith fuel id) d r d') : d'.Untouched ∧ r.isSome := by
  induction fuel generalizing id d r d' with
  | zero => exact absurd hr runs_throw
  | succ fuel ih =>
    rw [Draft.copyWith, runs_get_bind, if_neg (by simp [h.removed])] at hr
    split at hr
    · obtain ⟨rfl, rfl⟩ := runs_pure.1 hr
      exact ⟨h, rfl⟩
    split at hr
    · exact absurd hr runs_throw
    split at hr
    · obtain ⟨operands, d₁, hops, hr₁⟩ := runs_bind.1 hr
      obtain ⟨h₁, hsome⟩ := h.collect (fun _ _ _ _ _ h hr => ih h hr) hops
      obtain ⟨js, rfl⟩ := Option.isSome_iff_exists.1 hsome
      exact h₁.insertCopy hr₁
    · exact h.insertCopy hr

theorem Untouched.close {rev : Revision α} (h : d.Untouched) (hr : Runs Draft.close d rev d') :
    rev.dirty = false := by
  unfold Draft.close at hr
  rw [runs_get_bind] at hr
  obtain ⟨_, d₁, hloop, hr₁⟩ := runs_bind.1 hr
  rw [runs_get_bind] at hr₁
  obtain ⟨rfl, rfl⟩ := runs_pure.1 hr₁
  refine Untouched.dirty (runs_forM (P := fun _ d => Untouched d) (l := d.input.order)
    (fun _ _ _ _ d₁ d₂ _ h₁ hr => ?_) (List.nil_append _) h hloop)
  obtain ⟨r, hr⟩ := runs_discard.1 hr
  unfold Draft.copy at hr
  rw [runs_get_bind] at hr
  exact (h₁.copyWith hr).1

end Draft

/-- A pass that leaves the draft as it starts publishes nothing. -/
theorem Pass.dirty_of_idle {pass : Pass α} {g : Generation α} {deduplicate : Bool}
    {journal journal' : Journal} {rev : Revision α}
    (hidle : Runs pass.run (Draft.start g deduplicate journal) ⟨⟩
      (Draft.start g deduplicate journal))
    (h : pass.apply deduplicate journal g = .ok (rev, journal')) : rev.dirty = false := by
  obtain ⟨d, d', hr, hc⟩ := Pass.runs_of_apply h
  obtain ⟨-, rfl⟩ := hr.unique hidle
  exact (Draft.untouched_start g deduplicate journal).close hc

end ParameterSolver
