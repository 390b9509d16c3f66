import ParameterSolver.Proofs.Draft.Sparing

/-! Unknowns, which are the parameters and the expressions whose law makes one. Moves that write none
where there was none leave every unknown of the output with the origins of an unknown of the input, and
no others. -/

namespace ParameterSolver

variable {α : Type} {P : Draft α → Act α → Prop} {d d' : Draft α} {a : Act α} {id j target : NodeId}
  {n : Node α} {p : Parameter α} {S : Set NodeId}

/-- A parameter, or an expression that gives way to one. -/
def Node.IsUnknown : Node α → Prop
  | parameter _ => True
  | expression e => e.op = .min ∨ e.op = .max
  | _ => False

@[simp] theorem Node.isUnknown_withOperands {l : List NodeId} :
    (n.withOperands l).IsUnknown ↔ n.IsUnknown := by
  cases n <;> rfl

theorem Node.not_isUnknown_of_canonical {e : Expression} (h : e.op.isCanonical) :
    ¬ (Node.expression e : Node α).IsUnknown := by
  rintro (hop | hop) <;> rw [hop] at h <;> cases h

namespace Generation

variable {g g' : Generation α}

def Unknown (g : Generation α) (id : NodeId) : Prop := ∃ n, g.node? id = some n ∧ n.IsUnknown

theorem unknown_iff (h : g.node? id = some n) : g.Unknown id ↔ n.IsUnknown := by
  simp [Unknown, h]

theorem unknown_congr (h : g'.node? j = g.node? id) : g'.Unknown j ↔ g.Unknown id := by
  unfold Unknown
  rw [h]

theorem Unknown.contains (h : g.Unknown id) : g.contains id := contains_of_node? h.choose_spec.1

end Generation

/-- The act writes no unknown where there was none. -/
def Act.Roots (g : Generation α) : Act α → Prop
  | .write id n => n.IsUnknown → g.Unknown id
  | .create _ n => ¬ n.IsUnknown
  | .redirect .. => False
  | _ => True

namespace Draft

/-- Every unknown of the output, those in `S` apart, stands for an unknown of the input and has the
origins of that. -/
def Rooted (S : Set NodeId) (d : Draft α) : Prop :=
  ∀ j, d.output.Unknown j → j ∉ S → ∃ i, d.mapping.get? i = some j ∧ d.input.Unknown i ∧
    d.output.provenance? j = d.input.provenance? i

theorem rooted_start (g : Generation α) (deduplicate : Bool) (journal : Journal) :
    Rooted S (start g deduplicate journal) := by
  rintro j ⟨n, hn, -⟩
  simp [start, Generation.node?, Generation.get?, Generation.empty] at hn

theorem provenance?_of_cites {g : Generation α} {q : Provenance} (hid : g.contains id)
    (hq : g.Cites [id] q) : g.provenance? id = some q := by
  obtain ⟨p, hp⟩ := Generation.exists_provenance? hid
  rw [hp, eq_of_cites hp hq]

/-- A new output node that stands for nothing. -/
theorem Rooted.insert {q : Provenance} {o' : Generation α} (h : Rooted S d)
    (henter : d.output.Entered j n q o') (dirty : Bool) :
    Rooted (S ∪ {j}) { d with dirty := dirty, output := o' } := by
  intro k hk hS
  simp only [Set.mem_union, Set.mem_singleton_iff, not_or] at hS
  obtain ⟨i, hi, hin, hprov⟩ :=
    h k ((Generation.unknown_congr (henter.node?_of_ne hS.2)).1 hk) hS.1
  exact ⟨i, hi, hin, ((henter.provenance? k).trans (if_neg hS.2)).trans hprov⟩

/-- A new output node for an input node. -/
theorem Rooted.insertFor {q : Provenance} {o' : Generation α} (h : Rooted S d)
    (hid : d.input.contains id) (hmap : d.mapping.get? id = none)
    (henter : d.output.Entered j n q o') (hn : n.IsUnknown → d.input.Unknown id)
    (hq : d.input.Cites [id] q) (dirty : Bool) :
    Rooted S { d with dirty := dirty, output := o', mapping := d.mapping.insert id j } := by
  have hnull := Generation.ne_null_of_contains hid
  intro k hk hS
  by_cases hkj : k = j
  · subst hkj
    refine ⟨id, NodeMap.get?_insert_self hnull, hn ((Generation.unknown_iff henter.node?_self).1 hk), ?_⟩
    exact ((henter.provenance? k).trans (if_pos rfl)).trans (provenance?_of_cites hid hq).symm
  · obtain ⟨i, hi, hin, hprov⟩ :=
      h k ((Generation.unknown_congr (henter.node?_of_ne hkj)).1 hk) hS
    refine ⟨i, get?_bound_of_none hnull hmap hi, hin, ?_⟩
    exact ((henter.provenance? k).trans (if_neg hkj)).trans hprov

end Draft

open Draft

theorem Move.rooted (h : Move a d d') (hd : d.Coherent) (ha : a.Roots d.input) (hs : Rooted S d) :
    Rooted S d' := by
  cases h with
  | note hn =>
    unfold Rooted
    rw [hn.input, hn.output, hn.mapping]
    exact hs
  | copy hn hremoved hmap hjs henter hq =>
    refine hs.insertFor (Generation.contains_of_node? hn) hmap henter (fun hk => ?_) hq d.dirty
    exact (Generation.unknown_iff hn).2 (Node.isUnknown_withOperands.1 hk)
  | drop => exact hs
  | @create _ id j n q o' henter hq =>
    intro k hk hS
    have hkj : k ∉ S ∪ {j} := by
      rintro (hkS | rfl)
      · exact hS hkS
      · exact ha ((Generation.unknown_iff henter.node?_self).1 hk)
    exact hs.insert henter d.dirty k hk hkj
  | place hid hremoved hmap henter hq => exact hs.insertFor hid hmap henter ha hq true
  | @replace _ id j n q o' hmap hrep hq =>
    intro k hk hS
    by_cases hkj : k = j
    · subst hkj
      refine ⟨id, hmap, ha ((Generation.unknown_iff hrep.node?_self).1 hk), ?_⟩
      refine ((hrep.provenance? k).trans (if_pos rfl)).trans ?_
      rcases hq with hq | ⟨⟨p, hp⟩, hprov⟩
      · exact (provenance?_of_cites (hd.mapped id k hmap).1 hq).symm
      · obtain ⟨i, hi, -, hprov'⟩ := hs k ⟨_, hp, trivial⟩ hS
        rw [hd.injective id i k hmap hi, ← hprov', hprov]
    · obtain ⟨i, hi, hin, hprov⟩ :=
        hs k ((Generation.unknown_congr (hrep.node?_of_ne hkj)).1 hk) hS
      exact ⟨i, hi, hin, ((hrep.provenance? k).trans (if_neg hkj)).trans hprov⟩
  | @credit _ out sources q hq hout =>
    intro k hk hS
    rw [Generation.unknown_congr (Generation.node?_addProvenance k)] at hk
    obtain ⟨i, hi, hin, hprov⟩ := hs k hk hS
    have hne : k ≠ out := by
      rintro rfl
      obtain ⟨n, hn, hunknown⟩ := hk
      obtain ⟨e, rfl, hfree | hop⟩ := hout n hn
      · exact hfree i hi
      · exact Node.not_isUnknown_of_canonical hop hunknown
    exact ⟨i, hi, hin, ((Generation.provenance?_addProvenance k).trans (if_neg hne)).trans hprov⟩
  | @erase _ _ id gone hid he =>
    rintro k ⟨n, hn, hunknown⟩ hS
    obtain ⟨hn, hgone⟩ := he.output.node?_of_some hn
    obtain ⟨i, hi, hin, hprov⟩ := hs k ⟨n, hn, hunknown⟩ hS
    refine ⟨i, (he.mapping i k).2 ⟨hi, hgone⟩, he.input ▸ hin, ?_⟩
    rw [he.provenance?, if_neg hgone, hprov, he.input]
  | redirect => exact ha.elim

theorem Moves.rooted (h : Moves P d d') (hP : ∀ d' a, P d' a → a.Roots d.input) (hd : d.Coherent)
    (hs : Rooted S d) : Rooted S d' :=
  (h.invariant (I := fun d' => d'.input = d.input ∧ Rooted S d') hd ⟨rfl, hs⟩
    fun d₁ a _ hd₁ ha hmove hI =>
      ⟨hmove.input.trans hI.1, hmove.rooted hd₁ (hI.1 ▸ hP d₁ a ha) hI.2⟩).1.2

/-- A parameter that takes the place of an unknown and has its origins is an unknown like any
other. -/
theorem Move.rooted_redirect (h : Move (.redirect id target) d d') (hs : Rooted {target} d)
    (hid : d.input.Unknown id)
    (hprov : d.output.provenance? target = d.input.provenance? id) : Rooted ∅ d' := by
  cases h with
  | @redirect _ _ _ _ _ q hcont hremoved ht hfree hq hr =>
  rintro k ⟨n', hn', hunknown⟩ -
  rw [hr.node?] at hn'
  split_ifs at hn' with hgone
  obtain ⟨n, hn, rfl⟩ := Option.map_eq_some_iff.1 hn'
  rw [Node.isUnknown_withOperands] at hunknown
  by_cases hk : k = target
  · subst hk
    refine ⟨id, by rw [hr.mapping, if_pos rfl], hr.input ▸ hid, ?_⟩
    rw [hr.provenance?, if_neg hgone, if_pos rfl, hprov, hr.input, provenance?_of_cites hcont hq,
      Option.map_some]
    exact congrArg some (SortedSet.ext fun x => by simp [SortedSet.mem_union])
  · obtain ⟨i, hi, hin, hprov'⟩ := hs k ⟨n, hn, hunknown⟩ hk
    have hne : i ≠ id := fun h => hgone (h ▸ hi)
    refine ⟨i, by rw [hr.mapping, if_neg hne, hi], hr.input ▸ hin, ?_⟩
    rw [hr.provenance?, if_neg hgone, if_neg hk, hprov', hr.input]

/-- Only expressions are credited, so a parameter keeps its origins. -/
theorem Move.provenance?_of_parameter (h : Move a d d') (ha : a.Adds)
    (hj : d.output.node? j = some (.parameter p)) :
    d'.output.provenance? j = d.output.provenance? j := by
  have hcont := Generation.contains_of_node? hj
  cases h with
  | note hn => rw [hn.output]
  | copy _ _ _ _ henter _ =>
    exact (henter.provenance? j).trans (if_neg (henter.ne_of_contains hcont))
  | drop => rfl
  | create henter _ => exact (henter.provenance? j).trans (if_neg (henter.ne_of_contains hcont))
  | credit _ hout =>
    refine (Generation.provenance?_addProvenance j).trans (if_neg ?_)
    rintro rfl
    obtain ⟨e, he, -⟩ := hout _ hj
    cases he
  | place | replace | erase | redirect => exact ha.elim

theorem Moves.provenance?_of_parameter (h : Moves P d d') (hP : ∀ d a, P d a → a.Adds)
    (hj : d.output.node? j = some (.parameter p)) :
    d'.output.provenance? j = d.output.provenance? j := by
  induction h with
  | refl => rfl
  | @tail d₁ _ hmoves hmove ih =>
    obtain ⟨a, ha, hmove⟩ := hmove
    have hj₁ := (Moves.retains hmoves hP).node? j _ hj
    exact (hmove.provenance?_of_parameter (hP _ a ha) hj₁).trans ih

end ParameterSolver
