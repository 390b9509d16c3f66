import ParameterSolver.Proofs.Blueprint.Reachable
import ParameterSolver.Proofs.Draft.Advances
import ParameterSolver.Proofs.Draft.Transcripts
import ParameterSolver.Proofs.Draft.WellFormed

/-! Copying and taking out nodes, in any order. A node that is copied before something it is made of
is taken out goes with the cascade in the output, and one that is copied later is left out; either way
exactly the nodes remain that are not made of anything taken out, and the output is a copy of the
input on them. -/

namespace ParameterSolver

variable {α : Type}

/-- Copying a node of the graph, or taking it out. -/
def Call.Trims (g : Generation α) : Call α → Prop
  | copy id | remove id => g.contains id
  | _ => False

/-- The nodes that some calls take out. -/
def Call.removals (calls : List (Call α)) : Set NodeId := { id | remove id ∈ calls }

namespace Generation

variable {g : Generation α} {i : NodeId}

theorem Cites.provenance? {q : Provenance} (h : g.Cites [i] q) (hi : g.contains i) :
    g.provenance? i = some q := by
  obtain ⟨p, hp⟩ := exists_provenance? hi
  rw [hp, Option.some_inj]
  ext x
  rw [h]
  simp [hp]

/-- The nodes that are not made of any node in `R`. -/
def survivors (g : Generation α) (R : Set NodeId) : Set NodeId :=
  { i | g.contains i ∧ ∀ r ∈ R, ¬ Relation.ReflTransGen g.Uses i r }

end Generation

namespace Draft

variable {g : Generation α} {R : Set NodeId} {d d' : Draft α} {a : Act α} {id : NodeId}

/-- The output is a copy of a part of `g`, and exactly what is made of nodes in `R` has been left out
so far. -/
structure Pruned (g : Generation α) (R : Set NodeId) (d : Draft α) : Prop where
  input : d.input = g
  transcribes : Transcribes g d
  provenance : ∀ i j, d.mapping.get? i = some j → d.output.provenance? j = g.provenance? i
  onto : ∀ j, d.output.contains j → ∃ i, d.mapping.get? i = some j
  struck : ∀ i, d.isRemoved i → ∃ r ∈ R, Relation.ReflTransGen g.Uses i r
  gone : ∀ r ∈ R, d.isRemoved r
  dirty : d.dirty ↔ R.Nonempty

theorem pruned_start (g : Generation α) (deduplicate : Bool) (journal : Journal) :
    Pruned g ∅ (start g deduplicate journal) := by
  refine ⟨rfl, fun i j hj => ?_, ?_, ?_, ?_, ?_, ?_⟩
  · simp [start] at hj
  all_goals simp [start, isRemoved, NodeMap.contains, Generation.contains, Generation.empty]

theorem Pruned.copy (h : Pruned g R d) (hm : Move (.copy id) d d') : Pruned g R d' := by
  have hret := hm.retains trivial
  cases hm with | @copy _ _ j n js q o' hn hremoved hmap hjs henter hq
  have hid := Generation.contains_of_node? hn
  have hnull := Generation.ne_null_of_contains hid
  refine ⟨h.input, h.transcribes.bind (h.input ▸ hn) hmap hjs henter, fun i k hk => ?_, fun k hk => ?_,
    h.struck, h.gone, h.dirty⟩
  · rcases get?_bound hnull hk with ⟨rfl, rfl⟩ | ⟨-, hk⟩
    · rw [← h.input, hq.provenance? hid, henter.provenance?, if_pos rfl]
    · rw [henter.provenance?, if_neg (henter.ne_of_contains (h.transcribes.contains hk).2),
        h.provenance i k hk]
  · obtain ⟨m, hm⟩ := Generation.contains_iff.1 hk
    by_cases hkj : k = j
    · exact ⟨id, by rw [hkj]; exact NodeMap.get?_insert_self hnull⟩
    · rw [henter.node?_of_ne hkj] at hm
      obtain ⟨i, hi⟩ := h.onto k (Generation.contains_of_node? hm)
      exact ⟨i, hret.mapping i k hi⟩

theorem Pruned.drop (h : Pruned g R d) (hm : Move (.drop id) d d') : Pruned g R d' := by
  cases hm with | @drop _ _ o journal hid hmap ho hremoved
  obtain ⟨r, hr, hpath⟩ := h.struck o hremoved
  have hnull := Generation.ne_null_of_contains hid
  refine ⟨h.input, h.transcribes, h.provenance, h.onto, fun i hi => ?_, fun r hr => ?_,
    iff_of_true rfl ⟨r, hr⟩⟩
  · rcases (NodeMap.contains_insert hnull).1 hi with hi | rfl
    · exact h.struck i hi
    · exact ⟨r, hr, .head (h.input ▸ ho) hpath⟩
  · exact (NodeMap.contains_insert hnull).2 (Or.inl (h.gone r hr))

/-- The copies of what uses a node that goes are the copies of what is made of it. -/
theorem Pruned.erase (h : Pruned g R d) (hd : d.Coherent) (hm : Move (.erase id) d d') :
    Pruned g (R ∪ {id}) d' := by
  cases hm with | @erase _ _ _ gone hid he
  have hgone : ∀ x ∈ gone, ∃ i, d.mapping.get? i = some x ∧ Relation.ReflTransGen g.Uses i id := by
    refine he.least { x | ∃ i, d.mapping.get? i = some x ∧ Relation.ReflTransGen g.Uses i id }
      (fun j hj => ⟨id, hj, .refl⟩) ?_
    rintro x ⟨i, hi, hpath⟩ u hu
    have hop := (hd.linked.users x u).1 hu
    obtain ⟨m, hm⟩ := Generation.node?_of_mem_operands hop
    obtain ⟨i', hi'⟩ := h.onto u (Generation.contains_of_node? hm)
    obtain ⟨o, ho, hox⟩ := h.transcribes.exists_operand hi' hop
    obtain rfl := hd.injective o i x hox hi
    exact ⟨i', hi', .head ho hpath⟩
  have hkept : ∀ {j k}, j ∉ gone → k ∈ d.output.operands j → k ∉ gone := by
    intro j k hj hk hkgone
    obtain ⟨m, hm⟩ := Generation.node?_of_mem_operands hk
    exact hj (he.output.closed k hkgone j ((hd.linked.users k j).2 hk) (Generation.contains_of_node? hm))
  refine ⟨he.input.trans h.input, fun i j hj => ?_, fun i j hj => ?_, fun j hj => ?_, fun i hi => ?_, ?_,
    iff_of_true he.dirty ⟨id, Or.inr rfl⟩⟩
  · obtain ⟨hj, hjgone⟩ := (he.mapping i j).1 hj
    obtain ⟨n, js, hn, hjs, hnode⟩ := h.transcribes i j hj
    refine ⟨n, js, hn, hjs.mono fun o k hk hok => (he.mapping o k).2 ⟨hok, ?_⟩, ?_⟩
    · exact hkept hjgone (by rwa [hjs.operands_eq hnode])
    · rw [he.output.node?, if_neg hjgone, hnode]
  · obtain ⟨hj, hjgone⟩ := (he.mapping i j).1 hj
    rw [he.provenance?, if_neg hjgone, h.provenance i j hj]
  · obtain ⟨hj, hjgone⟩ := he.output.contains_iff.1 hj
    obtain ⟨i, hi⟩ := h.onto j hj
    exact ⟨i, (he.mapping i j).2 ⟨hi, hjgone⟩⟩
  · rcases (he.removed i).1 hi with hi | rfl | ⟨j, hj, hi⟩
    · obtain ⟨r, hr, hpath⟩ := h.struck i hi
      exact ⟨r, Or.inl hr, hpath⟩
    · exact ⟨i, Or.inr rfl, .refl⟩
    · obtain ⟨i', hi', hpath⟩ := hgone j hj
      obtain rfl := hd.injective i i' j hi hi'
      exact ⟨id, Or.inr rfl, hpath⟩
  · rintro r (hr | rfl)
    · exact (he.removed r).2 (Or.inl (h.gone r hr))
    · exact (he.removed r).2 (Or.inr (Or.inl rfl))

/-- What is made of a node that is taken out has no output node. -/
theorem Pruned.not_reaches {i j r : NodeId} (h : Pruned g R d) (hd : d.Coherent)
    (hj : d.mapping.get? i = some j) (hr : r ∈ R) : ¬ Relation.ReflTransGen g.Uses i r := by
  intro hpath
  obtain ⟨k, hk⟩ := h.transcribes.exists_of_reaches hj hpath
  exact Bool.false_ne_true ((hd.kept r k hk).symm.trans (h.gone r hr))

theorem Pruned.copies_moves (h : Pruned g R d) (hd : d.Coherent)
    (hm : Moves (fun _ a => ∃ i, a = .copy i ∨ a = .drop i) d d') : Pruned g R d' := by
  refine (hm.invariant hd h ?_).1
  rintro d a d' - ⟨i, rfl | rfl⟩ hm h
  · exact h.copy hm
  · exact h.drop hm

/-- Once everything is copied or left out, exactly the survivors have copies. -/
theorem Pruned.exists_iff (h : Pruned g R d) (hd : d.Coherent) (hc : d.Closed) (i : NodeId) :
    (∃ j, d.mapping.get? i = some j) ↔ i ∈ g.survivors R := by
  constructor
  · rintro ⟨j, hj⟩
    exact ⟨(h.transcribes.contains hj).1, fun r hr => h.not_reaches hd hj hr⟩
  · rintro ⟨hi, hsafe⟩
    refine (hc i (by rwa [h.input])).resolve_right fun hremoved => ?_
    obtain ⟨r, hr, hpath⟩ := h.struck i hremoved
    exact hsafe r hr hpath

section Succeeds

variable {β γ : Type}

theorem succeeds_insert {n : Node α} {q : Provenance} (h : ∀ o ∈ n.operands, d.output.contains o) :
    Succeeds (Draft.insert n q) d := by
  obtain ⟨⟨j, o'⟩, hins⟩ : ∃ x, d.output.insert n q = .ok x := by
    unfold Generation.insert
    rw [Generation.missing?_of_contains h]
    exact ⟨_, rfl⟩
  exact ⟨j, _, runs_insert_of_ok hins⟩

theorem succeeds_insertCopy {n : Node α} {q : Provenance} (h : ∀ o ∈ n.operands, d.output.contains o) :
    Succeeds (insertCopy id n q) d :=
  (succeeds_insert h).bind fun _ _ _ => .modify_bind succeeds_pure

theorem succeeds_collect {f : β → Edit α (Option γ)} {l : List β} {I : Draft α → Prop}
    (hf : ∀ x ∈ l, ∀ d, I d → Succeeds (f x) d ∧ ∀ r d', Runs (f x) d r d' → I d') (hd : I d) :
    Succeeds (collect f l) d := by
  induction l generalizing d with
  | nil => exact succeeds_pure
  | cons x l ih =>
    refine (hf x (by simp) d hd).1.bind fun y d₁ hy => ?_
    cases y with
    | none => exact succeeds_pure
    | some y =>
      have hd₁ := (hf x (by simp) d hd).2 _ _ hy
      exact (ih (fun z hz => hf z (.tail _ hz)) hd₁).bind fun _ _ _ => succeeds_pure

end Succeeds

section Copying

variable [Scalar α]

/-- In a graph without circles, whose operands are all there, every node can be copied: the fuel
exceeds its height. -/
theorem succeeds_copyWith (hg : g.Acyclic) (hclosed : ∀ i, ∀ o ∈ g.operands i, g.contains o)
    {height : NodeId → ℕ} (hh : g.Heights height) {fuel : ℕ} (hd : d.Coherent) (hin : d.input = g)
    (hid : g.contains id) (hfuel : height id < fuel) : Succeeds (copyWith fuel id) d := by
  induction fuel generalizing id d with
  | zero => omega
  | succ fuel ih =>
    refine .get_bind ?_
    split_ifs
    · exact succeeds_pure
    split
    · exact succeeds_pure
    split
    · rename_i hnone
      rw [hin] at hnone
      rw [Generation.contains, NodeMap.contains, ← Generation.get?, hnone] at hid
      cases hid
    rename_i entry hentry
    have hn : d.input.node? id = some entry.node := by rw [Generation.node?, hentry]; rfl
    split
    · rename_i e he
      have hops : g.operands id = e.operands := by
        rw [← hin, Generation.operands_of_node? hn, he]
        rfl
      have hcopy : ∀ o ∈ e.operands, ∀ d : Draft α, d.Coherent ∧ d.input = g →
          Succeeds (copyWith fuel o) d ∧ ∀ r d', Runs (copyWith fuel o) d r d' → d'.Coherent ∧ d'.input = g := by
        rintro o ho d ⟨hd, hin⟩
        have ho' : o ∈ g.operands id := hops ▸ ho
        refine ⟨ih hd hin (hclosed id o ho') ?_, fun r d' hr => ?_⟩
        · have := hh.operand id o ho'
          omega
        · have hmoves := (moves_copyWith hg hd hin hr).1
          exact ⟨hmoves.coherent hd, hmoves.input.trans hin⟩
      refine (succeeds_collect hcopy ⟨hd, hin⟩).bind fun r d₁ hr => ?_
      cases r with
      | none => exact .get_bind (.modify_bind (.modify_bind (.modify_bind succeeds_pure)))
      | some js =>
        refine succeeds_insertCopy fun j hj => ?_
        obtain ⟨hmoves, hsome, -⟩ := moves_collect (P := fun _ a => a.Adds)
          (R := fun o d j => d.mapping.get? o = some j) (N := fun _ _ => True)
          (fun _ _ ha => ha) (fun o _ _ j h hj => h.mapping o j hj)
          (fun o _ d r d' hd hin hr => by
            obtain ⟨hm, hsome, -⟩ := moves_copyWith hg hd hin hr
            exact ⟨hm.mono fun _ _ ha => ha.adds, hsome, fun _ => trivial⟩) hd hin hr
        obtain ⟨o, -, ho⟩ := Images.exists_source (hsome js rfl) hj
        exact ((hmoves.coherent hd).mapped o j ho).2
    · rename_i hleaf
      refine succeeds_insertCopy fun j hj => ?_
      cases hnode : entry.node with
      | expression e => exact absurd hnode (hleaf e)
      | _ =>
        rw [hnode] at hj
        cases hj

theorem succeeds_copy (hg : g.Acyclic) (hv : g.validate = .ok ()) (hd : d.Coherent)
    (hin : d.input = g) (hid : g.contains id) : Succeeds (copy id) d := by
  obtain ⟨height, hh⟩ := hg.exists_heights
  refine .get_bind (succeeds_copyWith hg (fun i o => Generation.closed_of_validate hv) hh hd hin hid ?_)
  rw [hin]
  exact Nat.lt_succ_of_le (hh.le_size id)

theorem succeeds_close (hg : g.Acyclic) (hv : g.validate = .ok ()) (hd : d.Coherent)
    (hin : d.input = g) : Succeeds close d := by
  refine .get_bind (.bind ?_ fun _ _ _ => .get_bind succeeds_pure)
  obtain ⟨d', hr, -⟩ := exists_runs_forM (d := d) (P := fun _ d => d.Coherent ∧ d.input = g)
    (f := fun id => discard (copy id)) (l := d.input.order) (fun done id rest hl d₁ hd₁ => by
      have hid : g.contains id := by
        rw [← hin]
        exact NodeMap.mem_keys.1 (hl ▸ by simp : id ∈ d.input.order)
      obtain ⟨r, d₂, hr⟩ := succeeds_copy hg hv hd₁.1 hd₁.2 hid
      have hmoves := (moves_copy hg hd₁.1 hd₁.2 hr).1
      exact ⟨d₂, runs_discard.2 ⟨r, hr⟩, hmoves.coherent hd₁.1, hmoves.input.trans hd₁.2⟩) ⟨hd, hin⟩
  exact ⟨_, d', hr⟩

theorem after_eq {c : Call α} (h : Runs c.act d () d') : d.after c = d' := by
  unfold after
  rw [h]

theorem Pruned.afterAll (hg : g.Acyclic) (hv : g.validate = .ok ()) {calls : List (Call α)}
    (hcalls : ∀ c ∈ calls, c.Trims g) (h : Pruned g R d) (hd : d.Coherent) :
    Pruned g (R ∪ Call.removals calls) (d.afterAll calls) ∧ (d.afterAll calls).Coherent := by
  induction calls generalizing R d with
  | nil =>
    have hset : R ∪ Call.removals ([] : List (Call α)) = R := by simp [Call.removals]
    rw [hset]
    exact ⟨h, hd⟩
  | cons c calls ih =>
    obtain ⟨hc, hrest⟩ := List.forall_mem_cons.1 hcalls
    cases c with
    | copy id =>
      obtain ⟨r, d₁, hr⟩ := succeeds_copy hg hv hd h.input hc
      have hmoves := (moves_copy hg hd h.input hr).1
      have hset : Call.removals (.copy id :: calls) = Call.removals calls := by
        simp [Call.removals]
      have hafter : d.after (.copy id) = d₁ := after_eq (runs_discard.2 ⟨r, hr⟩)
      rw [hset, Draft.afterAll, List.foldl_cons, hafter]
      exact ih hrest (h.copies_moves hd (hmoves.mono fun _ _ ha => ha.copies)) (hmoves.coherent hd)
    | remove id =>
      have hmove : Move (.erase id) d (d.after (.remove id)) :=
        move_remove hd (by rwa [h.input]) (rfl : Runs (remove id) d ⟨⟩ _)
      have hset : R ∪ Call.removals (.remove id :: calls) = R ∪ {id} ∪ Call.removals calls := by
        ext i
        simp [Call.removals, or_assoc, or_left_comm]
      rw [hset, Draft.afterAll, List.foldl_cons]
      exact ih hrest (h.erase hd hmove) (hd.move hmove)
    | _ => exact hc.elim

/-- Closing copies what is left. -/
theorem Pruned.exists_close (hg : g.Acyclic) (hv : g.validate = .ok ()) (h : Pruned g R d)
    (hd : d.Coherent) : ∃ rev d', Runs close d rev d' ∧
      (∀ i, (∃ j, rev.mapping.get? i = some j) ↔ i ∈ g.survivors R) ∧
      g.Copies (g.survivors R) (image rev.mapping) rev.generation ∧ (rev.dirty ↔ R.Nonempty) := by
  obtain ⟨rev, d', hr⟩ := succeeds_close hg hv hd h.input
  obtain ⟨hmoves, hclosed, rfl⟩ := moves_close hg hd h.input hr
  have hd' := hmoves.coherent hd
  have h' := h.copies_moves hd hmoves
  have hiff := h'.exists_iff hd' hclosed
  exact ⟨_, d', hr, hiff, h'.transcribes.copies hiff hd'.injective h'.onto h'.provenance, h'.dirty⟩

/-- On a valid graph without circles, after any copies and removals, closing succeeds. The nodes that
have output nodes are those that are not made of anything taken out, the output is a copy of the input
on them, and the draft is dirty if anything was taken out. So the output of other calls that take out
the same nodes is a copy of it. -/
theorem exists_copies_of_close (hg : g.Acyclic) (hv : g.validate = .ok ()) {calls : List (Call α)}
    (hcalls : ∀ c ∈ calls, c.Trims g) (deduplicate : Bool) (journal : Journal) :
    ∃ rev d', Runs close ((start g deduplicate journal).afterAll calls) rev d' ∧
      (∀ i, (∃ j, rev.mapping.get? i = some j) ↔ i ∈ g.survivors (Call.removals calls)) ∧
      g.Copies (g.survivors (Call.removals calls)) (image rev.mapping) rev.generation ∧
      (rev.dirty ↔ (Call.removals calls).Nonempty) ∧
      ∀ calls' : List (Call α), (∀ c ∈ calls', c.Trims g) →
        Call.removals calls' = Call.removals calls → ∀ deduplicate' journal' rev' d'',
          Runs close ((start g deduplicate' journal').afterAll calls') rev' d'' →
            ∃ f, rev.generation.Copies { j | rev.generation.contains j } f rev'.generation := by
  have hclose : ∀ calls : List (Call α), (∀ c ∈ calls, c.Trims g) → ∀ deduplicate journal,
      ∃ rev d', Runs close ((start g deduplicate journal).afterAll calls) rev d' ∧
        (∀ i, (∃ j, rev.mapping.get? i = some j) ↔ i ∈ g.survivors (Call.removals calls)) ∧
        g.Copies (g.survivors (Call.removals calls)) (image rev.mapping) rev.generation ∧
        (rev.dirty ↔ (Call.removals calls).Nonempty) := by
    intro calls hcalls deduplicate journal
    obtain ⟨h, hd⟩ := (pruned_start g deduplicate journal).afterAll hg hv hcalls
      (coherent_start g deduplicate journal)
    rw [Set.empty_union] at h
    exact h.exists_close hg hv hd
  obtain ⟨rev, d', hr, hmapped, hcopies, hdirty⟩ := hclose calls hcalls deduplicate journal
  refine ⟨rev, d', hr, hmapped, hcopies, hdirty, ?_⟩
  intro calls' hcalls' hremovals deduplicate' journal' rev' d'' hr'
  obtain ⟨rev₁, d₁, hr₁, -, hcopies', -⟩ := hclose calls' hcalls' deduplicate' journal'
  obtain ⟨rfl, -⟩ := hr'.unique hr₁
  exact hcopies.exists_copies (hremovals ▸ hcopies')

end Copying

end Draft

namespace Sample

theorem sum_acyclic : sum.generation.Acyclic :=
  (Blueprint.sane_of_reachable
    (.assertion (.expression (.parameter (.parameter .empty _) _) _ _) _ _)).ascending.acyclic

theorem trims_sum : ∀ c ∈ ([.copy (.nth 3), .remove (.nth 1)] : List (Call Float)),
    c.Trims sum.generation := by
  intro c hc
  rcases List.mem_pair.1 hc with rfl | rfl <;> rfl

end Sample

/-- Taking out a number before or after the assertion about its sum is copied comes to the same. -/
theorem Draft.exists_copies_of_close_sum : ∃ rev d' rev' d'' f,
    Runs close ((start Sample.sum.generation false .empty).afterAll
      [.copy (.nth 3), .remove (.nth 1)]) rev d' ∧
    Runs close ((start Sample.sum.generation true .empty).afterAll
      [.remove (.nth 1), .copy (.nth 3)]) rev' d'' ∧
    rev.dirty ∧ rev.generation.Copies { j | rev.generation.contains j } f rev'.generation := by
  have hswap : ∀ c ∈ ([.remove (.nth 1), .copy (.nth 3)] : List (Call Float)),
      c.Trims Sample.sum.generation := fun c hc =>
    Sample.trims_sum c (List.mem_pair.2 (List.mem_pair.1 hc).symm)
  have hremovals : Call.removals ([.remove (.nth 1), .copy (.nth 3)] : List (Call Float)) =
      Call.removals ([.copy (.nth 3), .remove (.nth 1)] : List (Call Float)) := by
    ext i
    simp [Call.removals]
  obtain ⟨rev, d', hr, -, -, hdirty, hsame⟩ := exists_copies_of_close Sample.sum_acyclic
    Sample.sum_validate Sample.trims_sum false .empty
  obtain ⟨rev', d'', hr', -⟩ := exists_copies_of_close Sample.sum_acyclic
    Sample.sum_validate hswap true .empty
  obtain ⟨f, hf⟩ := hsame _ hswap hremovals true .empty rev' d'' hr'
  exact ⟨rev, d', rev', d'', f, hr, hr', hdirty.2 ⟨.nth 1, by simp [Call.removals]⟩, hf⟩

end ParameterSolver
