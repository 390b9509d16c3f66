import ParameterSolver.Proofs.Blueprint.Reachable
import ParameterSolver.Proofs.Pass.TotalLaws
import ParameterSolver.Proofs.Pass.Trees
import ParameterSolver.Proofs.ValueSet.Operations
import ParameterSolver.Scalar.Machine

/-! The laws of logic and evaluation. An operator of logic is evaluated to the truth values of all choices
from its operands. The tree for an exclusive disjunction chooses twice from each operand, which gives no
truth value that one choice does not give. -/

namespace ParameterSolver

namespace Truths

variable {s t : Truths} {b : Bool} {l : List Truths}

theorem mem_not_iff : b ∈ s.not ↔ (!b) ∈ s := by
  cases b <;> rfl

theorem mem_or_iff : b ∈ s.or t ↔ ∃ x ∈ s, ∃ y ∈ t, (x || y) = b := by
  obtain ⟨f, g⟩ := s
  obtain ⟨f', g'⟩ := t
  simp only [mem_def]
  revert b f g f' g'
  decide

theorem mem_image_iff {f : List Bool → Bool} :
    b ∈ image f l ↔ ∃ bs, List.Forall₂ (· ∈ ·) bs l ∧ f bs = b := by
  refine ⟨fun h => ?_, fun ⟨bs, hbs, hb⟩ => hb ▸ mem_image hbs⟩
  induction l generalizing f with
  | nil => exact ⟨[], .nil, (mem_of.1 h).symm⟩
  | cons s l ih =>
    have hpart : ∀ c, c ∈ s → b ∈ image (fun bs => f (c :: bs)) l →
        ∃ bs, List.Forall₂ (· ∈ ·) bs (s :: l) ∧ f bs = b := by
      intro c hc hb
      obtain ⟨bs, hbs, hf⟩ := ih hb
      exact ⟨c :: bs, .cons hc hbs, hf⟩
    rw [image, mem_union] at h
    rcases h with h | h <;> split at h
    · exact hpart false ‹_› h
    · cases b <;> cases h
    · exact hpart true ‹_› h
    · cases b <;> cases h

theorem mem_foldl_or :
    b ∈ l.foldl or t ↔ ∃ bs, List.Forall₂ (· ∈ ·) bs (t :: l) ∧ bs.any id = b := by
  induction l generalizing t with
  | nil =>
    constructor
    · exact fun h => ⟨[b], .cons h .nil, by simp⟩
    · rintro ⟨bs, hbs, rfl⟩
      obtain ⟨x, _, hx, hrest, rfl⟩ := List.forall₂_cons_right_iff.1 hbs
      cases hrest
      simpa using hx
  | cons s l ih =>
    rw [List.foldl_cons, ih]
    constructor
    · rintro ⟨bs, hbs, rfl⟩
      obtain ⟨_, zs, hz, hzs, rfl⟩ := List.forall₂_cons_right_iff.1 hbs
      obtain ⟨x, hx, y, hy, rfl⟩ := mem_or_iff.1 hz
      exact ⟨x :: y :: zs, .cons hx (.cons hy hzs), by simp [Bool.or_assoc]⟩
    · rintro ⟨bs, hbs, rfl⟩
      obtain ⟨x, _, hx, hrest, rfl⟩ := List.forall₂_cons_right_iff.1 hbs
      obtain ⟨y, zs, hy, hzs, rfl⟩ := List.forall₂_cons_right_iff.1 hrest
      exact ⟨(x || y) :: zs, .cons (mem_or hx hy) hzs, by simp [Bool.or_assoc]⟩

end Truths

namespace Operator

variable {op : Operator} {a a' : Set Bool} {l : List (Set Bool)} {b : Bool} {xs ys : List Bool}

/-- The values of an operator of logic on one element of each set. -/
def onTruths (op : Operator) (l : List (Set Bool)) : Set Bool :=
  {b | ∃ xs, List.Forall₂ (· ∈ ·) xs l ∧ op.logical? xs = some b}

theorem mem_onTruths_not : b ∈ onTruths .not [a] ↔ (!b) ∈ a := by
  constructor
  · rintro ⟨xs, hxs, hb⟩
    obtain ⟨x, _, hx, hrest, rfl⟩ := List.forall₂_cons_right_iff.1 hxs
    cases hrest
    obtain rfl : (!x) = b := by simpa [logical?] using hb
    rwa [Bool.not_not]
  · exact fun h => ⟨[!b], .cons h .nil, by simp [logical?]⟩

theorem mem_onTruths_or :
    b ∈ onTruths .or l ↔ ∃ xs, List.Forall₂ (· ∈ ·) xs l ∧ xs.any id = b := by
  simp [onTruths, logical?]

theorem mem_onTruths_or_pair :
    b ∈ onTruths .or [a, a'] ↔ ∃ x ∈ a, ∃ y ∈ a', (x || y) = b := by
  rw [mem_onTruths_or]
  constructor
  · rintro ⟨xs, hxs, rfl⟩
    obtain ⟨x, _, hx, hrest, rfl⟩ := List.forall₂_cons_right_iff.1 hxs
    obtain ⟨y, _, hy, hnil, rfl⟩ := List.forall₂_cons_right_iff.1 hrest
    cases hnil
    exact ⟨x, hx, y, hy, by simp⟩
  · rintro ⟨x, hx, y, hy, rfl⟩
    exact ⟨[x, y], .cons hx (.cons hy .nil), by simp⟩

theorem forall₂_negated : List.Forall₂ (· ∈ ·) ys (l.map fun a => onTruths .not [a]) ↔
    List.Forall₂ (· ∈ ·) (ys.map (!·)) l := by
  rw [List.forall₂_map_right_iff, List.forall₂_map_left_iff]
  exact ⟨fun h => h.imp fun _ _ => mem_onTruths_not.1, fun h => h.imp fun _ _ => mem_onTruths_not.2⟩

theorem any_negated : (xs.map (!·)).any id = !xs.all id := by
  induction xs with
  | nil => rfl
  | cons x xs ih => simp only [List.map_cons, List.any_cons, List.all_cons, Bool.not_and, ih, id]

theorem negated_negated : (xs.map (!·)).map (!·) = xs := by
  induction xs with
  | nil => rfl
  | cons x xs ih => simp only [List.map_cons, Bool.not_not, ih]

/-- One of the negated operands is true just if not all operands are. -/
theorem mem_anyFalse : b ∈ onTruths .or (l.map fun a => onTruths .not [a]) ↔
    ∃ xs, List.Forall₂ (· ∈ ·) xs l ∧ (!xs.all id) = b := by
  rw [mem_onTruths_or]
  constructor
  · rintro ⟨ys, hys, rfl⟩
    refine ⟨_, forall₂_negated.1 hys, ?_⟩
    rw [← any_negated, negated_negated]
  · rintro ⟨xs, hxs, rfl⟩
    exact ⟨xs.map (!·), forall₂_negated.2 (negated_negated.symm ▸ hxs), any_negated⟩

/-- If one choice holds a true element and another a false one, there is a choice that holds both. -/
theorem exists_mixed (hxs : List.Forall₂ (· ∈ ·) xs l) (hys : List.Forall₂ (· ∈ ·) ys l)
    (hlen : 2 ≤ l.length) (hx : xs.any id) (hy : ys.all id = false) :
    ∃ zs, List.Forall₂ (· ∈ ·) zs l ∧ zs.any id ∧ zs.all id = false := by
  by_cases hall : xs.all id
  · by_cases hany : ys.any id
    · exact ⟨ys, hys, hany, hy⟩
    -- the first choice is true throughout and the second false, so their parts can be joined
    obtain ⟨a, a', l, rfl⟩ : ∃ a a' l', l = a :: a' :: l' := by
      match l, hlen with
      | a :: a' :: l, _ => exact ⟨a, a', l, rfl⟩
    obtain ⟨x, _, hxa, -, rfl⟩ := List.forall₂_cons_right_iff.1 hxs
    obtain ⟨_, _, -, hrest, rfl⟩ := List.forall₂_cons_right_iff.1 hys
    obtain ⟨y, ys, hya, hys', rfl⟩ := List.forall₂_cons_right_iff.1 hrest
    refine ⟨x :: y :: ys, .cons hxa (.cons hya hys'), ?_, ?_⟩ <;> simp_all
  · exact ⟨xs, hxs, hx, by simpa using hall⟩

end Operator

namespace Interpretation

variable {α : Type}

/-- A node means the truth values that choices from the literals give it. -/
def truths : Interpretation α (Set Bool) :=
  ⟨fun s => {b | ∃ t, s = .boolean t ∧ b ∈ t}, Operator.onTruths⟩

variable {op : Operator} {l : List (Set Bool)} {b : Bool}

theorem encoded_and : (truths (α := α)).encoded .and l = Operator.onTruths .and l := by
  ext b
  change b ∈ Operator.onTruths .not [Operator.onTruths .or _] ↔ _
  rw [Operator.mem_onTruths_not, truths, Operator.mem_anyFalse]
  simp [Operator.onTruths, Operator.logical?]

theorem encoded_implies (hne : l ≠ []) :
    (truths (α := α)).encoded .implies l = Operator.onTruths .implies l := by
  obtain ⟨a, l, rfl⟩ := List.exists_cons_of_ne_nil hne
  ext b
  change b ∈ Operator.onTruths .or (Operator.onTruths .not [a] :: l) ↔ _
  rw [Operator.mem_onTruths_or]
  constructor
  · rintro ⟨xs, hxs, rfl⟩
    obtain ⟨x, xs, hx, hrest, rfl⟩ := List.forall₂_cons_right_iff.1 hxs
    exact ⟨(!x) :: xs, .cons (Operator.mem_onTruths_not.1 hx) hrest, by simp [Operator.logical?]⟩
  · rintro ⟨xs, hxs, hb⟩
    obtain ⟨x, xs, hx, hrest, rfl⟩ := List.forall₂_cons_right_iff.1 hxs
    refine ⟨(!x) :: xs, .cons (Operator.mem_onTruths_not.2 (by rwa [Bool.not_not])) hrest, ?_⟩
    simpa [Operator.logical?] using hb

/-- The tree of an exclusive disjunction chooses from the operands twice. -/
theorem mem_encoded_xor : b ∈ (truths (α := α)).encoded .xor l ↔
    ∃ xs ys, List.Forall₂ (· ∈ ·) xs l ∧ List.Forall₂ (· ∈ ·) ys l ∧
      (xs.any id && !ys.all id) = b := by
  change b ∈ Operator.onTruths .not [Operator.onTruths .or [Operator.onTruths .not [_],
    Operator.onTruths .not [_]]] ↔ _
  rw [Operator.mem_onTruths_not, Operator.mem_onTruths_or_pair]
  constructor
  · rintro ⟨x, hx, y, hy, hb⟩
    obtain ⟨xs, hxs, hany⟩ := Operator.mem_onTruths_or.1 (Operator.mem_onTruths_not.1 hx)
    obtain ⟨ys, hys, hall⟩ := Operator.mem_anyFalse.1 (Operator.mem_onTruths_not.1 hy)
    refine ⟨xs, ys, hxs, hys, ?_⟩
    rw [hany, hall, ← Bool.not_or, hb, Bool.not_not]
  · rintro ⟨xs, ys, hxs, hys, rfl⟩
    refine ⟨!xs.any id, ?_, ys.all id, ?_, by simp⟩
    · rw [Operator.mem_onTruths_not, Bool.not_not]
      exact Operator.mem_onTruths_or.2 ⟨xs, hxs, rfl⟩
    · exact Operator.mem_onTruths_not.2 (Operator.mem_anyFalse.2 ⟨ys, hys, rfl⟩)

/-- One choice gives all that two choices give. -/
theorem encoded_xor (hlen : 2 ≤ l.length) :
    (truths (α := α)).encoded .xor l = Operator.onTruths .xor l := by
  ext b
  rw [mem_encoded_xor]
  constructor
  · rintro ⟨xs, ys, hxs, hys, hb⟩
    suffices ∃ zs, List.Forall₂ (· ∈ ·) zs l ∧ (zs.any id && !zs.all id) = b by
      obtain ⟨zs, hzs, rfl⟩ := this
      exact ⟨zs, hzs, rfl⟩
    by_cases hx : xs.any id
    · by_cases hy : ys.all id
      · exact ⟨ys, hys, by simpa [hy] using hb⟩
      · obtain ⟨zs, hzs, hany, hall⟩ := Operator.exists_mixed hxs hys hlen hx (Bool.eq_false_iff.2 hy)
        refine ⟨zs, hzs, ?_⟩
        rw [← hb, hx, hany, hall, Bool.eq_false_iff.2 hy]
    · rw [Bool.eq_false_iff.2 hx, Bool.false_and] at hb
      exact ⟨xs, hxs, by rw [Bool.eq_false_iff.2 hx, Bool.false_and, hb]⟩
  · rintro ⟨xs, hxs, hb⟩
    exact ⟨xs, xs, hxs, hxs, Option.some.inj hb⟩

theorem encoded_logic (hop : op = .and ∨ op = .implies ∨ op = .xor)
    (h : op.arity.accepts l.length) : (truths (α := α)).encoded op l = op.onTruths l := by
  rcases hop with rfl | rfl | rfl
  · exact encoded_and
  · have hlen : 2 ≤ l.length := of_decide_eq_true h
    exact encoded_implies (List.ne_nil_of_length_pos (by omega))
  · exact encoded_xor (of_decide_eq_true h)

end Interpretation

namespace Propagation

variable {α : Type} [Scalar α] {op : Operator} {ts : List Truths} {exact : List Bool}

theorem mem_onTruths {b : Bool} : b ∈ op.onTruths (ts.map fun t => {b | b ∈ t}) ↔
    ∃ xs, List.Forall₂ (· ∈ ·) xs ts ∧ op.logical? xs = some b := by
  simp only [Operator.onTruths, List.forall₂_map_right_iff]
  rfl

theorem mem_image_eq_onTruths {f : List Bool → Bool}
    (hf : ∀ xs : List Bool, xs.length = ts.length → op.logical? xs = some (f xs)) :
    {b | b ∈ Truths.image f ts} = op.onTruths (ts.map fun t => {b | b ∈ t}) := by
  ext b
  rw [mem_onTruths]
  refine Truths.mem_image_iff.trans (exists_congr fun xs => and_congr_right fun hxs => ?_)
  rw [hf xs hxs.length_eq, Option.some.injEq]

omit [Scalar α] in
theorem exists_logic? (hop : op.has .logic) (h : op.arity.accepts ts.length) :
    ∃ t, logic? op (ts.map .boolean : List (ValueSet α)) = some t ∧
      {b | b ∈ t} = op.onTruths (ts.map fun t => {b | b ∈ t}) := by
  have hsets : (ts.map .boolean : List (ValueSet α)).mapM ValueSet.truths? = some ts := by
    rw [List.mapM_map]
    exact List.mapM_pure.trans (congrArg some (List.map_id ts))
  obtain ⟨s, rest, rfl⟩ : ∃ s rest, ts = s :: rest := by
    refine List.exists_cons_of_ne_nil ?_
    rintro rfl
    revert h hop
    cases op <;> decide
  unfold logic?
  rw [hsets]
  cases op
  case or =>
    refine ⟨_, rfl, Set.ext fun b => ?_⟩
    rw [mem_onTruths]
    exact Truths.mem_foldl_or.trans (by simp [Operator.logical?])
  case not =>
    obtain rfl : rest = [] := by simpa [Operator.arity, Arity.accepts] using h
    refine ⟨_, rfl, Set.ext fun b => ?_⟩
    exact Truths.mem_not_iff.trans (Operator.mem_onTruths_not (a := {b | b ∈ s})).symm
  case and => exact ⟨_, rfl, mem_image_eq_onTruths fun _ _ => rfl⟩
  case implies =>
    refine ⟨_, rfl, mem_image_eq_onTruths fun xs hxs => ?_⟩
    obtain ⟨x, xs, rfl⟩ := List.exists_cons_of_length_eq_add_one hxs
    rfl
  case xor => exact ⟨_, rfl, mem_image_eq_onTruths fun _ _ => rfl⟩
  all_goals cases hop

theorem onTruths_of_isEmpty (h : ∃ t ∈ ts, t.isEmpty) :
    op.onTruths (ts.map fun t => {b | b ∈ t}) = ∅ := by
  obtain ⟨t, ht, hempty⟩ := h
  obtain ⟨n, hn, rfl⟩ := List.mem_iff_getElem.1 ht
  refine Set.eq_empty_of_forall_notMem fun b hb => ?_
  obtain ⟨xs, hxs, -⟩ := mem_onTruths.1 hb
  exact Truths.isEmpty_iff.1 hempty _ (hxs.get (hxs.length_eq ▸ hn) hn)

/-- An operator of logic over truth values, none or some of which are possible, has those of all
choices. -/
theorem exists_evaluate?_logic (hop : op.has .logic) (h : op.arity.accepts ts.length)
    (exact : List Bool) :
    ∃ t : Truths,
      evaluate? op ((ts.map .boolean : List (ValueSet α)).map some) exact = some (.boolean t) ∧
        {b | b ∈ t} = op.onTruths (ts.map fun t => {b | b ∈ t}) := by
  have hpred : op.isPredicate := by
    revert hop
    cases op <;> decide
  have hall : ((ts.map .boolean : List (ValueSet α)).map some).filterMap id = ts.map .boolean := by simp
  unfold evaluate?
  rw [hall]
  cases hfind : (ts.map .boolean : List (ValueSet α)).find? ValueSet.isEmpty with
  | some s =>
    refine ⟨.none, by simp [hpred], ?_⟩
    obtain ⟨t, ht, rfl⟩ := List.mem_map.1 (List.mem_of_find?_eq_some hfind)
    have hempty : (.boolean t : ValueSet α).isEmpty := List.find?_some (p := ValueSet.isEmpty) hfind
    rw [onTruths_of_isEmpty ⟨t, ht, hempty⟩]
    exact Set.eq_empty_of_forall_notMem (Truths.isEmpty_iff.1 rfl)
  | none =>
    obtain ⟨t, ht, hmem⟩ := exists_logic? (α := α) hop h
    have hknown : ((ts.map .boolean : List (ValueSet α)).map some).mapM id = some (ts.map .boolean) := by
      rw [List.mapM_map]
      exact List.mapM_pure.trans (congrArg some (List.map_id _))
    refine ⟨t, ?_, hmem⟩
    simp only [hknown]
    simp [evaluateKnown?, hop, ht]

end Propagation

namespace Estimate

variable {α : Type} {r : Estimate α} {rs : List (Estimate α)} {a : Set Bool} {l : List (Set Bool)}
  {op : Operator}

/-- What is known of a node is that it takes just these truth values. -/
def Depicts (r : Estimate α) (a : Set Bool) : Prop :=
  ∃ t, r.value = some (.boolean t) ∧ {b | b ∈ t} = a

theorem exists_truths (h : List.Forall₂ Depicts rs l) : ∃ ts : List Truths,
    rs.map value = (ts.map .boolean : List (ValueSet α)).map some ∧ l = ts.map fun t => {b | b ∈ t} := by
  induction h with
  | nil => exact ⟨[], rfl, rfl⟩
  | cons hr _ ih =>
    obtain ⟨t, hv, rfl⟩ := hr
    obtain ⟨ts, hvs, rfl⟩ := ih
    exact ⟨t :: ts, by simp [hv, hvs], rfl⟩

theorem Depicts.combine [Scalar α] (hop : op.has .logic) (h : op.arity.accepts rs.length)
    (hrs : List.Forall₂ Depicts rs l) : (combine op rs).Depicts (op.onTruths l) := by
  obtain ⟨ts, hvs, rfl⟩ := exists_truths hrs
  rw [hrs.length_eq, List.length_map] at h
  obtain ⟨t, ht, hmem⟩ := Propagation.exists_evaluate?_logic (α := α) hop h (rs.map exact)
  refine ⟨t, ?_, hmem⟩
  rw [Estimate.combine, hvs]
  exact ht

theorem depicts_given {t : Truths} : (given (.boolean t : ValueSet α)).Depicts {b | b ∈ t} :=
  ⟨t, rfl, rfl⟩

theorem Depicts.eq {r' : Estimate α} (h : r.Depicts a) (h' : r'.Depicts a) (hexact : r.exact = r'.exact) :
    r = r' := by
  obtain ⟨t, ht, rfl⟩ := h
  obtain ⟨t', ht', hmem⟩ := h'
  obtain rfl : t' = t := Truths.eq_of_forall_mem (Set.ext_iff.1 hmem)
  obtain ⟨v, x⟩ := r
  obtain ⟨v', x'⟩ := r'
  cases ht
  cases ht'
  cases hexact
  rfl

variable [Scalar α]

/-- The tree of an operator of logic is evaluated like the operator. -/
theorem encoded_eq_combine (hop : op = .and ∨ op = .implies ∨ op = .xor)
    (h : op.arity.accepts rs.length) (hrs : List.Forall₂ Depicts rs l) :
    interpretation.encoded op rs = combine op rs := by
  have hlogic : op.has .logic ∧ op.encodes ∧ Propagation.keepsExactness op = false := by
    rcases hop with rfl | rfl | rfl <;> decide
  obtain ⟨hlogic, hencodes, hkeeps⟩ := hlogic
  have htree : (interpretation.encoded op rs).Depicts ((Interpretation.truths (α := α)).encoded op l) := by
    refine Interpretation.encoded_related (fun op' rs l _ hkind _ h hrs => ?_) hencodes h hrs
    exact Depicts.combine (hkind.trans hlogic) h hrs
  rw [Interpretation.encoded_logic hop (hrs.length_eq ▸ h)] at htree
  refine htree.eq (Depicts.combine hlogic h hrs) ?_
  have hmark : (combine op rs).exact = false := by rw [combine, hkeeps, Bool.false_and]
  rw [hmark]
  rcases hop with rfl | rfl | rfl
  · rfl
  · cases rs with
    | nil => cases h
    | cons r rs => rfl
  · rfl

end Estimate

namespace Pass

variable {α : Type} [Scalar α] {g : Generation α} {id : NodeId} {e : Expression} {ts : List Truths}

/-- An operator of logic over literals evaluates to the truth values of all choices from them, and so does
the tree that its law puts in its place. -/
theorem exists_evaluates_truths (hg : g.Sound) (hn : g.node? id = some (.expression e))
    (hop : e.op = .and ∨ e.op = .implies ∨ e.op = .xor)
    (hops : List.Forall₂ (fun o t => ∃ u, g.node? o = some (.literal (.boolean t) u)) e.operands ts)
    (deduplicate : Bool) (journal : Journal) :
    ∃ rev journal' j r,
      (operators : Pass α).apply deduplicate journal g = .ok (rev, journal') ∧
        (∀ i, ¬ rev.generation.Foreign i) ∧ rev.mapping.get? id = some j ∧
        g.Evaluates id r ∧ rev.generation.Evaluates j r ∧
        ∃ t : Truths, r.value = some (.boolean t) ∧
          ∀ b, b ∈ t ↔ ∃ bs, List.Forall₂ (· ∈ ·) bs ts ∧ e.op.logical? bs = some b := by
  have hlogic : e.op.has .logic ∧ e.op.encodes := by
    rcases hop with heq | heq | heq <;> rw [heq] <;> decide
  obtain ⟨hlogic, hencodes⟩ := hlogic
  let rs : List (Estimate α) := ts.map fun t => .given (.boolean t)
  have hsays : List.Forall₂ (g.Says Estimate.interpretation) e.operands rs := by
    rw [List.forall₂_map_right_iff]
    exact hops.imp fun o t ⟨u, ho⟩ => ⟨_, u, ho, rfl⟩
  have hmeans : List.Forall₂ (g.Means Estimate.interpretation) e.operands rs := by
    refine hsays.imp fun o r hr => ?_
    obtain ⟨s, u, ho, rfl⟩ := hr
    exact .literal ho
  have hrs : List.Forall₂ Estimate.Depicts rs (ts.map fun t => {b | b ∈ t}) := by
    rw [List.forall₂_map_left_iff, List.forall₂_map_right_iff, List.forall₂_same]
    exact fun _ _ => Estimate.depicts_given
  have harity : e.op.arity.accepts rs.length := hmeans.length_eq ▸ (hg.node hn).arity _ rfl
  obtain ⟨rev, journal', happly, -, hforeign, -⟩ := gives_operators hg deduplicate journal
  obtain ⟨j, hj, htree⟩ := exists_means hg hn hencodes hsays happly
  rw [Estimate.encoded_eq_combine hop harity hrs] at htree
  obtain ⟨t, ht, hmem⟩ := Estimate.Depicts.combine hlogic harity hrs
  exact ⟨rev, journal', j, _, happly, hforeign, hj, .of_forall₂ hn hmeans, htree, t, ht,
    fun b => (Set.ext_iff.1 hmem b).trans Propagation.mem_onTruths⟩

namespace Sample

/-- An exclusive disjunction of any truth value and of truth. -/
def exclusive : Blueprint Float :=
  let b := (Blueprint.empty.addLiteral (.boolean .all)).2
  let b := (b.addLiteral (.boolean (.of true))).2
  (b.addExpression .xor [.nth 0, .nth 1]).2

theorem exclusive_sound : exclusive.generation.Sound :=
  have hsane : exclusive.Sane :=
    Blueprint.sane_of_reachable (.expression (.literal (.literal .empty _) _) _ _)
  ⟨hsane.orderly (by decide +kernel), hsane.ascending.acyclic⟩

end Sample

/-- Both truth values are possible. -/
theorem exists_evaluates_truths_exclusive :
    ∃ rev journal' j r,
      (operators : Pass Float).apply true .empty Sample.exclusive.generation = .ok (rev, journal') ∧
        (∀ i, ¬ rev.generation.Foreign i) ∧ rev.mapping.get? (.nth 2) = some j ∧
        Sample.exclusive.generation.Evaluates (.nth 2) r ∧ rev.generation.Evaluates j r ∧
        r.value = some (.boolean .all) := by
  have hn : Sample.exclusive.generation.node? (.nth 2) =
      some (.expression ⟨.xor, [.nth 0, .nth 1], false⟩) := rfl
  have hops : List.Forall₂ (fun o t => ∃ u, Sample.exclusive.generation.node? o =
      some (.literal (.boolean t) u)) [.nth 0, .nth 1] [.all, .of true] :=
    .cons ⟨none, rfl⟩ (.cons ⟨none, rfl⟩ .nil)
  obtain ⟨rev, journal', j, r, happly, hforeign, hj, hdirect, htree, t, ht, hmem⟩ :=
    exists_evaluates_truths Sample.exclusive_sound hn (.inr (.inr rfl)) hops true .empty
  have hall : t = .all := Truths.eq_of_forall_mem fun b => by
    refine iff_of_true ((hmem b).2 ⟨[!b, true], ?_, by cases b <;> rfl⟩) (Truths.mem_all b)
    exact .cons (Truths.mem_all _) (.cons rfl .nil)
  exact ⟨rev, journal', j, r, happly, hforeign, hj, hdirect, htree, hall ▸ ht⟩

end Pass

end ParameterSolver
