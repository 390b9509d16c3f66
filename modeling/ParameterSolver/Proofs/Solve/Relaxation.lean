import ParameterSolver.Proofs.Solve.Equivalence

/-! Strict comparisons are taken loosely on the way to the canonical form. A solution is kept where
every assertion can only gain from that: a comparison may stand below any even number of negations, and
never where both its truth values matter. -/

namespace ParameterSolver

open Exact ParameterSolver.Valuation

/-- Taking strict comparisons loosely can only make the node true, or only make it false. -/
inductive Generation.Leans (g : Generation Exact) : Bool → NodeId → Prop
  | leaf {up : Bool} {id : NodeId} {n : Node Exact} (h : g.node? id = some n)
    (hn : ∀ e, n ≠ .expression e) : Leans g up id
  | strict {id : NodeId} {e : Expression} (h : g.node? id = some (.expression e))
    (hop : e.op = .greaterThan ∨ e.op = .lessThan) : Leans g true id
  | negation {up : Bool} {id a : NodeId} {asserted : Bool}
    (h : g.node? id = some (.expression ⟨.not, [a], asserted⟩)) (ha : Leans g (!up) a) :
    Leans g up id
  | junction {up : Bool} {id : NodeId} {e : Expression} (h : g.node? id = some (.expression e))
    (hop : e.op = .or ∨ e.op = .and) (ho : ∀ o ∈ e.operands, Leans g up o) : Leans g up id
  | implication {up : Bool} {id first : NodeId} {rest : List NodeId} {asserted : Bool}
    (h : g.node? id = some (.expression ⟨.implies, first :: rest, asserted⟩))
    (hf : Leans g (!up) first) (hr : ∀ o ∈ rest, Leans g up o) : Leans g up id
  | steady {up : Bool} {id : NodeId} {e : Expression} (h : g.node? id = some (.expression e))
    (hop : e.op.relaxed = e.op) (ho : ∀ o ∈ e.operands, ∀ up, Leans g up o) : Leans g up id

/-- The truth of the first gives that of the second, or the other way round. -/
def Implied (up b c : Bool) : Prop := if up then b = true → c = true else c = true → b = true

theorem Implied.refl (up b : Bool) : Implied up b b := by
  cases up <;> exact fun h => h

theorem implied_not {up b c : Bool} : Implied (!up) b c ↔ Implied up (!b) (!c) := by
  cases up <;> cases b <;> cases c <;> simp [Implied]

theorem Implied.or {up b c b' c' : Bool} (h : Implied up b c) (h' : Implied up b' c') :
    Implied up (b || b') (c || c') := by
  cases up <;> simp only [Implied, Bool.false_eq_true, if_false, if_true, Bool.or_eq_true] at * <;>
    exact Or.imp h h'

theorem Implied.and {up b c b' c' : Bool} (h : Implied up b c) (h' : Implied up b' c') :
    Implied up (b && b') (c && c') := by
  cases up <;> simp only [Implied, Bool.false_eq_true, if_false, if_true, Bool.and_eq_true] at * <;>
    exact And.imp h h'

theorem Implied.any {up : Bool} {bs cs : List Bool} (h : List.Forall₂ (Implied up) bs cs) :
    Implied up (bs.any id) (cs.any id) := by
  induction h with
  | nil => exact .refl up _
  | cons h _ ih =>
    rw [List.any_cons, List.any_cons]
    exact h.or ih

theorem Implied.all {up : Bool} {bs cs : List Bool} (h : List.Forall₂ (Implied up) bs cs) :
    Implied up (bs.all id) (cs.all id) := by
  induction h with
  | nil => exact .refl up _
  | cons h _ ih =>
    rw [List.all_cons, List.all_cons]
    exact h.and ih

namespace Value

variable {x y : Value ℚ} {up : Bool}

/-- Values that differ at most in truth. -/
def Kin (x y : Value ℚ) : Prop := y = x ∨ ∃ b c, x = .boolean b ∧ y = .boolean c

def Leans (up : Bool) (x y : Value ℚ) : Prop :=
  ∀ b c, x = .boolean b → y = .boolean c → Implied up b c

theorem Leans.refl (up : Bool) (x : Value ℚ) : Leans up x x := by
  rintro b c rfl ⟨⟩
  exact .refl up b

theorem Kin.number (h : Kin x y) {q : ℚ} (hx : x = .number q) : y = .number q := by
  rcases h with rfl | ⟨b, c, rfl, -⟩
  · exact hx
  · cases hx

theorem Kin.boolean (h : Kin x y) {b : Bool} (hx : x = .boolean b) : ∃ c, y = .boolean c := by
  rcases h with rfl | ⟨b, c, -, rfl⟩
  · exact ⟨b, hx⟩
  · exact ⟨c, rfl⟩

theorem Kin.eq_of_leans (h : Kin x y) (hl : ∀ up, Leans up x y) : y = x := by
  rcases h with rfl | ⟨b, c, rfl, rfl⟩
  · rfl
  · have hup := hl true b c rfl rfl
    have hdown := hl false b c rfl rfl
    rw [Bool.eq_iff_iff.2 ⟨hdown, hup⟩]

theorem Kin.eq_true (h : Kin x y) (hl : Leans true x y) (hx : x = .boolean true) :
    y = .boolean true := by
  obtain ⟨c, rfl⟩ := h.boolean hx
  rw [hl true c hx rfl rfl]

theorem exists_says (p : Prop) : ∃ y : Value ℚ, y.Says p := by
  classical
  exact ⟨.boolean (decide p), decide p, rfl, decide_eq_true_iff⟩

theorem Says.kin {p p' : Prop} (h : x.Says p) (h' : y.Says p') : Kin x y := by
  obtain ⟨b, rfl, -⟩ := h
  obtain ⟨c, rfl, -⟩ := h'
  exact Or.inr ⟨b, c, rfl, rfl⟩

theorem Says.leans {p p' : Prop} (h : x.Says p) (h' : y.Says p') (hp : p → p') :
    Leans true x y := by
  obtain ⟨b, rfl, hb⟩ := h
  obtain ⟨c, rfl, hc⟩ := h'
  rintro _ _ ⟨⟩ ⟨⟩ htrue
  exact hc.2 (hp (hb.1 htrue))

end Value

namespace Operator

variable {op : Operator} {l : List NodeId} {r r' : NodeId → Reading} {x : Value ℚ}

/-- Whether an operator has a truth value depends only on how many it is given. -/
theorem exists_logical? {bs cs : List Bool} {b : Bool} (h : op.logical? bs = some b)
    (hlength : cs.length = bs.length) : ∃ c, op.logical? cs = some c := by
  cases op <;> simp only [logical?, reduceCtorEq, Option.some.injEq, exists_eq'] at h ⊢
  case not =>
    obtain _ | ⟨_, _ | _⟩ := bs <;> simp only [reduceCtorEq] at h
    obtain ⟨c, rfl⟩ := List.length_eq_one_iff.1 hlength
    exact ⟨!c, rfl⟩
  case implies =>
    obtain _ | ⟨_, bs⟩ := bs
    · cases h
    obtain ⟨c, cs, rfl⟩ := List.exists_cons_of_length_eq_add_one hlength
    exact ⟨!c || cs.any id, rfl⟩

theorem map_value_eq {qs : List ℚ} (h : (l.map r).map (·.value) = qs.map .number)
    (hkin : ∀ o ∈ l, (r o).value.Kin (r' o).value) :
    (l.map r').map (·.value) = (l.map r).map (·.value) := by
  simp only [List.map_map] at h ⊢
  refine List.map_congr_left fun o ho => ?_
  have hmem : (r o).value ∈ qs.map Value.number := h ▸ List.mem_map_of_mem ho
  obtain ⟨q, -, hq⟩ := List.mem_map.1 hmem
  exact ((hkin o ho).number hq.symm).trans hq

theorem exists_map_boolean {bs : List Bool} (h : (l.map r).map (·.value) = bs.map .boolean)
    (hkin : ∀ o ∈ l, (r o).value.Kin (r' o).value) :
    ∃ cs : List Bool, (l.map r').map (·.value) = cs.map .boolean ∧ cs.length = bs.length := by
  induction l generalizing bs with
  | nil =>
    obtain rfl := List.map_eq_nil_iff.1 h.symm
    exact ⟨[], rfl, rfl⟩
  | cons o l ih =>
    obtain ⟨b, bs, rfl, hb, hbs⟩ := List.map_eq_cons_iff.1 h.symm
    obtain ⟨cs, hcs, hlength⟩ := ih hbs.symm fun o ho => hkin o (List.mem_cons_of_mem _ ho)
    obtain ⟨c, hc⟩ := (hkin o List.mem_cons_self).boolean hb.symm
    refine ⟨c :: cs, ?_, by simp [hlength]⟩
    rw [List.map_cons, List.map_cons, hcs, hc, List.map_cons]

theorem spread_eq {a a' : Reading} (ha : a.spread = {a.value}) (ha' : a'.spread = {a'.value})
    (hkin : a.value.Kin a'.value) (h : ∀ y ∈ a.spread, ∃ q, y = .number q) :
    a'.spread = a.spread := by
  obtain ⟨q, hq⟩ := h a.value (by rw [ha]; rfl)
  rw [ha, ha', hkin.number hq, hq]

/-- With operands that differ in truth, the operator still has a value, one that differs in
truth. -/
theorem exists_relaxed (hd : op.Denotes (l.map r) x) (hop : op ∈ meant ∧ op ≠ .union)
    (hkin : ∀ o ∈ l, (r o).value.Kin (r' o).value)
    (hs : ∀ o ∈ l, (r o).spread = {(r o).value} ∧ (r' o).spread = {(r' o).value}) :
    ∃ y, op.relaxed.Denotes (l.map r') y ∧ x.Kin y := by
  by_cases hr : op.has .relation
  · obtain ⟨ra, rb, hl⟩ := hd.relation hr
    obtain ⟨a, la, rfl, rfl, hla⟩ := List.map_eq_cons_iff.1 hl
    obtain ⟨b, lb, rfl, rfl, hlb⟩ := List.map_eq_cons_iff.1 hla
    obtain rfl := List.map_eq_nil_iff.1 hlb
    have hspread : ∀ o ∈ [a, b], (∀ y ∈ (r o).spread, ∃ q, y = .number q) →
        (r' o).spread = (r o).spread := fun o ho => spread_eq (hs o ho).1 (hs o ho).2 (hkin o ho)
    cases op <;> simp [has, having, relational] at hr
    case is | isSubset | isSuperset =>
      obtain ⟨y, hy⟩ := Value.exists_says _
      exact ⟨y, hy, Value.Says.kin hd hy⟩
    all_goals
      obtain ⟨ha, hb, hx⟩ := hd
      obtain ⟨y, hy⟩ := Value.exists_says _
      refine ⟨y, ⟨?_, ?_, hy⟩, Value.Says.kin hx hy⟩
      · rwa [hspread a (by simp) ha]
      · rwa [hspread b (by simp) hb]
  · have hrelaxed : op.relaxed = op := by
      revert hr
      cases op <;> decide
    obtain harith | hlogic : op.has .arithmetic ∨ op.has .logic := by
      revert hop hr
      cases op <;> decide
    · obtain ⟨qs, q, hqs, -⟩ := hd.arithmetic harith
      refine ⟨x, ?_, Or.inl rfl⟩
      rw [hrelaxed, denotes_iff_combines (Or.inl harith), map_value_eq hqs hkin]
      exact (denotes_iff_combines (Or.inl harith)).1 hd
    · obtain ⟨bs, b, hbs, hb, rfl⟩ := hd.logic hlogic
      obtain ⟨cs, hcs, hlength⟩ := exists_map_boolean hbs hkin
      obtain ⟨c, hc⟩ := exists_logical? hb hlength
      refine ⟨.boolean c, ?_, Or.inr ⟨b, c, rfl, rfl⟩⟩
      rw [hrelaxed, denotes_iff_combines (Or.inr hlogic)]
      exact Or.inr ⟨cs, c, hcs, hc, rfl⟩

end Operator

namespace Valuation

variable {g : Generation Exact} {v u : Valuation} {id o : NodeId}

theorem listed_of_not_isUnion (h : ¬ g.isUnion o) :
    listed g v o = ⟨v o, (g.givenSet? o).getD {v o}, {v o}⟩ := by
  have hspread : spread g v o = {v o} := by
    ext y
    simp [spread, members_of_not_isUnion h]
  rw [listed, hspread]

/-- The node has the value of its operator with strict comparisons taken loosely, or the value it
had. -/
def Slack (g : Generation Exact) (v u : Valuation) (id : NodeId) : Prop :=
  ∀ n, g.node? id = some n → (v id).Kin (u id) ∧
    match n with
    | .expression e => e.op.relaxed.Denotes (e.operands.map (listed g u)) (u id)
    | _ => u id = v id

theorem listed_congr_of_not_isUnion (h : ¬ g.isUnion o) (huv : u o = v o) :
    listed g u o = listed g v o := by
  rw [listed_of_not_isUnion h, listed_of_not_isUnion h, huv]

theorem map_value_listed (l : List NodeId) : (l.map (listed g v)).map (·.value) = l.map v := by
  simp [listed, Function.comp_def]

/-- Truth values of the same nodes lean as the nodes do. -/
theorem forall₂_implied {l : List NodeId} {up : Bool} {bs cs : List Bool}
    (hl : ∀ o ∈ l, (v o).Leans up (u o)) (hbs : l.map v = bs.map .boolean)
    (hcs : l.map u = cs.map .boolean) : List.Forall₂ (Implied up) bs cs := by
  induction l generalizing bs cs with
  | nil =>
    obtain rfl := List.map_eq_nil_iff.1 hbs.symm
    obtain rfl := List.map_eq_nil_iff.1 hcs.symm
    exact .nil
  | cons o l ih =>
    obtain ⟨b, bs, rfl, hb, hbs⟩ := List.map_eq_cons_iff.1 hbs.symm
    obtain ⟨c, cs, rfl, hc, hcs⟩ := List.map_eq_cons_iff.1 hcs.symm
    refine .cons (hl o List.mem_cons_self b c hb.symm hc.symm) ?_
    exact ih (fun o ho => hl o (List.mem_cons_of_mem _ ho)) hbs.symm hcs.symm

variable (hu : ∀ o, ¬ g.isUnion o)

include hu

theorem Slack.congr {u' : Valuation} (h : Slack g v u id) (hid : u' id = u id)
    (ho : ∀ o ∈ g.operands id, u' o = u o) : Slack g v u' id := by
  intro n hn
  obtain ⟨hkin, hval⟩ := h n hn
  rw [hid]
  refine ⟨hkin, ?_⟩
  cases n with
  | expression e =>
    have hread : e.operands.map (listed g u') = e.operands.map (listed g u) :=
      List.map_congr_left fun o hmem => listed_congr_of_not_isUnion (hu o)
        (ho o (by rwa [Generation.operands_of_node? hn]))
    dsimp only
    rwa [hread]
  | _ => exact hval

/-- One more value: that of a node whose operands have theirs. -/
theorem exists_value (hg : g.Linked) (hv : FitsListed g v)
    (hops : ∀ id e, g.node? id = some (.expression e) → e.op ∈ Operator.meant ∧ e.op ≠ .union)
    (h : ∀ o ∈ g.operands id, Slack g v u o) (hid : id ∉ g.operands id) :
    ∃ x, Slack g v (Function.update u id x) id := by
  cases hn : g.node? id with
  | none => exact ⟨v id, fun n hn' => by rw [hn] at hn'; cases hn'⟩
  | some n =>
    cases n with
    | expression e =>
      have hoperands := Generation.operands_of_node? hn
      obtain ⟨y, hy, hkin⟩ : ∃ y, e.op.relaxed.Denotes (e.operands.map (listed g u)) y ∧
          (v id).Kin y := by
        refine Operator.exists_relaxed (hv id _ hn) (hops id e hn) (fun o ho => ?_) fun o ho => ?_
        · obtain ⟨m, hm⟩ := Generation.contains_iff.1 (hg.contains hn ho)
          exact (h o (by rwa [hoperands]) m hm).1
        · exact ⟨by rw [listed_of_not_isUnion (hu o)], by rw [listed_of_not_isUnion (hu o)]⟩
      refine ⟨y, fun n hn' => ?_⟩
      obtain rfl : Node.expression e = n := Option.some.inj (hn.symm.trans hn')
      have hread : e.operands.map (listed g (Function.update u id y)) = e.operands.map (listed g u) :=
        List.map_congr_left fun o ho => by
          have hne : o ≠ id := fun heq => hid (by rwa [hoperands, ← heq])
          exact listed_congr_of_not_isUnion (hu o) (Function.update_of_ne hne y u)
      dsimp only
      rw [Function.update_self, hread]
      exact ⟨hkin, hy⟩
    | _ =>
      refine ⟨v id, fun n hn' => ?_⟩
      rw [hn] at hn'
      cases hn'
      rw [Function.update_self]
      exact ⟨Or.inl rfl, rfl⟩

/-- The induction is on the order of creation: the last node takes a value, and nothing older
reads it. -/
theorem exists_slack_lt (hg : g.Linked) (ha : g.Ascending) (hv : FitsListed g v)
    (hops : ∀ id e, g.node? id = some (.expression e) → e.op ∈ Operator.meant ∧ e.op ≠ .union)
    (k : ℕ) : ∃ u, ∀ id, id.rank < k → Slack g v u id := by
  induction k with
  | zero => exact ⟨v, fun id h => absurd h (Nat.not_lt_zero _)⟩
  | succ k ih =>
    obtain ⟨u, h⟩ := ih
    have hself : NodeId.nth k ∉ g.operands (.nth k) := fun hmem =>
      Nat.lt_irrefl _ (ha _ _ hmem)
    have hoperands : ∀ o ∈ g.operands (.nth k), Slack g v u o := fun o ho => h o (ha _ o ho)
    obtain ⟨x, hx⟩ := exists_value hu hg hv hops hoperands hself
    refine ⟨Function.update u (.nth k) x, fun id hid => ?_⟩
    by_cases heq : id = .nth k
    · rwa [heq]
    · cases id with
      | null => exact fun n hn => by cases hn
      | nth i =>
        have hi : i < k := Nat.lt_of_le_of_ne (Nat.le_of_lt_succ hid) fun h => heq (h ▸ rfl)
        refine (h (.nth i) hi).congr hu (Function.update_of_ne heq x u) fun o ho => ?_
        have hlt := ha _ o ho
        have hne : o ≠ .nth k := by
          rintro rfl
          exact Nat.lt_asymm hi hlt
        exact Function.update_of_ne hne x u

theorem exists_slack (hg : g.Linked) (ha : g.Ascending) (hv : FitsListed g v)
    (hops : ∀ id e, g.node? id = some (.expression e) → e.op ∈ Operator.meant ∧ e.op ≠ .union) :
    ∃ u, ∀ id, Slack g v u id := by
  obtain ⟨u, h⟩ := exists_slack_lt hu hg ha hv hops (g.entries.cells.size)
  refine ⟨u, fun id n hn => h id ?_ n hn⟩
  have hissued := Generation.issued_of_contains (Generation.contains_of_node? hn)
  cases id with
  | null => exact hissued.elim
  | nth k => exact hissued

omit hu in
/-- A connective leans as it makes truth values of truth values. -/
theorem leans_of_logical {e : Expression} {up : Bool} (hv : FitsListed g v)
    (hs : ∀ id, Slack g v u id) (hn : g.node? id = some (.expression e)) (hop : e.op.has .logic)
    (h : ∀ bs cs b c, e.operands.map v = bs.map .boolean → e.operands.map u = cs.map .boolean →
      e.op.logical? bs = some b → e.op.logical? cs = some c → Implied up b c) :
    (v id).Leans up (u id) := by
  have hrelaxed : e.op.relaxed = e.op := by
    revert hop
    cases e.op <;> decide
  have hd := hv id _ hn
  have hd' := (hs id _ hn).2
  dsimp only at hd'
  rw [hrelaxed] at hd'
  obtain ⟨bs, b, hbs, hb, hx⟩ := hd.logic hop
  obtain ⟨cs, c, hcs, hc, hy⟩ := hd'.logic hop
  rw [map_value_listed] at hbs hcs
  rw [hx, hy]
  rintro _ _ ⟨⟩ ⟨⟩
  exact h bs cs b c hbs hcs hb hc

/-- A strict comparison can only become true. -/
theorem leans_of_strict {e : Expression} (hg : g.Linked) (hv : FitsListed g v)
    (hs : ∀ id, Slack g v u id) (hn : g.node? id = some (.expression e))
    (hop : e.op = .greaterThan ∨ e.op = .lessThan) : (v id).Leans true (u id) := by
  have hd : e.op.Denotes (e.operands.map (listed g v)) (v id) := hv id _ hn
  have hd' := (hs id _ hn).2
  have hspread : ∀ o ∈ e.operands, (∀ y ∈ (listed g v o).spread, ∃ q, y = .number q) →
      (listed g u o).spread = (listed g v o).spread := by
    intro o ho
    obtain ⟨m, hm⟩ := Generation.contains_iff.1 (hg.contains hn ho)
    rw [listed_of_not_isUnion (hu o), listed_of_not_isUnion (hu o)]
    exact Operator.spread_eq rfl rfl (hs o m hm).1
  obtain ⟨op, operands, asserted⟩ := e
  obtain ⟨ra, rb, hl⟩ := hd.relation (by rcases hop with rfl | rfl <;> rfl)
  obtain ⟨a, la, rfl, rfl, hla⟩ := List.map_eq_cons_iff.1 hl
  obtain ⟨b, lb, rfl, rfl, hlb⟩ := List.map_eq_cons_iff.1 hla
  obtain rfl := List.map_eq_nil_iff.1 hlb
  rcases hop with rfl | rfl
  all_goals
    obtain ⟨ha, hb, hx⟩ := hd
    obtain ⟨-, -, hy⟩ := hd'
    rw [hspread a (by simp) ha, hspread b (by simp) hb] at hy
    exact hx.leans hy fun h q r hq hr => (h q r hq hr).le

theorem leans_of_slack {up : Bool} (hg : g.Linked) (hv : FitsListed g v)
    (hs : ∀ id, Slack g v u id)
    (hops : ∀ id e, g.node? id = some (.expression e) → e.op ≠ .union)
    (h : g.Leans up id) : (v id).Leans up (u id) := by
  induction h with
  | @leaf up id n hn hleaf =>
    have heq : u id = v id := by
      cases n with
      | expression e => exact absurd rfl (hleaf e)
      | _ => exact (hs id _ hn).2
    rw [heq]
    exact .refl up _
  | strict hn hop => exact leans_of_strict hu hg hv hs hn hop
  | negation hn _ ih =>
    refine leans_of_logical hv hs hn rfl fun bs cs b c hbs hcs hb hc => ?_
    obtain ⟨b, bs, rfl, hvb, hbs⟩ := List.map_eq_cons_iff.1 hbs.symm
    obtain ⟨c, cs, rfl, huc, hcs⟩ := List.map_eq_cons_iff.1 hcs.symm
    obtain rfl := List.map_eq_nil_iff.1 hbs
    obtain rfl := List.map_eq_nil_iff.1 hcs
    cases hb
    cases hc
    exact implied_not.1 (ih b c hvb.symm huc.symm)
  | @junction up id e hn hop _ ih =>
    obtain ⟨op, operands, asserted⟩ := e
    rcases hop with rfl | rfl
    · refine leans_of_logical hv hs hn rfl fun bs cs b c hbs hcs hb hc => ?_
      cases hb
      cases hc
      exact .any (forall₂_implied ih hbs hcs)
    · refine leans_of_logical hv hs hn rfl fun bs cs b c hbs hcs hb hc => ?_
      cases hb
      cases hc
      exact .all (forall₂_implied ih hbs hcs)
  | implication hn _ _ ihf ihr =>
    refine leans_of_logical hv hs hn rfl fun bs cs b c hbs hcs hb hc => ?_
    obtain ⟨b, bs, rfl, hfirst, hbs⟩ := List.map_eq_cons_iff.1 hbs.symm
    obtain ⟨c, cs, rfl, hfirst', hcs⟩ := List.map_eq_cons_iff.1 hcs.symm
    cases hb
    cases hc
    have hf := implied_not.1 (ihf b c hfirst.symm hfirst'.symm)
    exact hf.or (.any (forall₂_implied ihr hbs.symm hcs.symm))
  | @steady up id e hn hop _ ih =>
    have hread : e.operands.map (listed g u) = e.operands.map (listed g v) :=
      List.map_congr_left fun o ho => by
        obtain ⟨m, hm⟩ := Generation.contains_iff.1 (hg.contains hn ho)
        exact listed_congr_of_not_isUnion (hu o) ((hs o m hm).1.eq_of_leans (ih o ho))
    have hd : e.op.Denotes (e.operands.map (listed g v)) (v id) := hv id _ hn
    have hd' := (hs id _ hn).2
    dsimp only at hd'
    rw [hop, hread] at hd'
    rw [hd'.unique hd (hops id e hn)]
    exact .refl up _

end Valuation

variable {g : Generation Exact} {b : Blueprint Exact} {config : Config} {sol : Solution Exact}
  {v : Valuation}

/-- A solution extends to one of the canonical form where every assertion can only gain from strict
comparisons being taken loosely. -/
theorem exists_satisfies_of_leans (hb : b.Reachable) (hg : b.build = .ok g)
    (hops : ∀ id e, g.node? id = some (.expression e) → e.op ∈ Operator.meant ∧ e.op ≠ .union)
    (hleans : ∀ id e, g.node? id = some (.expression e) → e.asserted → g.Leans true id)
    (h : solve config g = .ok sol) (hv : Fits g v) (hsat : Satisfies g v) :
    ∃ w, FitsListed sol.last w ∧ Satisfies sol.last w ∧
      ∀ id p, g.node? id = some (.parameter p) → ∃ m, sol.resolve? id = some m ∧ w m = v id := by
  obtain ⟨htame, hasc⟩ := tame_of_build hb hg hops
  obtain ⟨hcarries, hcanonical⟩ := carries_of_solve htame h
  have hunion : ∀ o, ¬ g.isUnion o := fun o =>
    Generation.not_isUnion_of_ne fun id e hn => (hops id e hn).2
  have hlisted := (fits_iff_fitsListed hunion).1 hv
  obtain ⟨u, hu⟩ := exists_slack hunion htame.linked hasc hlisted hops
  have hmodels : Models g u := by
    intro id n hn
    cases n with
    | expression e =>
      refine ⟨(hu id _ hn).2, fun ha => ?_⟩
      have hlean := leans_of_slack hunion htame.linked hlisted hu (fun id e hn => (hops id e hn).2)
        (hleans id e hn ha)
      exact (hu id _ hn).1.eq_true hlean (hsat id e (Generation.expression?_eq.2 hn) ha)
    | _ =>
      have heq := (hu id _ hn).2
      dsimp only at heq
      rw [heq]
      exact hlisted id _ hn
  obtain ⟨w, hw, hval⟩ := hcarries.forth u hmodels
  obtain ⟨hfits, hs⟩ := (models_iff fun id e hn =>
    relaxed_of_isCanonical (hcanonical id e hn)).1 hw
  refine ⟨w, hfits, hs, fun id p hn => ?_⟩
  obtain ⟨j, _, hj, -⟩ := hcarries.parameters id p hn
  exact ⟨j, hj, (hval id j hj).trans (hu id _ hn).2⟩

/-! Two graphs to look at, over `x` and `y`: in the first, the numbers are the same unless `x` is
greater; in the second, both are one and `x` is not greater. -/

namespace Sample

def ordered : Blueprint Exact :=
  let b := (Blueprint.empty.addParameter .real).2
  let b := (b.addParameter .real).2
  let b := (b.addExpression .greaterThan [.nth 0, .nth 1]).2
  let b := (b.addExpression .not [.nth 2]).2
  let b := (b.addExpression .is [.nth 0, .nth 1]).2
  (b.addAssertion .implies [.nth 3, .nth 4]).2

theorem ordered_reachable : ordered.Reachable :=
  .assertion (.expression (.expression (.expression (.parameter (.parameter .empty _) _) _ _) _ _)
    _ _) _ _

theorem ordered_node {id : NodeId} {n : Node Exact} (h : ordered.generation.node? id = some n) :
    (id = .nth 0 ∧ n = .parameter .real) ∨ (id = .nth 1 ∧ n = .parameter .real) ∨
    (id = .nth 2 ∧ n = .expression ⟨.greaterThan, [.nth 0, .nth 1], false⟩) ∨
    (id = .nth 3 ∧ n = .expression ⟨.not, [.nth 2], false⟩) ∨
    (id = .nth 4 ∧ n = .expression ⟨.is, [.nth 0, .nth 1], false⟩) ∨
    (id = .nth 5 ∧ n = .expression ⟨.implies, [.nth 3, .nth 4], true⟩) := by
  have hmem := Generation.mem_nodes.2 h
  rw [show ordered.generation.nodes = [(.nth 0, .parameter .real), (.nth 1, .parameter .real),
    (.nth 2, .expression ⟨.greaterThan, [.nth 0, .nth 1], false⟩),
    (.nth 3, .expression ⟨.not, [.nth 2], false⟩),
    (.nth 4, .expression ⟨.is, [.nth 0, .nth 1], false⟩),
    (.nth 5, .expression ⟨.implies, [.nth 3, .nth 4], true⟩)] from rfl] at hmem
  simpa using hmem

def orderedValue : Valuation
  | .nth 0 => .number 2
  | .nth 1 => .number 1
  | .nth 3 | .nth 4 => .boolean false
  | _ => .boolean true

theorem ordered_meant {id : NodeId} {e : Expression}
    (h : ordered.generation.node? id = some (.expression e)) :
    e.op ∈ Operator.meant ∧ e.op ≠ .union := by
  rcases ordered_node h with ⟨-, hn⟩ | ⟨-, hn⟩ | ⟨-, hn⟩ | ⟨-, hn⟩ | ⟨-, hn⟩ | ⟨-, hn⟩ <;>
    cases hn <;> decide

theorem ordered_leans {id : NodeId} {e : Expression}
    (h : ordered.generation.node? id = some (.expression e)) (ha : e.asserted) :
    ordered.generation.Leans true id := by
  have hleaf : ∀ o ∈ [NodeId.nth 0, .nth 1], ∀ up, ordered.generation.Leans up o := by
    intro o ho up
    have hnode : ordered.generation.node? o = some (.parameter .real) := by
      rcases List.mem_pair.1 ho with rfl | rfl <;> rfl
    exact .leaf hnode fun e he => by cases he
  rcases ordered_node h with ⟨-, hn⟩ | ⟨-, hn⟩ | ⟨-, hn⟩ | ⟨-, hn⟩ | ⟨-, hn⟩ | ⟨rfl, -⟩
  case inr.inr.inr.inr.inr =>
    refine .implication rfl (.negation rfl (.strict rfl (Or.inl rfl))) fun o ho => ?_
    cases List.mem_singleton.1 ho
    exact .steady rfl rfl hleaf
  all_goals
    cases hn
    try cases ha

theorem ordered_fits : Fits ordered.generation orderedValue := by
  have hunion : ∀ o, ¬ ordered.generation.isUnion o := fun o =>
    Generation.not_isUnion_of_ne fun id e hn => (ordered_meant hn).2
  rw [fits_iff_fitsListed hunion]
  intro id n h
  rcases ordered_node h with ⟨rfl, rfl⟩ | ⟨rfl, rfl⟩ | ⟨rfl, rfl⟩ | ⟨rfl, rfl⟩ | ⟨rfl, rfl⟩ |
    ⟨rfl, rfl⟩
  · exact ⟨Numbers.mem_unbounded 2, fun s hs => by cases hs⟩
  · exact ⟨Numbers.mem_unbounded 1, fun s hs => by cases hs⟩
  · simp only [Node.Allows, List.map_cons, List.map_nil, Operator.Denotes, Compares,
      listed_of_not_isUnion (hunion _), Set.mem_singleton_iff, orderedValue, forall_eq]
    exact ⟨⟨2, rfl⟩, ⟨1, rfl⟩, true, rfl, by simp⟩
  · exact Or.inr ⟨[true], false, rfl, rfl, rfl⟩
  · exact ⟨false, rfl, by simp [listed, orderedValue]⟩
  · exact Or.inr ⟨[false, false], true, rfl, rfl, rfl⟩

theorem ordered_satisfies : Satisfies ordered.generation orderedValue := by
  intro id e h ha
  rcases ordered_node (Generation.expression?_eq.1 h) with ⟨-, hn⟩ | ⟨-, hn⟩ | ⟨-, hn⟩ | ⟨-, hn⟩ |
    ⟨-, hn⟩ | ⟨rfl, -⟩
  case inr.inr.inr.inr.inr => rfl
  all_goals
    cases hn
    try cases ha

end Sample

theorem exists_satisfies_of_leans_ordered : ∃ sol, solve {} Sample.ordered.generation = .ok sol ∧
    ∃ w, FitsListed sol.last w ∧ Satisfies sol.last w ∧
      ∀ id p, Sample.ordered.generation.node? id = some (.parameter p) →
        ∃ m, sol.resolve? id = some m ∧ w m = Sample.orderedValue id := by
  have hbuild : Sample.ordered.build = .ok Sample.ordered.generation := by
    rfl
  have hok : (solve {} Sample.ordered.generation).isOk := by
    decide +kernel
  obtain ⟨sol, hsol⟩ := exists_of_isOk hok
  exact ⟨sol, hsol, exists_satisfies_of_leans Sample.ordered_reachable hbuild
    (fun _ _ => Sample.ordered_meant) (fun _ _ => Sample.ordered_leans) hsol Sample.ordered_fits
    Sample.ordered_satisfies⟩

namespace Sample

def one : Parameter Exact := Parameter.real.withBound (.number (finite 1))

def level : Blueprint Exact :=
  let b := (Blueprint.empty.addParameter one).2
  let b := (b.addParameter one).2
  let b := (b.addExpression .greaterThan [.nth 0, .nth 1]).2
  (b.addAssertion .not [.nth 2]).2

theorem level_reachable : level.Reachable :=
  .assertion (.expression (.parameter (.parameter .empty _) _) _ _) _ _

theorem level_node {id : NodeId} {n : Node Exact} (h : level.generation.node? id = some n) :
    (id = .nth 0 ∧ n = .parameter one) ∨ (id = .nth 1 ∧ n = .parameter one) ∨
    (id = .nth 2 ∧ n = .expression ⟨.greaterThan, [.nth 0, .nth 1], false⟩) ∨
    (id = .nth 3 ∧ n = .expression ⟨.not, [.nth 2], true⟩) := by
  have hmem := Generation.mem_nodes.2 h
  rw [show level.generation.nodes = [(.nth 0, .parameter one), (.nth 1, .parameter one),
    (.nth 2, .expression ⟨.greaterThan, [.nth 0, .nth 1], false⟩),
    (.nth 3, .expression ⟨.not, [.nth 2], true⟩)] from rfl] at hmem
  simpa using hmem

def levelValue : Valuation
  | .nth 0 | .nth 1 => .number 1
  | .nth 2 => .boolean false
  | _ => .boolean true

theorem level_meant {id : NodeId} {e : Expression}
    (h : level.generation.node? id = some (.expression e)) :
    e.op ∈ Operator.meant ∧ e.op ≠ .union := by
  rcases level_node h with ⟨-, hn⟩ | ⟨-, hn⟩ | ⟨-, hn⟩ | ⟨-, hn⟩ <;> cases hn <;> decide

theorem level_not_isUnion (o : NodeId) : ¬ level.generation.isUnion o :=
  Generation.not_isUnion_of_ne fun _ _ hn => (level_meant hn).2

theorem level_fits : Fits level.generation levelValue := by
  have hone : ∀ s ∈ one.within, Value.number (1 : ℚ) ∈ s := by
    rintro s ⟨⟩
    exact Numbers.mem_singleton.2 rfl
  rw [fits_iff_fitsListed level_not_isUnion]
  intro id n h
  rcases level_node h with ⟨rfl, rfl⟩ | ⟨rfl, rfl⟩ | ⟨rfl, rfl⟩ | ⟨rfl, rfl⟩
  · exact ⟨Numbers.mem_unbounded 1, hone⟩
  · exact ⟨Numbers.mem_unbounded 1, hone⟩
  · simp only [Node.Allows, List.map_cons, List.map_nil, Operator.Denotes, Compares,
      listed_of_not_isUnion (level_not_isUnion _), Set.mem_singleton_iff, levelValue, forall_eq]
    exact ⟨⟨1, rfl⟩, ⟨1, rfl⟩, false, rfl, by simp⟩
  · exact Or.inr ⟨[false], true, rfl, rfl, rfl⟩

theorem level_satisfies : Satisfies level.generation levelValue := by
  intro id e h ha
  rcases level_node (Generation.expression?_eq.1 h) with ⟨-, hn⟩ | ⟨-, hn⟩ | ⟨-, hn⟩ | ⟨rfl, -⟩
  case inr.inr.inr => rfl
  all_goals
    cases hn
    try cases ha

/-- One is at least one, so the comparison taken loosely cannot be denied. -/
theorem level_not_models (u : Valuation) : ¬ Models level.generation u := by
  intro hm
  have hone : ∀ i, level.generation.node? i = some (.parameter one) → u i = .number 1 := by
    intro i hi
    exact ValueSet.mem_number.1 ((hm i _ hi).2 _ rfl)
  have hx := hone (.nth 0) rfl
  have hy := hone (.nth 1) rfl
  have hge : Compares (· ≥ ·) {u (.nth 0)} {u (.nth 1)} (u (.nth 2)) := by
    have hd := (hm (.nth 2) _ rfl).1
    simpa only [Operator.relaxed, List.map_cons, List.map_nil, Operator.Denotes,
      listed_of_not_isUnion (level_not_isUnion _)] using hd
  obtain ⟨-, -, c, hc, hiff⟩ := hge
  have htrue : c = true := by
    refine hiff.2 fun q r hq hr => ?_
    rw [hx] at hq
    rw [hy] at hr
    cases hq
    cases hr
    exact le_refl _
  obtain ⟨hnot, hassert⟩ := hm (.nth 3) _ rfl
  obtain ⟨bs, b, hbs, hb, hval⟩ := Operator.Denotes.logic hnot rfl
  rw [map_value_listed, List.map_cons, List.map_nil, hc, htrue] at hbs
  obtain ⟨d, bs, rfl, hd, hnil⟩ := List.map_eq_cons_iff.1 hbs.symm
  obtain rfl := List.map_eq_nil_iff.1 hnil
  cases hd
  cases hb
  rw [hassert rfl] at hval
  cases hval

end Sample

/-- Both numbers are one, so the first is not greater, and that is all that is asked for. The
canonical form denies that one is at least one: it has lost the solution. -/
theorem not_exists_satisfies_of_level : ∃ sol, Sample.level.Reachable ∧
    Sample.level.build = .ok Sample.level.generation ∧
    solve {} Sample.level.generation = .ok sol ∧ Fits Sample.level.generation Sample.levelValue ∧
    Satisfies Sample.level.generation Sample.levelValue ∧
    ¬ ∃ w, FitsListed sol.last w ∧ Satisfies sol.last w := by
  have hbuild : Sample.level.build = .ok Sample.level.generation := by
    rfl
  have hok : (solve {} Sample.level.generation).isOk := by
    decide +kernel
  obtain ⟨sol, hsol⟩ := exists_of_isOk hok
  refine ⟨sol, Sample.level_reachable, hbuild, hsol, Sample.level_fits, Sample.level_satisfies, ?_⟩
  rintro ⟨w, hw⟩
  obtain ⟨htame, -⟩ := tame_of_build Sample.level_reachable hbuild fun _ _ => Sample.level_meant
  obtain ⟨hcarries, hcanonical⟩ := carries_of_solve htame hsol
  have hmodels : Models sol.last w :=
    (models_iff fun id e hn => relaxed_of_isCanonical (hcanonical id e hn)).2 hw
  obtain ⟨u, hu, -⟩ := hcarries.back w hmodels
  exact Sample.level_not_models u hu

end ParameterSolver
