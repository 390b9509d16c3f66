import ParameterSolver.Proofs.Pass.Constraints
import ParameterSolver.Proofs.Pass.Laws

/-! Every law keeps the simulation. The new expressions have values where the expression has one, and
with them the new content of the node means what the old one meant. -/

namespace ParameterSolver

open Exact ParameterSolver.Valuation Operand Draft

/-- What a step of a law does before the next one. -/
theorem LawRuns.step {α β γ : Type} {d d' : Draft α} {m : Pass.Law α β} {f : β → Pass.Law α γ}
    {r : Option γ} {Q : β → Draft α → Prop} (h : LawRuns (m >>= f) d r d')
    (hm : ∀ r d₁, LawRuns m d r d₁ → ∃ x, r = some x ∧ Q x d₁) :
    ∃ x d₁, Q x d₁ ∧ LawRuns (f x) d₁ r d' := by
  rcases lawRuns_bind.1 h with ⟨hnone, -⟩ | ⟨x, d₁, hx, hf⟩
  · obtain ⟨x, hx, -⟩ := hm _ _ hnone
    cases hx
  · obtain ⟨y, hy, hq⟩ := hm _ _ hx
    cases hy
    exact ⟨x, d₁, hq, hf⟩

namespace Pass

variable {g : Generation Exact} {T : Set NodeId} {P : Set (NodeId × NodeId)} {d d' : Draft Exact}
  {id c : NodeId} {e : Expression} {op : Operator} {l : List (Operand Exact)} {v w : Valuation}
  {rd : Reading} {x : Value ℚ}

theorem value_of_input {o : NodeId} (h : Reads g v d w (.input o) rd) : rd.value = v o :=
  congrArg Reading.value h

theorem value_of_output (h : Reads g v d w (.output c) rd) : rd.value = w c :=
  congrArg Reading.value h

theorem value_of_number {q : ℚ} (h : Reads g v d w (number (finite q)) rd) :
    rd.value = .number q := by
  have hmem : ∀ y : Value ℚ, y ∈ ValueSet.number (finite q) ↔ y = .number q := by
    intro y
    rw [ValueSet.number, ValueSet.mem_numeric]
    constructor
    · rintro ⟨r, rfl, hr⟩
      rw [Numbers.mem_singleton.1 hr]
    · rintro rfl
      exact ⟨q, rfl, Numbers.mem_singleton.2 rfl⟩
  exact (hmem _).1 (h.2.2 ⟨_, (hmem _).2 rfl⟩)

theorem relaxed_of_combines (h : op.has .arithmetic ∨ op.has .logic) : op.relaxed = op := by
  cases op <;> simp_all [Operator.has, Operator.having, Operator.logical, Operator.relaxed]

/-- The value of an expression that was built from the values of its operands. -/
theorem combines_of_built {R : Set NodeId} (h : d.Built op l false c)
    (hop : op.has .arithmetic ∨ op.has .logic) (hf : Frame g R T d) (ha : d.Agrees v w)
    (hs : SparesHold d w) :
    ∃ rs, List.Forall₂ (Reads g v d w) l rs ∧ Combines op (rs.map (·.value)) (w c) := by
  obtain ⟨rs, hrs, hd, -⟩ := h.denotes hf ha hs
  rw [relaxed_of_combines hop, Operator.denotes_iff_combines hop] at hd
  exact ⟨rs, hrs, hd⟩

/-- What holds after a law has put its result into the node. -/
def Settled (g : Generation Exact) (T : Set NodeId) (id : NodeId) (r : Option Unit)
    (d : Draft Exact) : Prop := r = some () ∧ Simulates g ∅ (T ∪ {id}) (fun _ => True) ∅ d

theorem simulates_build (hg : g.Tame) {r : Option (Operand Exact)}
    (h : Simulates g ∅ T (fun _ => True) P d) (hfit : ∀ a ∈ l, a.Fit g ∅) (hw : Writes g op l false)
    (hx : ∀ d₁, Extends d d₁ → Frame g ∅ T d₁ → ∀ v w, d₁.Matches g P v w →
      ∀ rs, List.Forall₂ (Reads g v d₁ w) l rs → ∃ x, op.relaxed.Denotes rs x)
    (hr : LawRuns (build id op l) d r d') :
    ∃ a, r = some a ∧ (Simulates g ∅ T (fun _ => True) P d' ∧ Extends d d' ∧
      ∃ c, a = .output c ∧ d'.Built op l false c) := by
  unfold build at hr
  rw [LawRuns, OptionT.run_map] at hr
  obtain ⟨r', hr', rfl⟩ := runs_map.1 hr
  obtain ⟨h', hext, c, rfl, hc⟩ := h.createExpression hg hfit hw
    (fun d₁ hext hf v w hm rs hrs => (hx d₁ hext hf v w hm rs hrs).imp fun x hx => ⟨hx, by simp⟩) hr'
  exact ⟨_, rfl, h', hext, c, rfl, hc⟩

theorem simulates_become (hg : g.Tame) {r : Option Unit} (h : Simulates g ∅ T (fun _ => True) ∅ d)
    (hn : g.node? id = some (.expression e)) (hT : id ∉ T) (hfit : ∀ a ∈ l, a.Fit g ∅)
    (hw : op ∈ Operator.meant) (hw' : op ∉ Operator.gathers) (hu : e.op ≠ .union)
    (hiff : ∀ d₁, Extends d d₁ → Frame g ∅ T d₁ → ∀ v w, SparesHold d₁ w → d₁.Agrees v w →
      ∀ rs, List.Forall₂ (Reads g v d₁ w) l rs → ∀ x,
        (e.op.relaxed.Denotes (e.operands.map (listed g v)) x ↔ op.relaxed.Denotes rs x))
    (hr : LawRuns (become id op l) d r d') : Settled g T id r d' := by
  unfold become at hr
  obtain ⟨r', hedit, rfl⟩ := lawRuns_discard_lift.1 hr
  have hu' : op ≠ .union := fun h => hw' (by rw [h]; decide)
  obtain ⟨h', -⟩ := h.editExpression hg hn (by simp) hT hedit (fun _ h => h) rfl rfl rfl hfit
    (writes_of_not_gathers hw hw') (fun d₁ js _ => fills_of_not_union hu hu')
    (fun d₁ hext hf v w hm rs hrs =>
      ⟨(hiff d₁ hext hf v w hm.sparesHold hm.agrees rs hrs _).1 (hm.input id _ hn).1,
        (hm.input id _ hn).2⟩)
    (fun d₁ hext hf v w hs ha _ rs hrs hd ht => ⟨(hiff d₁ hext hf v w hs ha rs hrs _).2 hd, ht⟩)
  exact ⟨rfl, h'⟩

theorem map_value_listed (l : List NodeId) : (l.map (listed g v)).map (·.value) = l.map v := by
  rw [List.map_map]
  rfl

/-- A new expression over values. -/
theorem simulates_buildValue (hg : g.Tame) {r : Option (Operand Exact)}
    (hop : op.has .arithmetic ∨ op.has .logic) (h : Simulates g ∅ T (fun _ => True) P d)
    (hfit : ∀ a ∈ l, a.Fit g ∅) (hw : op ∈ Operator.meant) (hw' : op ∉ Operator.gathers)
    (hx : ∀ d₁, Extends d d₁ → Frame g ∅ T d₁ → ∀ v w, d₁.Matches g P v w →
      ∀ rs, List.Forall₂ (Reads g v d₁ w) l rs → ∃ x, Combines op (rs.map (·.value)) x)
    (hr : LawRuns (build id op l) d r d') :
    ∃ a, r = some a ∧ (Simulates g ∅ T (fun _ => True) P d' ∧ Extends d d' ∧
      ∃ c, a = .output c ∧ d'.Built op l false c) := by
  refine simulates_build hg h hfit (writes_of_not_gathers hw hw')
    (fun d₁ hext hf v w hm rs hrs => ?_) hr
  rw [relaxed_of_combines hop]
  exact (hx d₁ hext hf v w hm rs hrs).imp fun x => (Operator.denotes_iff_combines hop).2

/-- Other content over values. -/
theorem simulates_becomeValue (hg : g.Tame) {r : Option Unit}
    (hop : op.has .arithmetic ∨ op.has .logic) (heop : e.op.has .arithmetic ∨ e.op.has .logic)
    (h : Simulates g ∅ T (fun _ => True) ∅ d) (hn : g.node? id = some (.expression e)) (hT : id ∉ T)
    (hfit : ∀ a ∈ l, a.Fit g ∅) (hw : op ∈ Operator.meant) (hw' : op ∉ Operator.gathers)
    (hiff : ∀ d₁, Extends d d₁ → Frame g ∅ T d₁ → ∀ v w, SparesHold d₁ w → d₁.Agrees v w →
      ∀ rs, List.Forall₂ (Reads g v d₁ w) l rs → ∀ x,
        (Combines e.op (e.operands.map v) x ↔ Combines op (rs.map (·.value)) x))
    (hr : LawRuns (become id op l) d r d') : Settled g T id r d' := by
  have hu : e.op ≠ .union := by
    intro hu
    rw [hu] at heop
    exact absurd heop (by decide)
  refine simulates_become hg h hn hT hfit hw hw' hu (fun d₁ hext hf v w hs ha rs hrs x => ?_) hr
  rw [relaxed_of_combines hop, relaxed_of_combines heop, Operator.denotes_iff_combines hop,
    Operator.denotes_iff_combines heop, map_value_listed]
  exact hiff d₁ hext hf v w hs ha rs hrs x

/-- New expressions, one for each of some nodes. -/
theorem simulates_buildEach (hg : g.Tame) {args : NodeId → List (Operand Exact)} {l : List NodeId}
    (hop : op.has .arithmetic ∨ op.has .logic) (hfit : ∀ o ∈ l, ∀ a ∈ args o, a.Fit g ∅)
    (hw : op ∈ Operator.meant) (hw' : op ∉ Operator.gathers)
    (hx : ∀ o ∈ l, ∀ d₁ v w, d₁.Matches g P v w → ∀ rs, List.Forall₂ (Reads g v d₁ w) (args o) rs →
      ∃ x, Combines op (rs.map (·.value)) x)
    {r : Option (List (Operand Exact))} (h : Simulates g ∅ T (fun _ => True) P d)
    (hr : LawRuns (l.mapM fun o => build id op (args o)) d r d') :
    ∃ as, r = some as ∧ (Simulates g ∅ T (fun _ => True) P d' ∧ Extends d d' ∧
      ∃ cs, as = cs.map .output ∧
        List.Forall₂ (fun o c => d'.Built op (args o) false c) l cs) := by
  induction l generalizing d r d' with
  | nil =>
    rw [List.mapM_nil] at hr
    obtain ⟨rfl, rfl⟩ := lawRuns_pure.1 hr
    exact ⟨[], rfl, h, .refl _, [], rfl, .nil⟩
  | cons o l ih =>
    rw [List.mapM_cons] at hr
    obtain ⟨a, d₁, ⟨h₁, hext, c, rfl, hc⟩, hr₁⟩ := hr.step fun r d₁ hr =>
      simulates_buildValue hg hop h (hfit o (by simp)) hw hw'
        (fun d₁ _ _ v w hm rs hrs => hx o (by simp) d₁ v w hm rs hrs) hr
    obtain ⟨as, d₂, ⟨h₂, hext', cs, rfl, hcs⟩, hr₂⟩ := hr₁.step fun r d₂ =>
      ih (fun p hp => hfit p (by simp [hp])) (fun p hp => hx p (by simp [hp])) h₁
    obtain ⟨rfl, rfl⟩ := lawRuns_pure.1 hr₂
    exact ⟨_, rfl, h₂, hext.trans hext', c :: cs, rfl, .cons (hc.mono hext') hcs⟩

/-- The values of such expressions. -/
theorem values_of_built {R : Set NodeId} {args : NodeId → List (Operand Exact)}
    {l cs : List NodeId} {rs : List Reading} {S : Value ℚ → Value ℚ → Prop}
    (hop : op.has .arithmetic ∨ op.has .logic) (hf : Frame g R T d) (ha : d.Agrees v w)
    (hs : SparesHold d w) (hcs : List.Forall₂ (fun o c => d.Built op (args o) false c) l cs)
    (hS : ∀ o rs z, List.Forall₂ (Reads g v d w) (args o) rs → Combines op (rs.map (·.value)) z →
      S (v o) z)
    (hrs : List.Forall₂ (Reads g v d w) (cs.map .output) rs) :
    List.Forall₂ S (l.map v) (rs.map (·.value)) := by
  induction hcs generalizing rs with
  | nil =>
    cases hrs
    exact .nil
  | cons hc _ ih =>
    obtain _ | ⟨h1, hrs⟩ := hrs
    refine .cons ?_ (ih hrs)
    obtain ⟨rs', hrs', hcomb⟩ := combines_of_built hc hop hf ha hs
    dsimp only
    rw [value_of_output h1]
    exact hS _ rs' _ hrs' hcomb

section Laws

variable (hg : g.Tame) (h : Simulates g ∅ T (fun _ => True) ∅ d) (hT : id ∉ T) {r : Option Unit}
  {asserted : Bool} {operands : List NodeId} {a b : NodeId}

theorem boolean_of_models (hn : g.node? id = some (.expression e)) (hl : e.op.has .logic)
    (hv : Models g v) : ∀ o ∈ e.operands, ∃ b, v o = .boolean b := by
  have hd := (hv id _ hn).1
  rw [relaxed_of_combines (Or.inr hl)] at hd
  obtain ⟨bs, b, hbs, -⟩ := hd.logic hl
  intro o ho
  have hmem : v o ∈ (e.operands.map (listed g v)).map (·.value) := by
    simp only [List.map_map, List.mem_map]
    exact ⟨o, ho, rfl⟩
  rw [hbs] at hmem
  obtain ⟨c, -, hc⟩ := List.mem_map.1 hmem
  exact ⟨c, hc.symm⟩

theorem number_of_models (hn : g.node? id = some (.expression e)) (hl : e.op.has .arithmetic)
    (hv : Models g v) : ∀ o ∈ e.operands, ∃ q, v o = .number q := by
  have hd := (hv id _ hn).1
  rw [relaxed_of_combines (Or.inl hl)] at hd
  obtain ⟨qs, q, hqs, -⟩ := hd.arithmetic hl
  intro o ho
  have hmem : v o ∈ (e.operands.map (listed g v)).map (·.value) := by
    simp only [List.map_map, List.mem_map]
    exact ⟨o, ho, rfl⟩
  rw [hqs] at hmem
  obtain ⟨c, -, hc⟩ := List.mem_map.1 hmem
  exact ⟨c, hc.symm⟩

include hg

theorem fit_input (hn : g.node? id = some (.expression e)) {o : NodeId} (ho : o ∈ e.operands) :
    Fit g ∅ (.input o) := ⟨hg.linked.contains hn ho, by simp⟩

theorem fit_inputs (hn : g.node? id = some (.expression e)) {l : List NodeId}
    (hl : ∀ o ∈ l, o ∈ e.operands) : ∀ a ∈ l.map (Operand.input (α := Exact)), a.Fit g ∅ := by
  intro a ha
  obtain ⟨o, ho, rfl⟩ := List.mem_map.1 ha
  exact fit_input hg hn (hl o ho)

include h

/-- The negation of an operand. -/
theorem simulates_negate {r : Option (Operand Exact)} (hn : g.node? id = some (.expression e))
    (hl : e.op.has .logic) {o : NodeId} (ho : o ∈ e.operands)
    (hr : LawRuns (build id .not [.input o]) d r d') :
    ∃ a, r = some a ∧ (Simulates g ∅ T (fun _ => True) ∅ d' ∧ Extends d d' ∧
      ∃ c, a = .output c ∧ d'.Built .not [.input o] false c) := by
  refine simulates_buildValue hg (Or.inr rfl) h (by simpa using fit_input hg hn ho) (by decide)
    (by decide) (fun d₁ _ hf v w hm rs hrs => ?_) hr
  obtain _ | ⟨h1, _ | _⟩ := hrs
  obtain ⟨b, hb⟩ := boolean_of_models hn hl hm.input o ho
  exact ⟨.boolean !b, Combines.not_iff.2 ⟨b, (value_of_input h1).trans hb, rfl⟩⟩

theorem simulates_negateEach {r : Option (List (Operand Exact))}
    (hn : g.node? id = some (.expression e)) (hl : e.op.has .logic)
    (hr : LawRuns (e.operands.mapM fun o => build id .not [.input o]) d r d') :
    ∃ as, r = some as ∧ (Simulates g ∅ T (fun _ => True) ∅ d' ∧ Extends d d' ∧
      ∃ cs, as = cs.map .output ∧
        List.Forall₂ (fun o c => d'.Built .not [.input o] false c) e.operands cs) := by
  refine simulates_buildEach hg (Or.inr rfl) (fun o ho => by simpa using fit_input hg hn ho)
    (by decide) (by decide) (fun o ho d₁ v w hm rs hrs => ?_) h hr
  obtain _ | ⟨h1, _ | _⟩ := hrs
  obtain ⟨b, hb⟩ := boolean_of_models hn hl hm.input o ho
  exact ⟨.boolean !b, Combines.not_iff.2 ⟨b, (value_of_input h1).trans hb, rfl⟩⟩

omit hg h in
theorem values_of_negated {cs : List NodeId} {rs : List Reading} (hf : Frame g ∅ T d)
    (ha : d.Agrees v w) (hs : SparesHold d w)
    (hcs : List.Forall₂ (fun o c => d.Built .not [.input o] false c) operands cs)
    (hrs : List.Forall₂ (Reads g v d w) (cs.map .output) rs) :
    List.Forall₂ (fun y z => Combines .not [y] z) (operands.map v) (rs.map (·.value)) := by
  refine values_of_built (Or.inr rfl) hf ha hs hcs (fun o rs z hrs hc => ?_) hrs
  obtain _ | ⟨h1, _ | _⟩ := hrs
  simpa [value_of_input h1] using hc

/-- The disjunction of negations. -/
theorem simulates_anyFalse {r : Option (Operand Exact)} {cs : List NodeId}
    (hcs : List.Forall₂ (fun o c => d.Built .not [.input o] false c) operands cs)
    (hr : LawRuns (build id .or (cs.map .output)) d r d') :
    ∃ a, r = some a ∧ (Simulates g ∅ T (fun _ => True) ∅ d' ∧ Extends d d' ∧
      ∃ c, a = .output c ∧ d'.Built .or (cs.map .output) false c) := by
  refine simulates_buildValue hg (Or.inr rfl) h (by simp [Fit]) (by decide) (by decide)
    (fun d₁ hext hf v w hm rs hrs => ?_) hr
  obtain ⟨bs, -, hzs⟩ := Combines.exists_of_negated
    (values_of_negated hf hm.agrees hm.sparesHold (hcs.imp fun _ _ h => h.mono hext) hrs)
  exact ⟨_, Combines.or_iff.2 ⟨_, hzs, rfl⟩⟩

omit hg h in
theorem boolean_of_built {op : Operator} {l : List (Operand Exact)} (hop : op.has .logic)
    (hc : d.Built op l false c) (hf : Frame g ∅ T d) (ha : d.Agrees v w) (hs : SparesHold d w) :
    ∃ b, w c = .boolean b := by
  obtain ⟨rs, -, hcomb⟩ := combines_of_built hc (Or.inr hop) hf ha hs
  obtain ⟨bs, b, -, -, hb⟩ := (Combines.iff_logical hop).1 hcomb
  exact ⟨b, hb⟩

/-- The negation of a new expression. -/
theorem simulates_negateOutput {op : Operator} {l : List (Operand Exact)}
    {r : Option (Operand Exact)} (hop : op.has .logic) (hc : d.Built op l false c)
    (hr : LawRuns (build id .not [.output c]) d r d') :
    ∃ a, r = some a ∧ (Simulates g ∅ T (fun _ => True) ∅ d' ∧ Extends d d' ∧
      ∃ c', a = .output c' ∧ d'.Built .not [.output c] false c') := by
  refine simulates_buildValue hg (Or.inr rfl) h (by simp [Fit]) (by decide) (by decide)
    (fun d₁ hext hf v w hm rs hrs => ?_) hr
  obtain _ | ⟨h1, _ | _⟩ := hrs
  obtain ⟨b, hb⟩ := boolean_of_built hop (hc.mono hext) hf hm.agrees hm.sparesHold
  exact ⟨.boolean !b, Combines.not_iff.2 ⟨b, (value_of_output h1).trans hb, rfl⟩⟩

omit hg h in
theorem negated_of_built {c' : NodeId} (hc : d.Built .not [.output c] false c')
    (hf : Frame g ∅ T d) (ha : d.Agrees v w) (hs : SparesHold d w) :
    Combines .not [w c] (w c') := by
  obtain ⟨rs, hrs, hnot⟩ := combines_of_built hc (Or.inr rfl) hf ha hs
  obtain _ | ⟨h1, _ | _⟩ := hrs
  simpa [value_of_output h1] using hnot

include hT

theorem settled_and (hn : g.node? id = some (.expression ⟨.and, operands, asserted⟩))
    (hr : LawRuns (do
      let anyFalse ← build id .or (← operands.mapM fun o => build id .not [.input o])
      become id .not [anyFalse]) d r d') : Settled g T id r d' := by
  obtain ⟨_, d₁, ⟨h₁, hext₁, cs, rfl, hcs⟩, hr₁⟩ := hr.step fun r d₁ =>
    simulates_negateEach hg h hn rfl
  obtain ⟨_, d₂, ⟨h₂, hext₂, c, rfl, hc⟩, hr₂⟩ := hr₁.step fun r d₂ =>
    simulates_anyFalse hg h₁ hcs
  refine simulates_becomeValue hg (Or.inr rfl) (Or.inr rfl) h₂ hn hT (by simp [Fit]) (by decide)
    (by decide) (fun d₃ hext hf v w hs ha rs hrs x => ?_) hr₂
  obtain _ | ⟨h1, _ | _⟩ := hrs
  obtain ⟨rs, hrs, hor⟩ := combines_of_built (hc.mono hext) (Or.inr rfl) hf ha hs
  have hneg := values_of_negated hf ha hs (hcs.imp fun _ _ h => h.mono (hext₂.trans hext)) hrs
  rw [List.map_singleton, value_of_output h1]
  exact Combines.and_iff hneg hor

theorem settled_implies {first : NodeId} {rest : List NodeId}
    (hn : g.node? id = some (.expression ⟨.implies, first :: rest, asserted⟩))
    (hr : LawRuns (do
      let premise ← build id .not [.input first]
      become id .or (premise :: rest.map .input)) d r d') : Settled g T id r d' := by
  obtain ⟨_, d₁, ⟨h₁, hext₁, c, rfl, hc⟩, hr₁⟩ := hr.step fun r d₁ =>
    simulates_negate hg h hn rfl (by simp)
  refine simulates_becomeValue hg (Or.inr rfl) (Or.inr rfl) h₁ hn hT ?_ (by decide)
    (by decide) (fun d₂ hext hf v w hs ha rs hrs x => ?_) hr₁
  · exact List.forall_mem_cons.2 ⟨trivial, fit_inputs hg hn fun o ho => by simp [ho]⟩
  · obtain _ | ⟨h1, hrest⟩ := hrs
    obtain ⟨rs, hrs, hnot⟩ := combines_of_built (hc.mono hext) (Or.inr rfl) hf ha hs
    obtain _ | ⟨h2, _ | _⟩ := hrs
    rw [reads_inputs hrest, List.map_cons, List.map_cons, map_value_listed, value_of_output h1]
    refine Combines.implies_iff ?_
    simpa [value_of_input h2] using hnot

theorem settled_xor (hn : g.node? id = some (.expression ⟨.xor, operands, asserted⟩))
    (hr : LawRuns (do
      let anyTrue ← build id .or (operands.map .input)
      let noneTrue ← build id .not [anyTrue]
      let anyFalse ← build id .or (← operands.mapM fun o => build id .not [.input o])
      let noneFalse ← build id .not [anyFalse]
      let uniform ← build id .or [noneTrue, noneFalse]
      become id .not [uniform]) d r d') : Settled g T id r d' := by
  obtain ⟨_, d₁, ⟨h₁, hext₁, c₁, rfl, hc₁⟩, hr₁⟩ := hr.step fun r d₁ =>
    simulates_buildValue hg (Or.inr rfl) h (fit_inputs hg hn fun o ho => ho) (by decide) (by decide)
      fun d₂ hext hf v w hm rs hrs => by
        obtain ⟨bs, -, hbs, -⟩ := ((hm.input id _ hn).1 : Operator.xor.Denotes _ _).logic rfl
        rw [reads_inputs hrs, hbs]
        exact ⟨_, Combines.or_booleans.2 rfl⟩
  obtain ⟨_, d₂, ⟨h₂, hext₂, c₂, rfl, hc₂⟩, hr₂⟩ := hr₁.step fun r d₂ =>
    simulates_negateOutput hg h₁ rfl hc₁
  obtain ⟨_, d₃, ⟨h₃, hext₃, cs, rfl, hcs⟩, hr₃⟩ := hr₂.step fun r d₃ =>
    simulates_negateEach hg h₂ hn rfl
  obtain ⟨_, d₄, ⟨h₄, hext₄, c₄, rfl, hc₄⟩, hr₄⟩ := hr₃.step fun r d₄ =>
    simulates_anyFalse hg h₃ hcs
  obtain ⟨_, d₅, ⟨h₅, hext₅, c₅, rfl, hc₅⟩, hr₅⟩ := hr₄.step fun r d₅ =>
    simulates_negateOutput hg h₄ rfl hc₄
  have hext₂₅ := (hext₃.trans hext₄).trans hext₅
  obtain ⟨_, d₆, ⟨h₆, hext₆, c₆, rfl, hc₆⟩, hr₆⟩ := hr₅.step fun r d₆ =>
    simulates_buildValue hg (Or.inr rfl) h₅ (by simp [Fit]) (by decide) (by decide)
      fun d₇ hext hf v w hm rs hrs => by
        obtain _ | ⟨h1, _ | ⟨h2, _ | _⟩⟩ := hrs
        obtain ⟨b, hb⟩ := boolean_of_built rfl (hc₂.mono (hext₂₅.trans hext)) hf hm.agrees
          hm.sparesHold
        obtain ⟨b', hb'⟩ := boolean_of_built rfl (hc₅.mono hext) hf hm.agrees hm.sparesHold
        refine ⟨_, Combines.or_iff.2 ⟨[b, b'], ?_, rfl⟩⟩
        simp [value_of_output h1, value_of_output h2, hb, hb']
  refine simulates_becomeValue hg (Or.inr rfl) (Or.inr rfl) h₆ hn hT (by simp [Fit]) (by decide)
    (by decide) (fun d₇ hext hf v w hs ha rs hrs x => ?_) hr₆
  obtain _ | ⟨h1, _ | _⟩ := hrs
  have hext₅' := hext₆.trans hext
  have hext₂' := hext₂₅.trans hext₅'
  obtain ⟨rs₁, hrs₁, hor₁⟩ := combines_of_built (hc₁.mono (hext₂.trans hext₂')) (Or.inr rfl) hf ha hs
  rw [reads_inputs hrs₁, map_value_listed] at hor₁
  obtain ⟨rs₄, hrs₄, hor₄⟩ := combines_of_built (hc₄.mono (hext₅.trans hext₅')) (Or.inr rfl) hf ha hs
  obtain ⟨rs₆, hrs₆, hor₆⟩ := combines_of_built (hc₆.mono hext) (Or.inr rfl) hf ha hs
  obtain _ | ⟨h2, _ | ⟨h3, _ | _⟩⟩ := hrs₆
  have hneg := values_of_negated hf ha hs
    (hcs.imp fun _ _ h => h.mono ((hext₄.trans hext₅).trans hext₅')) hrs₄
  rw [List.map_singleton, value_of_output h1]
  refine Combines.xor_iff hneg hor₁ (negated_of_built (hc₂.mono hext₂') hf ha hs) hor₄
    (negated_of_built (hc₅.mono hext₅') hf ha hs) ?_
  simpa [value_of_output h2, value_of_output h3] using hor₆

/-! Differences, quotients and rounding. -/

omit hg h hT in
theorem neg_one_eq : (-1 : Exact) = finite (-1) := by rw [one_eq, neg_finite]

omit hg h hT in
theorem neg_half_eq : (-0.5 : Exact) = finite (-(1 / 2)) := by rw [half_eq, neg_finite]

theorem settled_subtract {first : NodeId} {rest : List NodeId}
    (hn : g.node? id = some (.expression ⟨.subtract, first :: rest, asserted⟩))
    (hr : LawRuns (do
      let negated ← rest.mapM fun o => build id .multiply [.input o, number (-1)]
      become id .add (.input first :: negated)) d r d') : Settled g T id r d' := by
  rw [neg_one_eq] at hr
  obtain ⟨_, d₁, ⟨h₁, hext₁, cs, rfl, hcs⟩, hr₁⟩ := hr.step fun r d₁ =>
    simulates_buildEach hg (Or.inl rfl) (fun o ho => by
        simpa [number, Fit] using fit_input hg hn (o := o) (by simp [ho])) (by decide) (by decide)
      (fun o ho d₁ v w hm rs hrs => by
        obtain _ | ⟨h1, _ | ⟨h2, _ | _⟩⟩ := hrs
        obtain ⟨q, hq⟩ := number_of_models hn rfl hm.input o (by simp [ho])
        refine ⟨.number (-q), ?_⟩
        simp only [List.map_cons, List.map_nil, value_of_input h1, value_of_number h2]
        exact Combines.neg_iff.2 ⟨q, hq, rfl⟩) h
  refine simulates_becomeValue hg (Or.inl rfl) (Or.inl rfl) h₁ hn hT ?_ (by decide)
    (by decide) (fun d₂ hext hf v w hs ha rs hrs x => ?_) hr₁
  · exact List.forall_mem_cons.2 ⟨fit_input hg hn (by simp), by simp [Fit]⟩
  · obtain _ | ⟨h1, hrest⟩ := hrs
    have hneg := values_of_built (S := fun y z => Combines .multiply [y, .number (-1)] z)
      (Or.inl rfl) hf ha hs (hcs.imp fun _ _ h => h.mono hext) (fun o rs z hrs hc => by
        obtain _ | ⟨h1, _ | ⟨h2, _ | _⟩⟩ := hrs
        simpa only [List.map_cons, List.map_nil, value_of_input h1, value_of_number h2] using hc) hrest
    rw [List.map_cons, List.map_cons, value_of_input h1]
    exact Combines.subtract_iff hneg

theorem settled_divide (hn : g.node? id = some (.expression ⟨.divide, [a, b], asserted⟩))
    (hr : LawRuns (do
      let inverse ← build id .power [.input b, number (-1)]
      become id .multiply [.input a, inverse]) d r d') : Settled g T id r d' := by
  rw [neg_one_eq] at hr
  obtain ⟨_, d₁, ⟨h₁, hext₁, c, rfl, hc⟩, hr₁⟩ := hr.step fun r d₁ =>
    simulates_buildValue hg (Or.inl rfl) h
      (by simpa [number, Fit] using fit_input hg hn (o := b) (by simp)) (by decide) (by decide)
      fun d₁ _ hf v w hm rs hrs => by
        obtain _ | ⟨h1, _ | ⟨h2, _ | _⟩⟩ := hrs
        obtain ⟨qs, q, hqs, hq, -⟩ := ((hm.input id _ hn).1 : Operator.divide.Denotes _ _).arithmetic rfl
        obtain _ | ⟨p, _ | ⟨s, _ | _⟩⟩ := qs <;> simp at hqs
        have hs : s ≠ 0 := by
          rintro rfl
          simp [Operator.relaxed, Operator.arithmetic?] at hq
        refine ⟨.number s⁻¹, ?_⟩
        have hb : v b = .number s := hqs.2
        simp only [List.map_cons, List.map_nil, value_of_input h1, value_of_number h2, hb]
        exact Combines.power_neg_one hs
  refine simulates_becomeValue hg (Or.inl rfl) (Or.inl rfl) h₁ hn hT ?_ (by decide)
    (by decide) (fun d₂ hext hf v w hs ha rs hrs x => ?_) hr₁
  · exact List.forall_mem_cons.2 ⟨fit_input hg hn (by simp), by simp [Fit]⟩
  · obtain _ | ⟨h1, _ | ⟨h2, _ | _⟩⟩ := hrs
    obtain ⟨rs, hrs, hpow⟩ := combines_of_built (hc.mono hext) (Or.inl rfl) hf ha hs
    obtain _ | ⟨h3, _ | ⟨h4, _ | _⟩⟩ := hrs
    simp only [List.map_cons, List.map_nil, value_of_input h1, value_of_output h2]
    refine Combines.divide_iff ?_
    simpa only [List.map_cons, List.map_nil, value_of_input h3, value_of_number h4] using hpow

theorem settled_floor (hn : g.node? id = some (.expression ⟨.floor, [a], asserted⟩))
    (hr : LawRuns (do
      let shifted ← build id .add [.input a, number (-0.5)]
      become id .round [shifted]) d r d') : Settled g T id r d' := by
  rw [neg_half_eq] at hr
  obtain ⟨_, d₁, ⟨h₁, hext₁, c, rfl, hc⟩, hr₁⟩ := hr.step fun r d₁ =>
    simulates_buildValue hg (Or.inl rfl) h
      (by simpa [number, Fit] using fit_input hg hn (o := a) (by simp)) (by decide) (by decide)
      fun d₁ _ hf v w hm rs hrs => by
        obtain _ | ⟨h1, _ | ⟨h2, _ | _⟩⟩ := hrs
        obtain ⟨q, hq⟩ := number_of_models hn rfl hm.input a (by simp)
        refine ⟨.number (q + -(1 / 2)), ?_⟩
        simp only [List.map_cons, List.map_nil, value_of_input h1, value_of_number h2]
        exact Combines.shift_iff.2 ⟨q, hq, rfl⟩
  refine simulates_becomeValue hg (Or.inl rfl) (Or.inl rfl) h₁ hn hT (by simp [Fit]) (by decide)
    (by decide) (fun d₂ hext hf v w hs ha rs hrs x => ?_) hr₁
  obtain _ | ⟨h1, _ | _⟩ := hrs
  obtain ⟨rs, hrs, hadd⟩ := combines_of_built (hc.mono hext) (Or.inl rfl) hf ha hs
  obtain _ | ⟨h2, _ | ⟨h3, _ | _⟩⟩ := hrs
  simp only [List.map_cons, List.map_nil, value_of_output h1]
  refine Combines.floor_iff ?_
  simpa only [List.map_cons, List.map_nil, value_of_input h2, value_of_number h3] using hadd

theorem settled_ceil (hn : g.node? id = some (.expression ⟨.ceil, [a], asserted⟩))
    (hr : LawRuns (do
      let negated ← build id .multiply [.input a, number (-1)]
      let shifted ← build id .add [negated, number (-0.5)]
      let rounded ← build id .round [shifted]
      become id .multiply [rounded, number (-1)]) d r d') : Settled g T id r d' := by
  rw [neg_half_eq, neg_one_eq] at hr
  obtain ⟨_, d₁, ⟨h₁, hext₁, c₁, rfl, hc₁⟩, hr₁⟩ := hr.step fun r d₁ =>
    simulates_buildValue hg (Or.inl rfl) h
      (by simpa [number, Fit] using fit_input hg hn (o := a) (by simp)) (by decide) (by decide)
      fun d₁ _ hf v w hm rs hrs => by
        obtain _ | ⟨h1, _ | ⟨h2, _ | _⟩⟩ := hrs
        obtain ⟨q, hq⟩ := number_of_models hn rfl hm.input a (by simp)
        refine ⟨.number (-q), ?_⟩
        simp only [List.map_cons, List.map_nil, value_of_input h1, value_of_number h2]
        exact Combines.neg_iff.2 ⟨q, hq, rfl⟩
  have hneg : ∀ {d₂ : Draft Exact} {v w}, Extends d₁ d₂ → Frame g ∅ T d₂ → d₂.Agrees v w →
      SparesHold d₂ w → Combines .multiply [v a, .number (-1)] (w c₁) := by
    intro d₂ v w hext hf ha hs
    obtain ⟨rs, hrs, hc⟩ := combines_of_built (hc₁.mono hext) (Or.inl rfl) hf ha hs
    obtain _ | ⟨h1, _ | ⟨h2, _ | _⟩⟩ := hrs
    simpa only [List.map_cons, List.map_nil, value_of_input h1, value_of_number h2] using hc
  obtain ⟨_, d₂, ⟨h₂, hext₂, c₂, rfl, hc₂⟩, hr₂⟩ := hr₁.step fun r d₂ =>
    simulates_buildValue hg (Or.inl rfl) h₁ (by simp [number, Fit]) (by decide) (by decide)
      fun d₂ hext hf v w hm rs hrs => by
        obtain _ | ⟨h1, _ | ⟨h2, _ | _⟩⟩ := hrs
        obtain ⟨q, -, hq⟩ := Combines.neg_iff.1 (hneg hext hf hm.agrees hm.sparesHold)
        refine ⟨.number (-q + -(1 / 2)), ?_⟩
        simp only [List.map_cons, List.map_nil, value_of_output h1, value_of_number h2]
        exact Combines.shift_iff.2 ⟨-q, hq, rfl⟩
  have hshift : ∀ {d₃ : Draft Exact} {v w}, Extends d₂ d₃ → Frame g ∅ T d₃ → d₃.Agrees v w →
      SparesHold d₃ w → Combines .add [w c₁, .number (-(1 / 2))] (w c₂) := by
    intro d₃ v w hext hf ha hs
    obtain ⟨rs, hrs, hc⟩ := combines_of_built (hc₂.mono hext) (Or.inl rfl) hf ha hs
    obtain _ | ⟨h1, _ | ⟨h2, _ | _⟩⟩ := hrs
    simpa only [List.map_cons, List.map_nil, value_of_output h1, value_of_number h2] using hc
  obtain ⟨_, d₃, ⟨h₃, hext₃, c₃, rfl, hc₃⟩, hr₃⟩ := hr₂.step fun r d₃ =>
    simulates_buildValue hg (Or.inl rfl) h₂ (by simp [Fit]) (by decide) (by decide)
      fun d₃ hext hf v w hm rs hrs => by
        obtain _ | ⟨h1, _ | _⟩ := hrs
        obtain ⟨q, -, hq⟩ := Combines.shift_iff.1 (hshift hext hf hm.agrees hm.sparesHold)
        exact ⟨_, Combines.round_iff.2 ⟨_, (value_of_output h1).trans hq, rfl⟩⟩
  refine simulates_becomeValue hg (Or.inl rfl) (Or.inl rfl) h₃ hn hT (by simp [number, Fit])
    (by decide) (by decide) (fun d₄ hext hf v w hs ha rs hrs x => ?_) hr₃
  obtain _ | ⟨h1, _ | ⟨h2, _ | _⟩⟩ := hrs
  obtain ⟨rs, hrs, hround⟩ := combines_of_built (hc₃.mono hext) (Or.inl rfl) hf ha hs
  obtain _ | ⟨h3, _ | _⟩ := hrs
  simp only [List.map_cons, List.map_nil, value_of_output h1, value_of_number h2]
  refine Combines.ceil_iff (hneg ((hext₂.trans hext₃).trans hext) hf ha hs)
    (hshift (hext₃.trans hext) hf ha hs) ?_
  simpa only [List.map_cons, List.map_nil, value_of_output h3] using hround

/-! Relations that are read from the other side, or loosely. -/

theorem settled_relation {op : Operator} {l : List NodeId}
    (hn : g.node? id = some (.expression ⟨op, [a, b], asserted⟩)) (op' : Operator)
    (hl : ∀ o ∈ l, o = a ∨ o = b) (hu : op ≠ .union) (hw : op' ∈ Operator.meant)
    (hw' : op' ∉ Operator.gathers)
    (hiff : ∀ (read : NodeId → Reading) x, op.relaxed.Denotes [read a, read b] x ↔
      op'.relaxed.Denotes (l.map read) x)
    (hr : LawRuns (become id op' (l.map .input)) d r d') : Settled g T id r d' := by
  refine simulates_become hg h hn hT (fit_inputs hg hn fun o ho => by simpa using hl o ho) hw hw' hu
    (fun d₁ _ _ v w _ _ rs hrs x => ?_) hr
  rw [reads_inputs hrs]
  exact hiff _ x

end Laws

end Pass

end ParameterSolver
