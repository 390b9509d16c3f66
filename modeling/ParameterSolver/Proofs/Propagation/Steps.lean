import Mathlib.Tactic.Common
import ParameterSolver.Proofs.Graph.Order
import ParameterSolver.Propagation.Sweep

/-! What propagation can do to what is known. However it narrows, it only restricts nodes, marks
exact sets and clears the flag for news, so that what these three keep is kept by every sweep. -/

namespace ParameterSolver

namespace Knowledge

variable {α : Type} [Scalar α] {g : Generation α} {k k' k'' : Knowledge α} {because : Provenance}
  {id : NodeId} {e : Expression}

/-- A restriction tells nothing new, or it sets a node to the bound or to what the bound leaves of its
set. -/
theorem restrict_cases (g : Generation α) (because : Provenance) (k : Knowledge α) (id : NodeId)
    (bound : ValueSet α) :
    (restrict g because k id bound = k ∧ ∃ current, k.value? id = some current ∧
      ∀ next, current.inter bound = .ok next → current == next) ∨
    ∃ next emptied, restrict g because k id bound =
        ⟨k.values.insert id next, k.exact,
          k.evidence.insert id ((k.evidenceOf id).union because), emptied, true⟩ ∧
      ((k.value? id = none ∧ next = bound) ∨
        ∃ current, k.value? id = some current ∧ current.inter bound = .ok next) ∧
      (emptied = k.emptied ∨ emptied = k.emptied ++ [id] ∧ next.isEmpty) := by
  unfold restrict
  cases hr : k.refined? id bound with
  | none =>
    refine Or.inl ⟨rfl, ?_⟩
    unfold refined? at hr
    cases hv : k.value? id with
    | none => simp [hv] at hr
    | some current =>
      refine ⟨current, rfl, fun next hnext => ?_⟩
      simpa [hv, hnext] using hr
  | some next =>
    right
    have hvalue : (k.value? id = none ∧ next = bound) ∨
        ∃ current, k.value? id = some current ∧ current.inter bound = .ok next := by
      unfold refined? at hr
      split at hr
      · exact Or.inl ⟨‹_›, (Option.some.inj hr).symm⟩
      · split at hr
        · cases hr
        · split_ifs at hr
          cases hr
          exact Or.inr ⟨_, ‹_›, ‹_›⟩
    dsimp only
    split_ifs with hreport
    · simp only [Bool.and_eq_true] at hreport
      exact ⟨next, _, rfl, hvalue, Or.inr ⟨rfl, hreport.1.1.1⟩⟩
    · exact ⟨next, _, rfl, hvalue, Or.inl rfl⟩

/-- What is known in `k'` is learnt from what is known in `k`. -/
inductive Learns (g : Generation α) (k : Knowledge α) : Knowledge α → Prop
  | refl : Learns g k k
  | restrict {k' : Knowledge α} (h : Learns g k k') (because : Provenance) (id : NodeId)
    (bound : ValueSet α) : Learns g k (restrict g because k' id bound)
  | exact {k' : Knowledge α} (h : Learns g k k') (id : NodeId) :
    Learns g k { k' with exact := k'.exact.insert id () }
  | clear {k' : Knowledge α} (h : Learns g k k') : Learns g k { k' with changed := false }

theorem Learns.trans (h : Learns g k k') (h' : Learns g k' k'') : Learns g k k'' := by
  induction h' with
  | refl => exact h
  | restrict _ because id bound ih => exact ih.restrict because id bound
  | exact _ id ih => exact ih.exact id
  | clear _ ih => exact ih.clear

theorem Learns.foldl {β : Type} {f : Knowledge α → β → Knowledge α}
    (hf : ∀ k x, Learns g k (f k x)) (l : List β) (k : Knowledge α) : Learns g k (l.foldl f k) := by
  induction l generalizing k with
  | nil => exact .refl
  | cons x l ih => exact (hf k x).trans (ih (f k x))

/-- What is known once an expression has its mark, if its operands have theirs. -/
def marked (k : Knowledge α) (id : NodeId) (e : Expression) : Knowledge α :=
  if (Propagation.keepsExactness e.op && e.operands.all k.exact.contains) = true then
    { k with exact := k.exact.insert id () } else k

/-- A forward step sets the mark of the expression and restricts it to its value, if it has one. -/
theorem exists_forwardStep_eq (he : g.expression? id = some e) :
    ∃ because, forwardStep g k id =
      match k.forwardValue? e with
      | none => k.marked id e
      | some v => restrict g because (k.marked id e) id v := by
  unfold forwardStep
  rw [he]
  exact ⟨_, rfl⟩

/-- A forward step looks at no node but the expression. -/
theorem forwardStep_cases (k : Knowledge α) (id : NodeId) :
    forwardStep g k id = k ∨ ∃ e, g.expression? id = some e ∧
      ∃ exact, (exact = k.exact ∨ exact = k.exact.insert id ()) ∧
        (forwardStep g k id = { k with exact := exact } ∨
          ∃ because v, forwardStep g k id = restrict g because { k with exact := exact } id v) := by
  unfold forwardStep
  cases he : g.expression? id with
  | none => exact Or.inl rfl
  | some e =>
    refine Or.inr ⟨e, rfl, ?_⟩
    dsimp only
    split_ifs
    · refine ⟨k.exact.insert id (), Or.inr rfl, ?_⟩
      split
      · exact Or.inl rfl
      · exact Or.inr ⟨_, _, rfl⟩
    · refine ⟨k.exact, Or.inl rfl, ?_⟩
      split
      · exact Or.inl rfl
      · exact Or.inr ⟨_, _, rfl⟩

theorem learns_forwardStep (k : Knowledge α) (id : NodeId) : Learns g k (forwardStep g k id) := by
  obtain h | ⟨e, -, exact, hexact, h⟩ := forwardStep_cases (g := g) k id
  · rw [h]
    exact .refl
  have hk : Learns g k { k with exact := exact } := by
    rcases hexact with rfl | rfl
    · exact .refl
    · exact Learns.refl.exact id
  rcases h with h | ⟨because, v, h⟩ <;> rw [h]
  · exact hk
  · exact hk.restrict because id v

theorem learns_narrow (k : Knowledge α) (id : NodeId) (bound : ValueSet α) :
    Learns g k (narrow g because k id bound) := by
  unfold narrow
  split_ifs
  · exact .refl
  · exact Learns.refl.restrict because id bound

/-- The knowledge `k'` comes from `k` by narrowing some of the nodes in `targets` for one reason. -/
inductive Narrows (g : Generation α) (because : Provenance) (targets : NodeId → Prop)
    (k : Knowledge α) : Knowledge α → Prop
  | refl : Narrows g because targets k k
  | narrow {k' : Knowledge α} (h : Narrows g because targets k k') {id : NodeId}
    (hid : targets id) (bound : ValueSet α) :
    Narrows g because targets k (narrow g because k' id bound)

section Narrows

variable {targets : NodeId → Prop}

theorem Narrows.trans (h : Narrows g because targets k k')
    (h' : Narrows g because targets k' k'') : Narrows g because targets k k'' := by
  induction h' with
  | refl => exact h
  | narrow _ hid bound ih => exact ih.narrow hid bound

omit [Scalar α] in
theorem foldl_inv_of_mem {β : Type} {Inv : Knowledge α → Prop} {f : Knowledge α → β → Knowledge α}
    {l : List β} (hinv : ∀ x ∈ l, ∀ k, Inv k → Inv (f k x)) (hk : Inv k) : Inv (l.foldl f k) := by
  induction l generalizing k with
  | nil => exact hk
  | cons x l ih =>
    obtain ⟨hx, hl⟩ := List.forall_mem_cons.1 hinv
    exact ih hl (hx k hk)

theorem Narrows.foldl {β : Type} {f : Knowledge α → β → Knowledge α} {l : List β}
    (hf : ∀ x ∈ l, ∀ k, Narrows g because targets k (f k x)) (k : Knowledge α) :
    Narrows g because targets k (l.foldl f k) :=
  foldl_inv_of_mem (fun x hx k' h => h.trans (hf x hx k')) .refl

theorem Narrows.learns (h : Narrows g because targets k k') : Learns g k k' := by
  induction h with
  | refl => exact .refl
  | narrow _ _ bound ih => exact ih.trans (learns_narrow _ _ bound)

theorem narrows_narrow (hid : targets id) (k : Knowledge α) (bound : ValueSet α) :
    Narrows g because targets k (narrow g because k id bound) :=
  Narrows.refl.narrow hid bound

theorem narrows_narrowIs {a b : NodeId} (ha : targets a) (hb : targets b) (k : Knowledge α) :
    Narrows g because targets k (narrowIs g because k a b) := by
  unfold narrowIs
  split
  · split
    · exact (narrows_narrow ha k _).trans (narrows_narrow hb _ _)
    · exact .refl
  · exact narrows_narrow ha k _
  · exact narrows_narrow hb k _
  · exact .refl

/-- What each of the two bounds keeps is kept by both. -/
theorem narrowPair_inv {Inv : Knowledge α → Prop} {high low : NodeId} (hk : Inv k)
    (hhigh : ∀ k x unit, Inv k → Inv (narrow g because k high (.numeric ⟨.atLeast x, unit⟩)))
    (hlow : ∀ k x unit, Inv k → Inv (narrow g because k low (.numeric ⟨.atMost x, unit⟩))) :
    Inv (narrowPair g because k high low) := by
  unfold narrowPair
  extract_lets k'
  have hk' : Inv k' := by
    dsimp only [k']
    split
    · exact hhigh k _ _ hk
    · exact hk
  split
  · exact hlow k' _ _ hk'
  · exact hk'

theorem narrows_narrowPair {high low : NodeId} (hhigh : targets high) (hlow : targets low)
    (k : Knowledge α) : Narrows g because targets k (narrowPair g because k high low) :=
  narrowPair_inv .refl (fun _ _ _ h => h.trans (narrows_narrow hhigh _ _))
    fun _ _ _ h => h.trans (narrows_narrow hlow _ _)

theorem narrows_narrowOrder {high low : NodeId} (hhigh : ∀ m ∈ members g high, targets m)
    (hlow : ∀ m ∈ members g low, targets m) (k : Knowledge α) :
    Narrows g because targets k (narrowOrder g because k high low) :=
  Narrows.foldl (fun h hh => Narrows.foldl fun l hl => narrows_narrowPair (hhigh h hh) (hlow l hl)) k

theorem narrows_narrowOr {operands : List NodeId} (ho : ∀ o ∈ operands, targets o)
    (k : Knowledge α) (value : ValueSet α) :
    Narrows g because targets k (narrowOr g because k operands value) := by
  unfold narrowOr
  split_ifs
  · exact Narrows.foldl (fun o h k => narrows_narrow (ho o h) k _) k
  · split
    · rename_i only honly
      have hmem : only ∈ operands.filter fun o => !(k.value? o).any ValueSet.isFalse := by
        rw [honly]
        exact List.mem_singleton_self only
      exact narrows_narrow (ho only (List.mem_of_mem_filter hmem)) k _
    · exact .refl
  · exact .refl

theorem narrows_narrowEach {operands : List NodeId} (ho : ∀ o ∈ operands, targets o)
    (k : Knowledge α) (bound? : Quantities α → List (Quantities α) → Nat → Option (Quantities α))
    (value : ValueSet α) :
    Narrows g because targets k (narrowEach g because k bound? operands value) := by
  unfold narrowEach
  split
  · refine Narrows.foldl (fun x hx k => ?_) k
    dsimp only
    split
    · exact narrows_narrow (ho x.1 (List.fst_mem_of_mem_zipIdx hx)) k _
    · exact .refl
  · exact .refl

/-- The nodes that a predicate narrows are operands, or operands of a union among them. -/
theorem narrows_narrowOperands (ho : ∀ o ∈ e.operands, targets o)
    (hm : ∀ o ∈ e.operands, ∀ m ∈ members g o, targets m) (k : Knowledge α) (value : ValueSet α) :
    Narrows g because targets k (narrowOperands g because k e value) := by
  unfold narrowOperands
  split
  · rename_i a b rest _ hops
    split_ifs
    · exact narrows_narrowIs (ho a (by simp [hops])) (ho b (by simp [hops])) k
    · exact .refl
  · rename_i a b rest _ hops
    split
    · exact narrows_narrow (ho a (by simp [hops])) k _
    · exact .refl
  · rename_i a b rest _ hops
    split_ifs
    · exact narrows_narrowOrder (hm a (by simp [hops])) (hm b (by simp [hops])) k
    · exact .refl
  · rename_i a rest _ hops
    split
    · exact narrows_narrow (ho a (by simp [hops])) k _
    · exact .refl
  · exact narrows_narrowOr ho k _
  · exact narrows_narrowEach ho k _ _
  · exact narrows_narrowEach ho k _ _
  · exact .refl

end Narrows

omit [Scalar α] in
theorem uses_of_mem_members {m n : NodeId} (h : m ∈ members g n) :
    Relation.ReflTransGen g.Uses n m := by
  unfold members at h
  split at h
  · rename_i x hx
    split_ifs at h
    · exact .single (Generation.mem_operands_iff.2 ⟨x, hx, h⟩)
    · rw [List.mem_singleton.1 h]
  · rw [List.mem_singleton.1 h]

/-- A backward step narrows only what is below the expression. -/
theorem narrows_backwardStep (k : Knowledge α) (id : NodeId) :
    Narrows g (explanation g k id) (Relation.TransGen g.Uses id) k (backwardStep g k id) := by
  unfold backwardStep
  split
  · rename_i e value he hvalue
    split_ifs
    · exact .refl
    · have hstep (o : NodeId) (ho : o ∈ e.operands) : g.Uses id o :=
        Generation.mem_operands_iff.2 ⟨e, he, ho⟩
      exact narrows_narrowOperands (fun o ho => .single (hstep o ho))
        (fun o ho m hm => .head' (hstep o ho) (uses_of_mem_members hm)) k value
  · exact .refl

theorem learns_backwardStep (k : Knowledge α) (id : NodeId) : Learns g k (backwardStep g k id) :=
  (narrows_backwardStep k id).learns

/-- There is no news in `k'` that is not in `k`, unless the flag is raised. -/
def Quiet (k k' : Knowledge α) : Prop :=
  k'.changed = false → k.changed = false ∧ ∀ n, k'.value? n = k.value? n

omit [Scalar α] in
theorem Quiet.refl (k : Knowledge α) : Quiet k k := fun h => ⟨h, fun _ => rfl⟩

omit [Scalar α] in
theorem Quiet.trans (h : Quiet k k') (h' : Quiet k' k'') : Quiet k k'' := by
  intro hk
  obtain ⟨hk', hvalue'⟩ := h' hk
  obtain ⟨hk, hvalue⟩ := h hk'
  exact ⟨hk, fun n => (hvalue' n).trans (hvalue n)⟩

omit [Scalar α] in
theorem Quiet.foldl {β : Type} {f : Knowledge α → β → Knowledge α} (hf : ∀ k x, Quiet k (f k x))
    (l : List β) (k : Knowledge α) : Quiet k (l.foldl f k) := by
  induction l generalizing k with
  | nil => exact .refl k
  | cons x l ih => exact (hf k x).trans (ih (f k x))

theorem quiet_restrict (k : Knowledge α) (id : NodeId) (bound : ValueSet α) :
    Quiet k (restrict g because k id bound) := by
  obtain ⟨hr, -⟩ | ⟨next, emptied, hr, -⟩ := restrict_cases g because k id bound <;> rw [hr]
  · exact .refl k
  · exact fun h => nomatch h

theorem Narrows.quiet {targets : NodeId → Prop} (h : Narrows g because targets k k') :
    Quiet k k' := by
  induction h with
  | refl => exact .refl k
  | narrow _ _ bound ih =>
    unfold Knowledge.narrow
    split_ifs
    · exact ih
    · exact ih.trans (quiet_restrict _ _ bound)

theorem quiet_forwardStep (k : Knowledge α) (id : NodeId) : Quiet k (forwardStep g k id) := by
  obtain h | ⟨e, -, exact, -, h | ⟨because, v, h⟩⟩ := forwardStep_cases (g := g) k id <;> rw [h]
  · exact .refl k
  · exact fun h => ⟨h, fun _ => rfl⟩
  · exact quiet_restrict { k with exact := exact } id v

theorem learns_sweep (order : List NodeId) (k : Knowledge α) : Learns g k (sweep g order k) :=
  (Learns.refl.clear.trans (Learns.foldl learns_forwardStep order _)).trans
    (Learns.foldl learns_backwardStep order.reverse _)

end Knowledge

namespace Propagation

variable {α : Type} [Scalar α] {g : Generation α}

/-- What every sweep keeps is kept by all of them. -/
theorem iterate_inv {order : List NodeId} {Inv : Knowledge α → Prop}
    (hsweep : ∀ k, Inv k → Inv (k.sweep g order)) (budget : ℕ) (p : Propagation α)
    (hp : Inv p.knowledge) : Inv (iterate g order budget p).knowledge := by
  induction budget generalizing p with
  | zero => exact hp
  | succ budget ih =>
    unfold iterate
    dsimp only
    split_ifs
    · exact ih _ (hsweep _ hp)
    · exact hsweep _ hp

theorem learns_iterate (order : List NodeId) (budget : ℕ) (p : Propagation α) :
    p.knowledge.Learns g (iterate g order budget p).knowledge := by
  induction budget generalizing p with
  | zero => exact .refl
  | succ budget ih =>
    have hsweep := Knowledge.learns_sweep (g := g) order p.knowledge
    unfold iterate
    dsimp only
    split_ifs
    · exact hsweep.trans (ih ⟨_, p.rounds + 1⟩)
    · exact hsweep

theorem learns_run (g : Generation α) (budget : ℕ) :
    (Knowledge.seed g).Learns g (run g budget).knowledge :=
  learns_iterate g.topologicalOrder budget ⟨.seed g, 0⟩

end Propagation

end ParameterSolver
