import ParameterSolver.Proofs.Pass.Laws
import ParameterSolver.Proofs.Pass.Merging

/-! Flattening an expression. What is left of the operands has the same value under the operator. -/

namespace ParameterSolver

open Exact ParameterSolver.Valuation

/-- An operator that makes one value of the kind `tag` out of any list of them, however they are
grouped. -/
structure Folds (op : Operator) {β : Type} (tag : β → Value ℚ) (f : List β → β) : Prop where
  injective : tag.Injective
  combines : ∀ ys x, Combines op ys x ↔ ∃ bs, ys = bs.map tag ∧ x = tag (f bs)
  nest : ∀ as bs cs, f (as ++ f bs :: cs) = f (as ++ (bs ++ cs))

namespace Folds

variable {op : Operator} {β : Type} {tag : β → Value ℚ} {f : List β → β} {x y : Value ℚ}
  {xs ys zs : List (Value ℚ)}

theorem arithmetic {f : List ℚ → ℚ} (h : op.has .arithmetic)
    (hf : ∀ qs, op.arithmetic? qs = some (f qs))
    (hn : ∀ as bs cs, f (as ++ f bs :: cs) = f (as ++ (bs ++ cs))) : Folds op .number f := by
  refine ⟨fun a b hab => by cases hab; rfl, fun ys x => ?_, hn⟩
  rw [Combines.iff_arithmetic h]
  constructor
  · rintro ⟨qs, q, rfl, hq, rfl⟩
    rw [hf] at hq
    cases hq
    exact ⟨qs, rfl, rfl⟩
  · rintro ⟨qs, rfl, rfl⟩
    exact ⟨qs, _, rfl, hf qs, rfl⟩

theorem or : Folds .or .boolean fun bs => bs.any id := by
  refine ⟨fun a b hab => by cases hab; rfl, fun ys x => Combines.or_iff, fun as bs cs => ?_⟩
  simp [List.any_append]

/-- The operators that are flattened, apart from unions. -/
theorem of_flattens (h : Pass.flattens op) (hu : op ≠ .union) :
    ∃ (β : Type) (tag : β → Value ℚ) (f : List β → β), Folds op tag f := by
  cases op <;> simp_all [Pass.flattens, Operator.isCanonical, Operator.has, Operator.having]
  · exact ⟨ℚ, _, _, arithmetic rfl (fun qs => rfl) fun as bs cs => by simp⟩
  · exact ⟨ℚ, _, _, arithmetic rfl (fun qs => rfl) fun as bs cs => by simp⟩
  · exact ⟨Bool, _, _, or⟩

/-- The operators that are flattened, apart from unions, combine values. -/
theorem kind_of_flattens (h : Pass.flattens op) (hu : op ≠ .union) :
    op.has .arithmetic ∨ op.has .logic := by
  cases op <;> simp_all [Pass.flattens, Operator.isCanonical, Operator.has, Operator.having,
    Operator.logical]

/-- A value that is itself made by the operator gives way to what it is made of. -/
theorem combines_nest (h : Folds op tag f) (hy : Combines op ys y) :
    Combines op (xs ++ y :: zs) x ↔ Combines op (xs ++ (ys ++ zs)) x := by
  obtain ⟨bs, rfl, rfl⟩ := (h.combines ys y).1 hy
  rw [h.combines, h.combines]
  constructor
  · rintro ⟨l, hl, rfl⟩
    obtain ⟨as, l', rfl, rfl, hl'⟩ := List.append_eq_map_iff.1 hl
    obtain ⟨b, cs, rfl, hb, rfl⟩ := List.map_eq_cons_iff.1 hl'
    obtain rfl := h.injective hb
    exact ⟨as ++ (bs ++ cs), by simp, by rw [h.nest]⟩
  · rintro ⟨l, hl, rfl⟩
    obtain ⟨as, l', rfl, rfl, hl'⟩ := List.append_eq_map_iff.1 hl
    obtain ⟨bs', cs, rfl, hbs, rfl⟩ := List.map_eq_append_iff.1 hl'
    obtain rfl := List.map_injective_iff.2 h.injective hbs
    exact ⟨as ++ f bs' :: cs, by simp, by rw [h.nest]⟩

/-- Operands have a value under the operator as soon as each is one of its operands or values. -/
theorem exists_combines (h : Folds op tag f) (hys : ∀ y ∈ ys, (∃ xs x, Combines op xs x ∧ y ∈ xs) ∨
    ∃ zs, Combines op zs y) : ∃ z, Combines op ys z := by
  obtain ⟨bs, rfl⟩ : ∃ bs : List β, ys = bs.map tag := Combines.exists_map_eq fun y hy => by
    rcases hys y hy with ⟨xs, x, hx, hmem⟩ | ⟨zs, hzs⟩
    · obtain ⟨as, rfl, rfl⟩ := (h.combines xs x).1 hx
      obtain ⟨b, -, rfl⟩ := List.mem_map.1 hmem
      exact ⟨b, rfl⟩
    · obtain ⟨bs, -, rfl⟩ := (h.combines zs y).1 hzs
      exact ⟨_, rfl⟩
  exact ⟨_, (h.combines _ _).2 ⟨bs, rfl, rfl⟩⟩

end Folds

/-- An idempotent operator does not count its operands. -/
theorem Combines.congr_mem {op : Operator} {ys zs : List (Value ℚ)} {x : Value ℚ}
    (hop : op.has .idempotent) (h : ∀ y, y ∈ ys ↔ y ∈ zs) (hx : Combines op ys x) :
    Combines op zs x := by
  have hset : ({ y | y ∈ ys } : Set (Value ℚ)) = { y | y ∈ zs } := Set.ext h
  have hbool : ∀ bs : List Bool, ys = bs.map .boolean →
      ∃ cs : List Bool, zs = cs.map .boolean ∧ ∀ c, c ∈ bs ↔ c ∈ cs := by
    rintro bs rfl
    obtain ⟨cs, rfl⟩ : ∃ cs : List Bool, zs = cs.map .boolean := exists_map_eq fun z hz => by
      obtain ⟨b, -, rfl⟩ := List.mem_map.1 ((h z).2 hz)
      exact ⟨b, rfl⟩
    exact ⟨cs, rfl, fun c => by simpa using h (.boolean c)⟩
  cases op <;> simp [Operator.has, Operator.having] at hop
  case or =>
    obtain ⟨bs, rfl, rfl⟩ := or_iff.1 hx
    obtain ⟨cs, rfl, hcs⟩ := hbool bs rfl
    refine or_iff.2 ⟨cs, rfl, ?_⟩
    rw [Value.boolean.injEq, Bool.eq_iff_iff]
    simp [hcs]
  case and =>
    obtain ⟨bs, b, rfl, hb, rfl⟩ := (iff_logical rfl).1 hx
    obtain ⟨cs, rfl, hcs⟩ := hbool bs rfl
    cases hb
    rw [and_booleans, Value.boolean.injEq, Bool.eq_iff_iff]
    simp [hcs]
  case min =>
    rw [min_iff] at hx ⊢
    rw [← hset, ← h]
    exact hx
  case max =>
    rw [max_iff] at hx ⊢
    rw [← hset, ← h]
    exact hx
  case union | intersection =>
    rcases hx with ⟨_, _, -, hq, -⟩ | ⟨_, _, -, hb, -⟩
    · cases hq
    · cases hb

namespace Pass

variable {g : Generation Exact} {e c : Expression} {o p root : NodeId}
  {acc : List NodeId × List NodeId}

/-- What is left has the value of the operands under the operator, if the merged nodes have the
values of theirs. -/
theorem combines_flatten {op : Operator} {β : Type} {tag : β → Value ℚ} {f : List β → β}
    (hf : Folds op tag f) {fuel : ℕ} (hs : Shallow g fuel e) (hop : e.op = op) {v : Valuation}
    (hv : ∀ q ∈ (flatten g fuel acc e).2, Combines op ((g.operands q).map v) (v q))
    (S : List (Value ℚ)) {x : Value ℚ} :
    Combines op (acc.1.map v ++ (e.operands.map v ++ S)) x ↔
      Combines op ((flatten g fuel acc e).1.map v ++ S) x := by
  induction fuel generalizing acc e S with
  | zero => exact absurd hs id
  | succ fuel ih =>
    have hfold : ∀ (l : List NodeId) (acc : List NodeId × List NodeId), (∀ o ∈ l, o ∈ e.operands) →
        (∀ q ∈ (l.foldl (flattenStep g fuel e) acc).2, Combines op ((g.operands q).map v) (v q)) →
        (Combines op (acc.1.map v ++ (l.map v ++ S)) x ↔
          Combines op ((l.foldl (flattenStep g fuel e) acc).1.map v ++ S) x) := by
      intro l
      induction l with
      | nil => exact fun acc _ _ => Iff.rfl
      | cons o l ihl =>
        intro acc hl hv
        have haccrue := accrues_foldl (g := g) (accrues_flattenStep fuel · e) l (flattenStep g fuel e acc o)
        rw [List.foldl_cons, ← ihl _ (fun x hx => hl x (by simp [hx])) hv]
        cases hc : absorbable? g o e with
        | none =>
          rw [flattenStep_of_none hc]
          simp
        | some c =>
          rw [flattenStep_of_some hc] at haccrue ⊢
          obtain ⟨hn, hcop, -⟩ := absorbable?_eq_some.1 hc
          rw [← ih (hs o (hl o (by simp)) c hc) (hcop.trans hop) (fun q hq => hv q (by
            rw [List.foldl_cons, flattenStep_of_some hc]
            exact haccrue.absorbed hq)) (l.map v ++ S)]
          have hval := hv o (by
            rw [List.foldl_cons, flattenStep_of_some hc]
            exact haccrue.absorbed ((accrues_flatten (g := g) fuel _ c).absorbed
              (mem_mark.2 (Or.inr rfl))))
          rw [Generation.operands_of_node? hn] at hval
          exact hf.combines_nest hval
    exact hfold e.operands acc (fun _ h => h) hv

end Pass

end ParameterSolver
