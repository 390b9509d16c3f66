import Mathlib.Data.List.Forall2
import ParameterSolver.Proofs.Graph.Linked
import ParameterSolver.Propagation.Evaluate

/-! Evaluation of a graph from the bottom. A node means what an interpretation of the operators makes of
what its operands mean; what a node is known to be without looking at the graph above it is the meaning
in one such interpretation. -/

namespace ParameterSolver

variable {α β : Type}

section Lists

variable {γ δ : Type} {R : γ → δ → Prop} {S : γ → β → Prop} {T : δ → β → Prop} {l : List γ}
  {js : List δ} {bs : List β}

theorem exists_of_forall₂ (h : List.Forall₂ R l js) {x : γ} (hx : x ∈ l) : ∃ y ∈ js, R x y := by
  obtain ⟨i, hi, rfl⟩ := List.mem_iff_getElem.1 hx
  exact ⟨_, List.getElem_mem _, h.get hi (h.length_eq ▸ hi)⟩

theorem forall₂_through (h : List.Forall₂ R l js) (h' : List.Forall₂ S l bs)
    (hT : ∀ x y b, R x y → S x b → T y b) : List.Forall₂ T js bs := by
  induction h generalizing bs with
  | nil =>
    cases h'
    exact .nil
  | cons hxy _ ih =>
    cases h' with
    | cons hxb hrest => exact .cons (hT _ _ _ hxy hxb) (ih hrest)

end Lists

/-- What the literals and the operators mean. -/
structure Interpretation (α β : Type) where
  leaf : ValueSet α → β
  node : Operator → List β → β

/-- The meaning of a node over literals. -/
inductive Generation.Means (g : Generation α) (I : Interpretation α β) : NodeId → β → Prop
  | literal {id : NodeId} {s : ValueSet α} {u : Option (MeasureUnit α)}
    (h : g.node? id = some (.literal s u)) : Means g I id (I.leaf s)
  | expression {id : NodeId} {e : Expression} {bs : List β}
    (h : g.node? id = some (.expression e)) (hlen : e.operands.length = bs.length)
    (hops : ∀ o b, (o, b) ∈ e.operands.zip bs → Means g I o b) : Means g I id (I.node e.op bs)

namespace Generation

variable {g : Generation α} {I : Interpretation α β} {id : NodeId} {b b' : β} {bs : List β}
  {e : Expression} {s : ValueSet α} {u : Option (MeasureUnit α)}

theorem Means.of_forall₂ (h : g.node? id = some (.expression e))
    (hops : List.Forall₂ (g.Means I) e.operands bs) : g.Means I id (I.node e.op bs) :=
  .expression h hops.length_eq fun _ _ hmem => (List.forall₂_iff_zip.1 hops).2 hmem

theorem Means.contains (h : g.Means I id b) : g.contains id := by
  cases h with
  | literal hn => exact contains_of_node? hn
  | expression hn => exact contains_of_node? hn

theorem Means.of_literal (h : g.Means I id b) (hn : g.node? id = some (.literal s u)) :
    b = I.leaf s := by
  cases h with
  | literal hn' =>
    cases hn.symm.trans hn'
    rfl
  | expression hn' => cases hn.symm.trans hn'

theorem Means.of_expression (h : g.Means I id b) (hn : g.node? id = some (.expression e)) :
    ∃ bs, b = I.node e.op bs ∧ List.Forall₂ (g.Means I) e.operands bs := by
  cases h with
  | literal hn' => cases hn.symm.trans hn'
  | expression hn' hlen hops =>
    cases hn.symm.trans hn'
    exact ⟨_, rfl, List.forall₂_iff_zip.2 ⟨hlen, fun hmem => hops _ _ hmem⟩⟩

/-- A node means one thing. -/
theorem Means.unique (h : g.Means I id b) (h' : g.Means I id b') : b = b' := by
  induction h generalizing b' with
  | literal hn => exact (h'.of_literal hn).symm
  | @expression id e bs hn hlen _ ih =>
    obtain ⟨bs', rfl, hops'⟩ := h'.of_expression hn
    refine congrArg (I.node e.op) (List.ext_getElem (hlen.symm.trans hops'.length_eq) fun i hi hi' => ?_)
    have hie : i < e.operands.length := by omega
    have hmem : (e.operands[i], bs[i]) ∈ e.operands.zip bs :=
      List.mem_iff_getElem.2 ⟨i, by simp; omega, List.getElem_zip⟩
    exact ih _ _ hmem (hops'.get hie hi')

/-- Nodes mean what a function of the nodes says. -/
theorem Means.exists_map [Nonempty β] {l : List NodeId} (h : List.Forall₂ (g.Means I) l bs) :
    ∃ f : NodeId → β, bs = l.map f ∧ ∀ o ∈ l, g.Means I o (f o) := by
  choose! f _ hf using fun o (ho : o ∈ l) => exists_of_forall₂ h ho
  refine ⟨f, List.right_unique_forall₂' (fun _ _ _ hb hb' => hb.unique hb') h ?_, hf⟩
  rw [List.forall₂_map_right_iff, List.forall₂_same]
  exact hf

/-- What an interpretation makes of a node determines what a coarser one makes of it. -/
theorem Means.map {γ : Type} {J : Interpretation α γ} {f : β → γ} (h : g.Means I id b)
    (hleaf : ∀ s, f (I.leaf s) = J.leaf s)
    (hnode : ∀ op bs, f (I.node op bs) = J.node op (bs.map f)) : g.Means J id (f b) := by
  induction h with
  | literal hn =>
    rw [hleaf]
    exact .literal hn
  | @expression id e bs hn hlen _ ih =>
    rw [hnode]
    refine .expression hn (by rw [List.length_map, hlen]) fun o c hmem => ?_
    rw [List.zip_map_right, List.mem_map] at hmem
    obtain ⟨x, hx, heq⟩ := hmem
    cases heq
    exact ih _ _ hx

end Generation

/-- What is known of a node from the nodes below it: a set that holds its values, and whether it is
exactly the set the node stands for. -/
structure Estimate (α : Type) where
  value : Option (ValueSet α)
  exact : Bool

namespace Estimate

def given (s : ValueSet α) : Estimate α := ⟨some s, true⟩

variable [Scalar α]

def combine (op : Operator) (l : List (Estimate α)) : Estimate α :=
  ⟨Propagation.evaluate? op (l.map value) (l.map exact),
    Propagation.keepsExactness op && l.all exact⟩

def interpretation : Interpretation α (Estimate α) := ⟨given, combine⟩

end Estimate

/-- Evaluating the graph from the bottom gives the estimate for the node. -/
def Generation.Evaluates [Scalar α] (g : Generation α) (id : NodeId) (r : Estimate α) : Prop :=
  g.Means Estimate.interpretation id r

end ParameterSolver
