import Mathlib.Data.Set.Function
import ParameterSolver.Proofs.Draft.Traces
import ParameterSolver.Proofs.Draft.Invariants

/-! Output nodes that are copies. A graph that is a copy of a part of another one has the same content
and the same origins under other ids; an output in which every bound node is a copy is such a graph,
once nothing else is in it. -/

namespace ParameterSolver

variable {α : Type}

/-- A leaf has no operands, and none in other places. -/
theorem Node.operands_withOperands_of_length {n : Node α} {l : List NodeId}
    (h : n.operands.length = l.length) : (n.withOperands l).operands = l := by
  cases n with
  | expression e => rfl
  | _ => exact (List.length_eq_zero_iff.1 h.symm).symm

namespace Generation

variable {g g' g'' : Generation α} {S : Set NodeId} {f f' : NodeId → NodeId} {i : NodeId}

/-- The graph `g'` is a copy of `g` on the nodes in `S`: `f` takes each of them to its copy, which has
the same content and origins, and there is nothing else. -/
structure Copies (g : Generation α) (S : Set NodeId) (f : NodeId → NodeId) (g' : Generation α) :
    Prop where
  bijOn : Set.BijOn f S { j | g'.contains j }
  operands : ∀ i ∈ S, ∀ o ∈ g.operands i, o ∈ S
  node? : ∀ i ∈ S, g'.node? (f i) = (g.node? i).map fun n => n.withOperands (n.operands.map f)
  provenance? : ∀ i ∈ S, g'.provenance? (f i) = g.provenance? i

theorem Copies.operands_eq (h : g.Copies S f g') (hi : i ∈ S) :
    g'.operands (f i) = (g.operands i).map f := by
  cases hn : g.node? i with
  | none =>
    rw [operands_of_not_node? hn, operands_of_not_node? (by rw [h.node? i hi, hn]; rfl)]
    rfl
  | some n =>
    rw [operands_of_node? hn, operands_of_node? (by rw [h.node? i hi, hn]; rfl),
      Node.operands_withOperands_of_length (List.length_map f).symm]

/-- Two copies of one graph are copies of each other, node by node. -/
theorem Copies.exists_copies_along (h : g.Copies S f g') (h' : g.Copies S f' g'') :
    ∃ k, g'.Copies { j | g'.contains j } k g'' ∧ ∀ i ∈ S, k (f i) = f' i := by
  have hinv := h.bijOn.invOn_invFunOn
  generalize Function.invFunOn f S = back at hinv
  have hback : ∀ i ∈ S, back (f i) = i := hinv.1
  refine ⟨f' ∘ back, ⟨h'.bijOn.comp (h.bijOn.symm hinv.symm), ?_, ?_, ?_⟩,
    fun i hi => congrArg f' (hback i hi)⟩
  · intro j hj o ho
    obtain ⟨i, hi, rfl⟩ := h.bijOn.surjOn hj
    rw [h.operands_eq hi] at ho
    obtain ⟨o', ho', rfl⟩ := List.mem_map.1 ho
    exact h.bijOn.mapsTo (h.operands i hi o' ho')
  · intro j hj
    obtain ⟨i, hi, rfl⟩ := h.bijOn.surjOn hj
    rw [Function.comp_apply, hback i hi, h.node? i hi, h'.node? i hi, Option.map_map]
    cases hn : g.node? i with
    | none => rfl
    | some n =>
      have hmap : (n.operands.map f).map (f' ∘ back) = n.operands.map f' := by
        rw [List.map_map]
        refine List.map_congr_left fun o ho => ?_
        rw [Function.comp_apply, Function.comp_apply, hback o (h.operands i hi o ?_)]
        rwa [operands_of_node? hn]
      have hlength := Node.operands_withOperands_of_length (n := n) (List.length_map f).symm
      simp only [Option.map_some, Function.comp_apply, hlength, hmap, Node.withOperands_withOperands]
  · intro j hj
    obtain ⟨i, hi, rfl⟩ := h.bijOn.surjOn hj
    rw [Function.comp_apply, hback i hi, h.provenance? i hi, h'.provenance? i hi]

theorem Copies.exists_copies (h : g.Copies S f g') (h' : g.Copies S f' g'') :
    ∃ k, g'.Copies { j | g'.contains j } k g'' := by
  obtain ⟨k, hk, -⟩ := h.exists_copies_along h'
  exact ⟨k, hk⟩

end Generation

namespace Draft

variable {g : Generation α} {d d' : Draft α} {n : Node α} {i j id : NodeId}

/-- The output node of an input node, if there is one. -/
def image (m : NodeMap NodeId) (i : NodeId) : NodeId := (m.get? i).getD .null

theorem image_eq {m : NodeMap NodeId} (h : m.get? i = some j) : image m i = j := by
  rw [image, h]
  rfl

theorem injOn_image {S : Set NodeId} (hS : ∀ i ∈ S, ∃ j, d.mapping.get? i = some j)
    (hinj : ∀ i i' j, d.mapping.get? i = some j → d.mapping.get? i' = some j → i = i') :
    Set.InjOn (image d.mapping) S := by
  intro i hi i' hi' heq
  obtain ⟨j, hj⟩ := hS i hi
  obtain ⟨j', hj'⟩ := hS i' hi'
  rw [image_eq hj, image_eq hj'] at heq
  exact hinj i i' j hj (heq ▸ hj')

theorem Images.eq_map {l js : List NodeId} (h : d.Images l js) : js = l.map (image d.mapping) := by
  induction h with
  | nil => rfl
  | cons hj _ ih => rw [List.map_cons, image_eq hj, ih]

theorem Images.operands_eq {js : List NodeId} (h : d.Images n.operands js)
    (hj : d.output.node? j = some (n.withOperands js)) : d.output.operands j = js := by
  rw [Generation.operands_of_node? hj, Node.operands_withOperands_of_length (List.Forall₂.length_eq h)]

/-- Output nodes are like the nodes of `g` that they stand for, and use what stands for the operands. -/
def Transcribes (g : Generation α) (d : Draft α) : Prop :=
  ∀ i j, d.mapping.get? i = some j → ∃ n js, g.node? i = some n ∧ d.Images n.operands js ∧
    d.output.node? j = some (n.withOperands js)

namespace Transcribes

theorem contains (h : Transcribes g d) (hj : d.mapping.get? i = some j) :
    g.contains i ∧ d.output.contains j := by
  obtain ⟨n, js, hn, -, hnode⟩ := h i j hj
  exact ⟨Generation.contains_of_node? hn, Generation.contains_of_node? hnode⟩

theorem bind (h : Transcribes g d) {js : List NodeId} {q : Provenance} {o' : Generation α}
    (hn : g.node? id = some n) (hmap : d.mapping.get? id = none) (hjs : d.Images n.operands js)
    (henter : d.output.Entered j (n.withOperands js) q o') :
    Transcribes g { d with output := o', mapping := d.mapping.insert id j } := by
  have hnull := Generation.ne_null_of_contains (Generation.contains_of_node? hn)
  have hret := retains_bind hnull hmap (fun k hk => henter.ne_of_contains hk) (retains_insert henter)
  intro i k hk
  rcases get?_bound hnull hk with ⟨rfl, rfl⟩ | ⟨-, hk⟩
  · exact ⟨n, js, hn, hret.images hjs, henter.node?_self⟩
  · obtain ⟨m, ks, hm, hks, hnode⟩ := h i k hk
    exact ⟨m, ks, hm, hret.images hks, hret.node? k _ hnode⟩

/-- The operands of a copy are the copies of the operands. -/
theorem exists_operand {k : NodeId} (h : Transcribes g d) (hj : d.mapping.get? i = some j)
    (hk : k ∈ d.output.operands j) : ∃ o ∈ g.operands i, d.mapping.get? o = some k := by
  obtain ⟨n, js, hn, hjs, hnode⟩ := h i j hj
  rw [hjs.operands_eq hnode] at hk
  rw [Generation.operands_of_node? hn]
  exact hjs.exists_source hk

/-- What a node with an output node is made of has output nodes. -/
theorem exists_of_reaches {k : NodeId} (h : Transcribes g d) (hj : d.mapping.get? i = some j)
    (hpath : Relation.ReflTransGen g.Uses i k) : ∃ c, d.mapping.get? k = some c := by
  induction hpath with
  | refl => exact ⟨j, hj⟩
  | tail _ huses ih =>
    obtain ⟨c, hc⟩ := ih
    obtain ⟨n, js, hn, hjs, -⟩ := h _ c hc
    rw [Generation.Uses, Generation.operands_of_node? hn] at huses
    obtain ⟨c', -, hc'⟩ := hjs.exists_image huses
    exact ⟨c', hc'⟩

theorem node?_image (h : Transcribes g d) (hj : d.mapping.get? i = some j) :
    d.output.node? (image d.mapping i) =
      (g.node? i).map fun n => n.withOperands (n.operands.map (image d.mapping)) := by
  obtain ⟨n, js, hn, hjs, hnode⟩ := h i j hj
  rw [image_eq hj, hnode, hn, hjs.eq_map]
  rfl

/-- If nothing else is in the output, it is a copy of the nodes that have output nodes. -/
theorem copies {S : Set NodeId} (h : Transcribes g d) (hS : ∀ i, (∃ j, d.mapping.get? i = some j) ↔ i ∈ S)
    (hinj : ∀ i i' j, d.mapping.get? i = some j → d.mapping.get? i' = some j → i = i')
    (honto : ∀ j, d.output.contains j → ∃ i, d.mapping.get? i = some j)
    (hprov : ∀ i j, d.mapping.get? i = some j → d.output.provenance? j = g.provenance? i) :
    g.Copies S (image d.mapping) d.output := by
  refine ⟨⟨fun i hi => ?_, injOn_image (fun i hi => (hS i).2 hi) hinj, fun j hj => ?_⟩, fun i hi o ho => ?_,
    fun i hi => ?_, fun i hi => ?_⟩
  · obtain ⟨j, hj⟩ := (hS i).2 hi
    rw [image_eq hj]
    exact (h.contains hj).2
  · obtain ⟨i, hi⟩ := honto j hj
    exact ⟨i, (hS i).1 ⟨j, hi⟩, image_eq hi⟩
  · obtain ⟨j, hj⟩ := (hS i).2 hi
    exact (hS o).1 (h.exists_of_reaches hj (.single ho))
  · obtain ⟨j, hj⟩ := (hS i).2 hi
    exact h.node?_image hj
  · obtain ⟨j, hj⟩ := (hS i).2 hi
    rw [image_eq hj, hprov i j hj]

end Transcribes

end Draft

end ParameterSolver
