import ParameterSolver.Proofs.Draft.Transcripts
import ParameterSolver.Proofs.Pass.Inventories
import ParameterSolver.Proofs.Pass.Warnings

/-! The passes that remove nothing leave operands before the expressions that use them, and as many
expressions with a reported operator as there were. -/

namespace ParameterSolver

open Draft Pass

variable {α : Type} {g : Generation α} {d d' : Draft α} {a : Act α}

namespace Generation

variable {id : NodeId} {n : Node α} {g' : Generation α}

theorem Ascending.insert (h : g.Ascending) (hi : g.Inserted id n g') : g'.Ascending := by
  intro j o ho
  by_cases hj : j = id
  · subst hj
    rw [operands_of_node? hi.node?_self] at ho
    exact hi.rank_lt ho
  · rw [operands_congr (hi.node?_of_ne hj)] at ho
    exact h j o ho

theorem Ascending.congr (h : g.Ascending) (hops : ∀ j, g'.operands j = g.operands j) : g'.Ascending :=
  fun j o ho => h j o (hops j ▸ ho)

end Generation

/-- It is an expression that the solver warns of. -/
def Node.isReported (n : Node α) : Bool := n.expression?.any (·.op.isReported)

@[simp] theorem Node.isReported_skeleton (n : Node α) : n.skeleton.isReported = n.isReported := by
  cases n <;> rfl

namespace Generation

/-- The expressions that the solver warns of. -/
def reportedNodes (g : Generation α) : List NodeId :=
  (g.expressions.filter fun x => x.2.op.isReported).map (·.1)

theorem length_reportedNodes : g.reportedNodes.length = g.reported := by
  rw [reportedNodes, List.length_map, reported, List.countP_eq_length_filter]

theorem nodup_reportedNodes : g.reportedNodes.Nodup :=
  (List.filter_sublist.map Prod.fst).nodup nodup_expressions

theorem mem_reportedNodes {j : NodeId} :
    j ∈ g.reportedNodes ↔ ∃ n, g.node? j = some n ∧ n.isReported := by
  simp only [reportedNodes, List.mem_map, List.mem_filter, Prod.exists, exists_and_right,
    exists_eq_right, mem_expressions]
  constructor
  · rintro ⟨e, he, hop⟩
    exact ⟨_, he, hop⟩
  · rintro ⟨n, hn, hop⟩
    cases n with
    | expression e => exact ⟨e, hn, hop⟩
    | _ => cases hop

end Generation

/-- A move that takes nothing away and gives no node other operands keeps operands before their
users. -/
theorem Move.ascending (h : Move a d d') (ha : d.output.Ascending) (he : ∀ id, a ≠ .erase id)
    (hr : ∀ id t, a ≠ .redirect id t) (hw : ∀ id n, a = .write id n → ∀ j,
      d.mapping.get? id = some j → n.operands = d.output.operands j) : d'.output.Ascending := by
  cases h with
  | note hn => exact hn.output ▸ ha
  | copy _ _ _ _ henter _ => exact ha.insert henter.toInserted
  | drop => exact ha
  | create henter _ => exact ha.insert henter.toInserted
  | place _ _ _ henter _ => exact ha.insert henter.toInserted
  | @replace _ id j n q o' hmap hrep _ =>
    refine ha.congr fun k => ?_
    by_cases hk : k = j
    · subst hk
      rw [Generation.operands_of_node? hrep.node?_self, hw id n rfl k hmap]
    · exact Generation.operands_congr (hrep.node?_of_ne hk)
  | credit => exact ha.congr fun k => Generation.operands_congr (Generation.node?_addProvenance k)
  | erase => exact absurd rfl (he _)
  | redirect => exact absurd rfl (hr _ _)

namespace Outcome

variable {due : NodeId → Prop} {W C : Draft α → NodeId → Node α → Prop} {Q R : NodeId → Node α → Prop}
  {E : NodeId → Draft α → Prop} {deduplicate : Bool} {journal : Journal}
  (h : Outcome g due W C Q E deduplicate journal d)

include h

/-- What is written for a node uses what its copy used. -/
theorem ascending
    (hW : ∀ d i n, d.input = g → due i → W d i n → d.Images (g.operands i) n.operands) :
    d.output.Ascending := by
  refine (h.moves.invariant
    (I := fun d => d.input = g ∧ Mirrors Set.univ (fun i l => l = g.operands i) d ∧ d.output.Ascending)
    (coherent_start g deduplicate journal)
    ⟨rfl, fun i j _ hj => by simp [start] at hj, fun i o ho => ?_⟩
    fun d a d' hd ha hmove ⟨hin, hmirrors, hasc⟩ => ⟨hmove.input.trans hin, ?_, ?_⟩).1.2.2
  · simp [start, Generation.operands, Generation.get?, Generation.empty] at ho
  · refine hmove.mirrors hd ?_ hmirrors
    cases a with
    | copy id => exact fun _ => by rw [hin]
    | write id n => exact fun _ => ⟨_, rfl, hW d id n hin ha.1 ha.2⟩
    | redirect id t => exact ha.elim
    | _ => trivial
  · refine hmove.ascending hasc (by rintro id rfl; exact ha) (by rintro id t rfl; exact ha) ?_
    rintro id n rfl j hj
    obtain ⟨l, rfl, himages⟩ := hmirrors id j trivial hj
    rw [himages.eq_map, (hW d id n hin ha.1 ha.2).eq_map]

/-- What stands for an expression with a reported operator is one, and nothing else is. -/
theorem reported_eq (hC : ∀ d i n, C d i n → R i n.skeleton)
    (hQ : ∀ i m n, g.node? i = some m → Q i n → n.isReported = m.isReported)
    (hR : ∀ i n, R i n → n.isReported = false) : d.output.reported = g.reported := by
  have hsame : ∀ i j m n, d.mapping.get? i = some j → g.node? i = some m →
      d.output.node? j = some n → n.isReported = m.isReported := by
    intro i j m n hij hm hn
    rcases h.inventory hC hn with ⟨i', m', hi', hm', -, hskel⟩ | ⟨i', hi', -, hq⟩ | ⟨hfree, -⟩
    · cases h.coherent.injective i i' j hij hi'
      cases hm.symm.trans hm'
      rw [← Node.isReported_skeleton, hskel, Node.isReported_skeleton]
    · cases h.coherent.injective i i' j hij hi'
      rw [← Node.isReported_skeleton, hQ i m _ hm hq]
    · exact absurd hij (hfree i)
  have hmapped : ∀ i ∈ { i | i ∈ g.reportedNodes }, ∃ j, d.mapping.get? i = some j := by
    intro i hi
    obtain ⟨n, hn, -⟩ := Generation.mem_reportedNodes.1 hi
    exact h.mapped (Generation.contains_of_node? hn)
  have hnodup : (g.reportedNodes.map (image d.mapping)).Nodup :=
    Generation.nodup_reportedNodes.map_on (injOn_image hmapped h.coherent.injective)
  have hperm : d.output.reportedNodes.Perm (g.reportedNodes.map (image d.mapping)) := by
    refine (List.perm_ext_iff_of_nodup Generation.nodup_reportedNodes hnodup).2 fun j => ?_
    rw [Generation.mem_reportedNodes, List.mem_map]
    constructor
    · rintro ⟨n, hn, hrep⟩
      have hbound : ∃ i, d.mapping.get? i = some j := by
        rcases h.inventory hC hn with ⟨i, _, hi, -⟩ | ⟨i, hi, -⟩ | ⟨-, i, -, hnew⟩
        · exact ⟨i, hi⟩
        · exact ⟨i, hi⟩
        · rw [← Node.isReported_skeleton, hR i _ hnew] at hrep
          cases hrep
      obtain ⟨i, hi⟩ := hbound
      obtain ⟨m, hm⟩ := Generation.contains_iff.1 (h.input ▸ (h.coherent.mapped i j hi).1)
      exact ⟨i, Generation.mem_reportedNodes.2 ⟨m, hm, hsame i j m n hi hm hn ▸ hrep⟩, image_eq hi⟩
    · rintro ⟨i, hi, rfl⟩
      obtain ⟨m, hm, hrep⟩ := Generation.mem_reportedNodes.1 hi
      obtain ⟨j, hj⟩ := hmapped i hi
      obtain ⟨n, hn⟩ := Generation.contains_iff.1 (h.coherent.mapped i j hj).2
      exact ⟨n, by rw [image_eq hj, hn], hsame i j m n hj hm hn ▸ hrep⟩
  rw [← Generation.length_reportedNodes, hperm.length_eq, List.length_map,
    Generation.length_reportedNodes]

end Outcome

end ParameterSolver
