import Mathlib.Data.Finset.Card
import ParameterSolver.Proofs.Graph.Linked

/-! Taking out a node takes out whatever depends on it, and leaves a graph that is linked. -/

namespace ParameterSolver.Generation

variable {α : Type} {g g' : Generation α} {id j : NodeId} {n : Node α} {gone : List NodeId}

/-- From `seen` to `all`, what is new comes with its users. -/
structure Spreads (g : Generation α) (seen all : List NodeId) : Prop where
  subset : ∀ x ∈ seen, x ∈ all
  contains : ∀ x ∈ all, x ∉ seen → g.contains x
  users : ∀ x ∈ all, x ∉ seen → ∀ u ∈ g.users x, g.contains u → u ∈ all

theorem Spreads.refl (seen : List NodeId) : g.Spreads seen seen :=
  ⟨fun _ h => h, fun _ h h' => absurd h h', fun _ h h' => absurd h h'⟩

theorem Spreads.trans {a b c : List NodeId} (h : g.Spreads a b) (h' : g.Spreads b c) :
    g.Spreads a c := by
  refine ⟨fun x hx => h'.subset x (h.subset x hx), fun x hx hxa => ?_, fun x hx hxa u hu hc => ?_⟩
  · by_cases hxb : x ∈ b
    · exact h.contains x hxb hxa
    · exact h'.contains x hx hxb
  · by_cases hxb : x ∈ b
    · exact h'.subset u (h.users x hxb hxa u hu hc)
    · exact h'.users x hx hxb u hu hc

/-- The nodes that have not been seen. -/
def unseen (g : Generation α) (seen : List NodeId) : Finset NodeId :=
  g.order.toFinset \ seen.toFinset

theorem mem_unseen {seen : List NodeId} : id ∈ g.unseen seen ↔ g.contains id ∧ id ∉ seen := by
  simp [unseen, order, NodeMap.mem_keys, Generation.contains, NodeMap.contains]

/-- The search finds all users. Every level of it sees a node that was not seen before. -/
theorem spreads_dependents {fuel : ℕ} {seen : List NodeId} (h : (g.unseen seen).card ≤ fuel) :
    g.Spreads seen (g.dependents fuel seen id) ∧
      (g.contains id → id ∈ g.dependents fuel seen id) := by
  induction fuel generalizing seen id with
  | zero =>
    refine ⟨.refl seen, fun hid => ?_⟩
    by_contra hseen
    have hmem : id ∈ g.unseen seen := mem_unseen.2 ⟨hid, hseen⟩
    rw [Finset.card_eq_zero.1 (Nat.le_zero.1 h)] at hmem
    cases hmem
  | succ fuel ih =>
    unfold dependents
    split_ifs with hstop
    · refine ⟨.refl seen, fun hid => ?_⟩
      simpa [hid] using hstop
    · simp only [Bool.or_eq_true, decide_eq_true_eq, Bool.not_eq_true', not_or,
        Bool.not_eq_false] at hstop
      obtain ⟨hseen, hid⟩ := hstop
      have hfold : ∀ (us s : List NodeId), (g.unseen s).card ≤ fuel →
          g.Spreads s (us.foldl (g.dependents fuel) s) ∧
            ∀ u ∈ us, g.contains u → u ∈ us.foldl (g.dependents fuel) s := by
        intro us
        induction us with
        | nil => exact fun s _ => ⟨.refl s, by simp⟩
        | cons u us ihus =>
          intro s hs
          obtain ⟨hspread, hu⟩ : g.Spreads s (g.dependents fuel s u) ∧
              (g.contains u → u ∈ g.dependents fuel s u) := ih hs
          have hcard : (g.unseen (g.dependents fuel s u)).card ≤ fuel := by
            refine (Finset.card_le_card fun x hx => ?_).trans hs
            rw [mem_unseen] at hx ⊢
            exact ⟨hx.1, fun hxs => hx.2 (hspread.subset x hxs)⟩
          obtain ⟨hrest, hus⟩ := ihus _ hcard
          refine ⟨hspread.trans hrest, fun x hx hc => ?_⟩
          rcases List.mem_cons.1 hx with rfl | hx
          · exact hrest.subset _ (hu hc)
          · exact hus x hx hc
      have hcard : (g.unseen (id :: seen)).card ≤ fuel := by
        have hlt : (g.unseen (id :: seen)).card < (g.unseen seen).card := by
          refine Finset.card_lt_card ⟨fun x hx => ?_, fun hsub => ?_⟩
          · rw [mem_unseen] at hx ⊢
            exact ⟨hx.1, fun hxs => hx.2 (.tail _ hxs)⟩
          · exact (mem_unseen.1 (hsub (mem_unseen.2 ⟨hid, hseen⟩))).2 List.mem_cons_self
        omega
      obtain ⟨hspread, husers⟩ := hfold (g.users id) (id :: seen) hcard
      refine ⟨⟨fun x hx => hspread.subset x (.tail _ hx), fun x hx hxs => ?_,
        fun x hx hxs u hu hc => ?_⟩, fun _ => hspread.subset id List.mem_cons_self⟩
      · by_cases hxid : x = id
        · exact hxid ▸ hid
        · exact hspread.contains x hx (by simp [hxid, hxs])
      · by_cases hxid : x = id
        · exact husers u (hxid ▸ hu) hc
        · exact hspread.users x hx (by simp [hxid, hxs]) u hu hc

/-- What taking out some nodes does that include all their users. -/
structure Cleared (g : Generation α) (gone : List NodeId) (g' : Generation α) : Prop where
  issued : ∀ o, g.Issued o → g'.Issued o
  node? : ∀ j, g'.node? j = if j ∈ gone then none else g.node? j
  users : ∀ o u, u ∈ g'.users o ↔ u ∈ g.users o ∧ u ∉ gone ∧ o ∉ gone
  closed : ∀ x ∈ gone, ∀ u ∈ g.users x, g.contains u → u ∈ gone

theorem Cleared.node?_of_some (h : g.Cleared gone g') (hj : g'.node? j = some n) :
    g.node? j = some n ∧ j ∉ gone := by
  rw [h.node?] at hj
  split_ifs at hj with hgone
  exact ⟨hj, hgone⟩

theorem Cleared.contains_iff (h : g.Cleared gone g') :
    g'.contains j ↔ g.contains j ∧ j ∉ gone := by
  rw [Generation.contains_iff, Generation.contains_iff, h.node?]
  by_cases hj : j ∈ gone <;> simp [hj]

theorem Cleared.linked (h : g.Cleared gone g') (hg : g.Linked) : g'.Linked := by
  have hold : ∀ {j}, j ∉ gone → g'.operands j = g.operands j := fun hj =>
    operands_congr (by rw [h.node?, if_neg hj])
  have hgone : ∀ {j}, j ∈ gone → g'.operands j = [] := fun hj =>
    operands_of_not_node? (by rw [h.node?, if_pos hj])
  have hkept : ∀ {j o}, j ∉ gone → o ∈ g.operands j → o ∉ gone := fun {j o} hj ho hmem => by
    obtain ⟨n, hn⟩ := node?_of_mem_operands ho
    exact hj (h.closed o hmem j ((hg.users o j).2 ho) (contains_of_node? hn))
  refine ⟨fun j o ho => ?_, fun o u => ?_⟩
  · by_cases hj : j ∈ gone
    · rw [hgone hj] at ho
      cases ho
    · rw [hold hj] at ho
      exact h.contains_iff.2 ⟨hg.closed j o ho, hkept hj ho⟩
  · rw [h.users, hg.users]
    by_cases hu : u ∈ gone
    · simp [hu, hgone hu]
    · rw [hold hu]
      exact ⟨fun h => h.1, fun ho => ⟨ho, hu, hkept hu ho⟩⟩

theorem get?_remove (j : NodeId) : (g.remove id).2.get? j = (g.get? j).bind fun e =>
    if j ∈ (g.remove id).1 then none
    else some { e with users := e.users.filter (· ∉ (g.remove id).1) } := by
  unfold remove
  dsimp only
  rw [get?, NodeMap.get?_filterMap, get?]

theorem cleared_of_remove (g : Generation α) (id : NodeId) :
    g.Cleared (g.remove id).1 (g.remove id).2 ∧ (g.contains id → id ∈ (g.remove id).1) := by
  have hcard : (g.unseen []).card ≤ g.size := by
    simpa [unseen, size] using List.toFinset_card_le g.order
  obtain ⟨hspread, hid⟩ : g.Spreads [] (g.dependents g.size [] id) ∧
      (g.contains id → id ∈ g.dependents g.size [] id) := spreads_dependents hcard
  refine ⟨⟨fun o ho => ho.mono ?_, fun j => ?_, fun o u => ?_, fun x hx u hu hc => ?_⟩, hid⟩
  · simp [remove, NodeMap.filterMap]
  · rw [node?, get?_remove, node?]
    cases g.get? j with
    | none => simp
    | some e =>
      rw [Option.bind_some]
      split_ifs <;> rfl
  · simp only [mem_users_iff, get?_remove]
    cases g.get? o with
    | none => simp
    | some e => by_cases ho : o ∈ (g.remove id).1 <;> simp [ho]
  · exact hspread.users x hx (by simp) u hu hc

end ParameterSolver.Generation
