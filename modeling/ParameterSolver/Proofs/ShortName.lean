import Mathlib.Data.List.Shortlex
import Mathlib.Data.Nat.Log
import Mathlib.Data.Set.Function
import Mathlib.Data.String.Basic
import ParameterSolver.Proofs.Solve.ParameterOrder

/-! Short names of positions. There is no letter for zero: a position past `Z` is written as the one
that it carries to, followed by a last letter. So the words over `A` to `Z` are numbered without a gap,
shorter ones first and those of one length in alphabetical order. -/

namespace ParameterSolver

namespace ShortName

variable {m n x y : ℕ} {c : Char} {v w : List Char}

/-- A word of letters from `A` to `Z`, at least one. -/
structure IsName (s : String) : Prop where
  ne_empty : s ≠ ""
  upper : ∀ c ∈ s.toList, 'A' ≤ c ∧ c ≤ 'Z'

/-! Letters. -/

theorem toNat_letter (n : ℕ) : (letter n).toNat = 'A'.toNat + n % 26 := by
  have hvalid : ('A'.toNat + n % 26).isValidChar := by
    refine Or.inl ?_
    change 65 + n % 26 < 0xd800
    omega
  rw [letter, Char.toNat_ofNat, if_pos hvalid]

theorem letter_bounds (n : ℕ) : 'A' ≤ letter n ∧ letter n ≤ 'Z' := by
  change 65 ≤ (letter n).toNat ∧ (letter n).toNat ≤ 90
  rw [toNat_letter]
  change 65 ≤ 65 + n % 26 ∧ 65 + n % 26 ≤ 90
  omega

theorem letter_lt_letter (h : x < y) (hy : y < 26) : letter x < letter y := by
  change (letter x).toNat < (letter y).toNat
  rw [toNat_letter, toNat_letter]
  omega

theorem exists_letter_eq (hc : 'A' ≤ c ∧ c ≤ 'Z') : ∃ x < 26, letter x = c := by
  have hlow : 65 ≤ c.toNat := hc.1
  have hhigh : c.toNat ≤ 90 := hc.2
  refine ⟨c.toNat - 65, by omega, Char.toNat_inj.1 ?_⟩
  rw [toNat_letter]
  change 65 + (c.toNat - 65) % 26 = c.toNat
  omega

/-! Words. -/

theorem letters_of_lt (h : x < 26) : letters x = [letter x] := by
  rw [letters, if_pos h]

theorem letters_carry (n : ℕ) (h : x < 26) : letters (26 * (n + 1) + x) = letters n ++ [letter x] := by
  have hcarry : (26 * (n + 1) + x) / 26 - 1 = n := by omega
  have hlast : (26 * (n + 1) + x) % 26 = x % 26 := by omega
  rw [letters, if_neg (by omega), hcarry, letter, letter, hlast]

/-- Positions are built as their words are: a single letter, or the word of a position and one more. -/
@[elab_as_elim]
theorem position_induction {P : ℕ → Prop} (single : ∀ x < 26, P x)
    (carry : ∀ n, ∀ x < 26, P n → P (26 * (n + 1) + x)) (n : ℕ) : P n := by
  induction n using Nat.strong_induction_on with
  | _ n ih =>
    by_cases hn : n < 26
    · exact single n hn
    · have hsplit : 26 * (n / 26 - 1 + 1) + n % 26 = n := by omega
      exact hsplit ▸ carry (n / 26 - 1) (n % 26) (by omega) (ih _ (by omega))

theorem letters_ne_nil (n : ℕ) : letters n ≠ [] := by
  induction n using position_induction with
  | single x hx => simp [letters_of_lt hx]
  | carry n x hx ih => simp [letters_carry n hx]

theorem bounds_of_mem_letters (n : ℕ) : ∀ c ∈ letters n, 'A' ≤ c ∧ c ≤ 'Z' := by
  induction n using position_induction with
  | single x hx =>
    rw [letters_of_lt hx]
    exact List.forall_mem_singleton.2 (letter_bounds x)
  | carry n x hx ih =>
    rw [letters_carry n hx]
    exact List.forall_mem_append.2 ⟨ih, List.forall_mem_singleton.2 (letter_bounds x)⟩

/-- No word is left out: without its last letter it is the word of a position, and that one is carried
to from where the word itself stands. -/
theorem exists_letters_eq (hne : w ≠ []) (hw : ∀ c ∈ w, 'A' ≤ c ∧ c ≤ 'Z') : ∃ n, letters n = w := by
  induction w using List.reverseRecOn with
  | nil => exact absurd rfl hne
  | append_singleton v c ih =>
    obtain ⟨hv, hc⟩ := List.forall_mem_append.1 hw
    obtain ⟨x, hx, rfl⟩ := exists_letter_eq (hc c (List.mem_singleton_self c))
    by_cases hnil : v = []
    · exact ⟨x, by rw [letters_of_lt hx, hnil, List.nil_append]⟩
    · obtain ⟨n, rfl⟩ := ih hnil hv
      exact ⟨26 * (n + 1) + x, letters_carry n hx⟩

/-! Lengths. -/

/-- The words of up to `k` letters are those of the first `26 + 26 ^ 2 + ⋯ + 26 ^ k` positions, which is
`(26 ^ (k + 1) - 26) / 25`. -/
theorem length_letters_bounds (n : ℕ) :
    26 ^ (letters n).length ≤ 25 * n + 26 ∧ 25 * (n + 1) + 26 ≤ 26 ^ ((letters n).length + 1) := by
  induction n using position_induction with
  | single x hx =>
    rw [letters_of_lt hx]
    change 26 ≤ 25 * x + 26 ∧ 25 * (x + 1) + 26 ≤ 676
    omega
  | carry n x hx ih =>
    obtain ⟨hlow, hhigh⟩ := ih
    rw [letters_carry n hx, List.length_append, List.length_singleton, Nat.pow_succ 26,
      Nat.pow_succ 26 ((letters n).length + 1)]
    omega

theorem length_letters (n : ℕ) : (letters n).length = Nat.log 26 (25 * n + 26) := by
  obtain ⟨hlow, hhigh⟩ := length_letters_bounds n
  exact (Nat.log_eq_of_pow_le_of_lt_pow hlow (by omega)).symm

/-! Order. -/

/-- One more letter each does not change how two words compare. -/
theorem lex_concat (h : List.Lex (· < ·) v w) (hlength : v.length = w.length) (a b : Char) :
    List.Lex (· < ·) (v ++ [a]) (w ++ [b]) := by
  induction h with
  | nil => cases hlength
  | cons _ ih => exact .cons (ih (Nat.succ.inj hlength))
  | rel hlt => exact .rel hlt

theorem shortlex_concat (h : List.Shortlex (· < ·) v w) (a b : Char) :
    List.Shortlex (· < ·) (v ++ [a]) (w ++ [b]) := by
  rcases List.shortlex_def.1 h with hlength | ⟨hlength, hlex⟩
  · exact .of_length_lt (by simpa using hlength)
  · exact .of_lex (by simpa using hlength) (lex_concat hlex hlength a b)

theorem shortlex_letters (h : n < m) : List.Shortlex (· < ·) (letters n) (letters m) := by
  induction n using position_induction generalizing m with
  | single x hx =>
    induction m using position_induction with
    | single y hy =>
      rw [letters_of_lt hx, letters_of_lt hy]
      exact (List.shortlex_singleton_iff _ _).2 (letter_lt_letter h hy)
    | carry m y hy =>
      rw [letters_of_lt hx, letters_carry m hy]
      have hpos : 0 < (letters m).length := List.length_pos_iff.2 (letters_ne_nil m)
      exact .of_length_lt (by simpa using hpos)
  | carry n x hx ih =>
    induction m using position_induction with
    | single y hy => omega
    | carry m y hy =>
      -- either the carries are in order, or they agree and the last letters decide
      rw [letters_carry n hx, letters_carry m hy]
      rcases Nat.lt_trichotomy n m with hlt | rfl | hgt
      · exact shortlex_concat (ih hlt) _ _
      · have hlast : letter x < letter y := letter_lt_letter (by omega) hy
        exact .append_left ((List.shortlex_singleton_iff _ _).2 hlast) _
      · omega

theorem shortlex_letters_iff : List.Shortlex (· < ·) (letters n) (letters m) ↔ n < m := by
  refine ⟨fun h => ?_, shortlex_letters⟩
  rcases Nat.lt_trichotomy n m with hlt | rfl | hgt
  · exact hlt
  · exact absurd h (asymm h)
  · exact absurd h (asymm (shortlex_letters hgt))

theorem letters_ne (h : n < m) : letters n ≠ letters m := by
  intro heq
  have hself := shortlex_letters h
  rw [heq] at hself
  exact asymm hself hself

theorem letters_injective : Function.Injective letters :=
  .of_lt_imp_ne fun _ _ => letters_ne

/-! Texts. -/

theorem toList_text (n : ℕ) : (text n).toList = letters n :=
  String.toList_ofList

theorem length_text (n : ℕ) : (text n).length = Nat.log 26 (25 * n + 26) := by
  rw [← String.length_toList, toList_text, length_letters]

theorem text_injective : Function.Injective text := by
  intro n m h
  apply letters_injective
  rw [← toList_text, ← toList_text, h]

theorem isName_text (n : ℕ) : IsName (text n) where
  ne_empty h := letters_ne_nil n (by rw [← toList_text, h, String.toList_empty])
  upper := by
    rw [toList_text]
    exact bounds_of_mem_letters n

theorem exists_text_eq {s : String} (h : IsName s) : ∃ n, text n = s := by
  have hne : s.toList ≠ [] := fun hnil => h.ne_empty (String.toList_eq_nil_iff.1 hnil)
  obtain ⟨n, hn⟩ := exists_letters_eq hne h.upper
  exact ⟨n, by rw [text, hn, String.ofList_toList]⟩

/-- Where only positions whose successor is below `size` can be had, every word of up to `k` letters is
still met. -/
theorem exists_lt_text_eq {k size : ℕ} (hsize : 26 ^ (k + 1) ≤ 25 * size) {s : String} (h : IsName s)
    (hk : s.length ≤ k) : ∃ n, n + 1 < size ∧ text n = s := by
  obtain ⟨n, rfl⟩ := exists_text_eq h
  rw [length_text] at hk
  have hlt : 25 * n + 26 < 26 ^ (k + 1) := Nat.lt_pow_of_log_lt (by decide) (Nat.lt_succ_of_le hk)
  exact ⟨n, by omega, rfl⟩

-- 64 bits have room for every word of 13 letters
example : 26 ^ (13 + 1) ≤ 25 * 2 ^ 64 := by
  decide

/-- Each position has a word of its own and each word is met: shorter words first, and those of one
length in alphabetical order. -/
theorem bijOn_text_and_lt_iff :
    Set.BijOn text Set.univ {s | IsName s} ∧
      ∀ n m, n < m ↔ (text n).length < (text m).length ∨
        (text n).length = (text m).length ∧ text n < text m := by
  refine ⟨⟨fun n _ => isName_text n, text_injective.injOn, ?_⟩, ?_⟩
  · intro s hs
    obtain ⟨n, hn⟩ := exists_text_eq hs
    exact ⟨n, Set.mem_univ n, hn⟩
  · intro n m
    rw [← shortlex_letters_iff, List.shortlex_def, String.lt_iff_toList_lt, toList_text, toList_text,
      ← String.length_toList, ← String.length_toList, toList_text, toList_text]
    rfl

end ShortName

/-! Parameters. -/

section Parameters

variable {α : Type} {a : Analysis α} {i j : NodeId} {s : String} {p : Parameter α}

theorem Analysis.mem_names :
    (i, s) ∈ a.names ↔ ∃ n, a.generation.parametersByOrigin[n]? = some i ∧ ShortName.text n = s := by
  rw [names, List.mem_map]
  constructor
  · rintro ⟨⟨k, n⟩, hk, hpair⟩
    obtain ⟨rfl, rfl⟩ := Prod.mk.inj hpair
    exact ⟨n, List.mem_zipIdx_iff_getElem?.1 hk, rfl⟩
  · rintro ⟨n, hn, rfl⟩
    exact ⟨(i, n), List.mem_zipIdx_iff_getElem?.2 hn, rfl⟩

/-- No two parameters have one short name. -/
theorem Analysis.eq_of_mem_names (hi : (i, s) ∈ a.names) (hj : (j, s) ∈ a.names) : i = j := by
  obtain ⟨n, hn, rfl⟩ := mem_names.1 hi
  obtain ⟨m, hm, htext⟩ := mem_names.1 hj
  obtain rfl := ShortName.text_injective htext
  exact Option.some.inj (hn.symm.trans hm)

/-- A parameter that has no name of its own is written in messages with its short name. -/
theorem Analysis.parameterName_of_mem_names (h : (i, s) ∈ a.names) (hp : p.name = none) :
    a.generation.parameterName i p = s := by
  obtain ⟨n, hn, rfl⟩ := mem_names.1 h
  obtain ⟨hlt, hget⟩ := List.getElem?_eq_some_iff.1 hn
  have hfind : a.generation.parametersByOrigin.findIdx? (· = i) = some n := by
    refine List.findIdx?_eq_some_iff_getElem.2 ⟨hlt, by simpa using hget, fun k hk => ?_⟩
    have hne := List.pairwise_iff_getElem.1 Generation.nodup_parametersByOrigin k n (hk.trans hlt) hlt hk
    simpa [hget] using hne
  rw [Generation.parameterName, hp, hfind]
  rfl

end Parameters

end ParameterSolver
