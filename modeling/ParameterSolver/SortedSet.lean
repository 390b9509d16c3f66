/-!
Finite sets as increasing lists. Two sets with the same members are equal, and every operation is
described by the members of its result.
-/

namespace ParameterSolver

open Std

structure SortedSet (κ : Type) [Ord κ] where
  toList : List κ
  increasing : toList.Pairwise (fun x y => compare x y = .lt)
deriving DecidableEq

namespace SortedSet

variable {κ : Type} [Ord κ]

instance : Membership κ (SortedSet κ) := ⟨fun s x => x ∈ s.toList⟩

theorem mem_def {s : SortedSet κ} {x : κ} : x ∈ s ↔ x ∈ s.toList := Iff.rfl

instance [DecidableEq κ] (x : κ) (s : SortedSet κ) : Decidable (x ∈ s) :=
  inferInstanceAs (Decidable (x ∈ s.toList))

def empty : SortedSet κ := ⟨[], .nil⟩

@[simp] theorem not_mem_empty (x : κ) : x ∉ (empty : SortedSet κ) := List.not_mem_nil

def singleton (x : κ) : SortedSet κ := ⟨[x], List.pairwise_singleton ..⟩

@[simp] theorem mem_singleton {x y : κ} : x ∈ singleton y ↔ x = y := List.mem_singleton

def isEmpty (s : SortedSet κ) : Bool := s.toList.isEmpty

def size (s : SortedSet κ) : Nat := s.toList.length

/-- The least member. -/
def first? (s : SortedSet κ) : Option κ := s.toList.head?

/-- The only member. -/
def single? (s : SortedSet κ) : Option κ :=
  match s.toList with
  | [x] => some x
  | _ => none

theorem eq_of_mem_iff [TransOrd κ] : ∀ {l m : List κ},
    l.Pairwise (fun x y => compare x y = .lt) → m.Pairwise (fun x y => compare x y = .lt) →
      (∀ z, z ∈ l ↔ z ∈ m) → l = m
  | [], [], _, _, _ => rfl
  | [], y :: _, _, _, h => absurd ((h y).2 (by simp)) (by simp)
  | x :: _, [], _, _, h => absurd ((h x).1 (by simp)) (by simp)
  | x :: xs, y :: ys, hl, hm, h => by
    obtain ⟨hx, hxs⟩ := List.pairwise_cons.1 hl
    obtain ⟨hy, hys⟩ := List.pairwise_cons.1 hm
    have irrefl : ∀ z : κ, compare z z ≠ .lt := by simp
    have hxy : x = y := by
      rcases List.mem_cons.1 ((h x).1 (by simp)) with e | e
      · exact e
      · rcases List.mem_cons.1 ((h y).2 (by simp)) with e' | e'
        · exact e'.symm
        · exact absurd (TransCmp.lt_trans (hx y e') (hy x e)) (irrefl x)
    subst hxy
    refine congrArg (x :: ·) (eq_of_mem_iff hxs hys fun z => ?_)
    have hz := h z
    constructor
    · intro m
      rcases List.mem_cons.1 (hz.1 (by simp [m])) with rfl | e
      · exact absurd (hx z m) (irrefl z)
      · exact e
    · intro m
      rcases List.mem_cons.1 (hz.2 (by simp [m])) with rfl | e
      · exact absurd (hy z m) (irrefl z)
      · exact e

@[ext] theorem ext [TransOrd κ] {s t : SortedSet κ} (h : ∀ z, z ∈ s ↔ z ∈ t) : s = t := by
  cases s; cases t
  simpa using eq_of_mem_iff ‹_› ‹_› h

/-- Puts `x` into its place in an increasing list. -/
def place (x : κ) : List κ → List κ
  | [] => [x]
  | y :: ys =>
    match compare x y with
    | .lt => x :: y :: ys
    | .eq => y :: ys
    | .gt => y :: place x ys

theorem mem_place [LawfulEqOrd κ] {x z : κ} :
    ∀ {l : List κ}, z ∈ place x l ↔ z = x ∨ z ∈ l
  | [] => by simp [place]
  | y :: ys => by
    unfold place
    split
    · simp
    · rename_i h
      simp [LawfulEqOrd.eq_of_compare h]
    · simp [mem_place (l := ys), or_left_comm]

theorem increasing_place [TransOrd κ] [LawfulEqOrd κ] (x : κ) :
    ∀ {l : List κ}, l.Pairwise (fun x y => compare x y = .lt) →
      (place x l).Pairwise (fun x y => compare x y = .lt)
  | [], _ => List.pairwise_singleton ..
  | y :: ys, h => by
    obtain ⟨hy, hys⟩ := List.pairwise_cons.1 h
    unfold place
    split
    · rename_i hxy
      refine List.pairwise_cons.2 ⟨fun z hz => ?_, h⟩
      rcases List.mem_cons.1 hz with rfl | hz
      · exact hxy
      · exact TransCmp.lt_trans hxy (hy z hz)
    · exact h
    · rename_i hxy
      refine List.pairwise_cons.2 ⟨fun z hz => ?_, increasing_place x hys⟩
      rcases mem_place.1 hz with rfl | hz
      · exact OrientedCmp.lt_of_gt hxy
      · exact hy z hz

/-- Merges `x` and what follows it, of which `rest` takes care, with an increasing list. -/
def weave (x : κ) (rest : List κ → List κ) (whole : List κ) : List κ → List κ
  | [] => whole
  | y :: ys =>
    match compare x y with
    | .lt => x :: rest (y :: ys)
    | .eq => x :: rest ys
    | .gt => y :: weave x rest whole ys

/-- Merges two increasing lists. -/
def unite : List κ → List κ → List κ
  | [] => fun ys => ys
  | x :: xs => weave x (unite xs) (x :: xs)

theorem mem_unite [LawfulEqOrd κ] {z : κ} :
    ∀ {l m : List κ}, z ∈ unite l m ↔ z ∈ l ∨ z ∈ m
  | [], ys => by simp [unite]
  | x :: xs, [] => by simp [unite, weave]
  | x :: xs, y :: ys => by
    have ih := mem_unite (z := z) (l := x :: xs) (m := ys)
    simp only [unite] at ih
    simp only [unite, weave]
    split
    · simp [mem_unite (l := xs), or_assoc]
    · rename_i h
      rw [← LawfulEqOrd.eq_of_compare h]
      simp only [List.mem_cons, mem_unite (l := xs)]
      constructor
      · rintro (h | h | h) <;> simp [h]
      · rintro ((h | h) | h | h) <;> simp [h]
    · simp only [List.mem_cons, ih]
      constructor
      · rintro (h | (h | h) | h) <;> simp [h]
      · rintro ((h | h) | h | h) <;> simp [h]

theorem increasing_unite [TransOrd κ] [LawfulEqOrd κ] : ∀ {l m : List κ},
    l.Pairwise (fun x y => compare x y = .lt) → m.Pairwise (fun x y => compare x y = .lt) →
      (unite l m).Pairwise (fun x y => compare x y = .lt)
  | [], ys, _, hy => by simpa [unite] using hy
  | x :: xs, [], hx, _ => by simpa [unite, weave] using hx
  | x :: xs, y :: ys, hx, hy => by
    have ih := increasing_unite (l := x :: xs) (m := ys) hx (List.pairwise_cons.1 hy).2
    have hm := fun z => mem_unite (z := z) (l := x :: xs) (m := ys)
    simp only [unite] at ih hm
    obtain ⟨hx1, hx2⟩ := List.pairwise_cons.1 hx
    obtain ⟨hy1, hy2⟩ := List.pairwise_cons.1 hy
    simp only [unite, weave]
    split
    · rename_i h
      refine List.pairwise_cons.2 ⟨fun z hz => ?_, increasing_unite hx2 hy⟩
      rcases mem_unite.1 hz with hz | hz
      · exact hx1 z hz
      · rcases List.mem_cons.1 hz with rfl | hz
        · exact h
        · exact TransCmp.lt_trans h (hy1 z hz)
    · rename_i h
      refine List.pairwise_cons.2 ⟨fun z hz => ?_, increasing_unite hx2 hy2⟩
      rcases mem_unite.1 hz with hz | hz
      · exact hx1 z hz
      · exact (LawfulEqOrd.eq_of_compare h) ▸ hy1 z hz
    · rename_i h
      have hyx : compare y x = .lt := OrientedCmp.lt_of_gt h
      refine List.pairwise_cons.2 ⟨fun z hz => ?_, ih⟩
      rcases (hm z).1 hz with hz | hz
      · rcases List.mem_cons.1 hz with rfl | hz
        · exact hyx
        · exact TransCmp.lt_trans hyx (hx1 z hz)
      · exact hy1 z hz

section Lawful

variable [TransOrd κ] [LawfulEqOrd κ]

def insert (s : SortedSet κ) (x : κ) : SortedSet κ :=
  ⟨place x s.toList, increasing_place x s.increasing⟩

@[simp] theorem mem_insert {s : SortedSet κ} {x z : κ} : z ∈ s.insert x ↔ z = x ∨ z ∈ s :=
  mem_place

/-- Adds every element of a list. -/
def insertAll (s : SortedSet κ) (l : List κ) : SortedSet κ := l.foldl insert s

@[simp] theorem mem_insertAll {l : List κ} {s : SortedSet κ} {z : κ} :
    z ∈ s.insertAll l ↔ z ∈ s ∨ z ∈ l := by
  induction l generalizing s with
  | nil => simp [insertAll]
  | cons x l ih =>
    rw [show s.insertAll (x :: l) = (s.insert x).insertAll l from rfl, ih]
    simp [or_assoc, or_left_comm]

def ofList (l : List κ) : SortedSet κ := empty.insertAll l

@[simp] theorem mem_ofList {l : List κ} {z : κ} : z ∈ ofList l ↔ z ∈ l := by
  simp [ofList]

def union (s t : SortedSet κ) : SortedSet κ :=
  ⟨unite s.toList t.toList, increasing_unite s.increasing t.increasing⟩

@[simp] theorem mem_union {s t : SortedSet κ} {z : κ} : z ∈ s.union t ↔ z ∈ s ∨ z ∈ t :=
  mem_unite

end Lawful

variable [DecidableEq κ]

def inter (s t : SortedSet κ) : SortedSet κ :=
  ⟨s.toList.filter (· ∈ t), s.increasing.filter _⟩

@[simp] theorem mem_inter {s t : SortedSet κ} {z : κ} : z ∈ s.inter t ↔ z ∈ s ∧ z ∈ t := by
  simp [inter, mem_def]

def diff (s t : SortedSet κ) : SortedSet κ :=
  ⟨s.toList.filter (· ∉ t), s.increasing.filter _⟩

@[simp] theorem mem_diff {s t : SortedSet κ} {z : κ} : z ∈ s.diff t ↔ z ∈ s ∧ z ∉ t := by
  simp [diff, mem_def]

/-- The members of exactly one of two sets. -/
def symmDiff [TransOrd κ] [LawfulEqOrd κ] (s t : SortedSet κ) : SortedSet κ :=
  (s.diff t).union (t.diff s)

@[simp] theorem mem_symmDiff [TransOrd κ] [LawfulEqOrd κ] {s t : SortedSet κ} {z : κ} :
    z ∈ s.symmDiff t ↔ (z ∈ s ∧ z ∉ t) ∨ (z ∈ t ∧ z ∉ s) := by
  simp [symmDiff]

def isSubset (s t : SortedSet κ) : Bool := s.toList.all (· ∈ t)

theorem isSubset_iff {s t : SortedSet κ} : s.isSubset t ↔ ∀ z ∈ s, z ∈ t := by
  simp [isSubset, mem_def]

end SortedSet

end ParameterSolver
