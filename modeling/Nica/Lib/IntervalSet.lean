import Mathlib.Order.Interval.Finset.Nat
import Mathlib.Data.Finset.Card
import Mathlib.Algebra.BigOperators.Group.List.Basic
import Mathlib.Algebra.GroupWithZero.Nat

/-!
# Sets of closed intervals

A finite union of closed intervals with natural end points, kept as the list of its components in
increasing order: consecutive components do not touch (`WellFormed`).  A component may be a single
point.  `insert` is the union with one interval and `cut` the intersection with the complement of an
open interval.

The interior is described by the unit cells `[n, n + 1]` that lie in the set: `cells` is the finite set
of their lower ends, so that two sets have disjoint interiors exactly when their cells are disjoint, and
the total length is the number of cells (`card_cells`).

* `cells_insert`, `cells_cut`: what the operations do to the interior;
* `wellFormed_insert`, `wellFormed_cut`: they keep the canonical form.
-/

namespace Nica.Lib

/-- The components `[a, b]`. -/
abbrev IntervalSet := List (ℕ × ℕ)

namespace IntervalSet

variable {l : IntervalSet} {a b : ℕ}

/-- The components are intervals, in increasing order, and do not touch. -/
def WellFormed (l : IntervalSet) : Prop :=
  (∀ p ∈ l, p.1 ≤ p.2) ∧ l.Pairwise (fun p q => p.2 < q.1)

/-- The union with `[a, b]`: the components that it meets are merged with it. -/
def insert : IntervalSet → ℕ → ℕ → IntervalSet
  | [], a, b => [(a, b)]
  | (c, d) :: l, a, b =>
    if b < c then (a, b) :: (c, d) :: l
    else if d < a then (c, d) :: insert l a b
    else insert l (min a c) (max b d)

/-- The part of a component outside the open interval `(x, y)`. -/
def cutOne (x y : ℕ) (p : ℕ × ℕ) : IntervalSet :=
  (if p.1 ≤ x then [(p.1, min p.2 x)] else []) ++ (if y ≤ p.2 then [(max p.1 y, p.2)] else [])

/-- The intersection with the complement of the open interval `(x, y)`. -/
def cut (l : IntervalSet) (x y : ℕ) : IntervalSet :=
  l.flatMap (cutOne x y)

/-- The unit cells inside the set, by their lower ends. -/
def cells : IntervalSet → Finset ℕ
  | [] => ∅
  | (a, b) :: l => Finset.Ico a b ∪ cells l

/-- The total length. -/
def size (l : IntervalSet) : ℕ :=
  (l.map (fun p => p.2 - p.1)).sum

/-! ### Cells -/

@[simp] theorem cells_nil : cells [] = ∅ := rfl

@[simp]
theorem cells_cons (p : ℕ × ℕ) (l : IntervalSet) : cells (p :: l) = Finset.Ico p.1 p.2 ∪ cells l :=
  rfl

theorem cells_append (l₁ l₂ : IntervalSet) : cells (l₁ ++ l₂) = cells l₁ ∪ cells l₂ := by
  induction l₁ with
  | nil => simp
  | cons p l₁ ih => rw [List.cons_append, cells_cons, cells_cons, ih, Finset.union_assoc]

theorem mem_cells {n : ℕ} : n ∈ cells l ↔ ∃ p ∈ l, p.1 ≤ n ∧ n < p.2 := by
  induction l with
  | nil => simp
  | cons p l ih => simp [ih]

theorem Ico_subset_cells {p : ℕ × ℕ} (hp : p ∈ l) : Finset.Ico p.1 p.2 ⊆ cells l := by
  intro n hn
  exact mem_cells.mpr ⟨p, hp, Finset.mem_Ico.mp hn⟩

/-- The cells of a set are those of its components, without repetition. -/
theorem card_cells (h : WellFormed l) : (cells l).card = size l := by
  obtain ⟨hle, hsorted⟩ := h
  induction l with
  | nil => rfl
  | cons p l ih =>
    rw [List.pairwise_cons] at hsorted
    have hdisj : Disjoint (Finset.Ico p.1 p.2) (cells l) := by
      rw [Finset.disjoint_left]
      intro n hn hl
      obtain ⟨q, hq, hqn, -⟩ := mem_cells.mp hl
      have := hsorted.1 q hq
      rw [Finset.mem_Ico] at hn
      omega
    rw [cells_cons, Finset.card_union_of_disjoint hdisj, Nat.card_Ico,
      ih (fun q hq => hle q (List.mem_cons_of_mem _ hq)) hsorted.2]
    rfl

/-! ### Union with an interval -/

theorem cells_insert (l : IntervalSet) (hab : a ≤ b) (hl : ∀ p ∈ l, p.1 ≤ p.2) :
    cells (insert l a b) = cells l ∪ Finset.Ico a b := by
  induction l generalizing a b with
  | nil => simp [insert]
  | cons p l ih =>
    obtain ⟨c, d⟩ := p
    have hcd : c ≤ d := hl (c, d) (List.mem_cons_self ..)
    have hl' : ∀ p ∈ l, p.1 ≤ p.2 := fun q hq => hl q (List.mem_cons_of_mem _ hq)
    unfold insert
    split
    · simp only [cells_cons]
      ext n
      simp only [Finset.mem_union]
      tauto
    · split
      · simp only [cells_cons, ih hab hl']
        ext n
        simp only [Finset.mem_union]
        tauto
      · -- the two intervals meet, so that together they are one
        rw [ih (by omega) hl']
        simp only [cells_cons]
        ext n
        simp only [Finset.mem_union, Finset.mem_Ico]
        constructor
        · rintro (h | h)
          · exact .inl (.inr h)
          · by_cases hn : c ≤ n ∧ n < d
            · exact .inl (.inl hn)
            · right; omega
        · rintro ((h | h) | h)
          · right; omega
          · exact .inl h
          · right; omega

/-- Every component begins where `[a, b]` or an old component begins, and ends likewise. -/
theorem mem_insert {p : ℕ × ℕ} (hp : p ∈ insert l a b) :
    (p.1 = a ∨ ∃ q ∈ l, p.1 = q.1) ∧ (p.2 = b ∨ ∃ q ∈ l, p.2 = q.2) := by
  induction l generalizing a b with
  | nil => simp_all [insert]
  | cons q l ih =>
    obtain ⟨c, d⟩ := q
    unfold insert at hp
    split at hp
    · rcases List.mem_cons.mp hp with rfl | hp
      · exact ⟨.inl rfl, .inl rfl⟩
      · exact ⟨.inr ⟨p, hp, rfl⟩, .inr ⟨p, hp, rfl⟩⟩
    · split at hp
      · rcases List.mem_cons.mp hp with rfl | hp
        · exact ⟨.inr ⟨_, List.mem_cons_self .., rfl⟩, .inr ⟨_, List.mem_cons_self .., rfl⟩⟩
        · obtain ⟨h₁, h₂⟩ := ih hp
          refine ⟨h₁.imp_right ?_, h₂.imp_right ?_⟩
          · rintro ⟨q, hq, h⟩; exact ⟨q, List.mem_cons_of_mem _ hq, h⟩
          · rintro ⟨q, hq, h⟩; exact ⟨q, List.mem_cons_of_mem _ hq, h⟩
      · obtain ⟨h₁, h₂⟩ := ih hp
        constructor
        · rcases h₁ with h₁ | ⟨q, hq, h⟩
          · rcases Nat.le_total a c with hac | hac
            · exact .inl (by omega)
            · exact .inr ⟨(c, d), List.mem_cons_self .., by show p.1 = c; omega⟩
          · exact .inr ⟨q, List.mem_cons_of_mem _ hq, h⟩
        · rcases h₂ with h₂ | ⟨q, hq, h⟩
          · rcases Nat.le_total b d with hbd | hbd
            · exact .inr ⟨(c, d), List.mem_cons_self .., by show p.2 = d; omega⟩
            · exact .inl (by omega)
          · exact .inr ⟨q, List.mem_cons_of_mem _ hq, h⟩

theorem wellFormed_insert (h : WellFormed l) (hab : a ≤ b) : WellFormed (insert l a b) := by
  induction l generalizing a b with
  | nil =>
    refine ⟨?_, List.pairwise_singleton _ _⟩
    intro p hp
    rw [insert, List.mem_singleton] at hp
    rw [hp]
    exact hab
  | cons q l ih =>
    obtain ⟨c, d⟩ := q
    obtain ⟨hle, hsorted⟩ := h
    rw [List.pairwise_cons] at hsorted
    have hcd : c ≤ d := hle (c, d) (List.mem_cons_self ..)
    have hl : WellFormed l := ⟨fun q hq => hle q (List.mem_cons_of_mem _ hq), hsorted.2⟩
    unfold insert
    split
    · refine ⟨?_, ?_⟩
      · intro p hp
        rcases List.mem_cons.mp hp with rfl | hp
        · exact hab
        · exact hle p hp
      · rw [List.pairwise_cons]
        refine ⟨?_, List.pairwise_cons.mpr hsorted⟩
        intro p hp
        rcases List.mem_cons.mp hp with rfl | hp
        · assumption
        · have := hsorted.1 p hp
          simp only at this ⊢
          omega
    · split
      · obtain ⟨hle', hsorted'⟩ := ih hl hab
        refine ⟨?_, ?_⟩
        · intro p hp
          rcases List.mem_cons.mp hp with rfl | hp
          · exact hcd
          · exact hle' p hp
        · rw [List.pairwise_cons]
          refine ⟨?_, hsorted'⟩
          intro p hp
          rcases (mem_insert hp).1 with h₁ | ⟨q, hq, h₁⟩
          · rw [h₁]; assumption
          · rw [h₁]; exact hsorted.1 q hq
      · exact ih hl (by omega)

/-! ### Removing an open interval -/

variable {x y : ℕ}

theorem cells_cut (l : IntervalSet) : cells (cut l x y) = (cells l).filter (fun n => n < x ∨ y ≤ n) := by
  induction l with
  | nil => rfl
  | cons p l ih =>
    have hone : cells (cutOne x y p) =
        (Finset.Ico p.1 p.2).filter (fun n => n < x ∨ y ≤ n) := by
      ext n
      unfold cutOne
      split <;> split <;> simp [Finset.mem_filter] <;> omega
    have hcut : cut (p :: l) x y = cutOne x y p ++ cut l x y := List.flatMap_cons
    rw [hcut, cells_append, hone, ih, cells_cons, Finset.filter_union]

/-- Every component ends where an old component or the removed interval ends. -/
theorem mem_cut {p : ℕ × ℕ} (hp : p ∈ cut l x y) :
    ∃ q ∈ l, (p.1 = q.1 ∨ p.1 = y) ∧ (p.2 = q.2 ∨ p.2 = x) ∧ q.1 ≤ p.1 ∧ p.2 ≤ q.2 := by
  obtain ⟨q, hq, hp⟩ := List.mem_flatMap.mp hp
  refine ⟨q, hq, ?_⟩
  unfold cutOne at hp
  rcases List.mem_append.mp hp with hp | hp <;> split at hp
  · rw [List.mem_singleton] at hp
    subst hp
    refine ⟨.inl rfl, ?_, Nat.le_refl _, Nat.min_le_left _ _⟩
    show min q.2 x = q.2 ∨ min q.2 x = x
    omega
  · cases hp
  · rw [List.mem_singleton] at hp
    subst hp
    refine ⟨?_, .inl rfl, Nat.le_max_left _ _, Nat.le_refl _⟩
    show max q.1 y = q.1 ∨ max q.1 y = y
    omega
  · cases hp

theorem wellFormed_cutOne {p : ℕ × ℕ} (hp : p.1 ≤ p.2) (hxy : x < y) : WellFormed (cutOne x y p) := by
  unfold cutOne WellFormed
  split <;> split <;> simp <;> omega

theorem wellFormed_cut (h : WellFormed l) (hxy : x < y) : WellFormed (cut l x y) := by
  obtain ⟨hle, hsorted⟩ := h
  induction l with
  | nil => exact ⟨by simp [cut], List.Pairwise.nil⟩
  | cons p l ih =>
    rw [List.pairwise_cons] at hsorted
    have hone := wellFormed_cutOne (x := x) (y := y) (hle p (List.mem_cons_self ..)) hxy
    have hrest := ih (fun q hq => hle q (List.mem_cons_of_mem _ hq)) hsorted.2
    have hcut : cut (p :: l) x y = cutOne x y p ++ cut l x y := List.flatMap_cons
    rw [hcut]
    refine ⟨?_, List.pairwise_append.mpr ⟨hone.2, hrest.2, ?_⟩⟩
    · intro q hq
      rcases List.mem_append.mp hq with hq | hq
      · exact hone.1 q hq
      · exact hrest.1 q hq
    · intro q hq r hr
      have hqp : q.2 ≤ p.2 := by
        unfold cutOne at hq
        rcases List.mem_append.mp hq with hq | hq <;> split at hq
        · rw [List.mem_singleton] at hq; subst hq; simp
        · cases hq
        · rw [List.mem_singleton] at hq; subst hq; simp
        · cases hq
      obtain ⟨r', hr', -, -, hle', -⟩ := mem_cut hr
      have := hsorted.1 r' hr'
      omega

end IntervalSet

end Nica.Lib
