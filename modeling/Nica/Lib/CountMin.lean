import Mathlib.Data.List.Basic

/-!
# Count-Min sketches

An update is an item with its count.  A row hashes the items to cells, and a cell holds the sum of the counts of
the items that fall on it (`cell`); the estimate of an item is the least of its cells over the rows, and not more
than a given `cap` (`estimate`).  It lies between the count of the item and the total (`count_le_estimate`,
`estimate_le_total`), does not fall with more updates (`estimate_mono`), and grows with each update of the item
(`estimate_succ_le`).
-/

namespace Nica.Lib.CountMin

variable {α κ ρ : Type*}

/-! ### Sums of counts -/

/-- The sum of the counts of the items that meet `p`. -/
def weight (p : α → Bool) : List (α × ℕ) → ℕ
  | [] => 0
  | (x, n) :: us => (if p x then n else 0) + weight p us

@[simp] theorem weight_nil (p : α → Bool) : weight p [] = 0 := rfl

@[simp]
theorem weight_cons (p : α → Bool) (x : α) (n : ℕ) (us : List (α × ℕ)) :
    weight p ((x, n) :: us) = (if p x then n else 0) + weight p us := rfl

@[simp]
theorem weight_append (p : α → Bool) (us vs : List (α × ℕ)) :
    weight p (us ++ vs) = weight p us + weight p vs := by
  induction us with
  | nil => simp
  | cons u us ih => rw [List.cons_append, weight_cons, ih, weight_cons, Nat.add_assoc]

theorem weight_perm (p : α → Bool) {us vs : List (α × ℕ)} (h : us.Perm vs) : weight p us = weight p vs := by
  induction h with
  | nil => rfl
  | cons u _ ih => rw [weight_cons, weight_cons, ih]
  | swap u v us =>
    obtain ⟨x, n⟩ := u
    obtain ⟨y, m⟩ := v
    rw [weight_cons, weight_cons, weight_cons, weight_cons, Nat.add_left_comm]
  | trans _ _ ih₁ ih₂ => exact ih₁.trans ih₂

/-- More items, more weight. -/
theorem weight_le_weight {p q : α → Bool} (h : ∀ x, p x → q x) (us : List (α × ℕ)) :
    weight p us ≤ weight q us := by
  induction us with
  | nil => exact Nat.le_refl 0
  | cons u us ih =>
    obtain ⟨x, n⟩ := u
    rw [weight_cons, weight_cons]
    refine Nat.add_le_add ?_ ih
    by_cases hp : p x
    · simp [hp, h x hp]
    · rw [if_neg hp]
      exact Nat.zero_le _

variable [DecidableEq α] [DecidableEq κ]

/-- The true count of an item. -/
def count (x : α) (us : List (α × ℕ)) : ℕ := weight (fun y => decide (y = x)) us

/-- The sum of all counts. -/
def total (us : List (α × ℕ)) : ℕ := weight (fun _ => true) us

/-- The cell `k` of a row with the hash function `h`. -/
def cell (h : α → κ) (k : κ) (us : List (α × ℕ)) : ℕ := weight (fun y => decide (h y = k)) us

omit [DecidableEq α] in
theorem cell_le_total (h : α → κ) (k : κ) (us : List (α × ℕ)) : cell h k us ≤ total us :=
  weight_le_weight (fun _ _ => rfl) us

theorem count_le_cell (h : α → κ) (x : α) (us : List (α × ℕ)) : count x us ≤ cell h (h x) us :=
  weight_le_weight (fun y hy => by rw [of_decide_eq_true hy]; exact decide_eq_true rfl) us

theorem count_le_total (x : α) (us : List (α × ℕ)) : count x us ≤ total us :=
  weight_le_weight (fun _ _ => rfl) us

/-! ### Estimates -/

variable (h : ρ → α → κ) (cap : ℕ) (rows : List ρ)

/-- The least of `cap` and the cells of the item. -/
def estimate (us : List (α × ℕ)) (x : α) : ℕ :=
  rows.foldl (fun m j => min m (cell (h j) (h j x) us)) cap

variable {h cap rows}

omit [DecidableEq α] in
/-- A bound of the estimate is one of `cap` and of every cell. -/
theorem le_estimate {us : List (α × ℕ)} {x : α} {n : ℕ} :
    n ≤ estimate h cap rows us x ↔ n ≤ cap ∧ ∀ j ∈ rows, n ≤ cell (h j) (h j x) us := by
  unfold estimate
  induction rows generalizing cap with
  | nil => simp
  | cons j rows ih =>
    rw [List.foldl_cons, ih, Nat.le_min, List.forall_mem_cons, and_assoc]

omit [DecidableEq α] in
theorem estimate_le_total (hrows : rows ≠ []) (us : List (α × ℕ)) (x : α) :
    estimate h cap rows us x ≤ total us := by
  obtain ⟨j, hj⟩ := List.exists_mem_of_ne_nil rows hrows
  exact Nat.le_trans ((le_estimate.mp (Nat.le_refl _)).2 j hj) (cell_le_total _ _ us)

theorem count_le_estimate {us : List (α × ℕ)} (hcap : total us ≤ cap) (x : α) :
    count x us ≤ estimate h cap rows us x :=
  le_estimate.mpr ⟨Nat.le_trans (count_le_total x us) hcap, fun j _ => count_le_cell (h j) x us⟩

omit [DecidableEq α] in
theorem estimate_mono (us vs : List (α × ℕ)) (x : α) :
    estimate h cap rows us x ≤ estimate h cap rows (us ++ vs) x := by
  obtain ⟨hcap, hcells⟩ := le_estimate.mp (Nat.le_refl (estimate h cap rows us x))
  refine le_estimate.mpr ⟨hcap, fun j hj => ?_⟩
  rw [cell, weight_append]
  exact Nat.le_trans (hcells j hj) (Nat.le_add_right _ _)

omit [DecidableEq α] in
/-- Each update of the item by 1 raises its estimate. -/
theorem estimate_succ_le (hrows : rows ≠ []) {us : List (α × ℕ)} (x : α) (hcap : total us + 1 ≤ cap) :
    estimate h cap rows us x + 1 ≤ estimate h cap rows (us ++ [(x, 1)]) x := by
  have hle : estimate h cap rows us x ≤ total us := estimate_le_total hrows us x
  refine le_estimate.mpr ⟨by omega, fun j hj => ?_⟩
  have hcell := (le_estimate.mp (Nat.le_refl (estimate h cap rows us x))).2 j hj
  have hstep : cell (h j) (h j x) (us ++ [(x, 1)]) = cell (h j) (h j x) us + 1 := by
    simp [cell]
  rw [hstep]
  exact Nat.succ_le_succ hcell

end Nica.Lib.CountMin
