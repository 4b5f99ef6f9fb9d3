import Mathlib.Algebra.BigOperators.Group.Finset.Basic
import Mathlib.Data.Finset.Range

/-!
# A store handed out in pieces

`Partition N free live piece`: the cells below `N` are divided between the free ones and the pieces of the
live owners, without overlap.  `take` and `give` are the two moves of an allocator that keep this; `card` is
the conservation of cells.
-/

namespace Nica.Lib

variable {ι : Type*} {N : ℕ} {free R : Finset ℕ} {live : Finset ι}
  {piece : ι → Finset ℕ}

/-- Every cell below `N` is free or belongs to exactly one live owner. -/
structure Partition (N : ℕ) (free : Finset ℕ) (live : Finset ι) (piece : ι → Finset ℕ) : Prop where
  apart : ∀ i ∈ live, Disjoint (piece i) free
  pairwise : ∀ i ∈ live, ∀ j ∈ live, i ≠ j → Disjoint (piece i) (piece j)
  cover : free ∪ live.biUnion piece = Finset.range N

namespace Partition

theorem start : Partition N (Finset.range N) (∅ : Finset ι) piece := by
  constructor
  · intro i hi
    cases Finset.notMem_empty i hi
  · intro i hi
    cases Finset.notMem_empty i hi
  · rw [Finset.biUnion_empty, Finset.union_empty]

theorem free_subset (h : Partition N free live piece) : free ⊆ Finset.range N := by
  rw [← h.cover]
  exact Finset.subset_union_left

theorem piece_subset (h : Partition N free live piece) {i : ι} (hi : i ∈ live) :
    piece i ⊆ Finset.range N := by
  rw [← h.cover]
  exact (Finset.subset_biUnion_of_mem piece hi).trans Finset.subset_union_right

/-- Pieces that agree on the live owners are as good. -/
theorem congr (piece piece' : ι → Finset ℕ) (h : Partition N free live piece)
    (heq : ∀ i ∈ live, piece' i = piece i) : Partition N free live piece' := by
  constructor
  · intro i hi
    rw [heq i hi]
    exact h.apart i hi
  · intro i hi j hj
    rw [heq i hi, heq j hj]
    exact h.pairwise i hi j hj
  · rw [← h.cover, Finset.biUnion_congr rfl heq]

/-- A new owner takes free cells. -/
theorem take [DecidableEq ι] (h : Partition N free live piece) {i : ι} (hi : i ∉ live) (hR : piece i = R)
    (hfree : R ⊆ free) : Partition N (free \ R) (insert i live) piece := by
  constructor
  · intro j hj
    rcases Finset.mem_insert.mp hj with rfl | hj
    · rw [hR]
      exact Finset.disjoint_sdiff
    · exact (h.apart j hj).mono_right Finset.sdiff_subset
  · intro j hj k hk hjk
    rcases Finset.mem_insert.mp hj with hji | hj' <;> rcases Finset.mem_insert.mp hk with hki | hk'
    · exact absurd (hji.trans hki.symm) hjk
    · rw [hji, hR]
      exact ((h.apart k hk').mono_right hfree).symm
    · rw [hki, hR]
      exact (h.apart j hj').mono_right hfree
    · exact h.pairwise j hj' k hk' hjk
  · rw [Finset.biUnion_insert, hR, ← Finset.union_assoc, Finset.sdiff_union_of_subset hfree, h.cover]

/-- An owner gives its cells back. -/
theorem give [DecidableEq ι] (h : Partition N free live piece) {i : ι} (hi : i ∈ live) :
    Partition N (free ∪ piece i) (live.erase i) piece := by
  constructor
  · intro j hj
    rw [Finset.mem_erase] at hj
    rw [Finset.disjoint_union_right]
    exact ⟨h.apart j hj.2, h.pairwise j hj.2 i hi hj.1⟩
  · intro j hj k hk
    exact h.pairwise j (Finset.mem_of_mem_erase hj) k (Finset.mem_of_mem_erase hk)
  · rw [Finset.union_assoc, ← Finset.biUnion_insert, Finset.insert_erase hi, h.cover]

/-- What meets no live piece is free. -/
theorem subset_free (h : Partition N free live piece) (hR : R ⊆ Finset.range N)
    (hapart : ∀ i ∈ live, Disjoint R (piece i)) : R ⊆ free := by
  intro n hn
  have hmem := hR hn
  rw [← h.cover, Finset.mem_union, Finset.mem_biUnion] at hmem
  rcases hmem with hmem | ⟨i, hi, hmem⟩
  · exact hmem
  · exact absurd hmem (Finset.disjoint_left.mp (hapart i hi) hn)

/-- The free cells and the live pieces add up. -/
theorem card (h : Partition N free live piece) :
    free.card + ∑ i ∈ live, (piece i).card = N := by
  have hdisj : Disjoint free (live.biUnion piece) := by
    rw [Finset.disjoint_biUnion_right]
    intro i hi
    exact (h.apart i hi).symm
  rw [← Finset.card_biUnion h.pairwise, ← Finset.card_union_of_disjoint hdisj, h.cover,
    Finset.card_range]

end Partition

end Nica.Lib
