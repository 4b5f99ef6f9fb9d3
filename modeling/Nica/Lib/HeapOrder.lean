import Mathlib.Data.Multiset.AddSub
import Mathlib.Data.Multiset.Range
import Mathlib.Logic.Function.Basic
import Mathlib.Order.Basic

/-!
# Binary heaps, order and contents

The first `n` values of `d : ℕ → α` as a binary tree in level order, the parent of position `i` being
`(i - 1) / 2`.  Between two operations no value is below its parent (`Ordered`).  While an operation runs, one
position is out of order with its parent (`UpOrder`) or with its children (`DownOrder`); a swap along an edge
moves the violation, and when it meets a pair in order, or runs out of pairs, the tree is ordered.

* `UpOrder.move`, `UpOrder.finish`, `DownOrder.move`, `DownOrder.finish`: the two loops, step by step;
* `elements_update`, `elements_swap`: what happens to the multiset of the values;
* `Ordered.root_le`: the root is a minimum.
-/

namespace Nica.Lib.HeapOrder

variable {α : Type*}

/-- The parent of a position; the root is its own. -/
def parent (i : ℕ) : ℕ := (i - 1) / 2

/-- `std::swap(d[i], d[j])`. -/
def swap (d : ℕ → α) (i j : ℕ) : ℕ → α := Function.update (Function.update d i (d j)) j (d i)

section Swap

variable (d : ℕ → α) (i j : ℕ)

@[simp] theorem swap_right : swap d i j j = d i := by
  simp [swap]

@[simp] theorem swap_left : swap d i j i = d j := by
  by_cases h : i = j
  · subst h
    simp [swap]
  · simp [swap, h]

theorem swap_of_ne {k : ℕ} (hi : k ≠ i) (hj : k ≠ j) : swap d i j k = d k := by
  simp [swap, hi, hj]

end Swap

/-! ### The values -/

/-- The first `n` values, as often as they occur. -/
def elements (n : ℕ) (d : ℕ → α) : Multiset α := (Multiset.range n).map d

theorem elements_succ (n : ℕ) (d : ℕ → α) : elements (n + 1) d = d n ::ₘ elements n d := by
  rw [elements, Multiset.range_succ, Multiset.map_cons]
  rfl

@[simp] theorem elements_zero (d : ℕ → α) : elements 0 d = 0 := rfl

theorem mem_elements {n : ℕ} {d : ℕ → α} {x : α} : x ∈ elements n d ↔ ∃ i < n, d i = x := by
  simp [elements]

theorem elements_congr {n : ℕ} {d e : ℕ → α} (h : ∀ i < n, d i = e i) : elements n d = elements n e := by
  apply Multiset.map_congr rfl
  intro i hi
  exact h i (Multiset.mem_range.mp hi)

section Contents

variable [DecidableEq α] {n : ℕ}

/-- A new value at a position takes the place of the old one. -/
theorem elements_update (d : ℕ → α) {i : ℕ} (hi : i < n) (v : α) :
    elements n (Function.update d i v) = v ::ₘ (elements n d).erase (d i) := by
  induction n with
  | zero => omega
  | succ n ih =>
    rw [elements_succ, elements_succ]
    rcases Nat.lt_succ_iff_lt_or_eq.mp hi with hlt | rfl
    · rw [Function.update_of_ne (by omega), ih hlt, Multiset.cons_swap]
      congr 1
      by_cases heq : d n = d i
      · rw [heq, Multiset.erase_cons_head, Multiset.cons_erase (mem_elements.mpr ⟨i, hlt, rfl⟩)]
      · rw [Multiset.erase_cons_tail _ heq]
    · have hrest : elements i (Function.update d i v) = elements i d := by
        apply elements_congr
        intro j hj
        rw [Function.update_of_ne (by omega)]
      rw [Function.update_self, hrest, Multiset.erase_cons_head]

theorem elements_swap (d : ℕ → α) {i j : ℕ} (hi : i < n) (hj : j < n) :
    elements n (swap d i j) = elements n d := by
  unfold swap
  rw [elements_update _ hj, elements_update d hi]
  by_cases hij : i = j
  · subst hij
    rw [Function.update_self, Multiset.erase_cons_head, Multiset.cons_erase (mem_elements.mpr ⟨i, hi, rfl⟩)]
  · rw [Function.update_of_ne (Ne.symm hij), Multiset.erase_cons_head,
      Multiset.cons_erase (mem_elements.mpr ⟨i, hi, rfl⟩)]

/-- The last value takes the place of the root, and the tree gets one shorter. -/
theorem elements_pop (d : ℕ → α) (n : ℕ) :
    elements n (Function.update d 0 (d n)) = (elements (n + 1) d).erase (d 0) := by
  have hupdate := elements_update d (Nat.succ_pos n) (d n)
  have hlast : Function.update d 0 (d n) n = d n := by
    by_cases hn : n = 0
    · subst hn
      rw [Function.update_self]
    · rw [Function.update_of_ne hn]
  rw [elements_succ, hlast] at hupdate
  exact (Multiset.cons_inj_right _).mp hupdate

end Contents

/-! ### The order -/

section Order

variable [LinearOrder α] {n : ℕ} {d : ℕ → α} {i : ℕ}

/-- No value is below its parent. -/
def Ordered (n : ℕ) (d : ℕ → α) : Prop := ∀ j, 0 < j → j < n → d (parent j) ≤ d j

/-- The root is a minimum. -/
theorem Ordered.root_le (h : Ordered n d) : ∀ j < n, d 0 ≤ d j := by
  intro j
  induction j using Nat.strong_induction_on with
  | _ j ih =>
  intro hj
  rcases Nat.eq_zero_or_pos j with rfl | hpos
  · exact le_refl _
  · have hlt : parent j < j := by
      unfold parent
      omega
    exact (ih (parent j) hlt (hlt.trans hj)).trans (h j hpos hj)

/-- Position `i` may be below its parent: the other pairs are in order, and so are the children of `i` with
the parent of `i`. -/
structure UpOrder (n : ℕ) (d : ℕ → α) (i : ℕ) : Prop where
  except : ∀ j, 0 < j → j < n → j ≠ i → d (parent j) ≤ d j
  grand : 0 < i → ∀ j, 0 < j → j < n → parent j = i → d (parent i) ≤ d j

/-- Position `i` may be above its children: the other pairs are in order, and so are the children of `i` with
the parent of `i`. -/
structure DownOrder (n : ℕ) (d : ℕ → α) (i : ℕ) : Prop where
  except : ∀ j, 0 < j → j < n → parent j ≠ i → d (parent j) ≤ d j
  grand : 0 < i → ∀ j, 0 < j → j < n → parent j = i → d (parent i) ≤ d j

theorem UpOrder.finish (h : UpOrder n d i) (hi : 0 < i → d (parent i) ≤ d i) : Ordered n d := by
  intro j hpos hj
  by_cases hji : j = i
  · subst hji
    exact hi hpos
  · exact h.except j hpos hj hji

/-- The value at `i` is below its parent, and the two change places. -/
theorem UpOrder.move (h : UpOrder n d i) (hpos : 0 < i) (hi : i < n) (hlt : d i < d (parent i)) :
    UpOrder n (swap d (parent i) i) (parent i) := by
  have hp : parent i < i := by
    unfold parent
    omega
  constructor
  · intro j hjpos hj hjp
    by_cases hji : j = i
    · -- the pair that was out of order
      subst hji
      rw [swap_left, swap_right]
      exact hlt.le
    · rw [swap_of_ne d _ _ hjp hji]
      by_cases hpj : parent j = i
      · rw [hpj, swap_right]
        exact h.grand hpos j hjpos hj hpj
      · by_cases hsib : parent j = parent i
        · rw [hsib, swap_left]
          exact hlt.le.trans (hsib ▸ h.except j hjpos hj hji)
        · rw [swap_of_ne d _ _ hsib hpj]
          exact h.except j hjpos hj hji
  · intro hppos j hjpos hj hpj
    have hpp : parent (parent i) < parent i := by
      unfold parent at hppos ⊢
      omega
    have hparent : d (parent (parent i)) ≤ d (parent i) := h.except _ hppos (by omega) (by omega)
    rw [swap_of_ne d _ _ (by omega) (by omega)]
    by_cases hji : j = i
    · subst hji
      rw [swap_right]
      exact hparent
    · have hjp : j ≠ parent i := by
        rintro rfl
        omega
      rw [swap_of_ne d _ _ hjp hji]
      exact hparent.trans (hpj ▸ h.except j hjpos hj hji)

theorem DownOrder.finish (h : DownOrder n d i) (hi : ∀ j, 0 < j → j < n → parent j = i → d i ≤ d j) :
    Ordered n d := by
  intro j hpos hj
  by_cases hpj : parent j = i
  · rw [hpj]
    exact hi j hpos hj hpj
  · exact h.except j hpos hj hpj

/-- The least child `m` is not above the value at `i`, and the two change places. -/
theorem DownOrder.move (h : DownOrder n d i) {m : ℕ} (hm : 0 < m) (hmn : m < n) (hpm : parent m = i)
    (hle : d m ≤ d i) (hmin : ∀ j, 0 < j → j < n → parent j = i → d m ≤ d j) :
    DownOrder n (swap d m i) m := by
  have him : i < m := by
    unfold parent at hpm
    omega
  constructor
  · intro j hjpos hj hpj
    by_cases hji : j = i
    · -- the pair above: the child was in order with the parent of `i`
      subst hji
      have hpj' : parent j ≠ j := by
        unfold parent
        omega
      rw [swap_right, swap_of_ne d _ _ hpj hpj']
      exact h.grand hjpos m hm hmn hpm
    · by_cases hjm : j = m
      · subst hjm
        rw [hpm, swap_right, swap_left]
        exact hle
      · rw [swap_of_ne d _ _ hjm hji]
        by_cases hsib : parent j = i
        · rw [hsib, swap_right]
          exact hmin j hjpos hj hsib
        · rw [swap_of_ne d _ _ hpj hsib]
          exact h.except j hjpos hj hsib
  · intro _ j hjpos hj hpj
    have hmj : m < j := by
      unfold parent at hpj
      omega
    rw [hpm, swap_right, swap_of_ne d _ _ (by omega) (by omega)]
    have hle' := h.except j hjpos hj (by omega)
    rwa [hpj] at hle'

/-! How the two loops start. -/

/-- A last value was added. -/
theorem Ordered.upOrder_last (h : Ordered n d) (v : α) : UpOrder (n + 1) (Function.update d n v) n := by
  constructor
  · intro j hpos hj hjn
    have hp : parent j ≠ n := by
      unfold parent
      omega
    rw [Function.update_of_ne hp, Function.update_of_ne hjn]
    exact h j hpos (by omega)
  · intro _ j hpos hj hpj
    unfold parent at hpj
    omega

/-- A value was replaced by a smaller one. -/
theorem Ordered.upOrder_update (h : Ordered n d) (hi : i < n) {v : α} (hv : v ≤ d i) :
    UpOrder n (Function.update d i v) i := by
  constructor
  · intro j hpos hj hji
    rw [Function.update_of_ne hji]
    by_cases hp : parent j = i
    · rw [hp, Function.update_self]
      exact hv.trans (hp ▸ h j hpos hj)
    · rw [Function.update_of_ne hp]
      exact h j hpos hj
  · intro hipos j hpos hj hpj
    have hp : parent i ≠ i := by
      unfold parent
      omega
    have hji : j ≠ i := by
      unfold parent at hpj
      omega
    rw [Function.update_of_ne hp, Function.update_of_ne hji]
    exact (h i hipos hi).trans (hpj ▸ h j hpos hj)

/-- A value was replaced by one that is not smaller. -/
theorem Ordered.downOrder_update (h : Ordered n d) (hi : i < n) {v : α} (hv : d i ≤ v) :
    DownOrder n (Function.update d i v) i := by
  constructor
  · intro j hpos hj hpj
    rw [Function.update_of_ne hpj]
    by_cases hji : j = i
    · subst hji
      rw [Function.update_self]
      exact (h j hpos hj).trans hv
    · rw [Function.update_of_ne hji]
      exact h j hpos hj
  · intro hipos j hpos hj hpj
    have hp : parent i ≠ i := by
      unfold parent
      omega
    have hji : j ≠ i := by
      unfold parent at hpj
      omega
    rw [Function.update_of_ne hp, Function.update_of_ne hji]
    exact (h i hipos hi).trans (hpj ▸ h j hpos hj)

/-- The root was replaced by any value. -/
theorem Ordered.downOrder_root (h : Ordered n d) (v : α) : DownOrder n (Function.update d 0 v) 0 := by
  constructor
  · intro j hpos hj hpj
    rw [Function.update_of_ne hpj, Function.update_of_ne (by omega)]
    exact h j hpos hj
  · intro h0
    omega

theorem Ordered.mono {m : ℕ} (h : Ordered n d) (hm : m ≤ n) : Ordered m d :=
  fun j hpos hj => h j hpos (lt_of_lt_of_le hj hm)

end Order

end Nica.Lib.HeapOrder
