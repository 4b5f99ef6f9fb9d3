import Nica.Hls.Heap

/-!
# The heap keeps its order and its elements

* `parent_eq`, `child_eq`: with at most `2 ^ 31` elements, `parent` and `child` are those of the tree;
* `getMinIdx_spec`: the index of the least of an element and its children;
* `bubbleUp_spec`, `bubbleDown_spec`: each loop repairs its violation, within as many rounds as there are
  elements;
* `insert_spec`, `update_spec`, `extractMin_spec`, `drain_spec`: the operations;
* `behaves`: every sequence of them.
-/

namespace Nica.Hls.Heap

open Nica.Lib HeapOrder

variable {T : Type}

/-! ### Indices -/

section Indices

variable {h : Heap T} {idx : HeapIndex}

theorem getItem_of_lt (hi : idx.toNat < h.size.toNat) : h.getItem idx = .ok (h.data idx.toNat) :=
  if_pos (BitVec.lt_def.mpr hi)

theorem setItem_of_lt (hi : idx.toNat < h.size.toNat) (val : T) :
    h.setItem idx val = .ok { h with data := Function.update h.data idx.toNat val } :=
  if_pos (BitVec.lt_def.mpr hi)

theorem swap_of_lt {a b : HeapIndex} (ha : a.toNat < h.size.toNat) (hb : b.toNat < h.size.toNat) :
    h.swap a b = .ok { h with data := HeapOrder.swap h.data a.toNat b.toNat } :=
  if_pos ⟨BitVec.lt_def.mpr ha, BitVec.lt_def.mpr hb⟩

/-- An `int` that is not negative, as an index. -/
theorem toNat_ofInt {i : ℕ} (hi : i < 2 ^ 32) : (BitVec.ofInt 32 (i : ℤ)).toNat = i := by
  rw [BitVec.ofInt_natCast, BitVec.toNat_ofNat, Nat.mod_eq_of_lt hi]

theorem toInt_of_lt {x : HeapIndex} (hx : x.toNat < 2 ^ 31) : x.toInt = x.toNat := by
  rw [BitVec.toInt_eq_toNat_cond, if_pos (by omega)]

theorem parent_none (hn : h.size.toNat ≤ 1) : h.parent idx = -1 :=
  if_pos (BitVec.le_def.mpr hn)

/-- The parent of the root comes out as the root, since the division truncates. -/
theorem parent_eq (hn : 1 < h.size.toNat) (hi : idx.toNat ≤ 2 ^ 31) :
    h.parent idx = (HeapOrder.parent idx.toNat : ℕ) := by
  unfold parent
  have hle : ¬h.size ≤ 1 := by
    rw [BitVec.le_def]
    exact Nat.not_le.mpr hn
  rw [if_neg hle]
  by_cases h0 : idx = 0
  · subst h0
    rfl
  · have hpos : 0 < idx.toNat := by
      rw [Nat.pos_iff_ne_zero]
      exact fun hz => h0 (BitVec.eq_of_toNat_eq hz)
    have hsub : (idx - 1).toNat = idx.toNat - 1 := by
      have hone : (1 : HeapIndex).toNat = 1 := rfl
      rw [BitVec.toNat_sub_of_le (BitVec.le_def.mpr (by omega)), hone]
    rw [toInt_of_lt (by omega), hsub, HeapOrder.parent]
    exact (Int.ofNat_tdiv _ _).symm

/-- The left child. -/
theorem child_eq (hi : idx.toNat < h.size.toNat) (hmax : h.size.toNat ≤ 2 ^ 31) :
    h.child idx = if 2 * idx.toNat + 1 < h.size.toNat then ((2 * idx.toNat + 1 : ℕ) : ℤ) else -1 := by
  unfold child
  have hnat : (2 * idx + 1).toNat = 2 * idx.toNat + 1 := by
    rw [BitVec.toNat_add, BitVec.toNat_mul]
    show (2 * idx.toNat % 2 ^ 32 + 1) % 2 ^ 32 = _
    omega
  by_cases hlt : 2 * idx.toNat + 1 < h.size.toNat
  · have hcond : ¬(h.size ≤ 1 ∨ 2 * idx + 1 ≥ h.size) := by
      rw [ge_iff_le, BitVec.le_def, BitVec.le_def, hnat]
      show ¬(h.size.toNat ≤ 1 ∨ _)
      omega
    rw [if_neg hcond, if_pos hlt, toInt_of_lt (by omega), hnat]
  · have hcond : h.size ≤ 1 ∨ 2 * idx + 1 ≥ h.size := by
      right
      rw [ge_iff_le, BitVec.le_def, hnat]
      omega
    rw [if_pos hcond, if_neg hlt]

/-- The children of a position are the next two after its double. -/
theorem eq_of_parent_eq {i j : ℕ} (hj : 0 < j) (h : HeapOrder.parent j = i) : j = 2 * i + 1 ∨ j = 2 * i + 2 := by
  unfold HeapOrder.parent at h
  omega

end Indices

/-! ### The loops -/

variable [LinearOrder T] {h : Heap T} {idx : HeapIndex}

/-- The elements of the heap. -/
def contents (h : Heap T) : Multiset T := elements h.size.toNat h.data

/-- `getMinIdx`: the index of the least of the three, of which the right one may be missing. -/
theorem getMinIdx_spec {l r : HeapIndex} (hi : idx.toNat < h.size.toNat) (hl : l.toNat < h.size.toNat) :
    ∃ m, h.getMinIdx idx l r = .ok m ∧ m.toNat < h.size.toNat ∧ (m = idx ∨ m = l ∨ m = r) ∧
      h.data m.toNat ≤ h.data idx.toNat ∧ h.data m.toNat ≤ h.data l.toNat ∧
      (r.toNat < h.size.toNat → h.data m.toNat ≤ h.data r.toNat) := by
  unfold getMinIdx
  rw [getItem_of_lt hi, getItem_of_lt hl]
  simp only [bind, Except.bind, pure, Except.pure]
  by_cases hr : r.toNat < h.size.toNat
  · have hcond : ¬r ≥ h.size := by
      rw [ge_iff_le, BitVec.le_def]
      omega
    rw [if_neg hcond, getItem_of_lt hr]
    by_cases hil : h.data idx.toNat < h.data l.toNat
    · simp only [hil, decide_true, if_true]
      by_cases hir : h.data idx.toNat < h.data r.toNat
      · exact ⟨idx, by rw [if_pos hir], hi, .inl rfl, le_refl _, hil.le, fun _ => hir.le⟩
      · have hri := not_lt.mp hir
        exact ⟨r, by rw [if_neg hir], hr, .inr (.inr rfl), hri, hri.trans hil.le, fun _ => le_refl _⟩
    · have hli := not_lt.mp hil
      simp only [hil, decide_false, Bool.false_eq_true, if_false]
      by_cases hlr : h.data l.toNat < h.data r.toNat
      · exact ⟨l, by rw [if_pos hlr], hl, .inr (.inl rfl), hli, le_refl _, fun _ => hlr.le⟩
      · have hrl := not_lt.mp hlr
        exact ⟨r, by rw [if_neg hlr], hr, .inr (.inr rfl), hrl.trans hli, hrl, fun _ => le_refl _⟩
  · have hcond : r ≥ h.size := by
      rw [ge_iff_le, BitVec.le_def]
      omega
    rw [if_pos hcond]
    by_cases hil : h.data idx.toNat < h.data l.toNat
    · exact ⟨idx, by simp [hil], hi, .inl rfl, le_refl _, hil.le, fun hlt => absurd hlt hr⟩
    · exact ⟨l, by simp [hil], hl, .inr (.inl rfl), not_lt.mp hil, le_refl _, fun hlt => absurd hlt hr⟩

/-- What a loop that starts at `idx` leaves: the same elements in order, and the value of `idx` at the index
that it returns. -/
structure Repaired (h : Heap T) (idx : HeapIndex) (r : Heap T × HeapIndex) : Prop where
  size_eq : r.1.size = h.size
  ordered : Ordered h.size.toNat r.1.data
  contents_eq : r.1.contents = h.contents
  index_lt : r.2.toNat < h.size.toNat
  at_index : r.1.data r.2.toNat = h.data idx.toNat

/-- Nothing is left to do. -/
theorem Repaired.done (hi : idx.toNat < h.size.toNat) (ho : Ordered h.size.toNat h.data) :
    Repaired h idx (h, idx) :=
  ⟨rfl, ho, rfl, hi, rfl⟩

/-- The value of `idx` changes places with that of `j`, and the loop goes on from there. -/
theorem Repaired.step {j : HeapIndex} {r : Heap T × HeapIndex} (hi : idx.toNat < h.size.toNat)
    (hj : j.toNat < h.size.toNat)
    (hr : Repaired { h with data := HeapOrder.swap h.data j.toNat idx.toNat } j r) : Repaired h idx r where
  size_eq := hr.size_eq
  ordered := hr.ordered
  contents_eq := hr.contents_eq.trans (elements_swap h.data hj hi)
  index_lt := hr.index_lt
  at_index := hr.at_index.trans (swap_left ..)

/-- `bubbleUp` repairs an element that is below its parent; each round brings it nearer to the root. -/
theorem bubbleUp_spec (hmax : h.size.toNat ≤ 2 ^ 31) {fuel : ℕ} (hfuel : idx.toNat < fuel)
    (hi : idx.toNat < h.size.toNat) (ho : UpOrder h.size.toNat h.data idx.toNat) :
    ∃ r, h.bubbleUp fuel idx = .ok r ∧ Repaired h idx r := by
  induction fuel generalizing h idx with
  | zero => omega
  | succ fuel ih =>
    unfold bubbleUp
    simp only [bind, Except.bind, pure, Except.pure]
    by_cases hn : h.size.toNat ≤ 1
    · rw [parent_none hn, if_pos rfl]
      refine ⟨_, rfl, .done hi (ho.finish fun hpos => ?_)⟩
      omega
    · rw [parent_eq (by omega) (by omega), if_neg (by omega)]
      have hle : HeapOrder.parent idx.toNat ≤ idx.toNat := by
        unfold HeapOrder.parent
        omega
      have hp := toNat_ofInt (i := HeapOrder.parent idx.toNat) (by omega)
      have hplt : (BitVec.ofInt 32 (HeapOrder.parent idx.toNat : ℤ)).toNat < h.size.toNat := by
        rw [hp]
        omega
      rw [getItem_of_lt hplt, getItem_of_lt hi, swap_of_lt hplt hi]
      simp only [hp, gt_iff_lt]
      by_cases hlt : h.data idx.toNat < h.data (HeapOrder.parent idx.toNat)
      · have hpos : 0 < idx.toNat := by
          by_contra hzero
          have hidx : idx.toNat = 0 := by omega
          rw [hidx] at hlt
          exact lt_irrefl _ hlt
        have hnear : HeapOrder.parent idx.toNat < idx.toNat := by
          unfold HeapOrder.parent
          omega
        rw [if_pos hlt]
        have hmove : UpOrder h.size.toNat (HeapOrder.swap h.data (HeapOrder.parent idx.toNat) idx.toNat)
            (BitVec.ofInt 32 (HeapOrder.parent idx.toNat : ℤ)).toNat := by
          rw [hp]
          exact ho.move hpos hi hlt
        obtain ⟨r, hr, hrepaired⟩ := @ih
          ⟨HeapOrder.swap h.data (HeapOrder.parent idx.toNat) idx.toNat, h.size⟩ _ hmax (by omega) hplt hmove
        refine ⟨r, hr, Repaired.step hi hplt ?_⟩
        rw [hp]
        exact hrepaired
      · rw [if_neg hlt]
        exact ⟨_, rfl, .done hi (ho.finish fun _ => not_lt.mp hlt)⟩

/-- `bubbleDown` repairs an element that is above its children; each round takes it further from the root. -/
theorem bubbleDown_spec (hmax : h.size.toNat ≤ 2 ^ 31) {fuel : ℕ} (hfuel : h.size.toNat ≤ fuel + idx.toNat)
    (hi : idx.toNat < h.size.toNat) (ho : DownOrder h.size.toNat h.data idx.toNat) :
    ∃ r, h.bubbleDown fuel idx = .ok r ∧ Repaired h idx r := by
  induction fuel generalizing h idx with
  | zero => omega
  | succ fuel ih =>
    unfold bubbleDown
    simp only [bind, Except.bind, pure, Except.pure]
    rw [child_eq hi hmax]
    by_cases hleft : 2 * idx.toNat + 1 < h.size.toNat
    · rw [if_pos hleft, if_neg (by omega)]
      have hl := toNat_ofInt (i := 2 * idx.toNat + 1) (by omega)
      have hr : (BitVec.ofInt 32 (((2 * idx.toNat + 1 : ℕ) : ℤ) + 1)).toNat = 2 * idx.toNat + 2 :=
        toNat_ofInt (i := 2 * idx.toNat + 2) (by omega)
      generalize BitVec.ofInt 32 ((2 * idx.toNat + 1 : ℕ) : ℤ) = l at hl ⊢
      generalize BitVec.ofInt 32 (((2 * idx.toNat + 1 : ℕ) : ℤ) + 1) = r at hr ⊢
      obtain ⟨m, hm, hmlt, hcase, hmi, hml, hmr⟩ := getMinIdx_spec (r := r) hi (hl ▸ hleft)
      rw [hm]
      dsimp only
      rw [hl] at hml
      rw [hr] at hmr
      have hmin : ∀ j, 0 < j → j < h.size.toNat → HeapOrder.parent j = idx.toNat →
          h.data m.toNat ≤ h.data j := by
        intro j hpos hj hpj
        rcases eq_of_parent_eq hpos hpj with rfl | rfl
        · exact hml
        · exact hmr hj
      by_cases hsame : m = idx
      · subst hsame
        rw [if_neg (not_not.mpr rfl)]
        exact ⟨_, rfl, .done hi (ho.finish hmin)⟩
      · have hchild : m.toNat = 2 * idx.toNat + 1 ∨ m.toNat = 2 * idx.toNat + 2 := by
          rcases hcase with heq | heq | heq
          · exact absurd heq hsame
          · exact .inl (heq ▸ hl)
          · exact .inr (heq ▸ hr)
        have hpm : HeapOrder.parent m.toNat = idx.toNat := by
          unfold HeapOrder.parent
          omega
        rw [if_pos hsame, swap_of_lt hmlt hi]
        have hmove : DownOrder h.size.toNat (HeapOrder.swap h.data m.toNat idx.toNat) m.toNat :=
          ho.move (by omega) hmlt hpm hmi hmin
        have hrounds : h.size.toNat ≤ fuel + m.toNat := by omega
        obtain ⟨r, hr, hrepaired⟩ := @ih ⟨HeapOrder.swap h.data m.toNat idx.toNat, h.size⟩ m hmax hrounds
          hmlt hmove
        exact ⟨r, hr, hrepaired.step hi hmlt⟩
    · rw [if_neg hleft, if_pos rfl]
      refine ⟨_, rfl, .done hi (ho.finish fun j hpos hj hpj => ?_)⟩
      rcases eq_of_parent_eq hpos hpj with rfl | rfl <;> omega

/-! ### The operations -/

/-- `m` is one of the least elements of `s`. -/
def IsMinimum (m : T) (s : Multiset T) : Prop := m ∈ s ∧ ∀ x ∈ s, m ≤ x

/-- A heap between two calls. -/
structure Valid (Size : HeapIndex) (h : Heap T) : Prop where
  size_le : h.size.toNat ≤ Size.toNat
  ordered : Ordered h.size.toNat h.data

/-- What a call does to the elements, and what it returns. -/
def Meets (Size : HeapIndex) (h : Heap T) (op : Op T) (h' : Heap T) (answer : Answer T) : Prop :=
  match op, answer with
  | .insert val, .index i =>
    (i < h'.size ∧ h'.data i.toNat = val) ∧
      if h.size < Size then h'.contents = val ::ₘ h.contents
      else ∃ m, IsMinimum m h.contents ∧ h'.contents = val ::ₘ h.contents.erase m
  | .update idx newVal, .index i =>
    (i < h'.size ∧ h'.data i.toNat = newVal) ∧
      h'.contents = newVal ::ₘ h.contents.erase (h.data idx.toNat)
  | .extractMin, .min m => IsMinimum m h.contents ∧ h'.contents = h.contents.erase m
  | _, _ => False

/-- The calls that the users make: `update` of an element, `extractMin` of a heap that is not empty. -/
def Legal (h : Heap T) : Op T → Prop
  | .insert _ => True
  | .update idx _ => idx < h.size
  | .extractMin => h.size ≠ 0

section Operations

variable {Size : HeapIndex} {fuel : ℕ}

theorem Valid.root_isMinimum (hv : Valid Size h) (hpos : 0 < h.size.toNat) :
    IsMinimum (h.data 0) h.contents := by
  refine ⟨mem_elements.mpr ⟨0, hpos, rfl⟩, ?_⟩
  intro x hx
  obtain ⟨i, hi, rfl⟩ := mem_elements.mp hx
  exact hv.ordered.root_le i hi

/-- A loop from a heap of at most `Size` elements leaves a heap between two calls. -/
theorem Repaired.valid {r : Heap T × HeapIndex} (hr : Repaired h idx r) (hle : h.size.toNat ≤ Size.toNat) :
    Valid Size r.1 := by
  constructor
  · rw [hr.size_eq]
    exact hle
  · rw [hr.size_eq]
    exact hr.ordered

/-- The index that it returns is that of an element, and holds the value it started with. -/
theorem Repaired.holds {r : Heap T × HeapIndex} (hr : Repaired h idx r) {val : T} (hval : h.data idx.toNat = val) :
    r.2 < r.1.size ∧ r.1.data r.2.toNat = val := by
  constructor
  · rw [hr.size_eq]
    exact BitVec.lt_def.mpr hr.index_lt
  · rw [hr.at_index, hval]

theorem insert_spec (hSize : 1 ≤ Size.toNat) (hmax : Size.toNat ≤ 2 ^ 31) (hfuel : Size.toNat ≤ fuel)
    (hv : Valid Size h) (val : T) :
    ∃ r, h.insert Size fuel val = .ok r ∧ Valid Size r.1 ∧ Meets Size h (.insert val) r.1 (.index r.2) := by
  have hle := hv.size_le
  unfold insert Meets
  simp only [bind, Except.bind]
  by_cases hfull : h.size < Size
  · -- the new element goes behind the others
    have hlt := BitVec.lt_def.mp hfull
    have hsize : (h.size + 1).toNat = h.size.toNat + 1 := by
      rw [BitVec.toNat_add]
      show (h.size.toNat + 1) % 2 ^ 32 = _
      omega
    have hlast : h.size + 1 - 1 = h.size := BitVec.add_sub_cancel ..
    have hcond : ¬h.size ≥ Size := by
      rw [ge_iff_le, BitVec.le_def]
      omega
    rw [if_neg hcond, setItem_of_lt (by show h.size.toNat < (h.size + 1).toNat; omega)]
    dsimp only
    rw [hlast]
    have hgrown : (⟨Function.update h.data h.size.toNat val, h.size + 1⟩ : Heap T).size.toNat =
        h.size.toNat + 1 := hsize
    have hvalue : (⟨Function.update h.data h.size.toNat val, h.size + 1⟩ : Heap T).data h.size.toNat = val :=
      Function.update_self ..
    have hcontents : (⟨Function.update h.data h.size.toNat val, h.size + 1⟩ : Heap T).contents =
        val ::ₘ h.contents := by
      unfold contents
      rw [hgrown, elements_succ, hvalue]
      congr 1
      apply elements_congr
      intro i hi
      exact Function.update_of_ne (by omega) _ _
    have horder := hv.ordered.upOrder_last val
    rw [← hgrown] at horder
    obtain ⟨r, hr, hrep⟩ := bubbleUp_spec (by omega) (by omega : h.size.toNat < fuel) (by omega) horder
    refine ⟨r, hr, hrep.valid (by omega), hrep.holds hvalue, ?_⟩
    rw [if_pos hfull, hrep.contents_eq, hcontents]
  · -- the new element goes in the place of the root, which is a minimum
    have hge : Size.toNat ≤ h.size.toNat := by
      rw [BitVec.lt_def] at hfull
      omega
    have hcond : h.size ≥ Size := BitVec.le_def.mpr hge
    have hpos : 0 < h.size.toNat := by omega
    have hroot : (0 : HeapIndex).toNat < h.size.toNat := hpos
    rw [if_pos hcond, setItem_of_lt hroot]
    dsimp only
    have hvalue : (⟨Function.update h.data 0 val, h.size⟩ : Heap T).data 0 = val :=
      Function.update_self 0 val h.data
    have horder := hv.ordered.downOrder_root val
    obtain ⟨r, hr, hrep⟩ := bubbleDown_spec (h := ⟨Function.update h.data 0 val, h.size⟩) (hle.trans hmax)
      (hle.trans hfuel) hroot horder
    refine ⟨r, hr, hrep.valid hle, hrep.holds hvalue, ?_⟩
    rw [if_neg hfull, hrep.contents_eq]
    exact ⟨h.data 0, hv.root_isMinimum hpos, elements_update h.data hpos val⟩

theorem update_spec (hmax : Size.toNat ≤ 2 ^ 31) (hfuel : Size.toNat ≤ fuel) (hv : Valid Size h)
    (hi : idx < h.size) (newVal : T) :
    ∃ r, h.update fuel idx newVal = .ok r ∧ Valid Size r.1 ∧
      Meets Size h (.update idx newVal) r.1 (.index r.2) := by
  have hle := hv.size_le
  have hi' := BitVec.lt_def.mp hi
  -- an element that grows moves away from the root, any other one towards it
  have hloop : ∃ r, (if h.data idx.toNat < newVal then
        bubbleDown fuel ⟨Function.update h.data idx.toNat newVal, h.size⟩ idx
      else bubbleUp fuel ⟨Function.update h.data idx.toNat newVal, h.size⟩ idx) = .ok r ∧
      Repaired ⟨Function.update h.data idx.toNat newVal, h.size⟩ idx r := by
    by_cases hlt : h.data idx.toNat < newVal
    · rw [if_pos hlt]
      have horder := hv.ordered.downOrder_update hi' hlt.le
      exact bubbleDown_spec (h := ⟨Function.update h.data idx.toNat newVal, h.size⟩) (hle.trans hmax)
        ((hle.trans hfuel).trans (Nat.le_add_right _ _)) hi' horder
    · rw [if_neg hlt]
      have horder := hv.ordered.upOrder_update hi' (not_lt.mp hlt)
      exact bubbleUp_spec (h := ⟨Function.update h.data idx.toNat newVal, h.size⟩) (hle.trans hmax)
        (by omega) hi' horder
  obtain ⟨r, hr, hrep⟩ := hloop
  unfold update Meets
  simp only [bind, Except.bind]
  rw [getItem_of_lt hi', setItem_of_lt hi']
  refine ⟨r, hr, hrep.valid hle, hrep.holds (Function.update_self ..), ?_⟩
  rw [hrep.contents_eq]
  exact elements_update h.data hi' newVal

/-- A heap of at most one element has nothing to repair. -/
theorem bubbleDown_of_size_le_one (hn : h.size.toNat ≤ 1) (hfuel : 0 < fuel) :
    h.bubbleDown fuel 0 = .ok (h, 0) := by
  obtain ⟨fuel, rfl⟩ := Nat.exists_eq_succ_of_ne_zero hfuel.ne'
  have hchild : h.child 0 = -1 := if_pos (.inl (BitVec.le_def.mpr hn))
  unfold bubbleDown
  simp only [bind, Except.bind, pure, Except.pure]
  rw [hchild, if_pos rfl]

theorem extractMin_spec (hSize : 1 ≤ Size.toNat) (hmax : Size.toNat ≤ 2 ^ 31) (hfuel : Size.toNat ≤ fuel)
    (hv : Valid Size h) (hne : h.size ≠ 0) :
    ∃ r, h.extractMin fuel = .ok r ∧ Valid Size r.1 ∧ Meets Size h .extractMin r.1 (.min r.2) ∧
      r.1.size = h.size - 1 := by
  have hle := hv.size_le
  have hpos : 0 < h.size.toNat := by
    rw [Nat.pos_iff_ne_zero]
    exact fun hz => hne (BitVec.eq_of_toNat_eq hz)
  have hroot : (0 : HeapIndex).toNat < h.size.toNat := hpos
  have hone : (1 : HeapIndex).toNat = 1 := rfl
  have hsub : (h.size - 1).toNat = h.size.toNat - 1 := by
    rw [BitVec.toNat_sub_of_le (BitVec.le_def.mpr (by omega)), hone]
  have hshort : Ordered (h.size - 1).toNat h.data := hv.ordered.mono (by omega)
  -- the last element takes the place of the root
  have hcontents : (⟨Function.update h.data 0 (h.data (h.size.toNat - 1)), h.size - 1⟩ : Heap T).contents =
      h.contents.erase (h.data 0) := by
    show elements (h.size - 1).toNat _ = (elements h.size.toNat h.data).erase _
    rw [hsub, elements_pop h.data (h.size.toNat - 1), Nat.sub_add_cancel hpos]
  have hloop : ∃ r : Heap T × HeapIndex,
      bubbleDown fuel ⟨Function.update h.data 0 (h.data (h.size.toNat - 1)), h.size - 1⟩ 0 = .ok r ∧
      Valid Size r.1 ∧ r.1.contents = h.contents.erase (h.data 0) ∧ r.1.size = h.size - 1 := by
    by_cases hsingle : h.size.toNat ≤ 1
    · refine ⟨_, bubbleDown_of_size_le_one (by show (h.size - 1).toNat ≤ 1; omega) (by omega), ⟨?_, ?_⟩,
        hcontents, rfl⟩
      · show (h.size - 1).toNat ≤ _
        omega
      · intro j hjpos hj
        have hj' : j < (h.size - 1).toNat := hj
        omega
    · have horder : DownOrder (h.size - 1).toNat (Function.update h.data 0 (h.data (h.size.toNat - 1)))
          (0 : HeapIndex).toNat := hshort.downOrder_root _
      have hroot' : (0 : HeapIndex).toNat < (h.size - 1).toNat := by
        show 0 < _
        omega
      obtain ⟨r, hr, hrep⟩ := bubbleDown_spec
        (h := ⟨Function.update h.data 0 (h.data (h.size.toNat - 1)), h.size - 1⟩)
        (by show (h.size - 1).toNat ≤ _; omega) (by show (h.size - 1).toNat ≤ fuel + (0 : HeapIndex).toNat; omega)
        hroot' horder
      exact ⟨r, hr, hrep.valid (by show (h.size - 1).toNat ≤ _; omega), hrep.contents_eq.trans hcontents,
        hrep.size_eq⟩
  obtain ⟨r, hr, hvalid, hcontents', hsize⟩ := hloop
  unfold extractMin Meets
  simp only [bind, Except.bind, pure, Except.pure]
  have hlast : (h.size - 1).toNat < h.size.toNat := by omega
  rw [getItem_of_lt hroot, getItem_of_lt hlast, hsub]
  dsimp only
  rw [setItem_of_lt hroot]
  dsimp only
  have hzero : (0 : HeapIndex).toNat = 0 := rfl
  rw [hzero, hr]
  exact ⟨(r.1, h.data 0), rfl, hvalid, ⟨hv.root_isMinimum hpos, hcontents'⟩, hsize⟩

/-- One call that is legal. -/
theorem step_spec (hSize : 1 ≤ Size.toNat) (hmax : Size.toNat ≤ 2 ^ 31) (hfuel : Size.toNat ≤ fuel)
    (hv : Valid Size h) {op : Op T} (hop : Legal h op) :
    ∃ r, h.step Size fuel op = .ok r ∧ Valid Size r.1 ∧ Meets Size h op r.1 r.2 := by
  cases op with
  | insert val =>
    obtain ⟨r, hr, hvalid, hmeets⟩ := insert_spec hSize hmax hfuel hv val
    exact ⟨(r.1, .index r.2), by rw [step, hr]; rfl, hvalid, hmeets⟩
  | update idx newVal =>
    obtain ⟨r, hr, hvalid, hmeets⟩ := update_spec hmax hfuel hv hop newVal
    exact ⟨(r.1, .index r.2), by rw [step, hr]; rfl, hvalid, hmeets⟩
  | extractMin =>
    obtain ⟨r, hr, hvalid, hmeets, -⟩ := extractMin_spec hSize hmax hfuel hv hop
    exact ⟨(r.1, .min r.2), by rw [step, hr]; rfl, hvalid, hmeets⟩

/-- All the elements come out of the heap in their order. -/
def Sorts (fuel : ℕ) (h : Heap T) : Prop :=
  ∃ r, h.drain fuel h.size.toNat = .ok r ∧ r.1.size = 0 ∧ r.2.Pairwise (· ≤ ·) ∧ (r.2 : Multiset T) = h.contents

theorem drain_spec (hSize : 1 ≤ Size.toNat) (hmax : Size.toNat ≤ 2 ^ 31) (hfuel : Size.toNat ≤ fuel)
    (hv : Valid Size h) : Sorts fuel h := by
  obtain ⟨n, hn⟩ : ∃ n, h.size.toNat = n := ⟨_, rfl⟩
  unfold Sorts
  rw [hn]
  induction n generalizing h with
  | zero =>
    refine ⟨(h, []), rfl, BitVec.eq_of_toNat_eq hn, .nil, ?_⟩
    unfold contents
    rw [hn]
    rfl
  | succ n ih =>
    have hne : h.size ≠ 0 := by
      intro hz
      rw [hz] at hn
      cases hn
    obtain ⟨⟨h', m⟩, hr, hvalid, ⟨hmin, hcontents⟩, hsize⟩ := extractMin_spec hSize hmax hfuel hv hne
    have hone : (1 : HeapIndex).toNat = 1 := rfl
    have hn' : h'.size.toNat = n := by
      show (h', m).1.size.toNat = n
      rw [hsize, BitVec.toNat_sub_of_le (BitVec.le_def.mpr (by omega)), hn, hone]
      omega
    obtain ⟨⟨h'', rest⟩, hrest, hempty, hsorted, hall⟩ := ih hvalid hn'
    refine ⟨(h'', m :: rest), ?_, hempty, ?_, ?_⟩
    · simp only [drain, bind, Except.bind, pure, Except.pure, hr, hrest]
    · rw [List.pairwise_cons]
      refine ⟨fun x hx => hmin.2 x ?_, hsorted⟩
      have hx' : x ∈ h'.contents := hall ▸ Multiset.mem_coe.mpr hx
      exact Multiset.mem_of_mem_erase (hcontents ▸ hx')
    · rw [← Multiset.cons_coe]
      show m ::ₘ (rest : Multiset T) = h.contents
      rw [hall]
      show m ::ₘ h'.contents = h.contents
      rw [hcontents]
      exact Multiset.cons_erase hmin.1

/-- What holds of every sequence of calls: the heap is in order before each of them and after the last one, and
its elements come out sorted; a legal call has no fault and does what it should. -/
def Behaves (Size : HeapIndex) (fuel : ℕ) : Heap T → List (Op T) → Prop
  | h, [] => Valid Size h ∧ Sorts fuel h
  | h, op :: ops => (Valid Size h ∧ Sorts fuel h) ∧
    (Legal h op → ∃ r, h.step Size fuel op = .ok r ∧ Meets Size h op r.1 r.2 ∧ Behaves Size fuel r.1 ops)

theorem behaves_of_valid (hSize : 1 ≤ Size.toNat) (hmax : Size.toNat ≤ 2 ^ 31) (hfuel : Size.toNat ≤ fuel)
    (ops : List (Op T)) (hv : Valid Size h) : Behaves Size fuel h ops := by
  induction ops generalizing h with
  | nil => exact ⟨hv, drain_spec hSize hmax hfuel hv⟩
  | cons op ops ih =>
    refine ⟨⟨hv, drain_spec hSize hmax hfuel hv⟩, fun hop => ?_⟩
    obtain ⟨r, hr, hvalid, hmeets⟩ := step_spec hSize hmax hfuel hv hop
    exact ⟨r, hr, hmeets, ih hvalid⟩

/-- For every capacity from 1 to `2 ^ 31`, every content of the array at the start and every sequence of calls. -/
theorem behaves (Size : HeapIndex) (hSize : 1 ≤ Size.toNat) (hmax : Size.toNat ≤ 2 ^ 31) (fuel : ℕ)
    (hfuel : Size.toNat ≤ fuel) (data : ℕ → T) (ops : List (Op T)) : Behaves Size fuel (init data) ops := by
  refine behaves_of_valid hSize hmax hfuel ops ⟨Nat.zero_le _, ?_⟩
  intro j _ hj
  exact absurd hj (Nat.not_lt_zero j)

/-- The default capacity. -/
theorem behaves_hundred :
    Behaves 100 100 (init fun _ => 0) [.insert 4, .insert 1, .insert 3, .update 2 0, .extractMin] :=
  behaves 100 (by decide) (by decide) 100 (by decide) (fun _ => 0) _

end Operations

/-! ### A larger capacity

The left child of position `2 ^ 31` is 1 in 32 bits.  With `2 ^ 31 + 1` elements, the last one has the root's
children for its own. -/

/-- The elements: 0 at the root and at 2, 5 at the ancestors of position `2 ^ 31` and there, 7 elsewhere. -/
def farValue (i : ℕ) : ℕ :=
  if i = 0 ∨ i = 2 then 0 else if i = 2 ^ 31 ∨ 2 ^ (i + 1).log2 = i + 1 then 5 else 7

/-- They are in order. -/
theorem farValue_parent_le {i : ℕ} (hi : 0 < i) : farValue (HeapOrder.parent i) ≤ farValue i := by
  have hle : ∀ j, farValue j ≤ 7 := by
    intro j
    unfold farValue
    split
    · exact Nat.zero_le _
    · split <;> omega
  by_cases htwo : i = 2
  · subst htwo
    exact Nat.zero_le _
  · by_cases hspine : i = 2 ^ 31 ∨ 2 ^ (i + 1).log2 = i + 1
    · have hparent : HeapOrder.parent i = 0 ∨
          2 ^ (HeapOrder.parent i + 1).log2 = HeapOrder.parent i + 1 := by
        rcases hspine with rfl | hpow
        · right
          decide +kernel
        · obtain ⟨k, hk⟩ : ∃ k, (i + 1).log2 = k + 1 := by
            refine Nat.exists_eq_succ_of_ne_zero fun hzero => ?_
            rw [hzero] at hpow
            omega
          have hhalf : HeapOrder.parent i + 1 = 2 ^ k := by
            rw [hk, pow_succ] at hpow
            unfold HeapOrder.parent
            omega
          right
          rw [hhalf, Nat.log2_two_pow]
      have hfive : farValue i = 5 := by
        rw [farValue, if_neg (by omega), if_pos hspine]
      rw [hfive]
      unfold farValue
      split
      · exact Nat.zero_le _
      · rw [if_pos]
        rcases hparent with h0 | hpow
        · exact absurd (Or.inl h0) ‹_›
        · exact .inr hpow
    · have hseven : farValue i = 7 := by
        rw [farValue, if_neg (by omega), if_neg hspine]
      rw [hseven]
      exact hle _

/-- The first `h.size` elements are in the places in which they were inserted. -/
def InPlace (h : Heap ℕ) : Prop := ∀ i < h.size.toNat, h.data i = farValue i

/-- The next element stays where it is inserted. -/
theorem insert_inPlace {h : Heap ℕ} (hh : InPlace h) (hlt : h.size.toNat < 2 ^ 31 + 1) (fuel : ℕ) :
    ∃ r, h.insert 2147483649 (fuel + 1) (farValue h.size.toNat) = .ok r ∧ InPlace r.1 ∧
      r.1.size.toNat = h.size.toNat + 1 := by
  have hSize : (2147483649 : HeapIndex).toNat = 2 ^ 31 + 1 := rfl
  have hsize : (h.size + 1).toNat = h.size.toNat + 1 := by
    rw [BitVec.toNat_add]
    show (h.size.toNat + 1) % 2 ^ 32 = _
    omega
  have hlast : h.size + 1 - 1 = h.size := BitVec.add_sub_cancel ..
  have hcond : ¬h.size ≥ 2147483649 := by
    rw [ge_iff_le, BitVec.le_def]
    omega
  have hplaced : InPlace ⟨Function.update h.data h.size.toNat (farValue h.size.toNat), h.size + 1⟩ := by
    intro i hi
    by_cases heq : i = h.size.toNat
    · subst heq
      exact Function.update_self ..
    · rw [show (⟨_, _⟩ : Heap ℕ).data i = h.data i from Function.update_of_ne heq _ _]
      have hi' : i < (h.size + 1).toNat := hi
      exact hh i (by omega)
  unfold insert
  simp only [bind, Except.bind]
  rw [if_neg hcond, setItem_of_lt (by show h.size.toNat < (h.size + 1).toNat; omega)]
  dsimp only
  rw [hlast]
  refine ⟨(⟨Function.update h.data h.size.toNat (farValue h.size.toNat), h.size + 1⟩, h.size), ?_, hplaced,
    hsize⟩
  unfold bubbleUp
  simp only [bind, Except.bind, pure, Except.pure]
  by_cases hzero : h.size.toNat = 0
  · rw [parent_none (by show (h.size + 1).toNat ≤ 1; omega), if_pos rfl]
  · rw [parent_eq (by show 1 < (h.size + 1).toNat; omega) (by omega), if_neg (by omega)]
    have hp := toNat_ofInt (i := HeapOrder.parent h.size.toNat) (by unfold HeapOrder.parent; omega)
    have hplt : HeapOrder.parent h.size.toNat < (h.size + 1).toNat := by
      unfold HeapOrder.parent
      omega
    rw [getItem_of_lt (by rw [hp]; exact hplt), getItem_of_lt (by show h.size.toNat < (h.size + 1).toNat; omega)]
    dsimp only
    have hcmp : ¬(Function.update h.data h.size.toNat (farValue h.size.toNat)
        (BitVec.ofInt 32 (HeapOrder.parent h.size.toNat : ℤ)).toNat >
      Function.update h.data h.size.toNat (farValue h.size.toNat) h.size.toNat) := by
      have habove := hplaced _ (show (BitVec.ofInt 32 (HeapOrder.parent h.size.toNat : ℤ)).toNat < _ by
        rw [hp]
        exact hplt)
      have hown := hplaced h.size.toNat (by show h.size.toNat < (h.size + 1).toNat; omega)
      dsimp only at habove hown
      rw [habove, hown, hp]
      exact Nat.not_lt.mpr (farValue_parent_le (by omega))
    rw [if_neg hcmp]

/-- The element at `2 ^ 31` changes places with the one at 2, which is below its new parent. -/
theorem update_far {h : Heap ℕ} (hh : InPlace h) (hsize : h.size = 2147483649) (fuel : ℕ) :
    ∃ r, h.update (fuel + 2) 2147483648 6 = .ok r ∧ ¬Ordered r.1.size.toNat r.1.data := by
  obtain ⟨data, size⟩ := h
  obtain rfl : size = 2147483649 := hsize
  have hin : ∀ i < 2 ^ 31 + 1, data i = farValue i := hh
  have hfar : data 2147483648 = 5 := (hin _ (by omega)).trans (by decide +kernel)
  have hone : data 1 = 5 := (hin _ (by omega)).trans (by decide)
  have htwo : data 2 = 0 := (hin _ (by omega)).trans (by decide)
  have hfive : data 5 = 7 := (hin _ (by omega)).trans (by decide)
  have hsix : data 6 = 7 := (hin _ (by omega)).trans (by decide)
  have habove : data 1073741823 = 5 := (hin _ (by omega)).trans (by decide +kernel)
  -- the value 6 goes to position 2 and stays above its children
  refine ⟨(⟨HeapOrder.swap (Function.update data 2147483648 6) 2 2147483648, 2147483649⟩, 2), ?_, ?_⟩
  · simp [update, getItem, setItem, swap, bubbleDown, child, getMinIdx, bind, Except.bind, pure, Except.pure,
      HeapOrder.swap, hfar, hone, htwo, hfive, hsix]
  · intro hordered
    have hpair := hordered 2147483648 (by omega) (show 2147483648 < (2147483649 : HeapIndex).toNat by decide)
    simp [HeapOrder.parent, HeapOrder.swap, htwo, habove] at hpair

theorem step_insert_fst {h : Heap ℕ} {Size : HeapIndex} {fuel val : ℕ} {r : Heap ℕ × Answer ℕ} {r' : Heap ℕ × HeapIndex}
    (hr : h.step Size fuel (.insert val) = .ok r) (hr' : h.insert Size fuel val = .ok r') : r.1 = r'.1 := by
  simp only [step, hr', Except.map] at hr
  exact congrArg Prod.fst (Except.ok.inj hr).symm

/-- What holds of a sequence of calls holds behind the insertions in it. -/
theorem Behaves.inPlace {fuel : ℕ} {rest : List (Op ℕ)} (k : ℕ) {h : Heap ℕ} (hh : InPlace h)
    (hk : h.size.toNat + k ≤ 2 ^ 31 + 1)
    (hb : Behaves 2147483649 (fuel + 1) h
      (((List.range' h.size.toNat k).map fun i => .insert (farValue i)) ++ rest)) :
    ∃ h', InPlace h' ∧ h'.size.toNat = h.size.toNat + k ∧ Behaves 2147483649 (fuel + 1) h' rest := by
  induction k generalizing h with
  | zero => exact ⟨h, hh, rfl, hb⟩
  | succ k ih =>
    obtain ⟨-, hcall⟩ := hb
    obtain ⟨r, hr, -, hrest⟩ := hcall trivial
    obtain ⟨r', hr', hplace, hsize⟩ := insert_inPlace hh (by omega) fuel
    have heq : r.1 = r'.1 := step_insert_fst hr hr'
    rw [heq] at hrest
    have hrest' : Behaves 2147483649 (fuel + 1) r'.1
        (((List.range' r'.1.size.toNat k).map fun i => .insert (farValue i)) ++ rest) := by
      rw [hsize]
      exact hrest
    obtain ⟨h', hh', hsize', hb'⟩ := ih hplace (by omega) hrest'
    exact ⟨h', hh', by omega, hb'⟩

/-- The insertions, and an update of the last element. -/
def farCalls : List (Op ℕ) :=
  ((List.range' 0 (2 ^ 31 + 1)).map fun i => .insert (farValue i)) ++ [.update 2147483648 6]

theorem not_behaves_far : ¬Behaves 2147483649 (2 ^ 32) (init fun _ => 0) farCalls := by
  intro hb
  have hfuel : (2 : ℕ) ^ 32 = 4294967294 + 2 := by decide
  rw [hfuel] at hb
  have hempty : InPlace (init fun _ => 0) := fun i hi => absurd hi (Nat.not_lt_zero i)
  obtain ⟨h, hh, hsize, -, hcall⟩ := Behaves.inPlace (2 ^ 31 + 1) hempty (Nat.le_of_eq (Nat.zero_add _)) hb
  have hsize' : h.size = 2147483649 := BitVec.eq_of_toNat_eq (hsize.trans (Nat.zero_add _))
  have hlegal : h.Legal (.update 2147483648 6) := by
    show (2147483648 : HeapIndex) < h.size
    rw [hsize']
    decide
  obtain ⟨r, hr, -, ⟨hv, -⟩⟩ := hcall hlegal
  obtain ⟨r', hr', hbad⟩ := update_far hh hsize' 4294967294
  have hstep : h.step 2147483649 (4294967294 + 2) (.update 2147483648 6) = .ok (r'.1, .index r'.2) := by
    simp only [step, hr', Except.map]
  obtain rfl : (r'.1, Answer.index r'.2) = r := Except.ok.inj (hstep.symm.trans hr)
  exact hbad hv.ordered

end Nica.Hls.Heap
