import Nica.Hls.Equiv.Builder

/-!
# Ethernet padding

`padOne` clears the bytes that are not kept (`extractLsb'_padOne`), and `pad` applies it to the second beat of a
frame of two beats and to no other beat of a frame of up to 64 beats (`padFrom_two`, `padFrom_eq_self`).
-/

namespace Nica.Hls.Builder

theorem getLsbD_clear (d : BitVec 256) (i : ℕ) {j : ℕ} (hj : j < 256) :
    (d &&& ~~~(0xff#256 <<< (8 * i))).getLsbD j = (d.getLsbD j && decide (j / 8 ≠ i)) := by
  have hff : ∀ m, (0xff#256).getLsbD m = decide (m < 8) := by
    intro m
    have h : (0xff#256) = BitVec.ofNat 256 (2 ^ 8 - 1) := rfl
    rw [h, BitVec.getLsbD_ofNat, Nat.testBit_two_pow_sub_one]
    by_cases hm : m < 8
    · have : m < 256 := by omega
      simp [hm, this]
    · simp [hm]
  rw [BitVec.getLsbD_and, BitVec.getLsbD_not, BitVec.getLsbD_shiftLeft, hff]
  congr 1
  by_cases hlt : j < 8 * i
  · have hne : j / 8 ≠ i := by omega
    simp [hj, hlt, hne]
  · by_cases hin : j - 8 * i < 8
    · have heq : j / 8 = i := by omega
      simp [hj, hlt, hin, heq]
    · have hne : j / 8 ≠ i := by omega
      simp [hj, hlt, hin, hne]

/-- The bits of the first `m` bytes are cleared where they are not kept. -/
theorem getLsbD_foldl_clear (keep : BitVec 32) (d : BitVec 256) (m : ℕ) {j : ℕ} (hj : j < 256) :
    ((List.range m).foldl
      (fun data i => if keep.getLsbD i then data else data &&& ~~~(0xff#256 <<< (8 * i))) d).getLsbD j =
      (d.getLsbD j && (keep.getLsbD (j / 8) || decide (m ≤ j / 8))) := by
  induction m with
  | zero => simp
  | succ m ih =>
    rw [List.range_succ, List.foldl_append, List.foldl_cons, List.foldl_nil]
    cases hk : keep.getLsbD m with
    | true =>
      rw [if_pos rfl, ih]
      by_cases hm : j / 8 = m
      · simp [hm, hk]
      · have hiff : m ≤ j / 8 ↔ m + 1 ≤ j / 8 := by omega
        simp [hiff]
    | false =>
      rw [if_neg Bool.false_ne_true, getLsbD_clear _ _ hj, ih]
      by_cases hm : j / 8 = m
      · simp [hm, hk]
      · have hiff : m ≤ j / 8 ↔ m + 1 ≤ j / 8 := by omega
        simp [hm, hiff]

theorem getLsbD_padOne (d : BitVec 256) (keep : BitVec 32) {j : ℕ} (hj : j < 256) :
    (padOne d keep).getLsbD j = (d.getLsbD j && keep.getLsbD (j / 8)) := by
  rw [padOne, getLsbD_foldl_clear keep d 32 hj]
  have hlt : ¬32 ≤ j / 8 := by omega
  simp [hlt]

/-- A byte of a padded word. -/
theorem extractLsb'_padOne (d : BitVec 256) (keep : BitVec 32) {i : ℕ} (hi : i < 32) :
    (padOne d keep).extractLsb' (8 * i) 8 = if keep.getLsbD i then d.extractLsb' (8 * i) 8 else 0 := by
  apply BitVec.eq_of_getLsbD_eq
  intro j hj
  have hdiv : (8 * i + j) / 8 = i := by omega
  rw [BitVec.getLsbD_extractLsb', getLsbD_padOne d keep (by omega), hdiv]
  cases hk : keep.getLsbD i with
  | true => simp [hj]
  | false => simp

/-- A beat that is not the second one of its frame is left alone, and so is one that does not end it. -/
theorem padFrom_eq_self {front : List Axi4s} {final : Axi4s} (hfront : ∀ b ∈ front, b.last = false) {c : BitVec 6}
    (hlt : c.toNat + front.length < 64) (hne : c.toNat + front.length ≠ 1) :
    padFrom c (front ++ [final]) = front ++ [final] := by
  induction front generalizing c with
  | nil =>
    have hc : (c == 1) = false := by
      rw [beq_eq_false_iff_ne]
      intro hc
      apply hne
      rw [hc]
      rfl
    rw [List.nil_append, padFrom, padFrom, padBeat, hc, Bool.and_false, if_neg Bool.false_ne_true]
  | cons b front ih =>
    have hb := hfront b (List.mem_cons_self ..)
    have hnext : (c + 1).toNat = c.toNat + 1 := by
      rw [BitVec.toNat_add]
      rw [List.length_cons] at hlt
      show (c.toNat + 1) % 64 = _
      omega
    rw [List.cons_append, padFrom, padBeat, nextCount, hb, Bool.false_and, if_neg Bool.false_ne_true,
      if_neg Bool.false_ne_true]
    congr 1
    rw [List.length_cons] at hlt hne
    exact ih (fun b' hb' => hfront b' (List.mem_cons_of_mem _ hb')) (by omega) (by omega)

/-- The second beat of a frame of two beats is padded. -/
theorem padFrom_two {b₀ b₁ : Axi4s} (h₀ : b₀.last = false) (h₁ : b₁.last = true) :
    padFrom 0 [b₀, b₁] =
      [b₀, { b₁ with data := padOne b₁.data b₁.keep, keep := b₁.keep ||| 0xfffffff0 }] := by
  simp [padFrom, padBeat, nextCount, h₀, h₁]

end Nica.Hls.Builder
