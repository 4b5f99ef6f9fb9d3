import Mathlib.Data.Set.Operations
import Mathlib.Data.BitVec

/-!
# Packed representations

A value is packed into a word by putting its fields side by side, and unpacked by taking each field from its range
of bits.  `RoundTrip` says that nothing is lost, `Packing` bundles the two functions with that fact.

* `setWidth_extractLsb`: the range that a field is taken from.
* `getLsbD_foldl_setRange`: what a loop that assigns the ranges of equal length one after the other leaves behind.
-/

namespace Nica.Lib

/-- Unpacking gives back what was packed, and packing gives back any word that was made by packing. -/
structure RoundTrip {α : Type} {n : ℕ} (encode : α → BitVec n) (decode : BitVec n → α) : Prop where
  decode_encode : ∀ a, decode (encode a) = a
  encode_decode : ∀ d ∈ Set.range encode, encode (decode d) = d

theorem RoundTrip.of_leftInverse {α : Type} {n : ℕ} {encode : α → BitVec n} {decode : BitVec n → α}
    (h : Function.LeftInverse decode encode) : RoundTrip encode decode := by
  refine ⟨h, ?_⟩
  rintro _ ⟨a, rfl⟩
  rw [h a]

/-- A type with a packed representation. -/
class Packing (α : Type) where
  width : ℕ
  toBits : α → BitVec width
  ofBits : BitVec width → α
  ofBits_toBits : ∀ a, ofBits (toBits a) = a

theorem Packing.roundTrip (α : Type) [Packing α] : RoundTrip (toBits (α := α)) ofBits :=
  .of_leftInverse ofBits_toBits

/-! ### Ranges of bits -/

section Ranges

variable {m : ℕ} (a : BitVec m) {hi lo w : ℕ}

/-- A range that is assigned to a field of its length or less. -/
theorem setWidth_extractLsb (h : w ≤ hi - lo + 1) : (a.extractLsb hi lo).setWidth w = a.extractLsb' lo w := by
  apply BitVec.eq_of_getLsbD_eq
  intro i hi'
  rw [BitVec.getLsbD_setWidth, BitVec.getLsbD_extractLsb, BitVec.getLsbD_extractLsb']
  simp only [hi', decide_true, Bool.true_and, decide_eq_true (show i < hi - lo + 1 by omega)]

/-- A range that covers the word. -/
theorem extractLsb'_of_eq_zero (h : lo = 0) : a.extractLsb' lo m = a := by
  rw [h, BitVec.extractLsb'_eq_self]

/-- Zeros in front of a word. -/
theorem setWidth_zero_append (k n : ℕ) : (0#k ++ a).setWidth n = a.setWidth n := by
  apply BitVec.eq_of_getLsbD_eq
  intro i hi
  rw [BitVec.getLsbD_setWidth, BitVec.getLsbD_setWidth, BitVec.getLsbD_append]
  by_cases h : i < m
  · rw [if_pos h]
  · rw [if_neg h, BitVec.getLsbD_zero, BitVec.getLsbD_of_ge a i (by omega)]

end Ranges

/-! ### Assigning a range -/

/-- `d` with the bits from `lo` on replaced by `x`. -/
def setRange {n w : ℕ} (d : BitVec n) (lo : ℕ) (x : BitVec w) : BitVec n :=
  (d &&& ~~~((BitVec.allOnes w).setWidth n <<< lo)) ||| (x.setWidth n <<< lo)

theorem getLsbD_setRange {n w : ℕ} (d : BitVec n) (lo : ℕ) (x : BitVec w) {i : ℕ} (hi : i < n) :
    (setRange d lo x).getLsbD i = if lo ≤ i ∧ i < lo + w then x.getLsbD (i - lo) else d.getLsbD i := by
  have hn : i - lo < n := by omega
  simp only [setRange, BitVec.getLsbD_or, BitVec.getLsbD_and, BitVec.getLsbD_not, BitVec.getLsbD_shiftLeft,
    BitVec.getLsbD_setWidth, BitVec.getLsbD_allOnes, hi, hn, decide_true, Bool.true_and]
  by_cases hlo : i < lo
  · rw [if_neg (by omega), decide_eq_true hlo]
    simp
  · rw [decide_eq_false hlo]
    by_cases hw : i - lo < w
    · rw [if_pos ⟨by omega, by omega⟩, decide_eq_true hw]
      simp
    · rw [if_neg (by omega), decide_eq_false hw, BitVec.getLsbD_of_ge x (i - lo) (by omega)]
      simp

/-- The loop that assigns the first `k` bytes. -/
theorem getLsbD_foldl_setRange {n : ℕ} (f : ℕ → BitVec 8) (d : BitVec n) (k : ℕ) {i : ℕ} (hi : i < n) :
    ((List.range k).foldl (fun ret j => setRange ret (8 * j) (f j)) d).getLsbD i =
      if i < 8 * k then (f (i / 8)).getLsbD (i % 8) else d.getLsbD i := by
  induction k with
  | zero => rfl
  | succ k ih =>
    rw [List.range_succ, List.foldl_append, List.foldl_cons, List.foldl_nil, getLsbD_setRange _ _ _ hi, ih]
    by_cases h : 8 * k ≤ i ∧ i < 8 * k + 8
    · obtain rfl : i / 8 = k := by omega
      rw [if_pos h, if_pos (by omega)]
      congr 1
      omega
    · rw [if_neg h]
      by_cases hk : i < 8 * k
      · rw [if_pos hk, if_pos (by omega)]
      · rw [if_neg hk, if_neg (by omega)]

end Nica.Lib
