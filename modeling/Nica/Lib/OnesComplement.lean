import Mathlib.Algebra.BigOperators.Group.List.Basic
import Mathlib.Data.List.Basic
import Mathlib.Algebra.GroupWithZero.Nat

/-!
# One's complement sums of 16-bit words

`onesAdd` adds two words with the carry brought around, and `onesSum` adds up a list of them.  An accumulator that is
wider adds them as numbers and brings the carries around at the end, by folding the upper half onto the lower one.

* `residue n` is the word that stands for `n`: 0 for 0, and the number from 1 to 65535 that is `n` modulo 65535
  otherwise;
* `toNat_onesSum`: the sum is the residue of the sum of the numbers;
* `rfc1071_eq_rfc768_iff`: when two lists of words have the same checksum;
* `toNat_fold_fold`: folding a 32-bit number twice gives its residue;
* `wordsOf` are the words of a sequence of bytes, padded by a zero byte.
-/

namespace Nica.Lib.OnesComplement

/-! ### Residues -/

/-- The number from 0 to 65535 that one's complement arithmetic has for `n`. -/
def residue (n : ℕ) : ℕ := if n = 0 then 0 else (n - 1) % 65535 + 1

theorem residue_of_le {n : ℕ} (h : n ≤ 65535) : residue n = n := by
  rw [residue]
  split <;> omega

theorem residue_le (n : ℕ) : residue n ≤ 65535 := by
  rw [residue]
  split <;> omega

theorem residue_mod (n : ℕ) : residue n % 65535 = n % 65535 := by
  rw [residue]
  split <;> omega

theorem residue_eq_zero_iff (n : ℕ) : residue n = 0 ↔ n = 0 := by
  rw [residue]
  split <;> omega

/-- Numbers other than 0 have the same residue when they are congruent. -/
theorem residue_eq_iff {m n : ℕ} (hm : m ≠ 0) (hn : n ≠ 0) : residue m = residue n ↔ m % 65535 = n % 65535 := by
  rw [residue, residue, if_neg hm, if_neg hn]
  omega

theorem residue_eq_max_iff {n : ℕ} (hn : n ≠ 0) : residue n = 65535 ↔ n % 65535 = 0 := by
  rw [residue, if_neg hn]
  omega

theorem residue_residue_add (m n : ℕ) : residue (residue m + n) = residue (m + n) := by
  by_cases hm : m = 0
  · rw [hm]
    rfl
  · have hr : residue m ≠ 0 := fun h => hm ((residue_eq_zero_iff m).mp h)
    have hmod := residue_mod m
    rw [residue_eq_iff (by omega) (by omega)]
    omega

/-! ### Sums of words -/

/-- One's complement addition: the carry is added at the other end. -/
def onesAdd (a b : BitVec 16) : BitVec 16 :=
  if a.toNat + b.toNat < 65536 then a + b else a + b + 1

theorem toNat_onesAdd (a b : BitVec 16) : (onesAdd a b).toNat = residue (a.toNat + b.toNat) := by
  have ha := a.isLt
  have hb := b.isLt
  rw [onesAdd]
  split
  · rw [residue_of_le (by omega), BitVec.toNat_add]
    omega
  · rw [residue, if_neg (by omega), BitVec.toNat_add, BitVec.toNat_add, show (1 : BitVec 16).toNat = 1 from rfl]
    omega

/-- The one's complement sum of a list of words. -/
def onesSum (ws : List (BitVec 16)) : BitVec 16 := ws.foldl onesAdd 0

/-- The sum of a list of words as numbers. -/
def total (ws : List (BitVec 16)) : ℕ := (ws.map BitVec.toNat).sum

@[simp] theorem total_nil : total [] = 0 := rfl

@[simp]
theorem total_cons (w : BitVec 16) (ws : List (BitVec 16)) : total (w :: ws) = w.toNat + total ws := by
  rw [total, total, List.map_cons, List.sum_cons]

@[simp]
theorem total_append (ws vs : List (BitVec 16)) : total (ws ++ vs) = total ws + total vs := by
  rw [total, total, total, List.map_append, List.sum_append]

theorem total_flatMap {α : Type*} (f : α → List (BitVec 16)) (l : List α) :
    total (l.flatMap f) = (l.map fun x => total (f x)).sum := by
  induction l with
  | nil => rfl
  | cons x l ih => rw [List.flatMap_cons, total_append, ih, List.map_cons, List.sum_cons]

theorem total_le (ws : List (BitVec 16)) : total ws ≤ 65535 * ws.length := by
  induction ws with
  | nil => exact Nat.le_refl 0
  | cons w ws ih =>
    have := w.isLt
    rw [total_cons, List.length_cons]
    omega

theorem toNat_onesSum (ws : List (BitVec 16)) : (onesSum ws).toNat = residue (total ws) := by
  have h : ∀ (ws : List (BitVec 16)) (a : BitVec 16),
      (ws.foldl onesAdd a).toNat = residue (a.toNat + total ws) := by
    intro ws
    induction ws with
    | nil =>
      intro a
      have := a.isLt
      exact (residue_of_le (by omega)).symm
    | cons w ws ih =>
      intro a
      rw [List.foldl_cons, ih, toNat_onesAdd, residue_residue_add, total_cons, Nat.add_assoc]
  rw [onesSum, h ws 0]
  exact congrArg residue (Nat.zero_add _)

/-! ### Checksums -/

/-- The Internet checksum (RFC 1071) of a list of words. -/
def rfc1071 (ws : List (BitVec 16)) : BitVec 16 := ~~~onesSum ws

/-- The UDP checksum (RFC 768): a checksum of 0 is sent as all ones. -/
def rfc768 (ws : List (BitVec 16)) : BitVec 16 := if rfc1071 ws = 0 then 0xffff else rfc1071 ws

theorem rfc1071_eq_iff (ws vs : List (BitVec 16)) : rfc1071 ws = rfc1071 vs ↔ residue (total ws) = residue (total vs) := by
  rw [rfc1071, rfc1071, BitVec.not_inj, ← BitVec.toNat_inj, toNat_onesSum, toNat_onesSum]

/-- Only the total counts. -/
theorem rfc1071_congr {ws vs : List (BitVec 16)} (h : total ws = total vs) : rfc1071 ws = rfc1071 vs := by
  rw [rfc1071_eq_iff, h]

theorem rfc1071_eq_zero_iff {ws : List (BitVec 16)} (h : total ws ≠ 0) : rfc1071 ws = 0 ↔ total ws % 65535 = 0 := by
  have hones : rfc1071 [0xffff] = 0 := rfl
  rw [← hones, rfc1071_eq_iff, ← residue_eq_max_iff h]
  exact Iff.rfl

/-- The Internet checksum of some words is the UDP checksum of others exactly when the totals are congruent and the
checksum is not 0. -/
theorem rfc1071_eq_rfc768_iff {ws vs : List (BitVec 16)} (hws : total ws ≠ 0) (hvs : total vs ≠ 0) :
    rfc1071 ws = rfc768 vs ↔ total ws % 65535 = total vs % 65535 ∧ total vs % 65535 ≠ 0 := by
  rw [rfc768]
  split
  · rename_i h0
    have hones : rfc1071 [] = 0xffff := rfl
    rw [← hones, rfc1071_eq_iff, total_nil]
    refine iff_of_false ?_ fun h => h.2 ((rfc1071_eq_zero_iff hvs).mp h0)
    exact fun h => hws ((residue_eq_zero_iff _).mp h)
  · rename_i h0
    rw [rfc1071_eq_iff, residue_eq_iff hws hvs]
    exact (and_iff_left (mt (rfc1071_eq_zero_iff hvs).mpr h0)).symm

/-! ### Folding -/

/-- The upper half of a 32-bit number is added to the lower one. -/
def fold (x : BitVec 32) : BitVec 32 := (x.extractLsb' 0 16).setWidth 32 + (x.extractLsb' 16 16).setWidth 32

theorem toNat_fold (x : BitVec 32) : (fold x).toNat = x.toNat % 65536 + x.toNat / 65536 := by
  have hx := x.isLt
  rw [fold, BitVec.toNat_add, BitVec.toNat_setWidth, BitVec.toNat_setWidth, BitVec.extractLsb'_toNat,
    BitVec.extractLsb'_toNat, Nat.shiftRight_zero, Nat.shiftRight_eq_div_pow]
  simp only [Nat.reducePow]
  have hdiv : x.toNat / 65536 < 65536 := by omega
  have hmod : x.toNat % 65536 < 65536 := Nat.mod_lt _ (by decide)
  rw [Nat.mod_eq_of_lt hdiv, Nat.mod_eq_of_lt (show x.toNat % 65536 < 4294967296 by omega),
    Nat.mod_eq_of_lt (show x.toNat / 65536 < 4294967296 by omega), Nat.mod_eq_of_lt (by omega)]

/-- Two folds bring all carries around. -/
theorem toNat_fold_fold (x : BitVec 32) : (fold (fold x)).toNat = residue x.toNat := by
  have hx := x.isLt
  rw [toNat_fold, toNat_fold, residue]
  split
  · rename_i h0
    rw [h0]
  · omega

/-- The lower half of the complement of a folded sum is the checksum. -/
theorem not_fold_fold_eq {x : BitVec 32} {ws : List (BitVec 16)} (h : x.toNat = total ws) :
    (~~~(fold (fold x))).setWidth 16 = rfc1071 ws := by
  have hle := residue_le (total ws)
  rw [BitVec.setWidth_not (by decide), rfc1071, BitVec.not_inj]
  apply BitVec.eq_of_toNat_eq
  rw [BitVec.toNat_setWidth, toNat_fold_fold, toNat_onesSum, h]
  exact Nat.mod_eq_of_lt (by omega)

/-! ### Bytes -/

/-- The words of a sequence of bytes, the first byte of each being the upper one, with a zero byte at the end if
their number is odd. -/
def wordsOf : List (BitVec 8) → List (BitVec 16)
  | [] => []
  | [a] => [a ++ 0#8]
  | a :: b :: bytes => (a ++ b) :: wordsOf bytes

theorem wordsOf_append {xs : List (BitVec 8)} (h : xs.length % 2 = 0) (ys : List (BitVec 8)) :
    wordsOf (xs ++ ys) = wordsOf xs ++ wordsOf ys := by
  induction xs using wordsOf.induct with
  | case1 => rfl
  | case2 a => simp at h
  | case3 a b xs ih =>
    rw [List.length_cons, List.length_cons] at h
    rw [List.cons_append, List.cons_append, wordsOf, wordsOf, ih (by omega), List.cons_append]

/-- Zero bytes at the end do not count. -/
theorem total_wordsOf_zeros (xs : List (BitVec 8)) (n : ℕ) :
    total (wordsOf (xs ++ List.replicate n 0)) = total (wordsOf xs) := by
  have hzeros : ∀ n, total (wordsOf (List.replicate n (0 : BitVec 8))) = 0 := by
    intro n
    induction n using Nat.strongRecOn with
    | _ n ih =>
      match n with
      | 0 => rfl
      | 1 => rfl
      | n + 2 =>
        rw [List.replicate_succ, List.replicate_succ, wordsOf, total_cons, ih n (by omega)]
        rfl
  induction xs using wordsOf.induct with
  | case1 => exact hzeros n
  | case2 a =>
    cases n with
    | zero => rfl
    | succ n =>
      rw [List.replicate_succ, List.singleton_append, wordsOf, wordsOf, total_cons, total_cons, hzeros n]
      rfl
  | case3 a b xs ih => rw [List.cons_append, List.cons_append, wordsOf, wordsOf, total_cons, total_cons, ih]

end Nica.Lib.OnesComplement
