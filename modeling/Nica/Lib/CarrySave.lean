import Mathlib.Data.Nat.Bitwise
import Mathlib.Data.BitVec

/-!
# Carry-save addition

A carry-save adder turns three words into two that have the same sum: the bits without their carries (`sum`), and the
carries (`carry`), which count twice.  Nothing has to run through the word, so that a row of adders is as deep as one
bit; the sum of the two words that are left is formed at the end, once.

Words have any width, and their sums wrap around.
-/

namespace Nica.Lib.CarrySave

/-- Bit by bit, three numbers are their sum without carries and twice the carries. -/
theorem xor_add_two_mul (a b c : ℕ) : (a ^^^ b ^^^ c) + 2 * (a &&& b ||| a &&& c ||| b &&& c) = a + b + c := by
  induction h : a + b + c using Nat.strong_induction_on generalizing a b c with
  | _ n ih =>
    rcases Nat.eq_zero_or_pos n with rfl | hpos
    · obtain ⟨rfl, rfl, rfl⟩ : a = 0 ∧ b = 0 ∧ c = 0 := by omega
      rfl
    · have hhalf := ih (a / 2 + b / 2 + c / 2) (by omega) (a / 2) (b / 2) (c / 2) rfl
      rw [← Nat.xor_div_two, ← Nat.xor_div_two, ← Nat.and_div_two, ← Nat.and_div_two, ← Nat.and_div_two,
        ← Nat.or_div_two, ← Nat.or_div_two] at hhalf
      have hsum : (a ^^^ b ^^^ c) % 2 = (a % 2 + b % 2 + c % 2) % 2 := by
        rw [Nat.xor_mod_two_eq, Nat.add_mod, Nat.xor_mod_two_eq]
        omega
      have hcarry : (a &&& b ||| a &&& c ||| b &&& c) % 2 = (a % 2 + b % 2 + c % 2) / 2 := by
        have hone : (a &&& b ||| a &&& c ||| b &&& c) % 2 = 1 ↔ (a % 2 + b % 2 + c % 2) / 2 = 1 := by
          simp only [Nat.or_mod_two_eq_one, Nat.and_mod_two_eq_one]
          omega
        omega
      omega

variable {w : ℕ}

/-- The bits of the sum, without the carries. -/
def sum (a b c : BitVec w) : BitVec w := a ^^^ b ^^^ c

/-- The carries. -/
def carry (a b c : BitVec w) : BitVec w := (a &&& b) ||| (a &&& c) ||| (b &&& c)

/-- The sum of three words is that of the two that the adder makes of them. -/
theorem sum_add_carry (a b c : BitVec w) : sum a b c + carry a b c <<< 1 = a + b + c := by
  apply BitVec.eq_of_toNat_eq
  have hnat := xor_add_two_mul a.toNat b.toNat c.toNat
  simp only [sum, carry, BitVec.toNat_add, BitVec.toNat_shiftLeft, BitVec.toNat_xor, BitVec.toNat_or, BitVec.toNat_and,
    Nat.shiftLeft_eq, pow_one, Nat.add_mod_mod, Nat.mod_add_mod]
  rw [← hnat, Nat.mul_comm 2]

end Nica.Lib.CarrySave
