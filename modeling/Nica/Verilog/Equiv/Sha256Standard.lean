import Nica.Lib.Sha2
import Nica.Verilog.Sha256Core
import Mathlib.Data.Fin.VecNotation

/-!
# The functions of the core are those of the standard

`toVars_block`: what `Sha256.block` makes of a block is the compression of SHA-256 (`Sha2.sha256`).  Its rounds keep a
window of sixteen words, which stands still for the first sixteen rounds and slides from then on, and so holds the
words of the schedule that the next one needs (`rounds_eq`).

The constants in the source are digits.  Each is checked against the bounds that the root of a prime lies between
(`kConstants_bounds`, `words_digestInit`), and the primes against what divides them (`filter_eq_firstPrimes`).
-/

namespace Nica.Verilog.Sha256Core

open Nica.Lib
open Nica.Verilog.Sha256 (Regs)

/-- The registers as working variables. -/
def toVars (r : Regs) : Sha2.Vars 32 := ⟨r.a, r.b, r.c, r.d, r.e, r.f, r.g, r.h⟩

/-! ### The constants -/

/-- The first 64 primes. -/
def firstPrimes : List ℕ :=
  [2, 3, 5, 7, 11, 13, 17, 19, 23, 29, 31, 37, 41, 43, 47, 53, 59, 61, 67, 71, 73, 79, 83, 89, 97, 101, 103, 107, 109,
   113, 127, 131, 137, 139, 149, 151, 157, 163, 167, 173, 179, 181, 191, 193, 197, 199, 211, 223, 227, 229, 233, 239,
   241, 251, 257, 263, 269, 271, 277, 281, 283, 293, 307, 311]

/-- They are those that no smaller number divides. -/
theorem filter_eq_firstPrimes :
    ((List.range 312).filter fun x => 2 ≤ x ∧ ∀ m < 18, 2 ≤ m → m ∣ x → m = x) = firstPrimes := by
  decide +kernel

theorem nth_prime {t : ℕ} (ht : t < firstPrimes.length) : Nat.nth Nat.Prime t = firstPrimes[t] := by
  apply Sha2.nth_of_filter_range (n := 312)
  rw [← filter_eq_firstPrimes]
  apply List.filter_congr
  intro x hx
  have hlt : x < 18 ^ 2 := (List.mem_range.mp hx).trans (by decide)
  exact decide_eq_decide.mpr (Sha2.prime_iff_of_lt hlt)

/-- The fractional parts of the roots, one at a time. -/
theorem kConstants_bounds : ∀ t : Fin 64, ∃ q < 7,
    (q * 2 ^ 32 + (Sha256.kConstants.getD t 0).toNat) ^ 3 ≤ firstPrimes.getD t 0 * 2 ^ (3 * 32) ∧
      firstPrimes.getD t 0 * 2 ^ (3 * 32) < (q * 2 ^ 32 + (Sha256.kConstants.getD t 0).toNat + 1) ^ 3 := by
  decide +kernel

theorem getD_kConstants {t : ℕ} (ht : t < 64) : Sha256.kConstants.getD t 0 = Sha2.sha256.constant t := by
  obtain ⟨q, -, hle, hlt⟩ := kConstants_bounds ⟨t, ht⟩
  have hlen : t < firstPrimes.length := ht
  show _ = Sha2.rootBits 32 3 (Nat.nth Nat.Prime t)
  rw [nth_prime hlen, ← List.getD_eq_getElem (d := 0) _ hlen]
  exact (Sha2.rootBits_eq (by decide) hle hlt).symm
/-- The words of a chaining value. -/
def words (r : Regs) : Fin 8 → BitVec 32 := ![r.a, r.b, r.c, r.d, r.e, r.f, r.g, r.h]

theorem words_digestInit : ∀ i : Fin 8, ∃ q < 6,
    (q * 2 ^ 32 + (words Sha256.digestInit i).toNat) ^ 2 ≤ firstPrimes.getD i 0 * 2 ^ (2 * 32) ∧
      firstPrimes.getD i 0 * 2 ^ (2 * 32) < (q * 2 ^ 32 + (words Sha256.digestInit i).toNat + 1) ^ 2 := by
  decide +kernel

/-- The first halves of the 64 bits that `digestInit224` has the second halves of. -/
def digestInit384 : Fin 8 → BitVec 32 :=
  ![0xcbbb9d5d, 0x629a292a, 0x9159015a, 0x152fecd8, 0x67332667, 0x8eb44a87, 0xdb0c2e0d, 0x47b5481d]

theorem words_digestInit224 : ∀ i : Fin 8, ∃ q < 8,
    (q * 2 ^ 64 + (digestInit384 i ++ words digestInit224 i).toNat) ^ 2 ≤ firstPrimes.getD (8 + i) 0 * 2 ^ (2 * 64) ∧
      firstPrimes.getD (8 + i) 0 * 2 ^ (2 * 64) <
        (q * 2 ^ 64 + (digestInit384 i ++ words digestInit224 i).toNat + 1) ^ 2 := by
  decide +kernel
theorem toVars_digestInit256 : toVars Sha256.digestInit = Sha2.initial256 := by
  have htoVars : toVars Sha256.digestInit = .ofFn fun i => words Sha256.digestInit (Fin.ofNat 8 i) := rfl
  rw [htoVars]
  apply Sha2.Vars.ofFn_congr
  intro i hi
  have hlen : i < firstPrimes.length := hi.trans (by decide)
  obtain ⟨q, -, hle, hlt⟩ := words_digestInit (Fin.ofNat 8 i)
  rw [Fin.val_ofNat, Nat.mod_eq_of_lt hi] at hle hlt
  rw [nth_prime hlen, ← List.getD_eq_getElem firstPrimes 0 hlen]
  exact (Sha2.rootBits_eq (by decide) hle hlt).symm

theorem toVars_digestInit224 : toVars digestInit224 = Sha2.initial224 := by
  have htoVars : toVars digestInit224 = .ofFn fun i => words digestInit224 (Fin.ofNat 8 i) := rfl
  rw [htoVars]
  apply Sha2.Vars.ofFn_congr
  intro i hi
  have hlen : 8 + i < firstPrimes.length := (Nat.add_lt_add_left hi 8).trans (by decide)
  obtain ⟨q, -, hle, hlt⟩ := words_digestInit224 (Fin.ofNat 8 i)
  rw [Fin.val_ofNat, Nat.mod_eq_of_lt hi] at hle hlt
  rw [nth_prime hlen, ← List.getD_eq_getElem firstPrimes 0 hlen, Sha2.rootBits_eq (by decide) hle hlt]
  exact BitVec.setWidth_append_eq_right.symm

/-! ### The rounds -/

section Rounds

variable (m : Fin 16 → BitVec 32)

/-- The window before round `t`. -/
noncomputable def windowAt (t : ℕ) : List (BitVec 32) := List.ofFn (Sha2.sha256.window m (t - 16))

theorem wNew_windowAt (t : ℕ) : Sha256.wNew (List.ofFn (Sha2.sha256.window m t)) = Sha2.sha256.word m (t + 16) := by
  rw [Sha2.Family.word_add]
  simp only [Sha256.wNew, List.getD_eq_getElem?_getD, List.getElem?_ofFn]
  rfl

theorem selectW_windowAt (t : ℕ) : Sha256.selectW t (windowAt m t) = Sha2.sha256.word m t := by
  unfold Sha256.selectW windowAt
  by_cases h : t < 16
  · rw [if_pos h, Nat.sub_eq_zero_of_le h.le, Sha2.Family.window_zero, Sha2.Family.word_of_lt _ _ h, List.getD_eq_getElem?_getD,
      List.getElem?_ofFn, dif_pos h]
    rfl
  · rw [if_neg h, wNew_windowAt, Nat.sub_add_cancel (not_lt.mp h)]

theorem wNext_windowAt (t : ℕ) : Sha256.wNext t (windowAt m t) = windowAt m (t + 1) := by
  unfold Sha256.wNext windowAt
  by_cases h : t < 16
  · -- the window stands still
    rw [if_pos h, Nat.sub_eq_zero_of_le h.le, Nat.sub_eq_zero_of_le h]
  · have hge : 16 ≤ t := not_lt.mp h
    rw [if_neg h, wNew_windowAt, Nat.sub_add_comm hge]
    have hslide : Sha2.sha256.window m (t - 16 + 1) = _ := funext (Sha2.sha256.window_succ m (t - 16))
    rw [hslide]
    simp only [List.ofFn_succ, List.ofFn_zero, List.tail_cons, List.cons_append, List.nil_append]
    rfl

/-- The rounds that are left before round `t`. -/
theorem rounds_eq (n t : ℕ) (h : t + n = 64) (r : Regs) :
    toVars (Sha256.rounds t (Sha256.kConstants.drop t) (windowAt m t) r) =
      (List.range' t n).foldl (fun v t => Sha2.sha256.round m t v) (toVars r) := by
  induction n generalizing t r with
  | zero =>
    obtain rfl : t = 64 := h
    rfl
  | succ n ih =>
    have hlt : t < 64 := by omega
    have hround : toVars (Sha256.stateUpdate (Sha2.sha256.constant t) (Sha2.sha256.word m t) r) =
        Sha2.sha256.round m t (toVars r) := by
      unfold Sha256.stateUpdate Sha2.Family.round toVars
      refine Sha2.Vars.mk.injEq .. |>.mpr ⟨?_, rfl, rfl, rfl, ?_, rfl, rfl, rfl⟩
      · dsimp only [Sha2.choose, Sha2.majority, Sha2.sha256]
        ac_rfl
      · dsimp only [Sha2.choose, Sha2.sha256]
        ac_rfl
    have hlen : t < Sha256.kConstants.length := hlt
    rw [List.drop_eq_getElem_cons hlen, Sha256.rounds, ← List.getD_eq_getElem Sha256.kConstants 0 hlen,
      getD_kConstants hlt, selectW_windowAt, wNext_windowAt, ih (t + 1) (by omega), hround, List.range'_succ,
      List.foldl_cons]

/-- **A block of the core is one of the standard.** -/
theorem toVars_block {b : List (BitVec 8)} (hb : Sha256.blockWords b = List.ofFn m) (s : Regs) :
    toVars (Sha256.block s b) = Sha2.sha256.compress m (toVars s) := by
  have hrounds := rounds_eq m 64 0 rfl s
  rw [windowAt, Nat.zero_sub, Sha2.Family.window_zero, List.drop_zero] at hrounds
  rw [Sha2.Family.compress, List.range_eq_range']
  show _ = (toVars s).add ((List.range' 0 64).foldl _ (toVars s))
  rw [← hrounds, Sha256.block, hb]
  rfl

end Rounds

end Nica.Verilog.Sha256Core
