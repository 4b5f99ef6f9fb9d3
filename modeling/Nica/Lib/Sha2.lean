import Mathlib.Data.Nat.Nth
import Mathlib.Data.Nat.Prime.Basic
import Mathlib.Data.BitVec
import Mathlib.Algebra.GroupWithZero.Nat

/-!
# The compression of SHA-2

`Family w` are the functions and constants that a member of the family with words of `w` bits is made of.  The words
of the schedule (`word`) are those of the block, and from the sixteenth on each depends on four of the sixteen before
it; a round (`round`) takes one of them, and `compress` adds what all rounds make of a state to the state itself.

A circuit has the schedule as a window of sixteen words that slides along (`window`): it holds the words from `t` on,
and the next word is a function of the window (`word_add`, `window_succ`).

`sha256` is the member with words of 32 bits.  Its constants are fractional parts of roots of the first primes
(`rootBits`), which `nth_of_filter_range` and `rootBits_eq` compute.
-/

namespace Nica.Lib.Sha2

/-- A member of the family. -/
structure Family (w : ℕ) where
  smallSigma0 : BitVec w → BitVec w
  smallSigma1 : BitVec w → BitVec w
  bigSigma0 : BitVec w → BitVec w
  bigSigma1 : BitVec w → BitVec w
  constant : ℕ → BitVec w
  rounds : ℕ

/-- The working variables, or a chaining value. -/
structure Vars (w : ℕ) where
  a : BitVec w
  b : BitVec w
  c : BitVec w
  d : BitVec w
  e : BitVec w
  f : BitVec w
  g : BitVec w
  h : BitVec w
deriving DecidableEq

variable {w : ℕ}

def choose (x y z : BitVec w) : BitVec w := (x &&& y) ^^^ (~~~x &&& z)

def majority (x y z : BitVec w) : BitVec w := (x &&& y) ^^^ (x &&& z) ^^^ (y &&& z)

/-- Word by word. -/
def Vars.add (s r : Vars w) : Vars w :=
  ⟨s.a + r.a, s.b + r.b, s.c + r.c, s.d + r.d, s.e + r.e, s.f + r.f, s.g + r.g, s.h + r.h⟩

namespace Family

variable (F : Family w) (m : Fin 16 → BitVec w)

/-- The schedule of the block `m`. -/
def word (t : ℕ) : BitVec w :=
  if h : t < 16 then m ⟨t, h⟩
  else F.smallSigma1 (word (t - 2)) + word (t - 7) + F.smallSigma0 (word (t - 15)) + word (t - 16)

/-- One round. -/
def round (t : ℕ) (v : Vars w) : Vars w :=
  let t1 := v.h + F.bigSigma1 v.e + choose v.e v.f v.g + F.constant t + F.word m t
  let t2 := F.bigSigma0 v.a + majority v.a v.b v.c
  ⟨t1 + t2, v.a, v.b, v.c, v.d + t1, v.e, v.f, v.g⟩

/-- The chaining value after the block `m`. -/
def compress (s : Vars w) : Vars w := s.add ((List.range F.rounds).foldl (fun v t => F.round m t v) s)

/-- The chaining value after some blocks. -/
def chain (s : Vars w) (blocks : List (Fin 16 → BitVec w)) : Vars w := blocks.foldl (fun s m => F.compress m s) s

/-! ### The sliding window -/

/-- The words from `t` on. -/
def window (t : ℕ) (i : Fin 16) : BitVec w := F.word m (t + i)

theorem word_of_lt {t : ℕ} (h : t < 16) : F.word m t = m ⟨t, h⟩ := by
  rw [word, dif_pos h]

/-- The word that comes into the window next. -/
theorem word_add (t : ℕ) :
    F.word m (t + 16) = F.smallSigma1 (F.window m t 14) + F.window m t 9 + F.smallSigma0 (F.window m t 1) +
      F.window m t 0 := by
  rw [word, dif_neg (by omega)]
  rfl

theorem window_zero : F.window m 0 = m := by
  ext1 i
  show F.word m (0 + i) = m i
  rw [Nat.zero_add]
  exact F.word_of_lt m i.isLt

/-- The window slides by one word. -/
theorem window_succ (t : ℕ) (i : Fin 16) :
    F.window m (t + 1) i = if h : i.val + 1 < 16 then F.window m t ⟨i.val + 1, h⟩ else F.word m (t + 16) := by
  split
  · show F.word m (t + 1 + i) = F.word m (t + (i + 1))
    rw [Nat.add_assoc, Nat.add_comm 1]
  · have hi : i.val = 15 := by omega
    show F.word m (t + 1 + i) = _
    rw [hi]

end Family

/-! ### Roots of primes -/

/-- The root of `n` of order `k`, rounded down. -/
def root (k n : ℕ) : ℕ := Nat.findGreatest (fun r => r ^ k ≤ n) n

/-- The first `w` bits of the fractional part of the root of `n` of order `k`. -/
def rootBits (w k n : ℕ) : BitVec w := BitVec.ofNat w (root k (n * 2 ^ (k * w)))

theorem root_eq {k n r : ℕ} (hk : k ≠ 0) (hle : r ^ k ≤ n) (hlt : n < (r + 1) ^ k) : root k n = r := by
  refine (Nat.findGreatest_eq_iff).mpr ⟨?_, fun _ => hle, ?_⟩
  · exact (Nat.le_self_pow hk r).trans hle
  · intro q hrq _ hq
    exact (hlt.trans_le (Nat.pow_le_pow_left hrq k)).not_ge hq

/-- The bits of the fractional part, found from the integral part `q`. -/
theorem rootBits_eq {k n q : ℕ} {x : BitVec w} (hk : k ≠ 0) (hle : (q * 2 ^ w + x.toNat) ^ k ≤ n * 2 ^ (k * w))
    (hlt : n * 2 ^ (k * w) < (q * 2 ^ w + x.toNat + 1) ^ k) : rootBits w k n = x := by
  rw [rootBits, root_eq hk hle hlt]
  apply BitVec.eq_of_toNat_eq
  rw [BitVec.toNat_ofNat, Nat.mul_comm, Nat.mul_add_mod, Nat.mod_eq_of_lt x.isLt]

/-- The numbers below `n` that have the property, in their order, are the first that have it. -/
theorem nth_of_filter_range {p : ℕ → Prop} [DecidablePred p] {n : ℕ} {l : List ℕ}
    (h : (List.range n).filter (fun x => p x) = l) {t : ℕ} (ht : t < l.length) : Nat.nth p t = l[t] := by
  subst h
  obtain ⟨x, hx⟩ : ∃ x, ((List.range n).filter (fun x => p x))[t] = x := ⟨_, rfl⟩
  have hmem : x ∈ (List.range n).filter (fun x => p x) := hx ▸ List.getElem_mem ht
  obtain ⟨hxn, hpx⟩ : x < n ∧ p x := by simpa using hmem
  have hidx : ((List.range n).filter (fun x => p x)).idxOf x = t := by
    rw [← hx]
    exact (List.nodup_range.filter _).idxOf_getElem t ht
  have hsplit : List.range n = List.range x ++ x :: List.range' (x + 1) (n - x - 1) := by
    have happend := List.range'_append_1 (s := 0) (m := x) (n := n - x - 1 + 1)
    rw [Nat.zero_add, List.range'_succ, show x + (n - x - 1 + 1) = n by omega] at happend
    rw [List.range_eq_range', List.range_eq_range', happend]
  have hcount : Nat.count p x = t := by
    rw [← hidx, hsplit, List.filter_append, List.filter_cons_of_pos (by simpa using hpx), List.idxOf_append_of_notMem,
      List.idxOf_cons_self, Nat.add_zero, Nat.count_eq_card_filter_range]
    · rfl
    · simp
  rw [hx, ← hcount]
  exact Nat.nth_count hpx

/-- Below the square of `n`, a prime is a number without a divisor below `n`. -/
theorem prime_iff_of_lt {n x : ℕ} (h : x < n ^ 2) : x.Prime ↔ 2 ≤ x ∧ ∀ m < n, 2 ≤ m → m ∣ x → m = x := by
  constructor
  · intro hx
    refine ⟨hx.two_le, fun m _ hm hdvd => ?_⟩
    exact (hx.eq_one_or_self_of_dvd m hdvd).resolve_left (by omega)
  · rintro ⟨hx, hall⟩
    by_contra hnot
    have hfac := Nat.minFac_sq_le_self (by omega) hnot
    have hlt : x.minFac < n := (Nat.pow_lt_pow_iff_left (by decide)).mp (hfac.trans_lt h)
    have hprime : x.minFac.Prime := Nat.minFac_prime (by omega)
    have heq := hall x.minFac hlt hprime.two_le x.minFac_dvd
    exact hnot (heq ▸ hprime)

/-! ### SHA-256 -/

/-- The functions and constants of SHA-256. -/
noncomputable def sha256 : Family 32 where
  smallSigma0 x := x.rotateRight 7 ^^^ x.rotateRight 18 ^^^ (x >>> 3)
  smallSigma1 x := x.rotateRight 17 ^^^ x.rotateRight 19 ^^^ (x >>> 10)
  bigSigma0 x := x.rotateRight 2 ^^^ x.rotateRight 13 ^^^ x.rotateRight 22
  bigSigma1 x := x.rotateRight 6 ^^^ x.rotateRight 11 ^^^ x.rotateRight 25
  constant t := rootBits 32 3 (Nat.nth Nat.Prime t)
  rounds := 64

/-- Eight words, from the first on. -/
def Vars.ofFn (x : ℕ → BitVec w) : Vars w := ⟨x 0, x 1, x 2, x 3, x 4, x 5, x 6, x 7⟩

theorem Vars.ofFn_congr {x y : ℕ → BitVec w} (h : ∀ i < 8, x i = y i) : ofFn x = ofFn y := by
  unfold ofFn
  rw [h 0 (by decide), h 1 (by decide), h 2 (by decide), h 3 (by decide), h 4 (by decide), h 5 (by decide),
    h 6 (by decide), h 7 (by decide)]

/-- The first chaining value of SHA-256. -/
noncomputable def initial256 : Vars 32 := .ofFn fun i => rootBits 32 2 (Nat.nth Nat.Prime i)

/-- The first chaining value of SHA-224: of 64 bits, the second half. -/
noncomputable def initial224 : Vars 32 := .ofFn fun i => (rootBits 64 2 (Nat.nth Nat.Prime (8 + i))).setWidth 32

end Nica.Lib.Sha2
