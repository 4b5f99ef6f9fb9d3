import Mathlib.Data.List.Basic
import Mathlib.Algebra.GroupWithZero.Nat

/-!
# Padded messages and HMAC

`pad m` are the blocks of 64 bytes that SHA-256 compresses for the message `m`: the message, a one bit, zeros, and the
length in bits as eight bytes, the most significant first.  A hash function on messages is what a compression makes
of the padded blocks (`onMessages`), and `hmac H` is the HMAC of the hash function `H` for keys of one block.
-/

namespace Nica.Lib.Hmac

/-- The first `l.length / n` pieces of length `n`. -/
def cut {α : Type*} (n : ℕ) (l : List α) : List (List α) :=
  (List.range (l.length / n)).map fun i => (l.drop (n * i)).take n

/-- Eight bytes, the most significant first. -/
def bigEndian64 (v : ℕ) : List (BitVec 8) := (List.range 8).map fun i => BitVec.ofNat 8 (v / 256 ^ (7 - i))

/-- What follows a message of `n` bytes. -/
def padding (n : ℕ) : List (BitVec 8) := 0x80 :: List.replicate ((119 - n % 64) % 64) 0 ++ bigEndian64 (8 * n)

/-- The padded blocks of a message. -/
def pad (m : List (BitVec 8)) : List (List (BitVec 8)) := cut 64 (m ++ padding m.length)

/-- The hash of a message, by what a compression makes of its blocks. -/
def onMessages (hash : List (List (BitVec 8)) → List (BitVec 8)) (m : List (BitVec 8)) : List (BitVec 8) := hash (pad m)

/-- The message of the inner hash. -/
def inner (key m : List (BitVec 8)) : List (BitVec 8) := key.map (· ^^^ 0x36) ++ m

/-- The message of the outer hash. -/
def outer (H : List (BitVec 8) → List (BitVec 8)) (key m : List (BitVec 8)) : List (BitVec 8) :=
  key.map (· ^^^ 0x5c) ++ H (inner key m)

/-- The HMAC of a message under a key of one block. -/
def hmac (H : List (BitVec 8) → List (BitVec 8)) (key m : List (BitVec 8)) : List (BitVec 8) := H (outer H key m)

theorem length_bigEndian64 (v : ℕ) : (bigEndian64 v).length = 8 := by
  rw [bigEndian64, List.length_map, List.length_range]

/-- Blocks that are put together are cut apart again. -/
theorem cut_flatten {α : Type*} {n : ℕ} (hn : 0 < n) {bs : List (List α)} (h : ∀ b ∈ bs, b.length = n) :
    cut n bs.flatten = bs := by
  induction bs with
  | nil => simp [cut]
  | cons b bs ih =>
    have hb : b.length = n := h b (List.mem_cons_self ..)
    have hrest := ih fun b' hb' => h b' (List.mem_cons_of_mem b hb')
    have hdiv : (b ++ bs.flatten).length / n = bs.flatten.length / n + 1 := by
      rw [List.length_append, hb, Nat.add_comm, Nat.add_div_right _ hn]
    unfold cut at hrest ⊢
    rw [List.flatten_cons, hdiv, List.range_succ_eq_map, List.map_cons, List.map_map, Nat.mul_zero, List.drop_zero]
    congr 1
    · rw [← hb]
      exact List.take_left
    · refine Eq.trans ?_ hrest
      apply List.map_congr_left
      intro i _
      show ((b ++ bs.flatten).drop (n * (i + 1))).take n = _
      have hpos : n * (i + 1) = b.length + n * i := by rw [hb, Nat.mul_succ, Nat.add_comm]
      rw [hpos, ← List.drop_drop, List.drop_left]

/-- The padded blocks are any blocks that make up the message and its padding. -/
theorem pad_eq {m : List (BitVec 8)} {bs : List (List (BitVec 8))} (hflat : bs.flatten = m ++ padding m.length)
    (hlen : ∀ b ∈ bs, b.length = 64) : pad m = bs := by
  rw [pad, ← hflat]
  exact cut_flatten (by decide) hlen

end Nica.Lib.Hmac
