import Mathlib.Data.List.Basic

/-!
# base64url

`encode` is the unpadded base64 encoding with the alphabet that is safe in URLs and file names: three bytes are one
group of 24 bits, which is read as four numbers of six bits, each of them the index of a character; a group that is
not full is filled up with zeros, and only the characters that carry bits of it are written.
-/

namespace Nica.Lib.Base64

/-- The characters, by their index. -/
def alphabet : List Char :=
  "ABCDEFGHIJKLMNOPQRSTUVWXYZabcdefghijklmnopqrstuvwxyz0123456789-_".toList

/-- The byte of the character with this index. -/
def char (v : BitVec 6) : BitVec 8 := BitVec.ofNat 8 (alphabet.getD v.toNat ' ').toNat

/-- The four characters of a group. -/
def group (g : BitVec 24) : List (BitVec 8) :=
  [char (g.extractLsb' 18 6), char (g.extractLsb' 12 6), char (g.extractLsb' 6 6), char (g.extractLsb' 0 6)]

/-- The unpadded encoding. -/
def encode : List (BitVec 8) → List (BitVec 8)
  | x :: y :: z :: rest => group (x ++ y ++ z) ++ encode rest
  | [x, y] => (group (x ++ y ++ 0#8)).take 3
  | [x] => (group (x ++ 0#16)).take 2
  | [] => []

theorem getElem_group (x y z : BitVec 8) {i : ℕ} (hi : i < 24) :
    (x ++ y ++ z : BitVec 24)[i] =
      if i < 8 then z.getLsbD i else if i < 16 then y.getLsbD (i - 8) else x.getLsbD (i - 16) := by
  rw [BitVec.getElem_append (h := hi)]
  split
  · rw [BitVec.getLsbD_eq_getElem]
  · rw [BitVec.getElem_append]
    split
    · rw [if_pos (by omega), BitVec.getLsbD_eq_getElem]
    · rw [if_neg (by omega), BitVec.getLsbD_eq_getElem (by omega)]
      congr 1

end Nica.Lib.Base64
