import Mathlib.Data.List.Basic

/-!
# The SHA-256 core (`nica/verilog/sha256_core.v`, `sha256_w_mem.v`, `sha256_k_constants.v`)

`sha256` is the digest that the core holds after it was given the blocks of one message: `digestInit`
at the first block, 64 rounds and `digestUpdate` for each block.  The carry-save adders compute the
sums that are written next to them as comments in the source, and the sums are what stands here.
The padding of the message is not part of the core: whoever sends the blocks has padded them.
-/

namespace Nica.Verilog.Sha256

/-- The working registers `a_reg` .. `h_reg`, and likewise `H0_reg` .. `H7_reg`. -/
structure Regs where
  a : BitVec 32
  b : BitVec 32
  c : BitVec 32
  d : BitVec 32
  e : BitVec 32
  f : BitVec 32
  g : BitVec 32
  h : BitVec 32
deriving DecidableEq, Repr

/-- `SHA256_H0_0` .. `SHA256_H0_7`. -/
def digestInit : Regs where
  a := 0x6a09e667
  b := 0xbb67ae85
  c := 0x3c6ef372
  d := 0xa54ff53a
  e := 0x510e527f
  f := 0x9b05688c
  g := 0x1f83d9ab
  h := 0x5be0cd19

/-- `sha256_k_constants`. -/
def kConstants : List (BitVec 32) :=
  [0x428a2f98, 0x71374491, 0xb5c0fbcf, 0xe9b5dba5, 0x3956c25b, 0x59f111f1, 0x923f82a4, 0xab1c5ed5,
   0xd807aa98, 0x12835b01, 0x243185be, 0x550c7dc3, 0x72be5d74, 0x80deb1fe, 0x9bdc06a7, 0xc19bf174,
   0xe49b69c1, 0xefbe4786, 0x0fc19dc6, 0x240ca1cc, 0x2de92c6f, 0x4a7484aa, 0x5cb0a9dc, 0x76f988da,
   0x983e5152, 0xa831c66d, 0xb00327c8, 0xbf597fc7, 0xc6e00bf3, 0xd5a79147, 0x06ca6351, 0x14292967,
   0x27b70a85, 0x2e1b2138, 0x4d2c6dfc, 0x53380d13, 0x650a7354, 0x766a0abb, 0x81c2c92e, 0x92722c85,
   0xa2bfe8a1, 0xa81a664b, 0xc24b8b70, 0xc76c51a3, 0xd192e819, 0xd6990624, 0xf40e3585, 0x106aa070,
   0x19a4c116, 0x1e376c08, 0x2748774c, 0x34b0bcb5, 0x391c0cb3, 0x4ed8aa4a, 0x5b9cca4f, 0x682e6ff3,
   0x748f82ee, 0x78a5636f, 0x84c87814, 0x8cc70208, 0x90befffa, 0xa4506ceb, 0xbef9a3f7, 0xc67178f2]

/-! ### The message schedule -/

/-- `w_new`, computed from the sliding window of 16 words. -/
def wNew (wMem : List (BitVec 32)) : BitVec 32 :=
  let w0 := wMem.getD 0 0
  let w1 := wMem.getD 1 0
  let w9 := wMem.getD 9 0
  let w14 := wMem.getD 14 0
  let d0 := w1.rotateRight 7 ^^^ w1.rotateRight 18 ^^^ (w1 >>> 3)
  let d1 := w14.rotateRight 17 ^^^ w14.rotateRight 19 ^^^ (w14 >>> 10)
  d1 + w9 + d0 + w0

/-- `select_w`: the word of round `t`. -/
def selectW (t : Nat) (wMem : List (BitVec 32)) : BitVec 32 :=
  if t < 16 then wMem.getD t 0 else wNew wMem

/-- The window after round `t`: from round 16 on it slides. -/
def wNext (t : Nat) (wMem : List (BitVec 32)) : List (BitVec 32) :=
  if t < 16 then wMem else wMem.tail ++ [wNew wMem]

/-! ### Rounds -/

/-- `state_update` of one round. -/
def stateUpdate (k w : BitVec 32) (r : Regs) : Regs :=
  let sum1 := r.e.rotateRight 6 ^^^ r.e.rotateRight 11 ^^^ r.e.rotateRight 25
  let ch := (r.e &&& r.f) ^^^ (~~~r.e &&& r.g)
  let t1 := r.h + sum1 + ch + w + k
  let sum0 := r.a.rotateRight 2 ^^^ r.a.rotateRight 13 ^^^ r.a.rotateRight 22
  let maj := (r.a &&& r.b) ^^^ (r.a &&& r.c) ^^^ (r.b &&& r.c)
  let t2 := sum0 + maj
  { a := t1 + t2, b := r.a, c := r.b, d := r.c, e := r.d + t1, f := r.e, g := r.f, h := r.g }

/-- The rounds from `t` on, one for each constant. -/
def rounds : Nat → List (BitVec 32) → List (BitVec 32) → Regs → Regs
  | _, [], _, r => r
  | t, k :: ks, wMem, r => rounds (t + 1) ks (wNext t wMem) (stateUpdate k (selectW t wMem) r)

/-- `digest_update`. -/
def digestUpdate (s r : Regs) : Regs :=
  { a := s.a + r.a, b := s.b + r.b, c := s.c + r.c, d := s.d + r.d,
    e := s.e + r.e, f := s.f + r.f, g := s.g + r.g, h := s.h + r.h }

/-! ### Blocks and digests -/

/-- The words of a block of bytes, the most significant byte of a word first. -/
def blockWords : List (BitVec 8) → List (BitVec 32)
  | x :: y :: z :: w :: rest => (x ++ y ++ z ++ w) :: blockWords rest
  | _ => []

/-- The bytes of a word, the most significant one first. -/
def wordBytes (w : BitVec 32) : List (BitVec 8) :=
  [w.extractLsb' 24 8, w.extractLsb' 16 8, w.extractLsb' 8 8, w.extractLsb' 0 8]

/-- One block: `CTRL_ROUNDS` until the counter has passed all rounds, then `CTRL_DONE`. -/
def block (s : Regs) (b : List (BitVec 8)) : Regs :=
  digestUpdate s (rounds 0 kConstants (blockWords b) s)

/-- The output `digest`: `{H0_reg, .., H7_reg}`. -/
def Regs.bytes (s : Regs) : List (BitVec 8) :=
  [s.a, s.b, s.c, s.d, s.e, s.f, s.g, s.h].flatMap wordBytes

/-- The digest after the blocks of one message. -/
def sha256 (blocks : List (List (BitVec 8))) : List (BitVec 8) :=
  let s := blocks.foldl block digestInit
  [s.a, s.b, s.c, s.d, s.e, s.f, s.g, s.h].flatMap wordBytes

end Nica.Verilog.Sha256
