import Nica.Hls.Coap
import Mathlib.Data.List.Basic

/-!
# Tokens, signatures and decisions

What the CoAP ikernel computes for one packet, in terms of the packet's bytes.  The token is the
constant header followed by bytes 62 to 105 of the packet, the signature is bytes 107 to 149, and the
packet is to pass if the signature is the encoded HMAC of the token under the key of the packet's
ikernel (`decisionOf`).  `firstBlocks` and `secondBlocks` are the blocks that the SHA units get for it.

The parser puts the token and the signature together from five beats; `token_eq` and `signature_eq`
cut them along the beats.
-/

namespace Nica.Hls.Coap

open Nica.Lib

variable {logNumTc : Nat}

/-! ### What is computed for a packet -/

namespace Request

/-- The traffic class of a packet. -/
def tc (logNumTc : Nat) (p : Request) : BitVec logNumTc :=
  calcTc logNumTc p.metadata

/-- The header and the body of the token: 37 and 44 bytes. -/
def token (p : Request) : List Byte :=
  jwtBase64Header ++ ((words p.beats).drop 62).take 44

def signature (p : Request) : List Byte :=
  ((words p.beats).drop 107).take 43

/-- The token as `parse_packet` hands it on: a full block, and the rest in front of the bytes of the
register that are never written. -/
def parsedData (p : Request) : ParsedData :=
  ⟨p.token.take 64, p.token.drop 64 ++ List.replicate 47 0⟩

end Request

/-- The blocks of the inner hash of the HMAC. -/
def firstBlocks (key : List Byte) (p : Request) : List ShaRequest :=
  [⟨xorPad ipad key, false⟩, ⟨p.token.take 64, false⟩,
    ⟨padBlock 136 (2 * 512 + 136) (p.token.drop 64), true⟩]

section

variable (hash : List (List Byte) → List Byte)

/-- The inner hash. -/
def firstDigest (key : List Byte) (p : Request) : List Byte :=
  hash ((firstBlocks key p).map (·.data))

/-- The blocks of the outer hash. -/
def secondBlocks (key : List Byte) (p : Request) : List ShaRequest :=
  [⟨xorPad opad key, false⟩, ⟨padBlock 256 (512 + 256) (firstDigest hash key p), true⟩]

/-- The HMAC of the packet's token. -/
def hmac (key : List Byte) (p : Request) : List Byte :=
  hash ((secondBlocks hash key p).map (·.data))

/-- Whether the packet's own signature is the one of its token under the key of its ikernel. -/
def authentic (c : Config) (p : Request) : Bool :=
  base64Encode (hmac hash (c.key p.metadata.ikernelId) p) == p.signature

/-- The decision that belongs to a packet under a configuration. -/
def decisionOf (c : Config) (p : Request) : Decision :=
  ⟨authentic hash c p, c.ringId p.metadata.ikernelId⟩

end

/-! ### Cutting along the beats -/

theorem length_jwtBase64Header : jwtBase64Header.length = 37 := by decide

/-! A register that is written at an offset keeps what is in front of it and behind it. -/

section

variable (dest : List Byte) (off : Nat) (src : List Byte) {n : Nat}

theorem length_writeBytes (h : off + src.length ≤ dest.length) :
    (writeBytes dest off src).length = dest.length := by
  simp only [writeBytes, List.length_append, List.length_take, List.length_drop]
  omega

theorem take_writeBytes (hn : n ≤ off) (hoff : off ≤ dest.length) :
    (writeBytes dest off src).take n = dest.take n := by
  have hlen : (dest.take off).length = off := List.length_take_of_le hoff
  rw [writeBytes, List.append_assoc, List.take_append_of_le_length (by omega), List.take_take,
    Nat.min_eq_left hn]

theorem take_writeBytes_end (hoff : off ≤ dest.length) :
    (writeBytes dest off src).take (off + src.length) = dest.take off ++ src := by
  have hlen : (dest.take off ++ src).length = off + src.length := by
    rw [List.length_append, List.length_take_of_le hoff]
  rw [writeBytes, ← hlen, List.take_left]

theorem drop_writeBytes (hn : off + src.length ≤ n) (hoff : off ≤ dest.length) :
    (writeBytes dest off src).drop n = dest.drop n := by
  have hlen : (dest.take off ++ src).length = off + src.length := by
    rw [List.length_append, List.length_take_of_le hoff]
  rw [writeBytes, List.drop_append, List.drop_eq_nil_of_le (by omega), List.nil_append, hlen,
    List.drop_drop]
  congr 1
  omega

end

section

variable {x₀ x₁ x₂ x₃ x₄ : List Byte} (h₀ : x₀.length = 32) (h₁ : x₁.length = 32)
  (h₂ : x₂.length = 32) (h₃ : x₃.length = 32)

include h₀ h₁ h₂ h₃

/-- Bytes 62 to 105 of words of 32 bytes. -/
theorem bodyBytes_eq (rest : List Byte) :
    ((x₀ ++ (x₁ ++ (x₂ ++ (x₃ ++ rest)))).drop 62).take 44 = x₁.drop 30 ++ x₂ ++ x₃.take 10 := by
  have hd₀ : x₀.drop 62 = [] := List.drop_eq_nil_of_le (by omega)
  have ht₁ : (x₁.drop 30).take 44 = x₁.drop 30 := List.take_of_length_le (by simp [h₁])
  have ht₂ : x₂.take 42 = x₂ := List.take_of_length_le (by omega)
  simp [List.drop_append, List.take_append, hd₀, ht₁, ht₂, h₀, h₁, h₂, h₃]

/-- Bytes 107 to 149 of words of 32 bytes. -/
theorem signatureBytes_eq (h₄ : x₄.length = 32) (rest : List Byte) :
    ((x₀ ++ (x₁ ++ (x₂ ++ (x₃ ++ (x₄ ++ rest))))).drop 107).take 43 =
      x₃.drop 11 ++ x₄.take 22 := by
  have hd₀ : x₀.drop 107 = [] := List.drop_eq_nil_of_le (by omega)
  have hd₁ : x₁.drop 75 = [] := List.drop_eq_nil_of_le (by omega)
  have hd₂ : x₂.drop 43 = [] := List.drop_eq_nil_of_le (by omega)
  have ht₃ : (x₃.drop 11).take 43 = x₃.drop 11 := List.take_of_length_le (by simp [h₃])
  simp [List.drop_append, List.take_append, hd₀, hd₁, hd₂, ht₃, h₀, h₁, h₂, h₃, h₄]

end

namespace Request

variable (p : Request)

/-- The first five beats are read as words of the token, and at least one more follows. -/
theorem exists_beats : ∃ b₀ b₁ b₂ b₃ b₄ rest,
    p.beats = b₀ :: b₁ :: b₂ :: b₃ :: b₄ :: rest ∧ rest ≠ [] := by
  have hlong := p.long
  match hb : p.beats with
  | [] | [_] | [_, _] | [_, _, _] | [_, _, _, _] | [_, _, _, _, _] => simp [hb] at hlong
  | b₀ :: b₁ :: b₂ :: b₃ :: b₄ :: b₅ :: rest => exact ⟨b₀, b₁, b₂, b₃, b₄, b₅ :: rest, rfl, by simp⟩

variable {p} {b₀ b₁ b₂ b₃ b₄ : AxiData} {rest : List AxiData}

theorem token_eq (hb : p.beats = b₀ :: b₁ :: b₂ :: b₃ :: b₄ :: rest) :
    p.token = jwtBase64Header ++ (bytesOf b₁.data).drop 30 ++ bytesOf b₂.data ++
      (bytesOf b₃.data).take 10 := by
  rw [token, hb, words_cons, words_cons, words_cons, words_cons, bodyBytes_eq (length_bytesOf _)
    (length_bytesOf _) (length_bytesOf _) (length_bytesOf _)]
  simp only [List.append_assoc]

theorem signature_eq (hb : p.beats = b₀ :: b₁ :: b₂ :: b₃ :: b₄ :: rest) :
    p.signature = (bytesOf b₃.data).drop 11 ++ (bytesOf b₄.data).take 22 := by
  rw [signature, hb, words_cons, words_cons, words_cons, words_cons, words_cons,
    signatureBytes_eq (length_bytesOf _) (length_bytesOf _) (length_bytesOf _) (length_bytesOf _)
    (length_bytesOf _)]

/-- The beats behind the first five are framed like a packet. -/
theorem isPacket_rest (hb : p.beats = b₀ :: b₁ :: b₂ :: b₃ :: b₄ :: rest) (hrest : rest ≠ []) :
    IsPacket rest := by
  have hdrop : ∀ {b : AxiData} {bs : List AxiData}, bs ≠ [] → IsPacket (b :: bs) → IsPacket bs := by
    intro b bs hbs h
    cases hl : b.last with
    | false => exact (isPacket_cons h).2 hl
    | true => exact absurd ((isPacket_cons h).1 hl) hbs
  have h := p.isPacket
  rw [hb] at h
  exact hdrop hrest (hdrop (by simp) (hdrop (by simp) (hdrop (by simp) (hdrop (by simp) h))))

/-! The pieces of the token and of the signature that are complete after each of the beats. -/

theorem take_token_second (hb : p.beats = b₀ :: b₁ :: b₂ :: b₃ :: b₄ :: rest) :
    p.token.take 39 = jwtBase64Header ++ (bytesOf b₁.data).drop 30 := by
  rw [token_eq hb, List.append_assoc]
  exact List.take_left' (by simp [length_jwtBase64Header])

theorem take_token_third (hb : p.beats = b₀ :: b₁ :: b₂ :: b₃ :: b₄ :: rest) :
    p.token.take 64 = p.token.take 39 ++ (bytesOf b₂.data).take 25 := by
  have hsplit : p.token = (p.token.take 39 ++ (bytesOf b₂.data).take 25) ++
      ((bytesOf b₂.data).drop 25 ++ (bytesOf b₃.data).take 10) := by
    rw [take_token_second hb, token_eq hb]
    simp only [List.append_assoc]
    rw [← List.append_assoc (List.take 25 _), List.take_append_drop]
  conv_lhs => rw [hsplit]
  exact List.take_left' (by simp [take_token_second hb, length_jwtBase64Header])

theorem drop_token (hb : p.beats = b₀ :: b₁ :: b₂ :: b₃ :: b₄ :: rest) :
    p.token.drop 64 = (bytesOf b₂.data).drop 25 ++ (bytesOf b₃.data).take 10 := by
  have hsplit : p.token = (jwtBase64Header ++ (bytesOf b₁.data).drop 30 ++
      (bytesOf b₂.data).take 25) ++ ((bytesOf b₂.data).drop 25 ++ (bytesOf b₃.data).take 10) := by
    rw [token_eq hb]
    simp only [List.append_assoc]
    rw [← List.append_assoc (List.take 25 _), List.take_append_drop]
  rw [hsplit]
  exact List.drop_left' (by simp [length_jwtBase64Header])

theorem take_drop_token (hb : p.beats = b₀ :: b₁ :: b₂ :: b₃ :: b₄ :: rest) :
    (p.token.drop 64).take 7 = (bytesOf b₂.data).drop 25 := by
  rw [drop_token hb]
  exact List.take_left' (by simp)

theorem take_signature (hb : p.beats = b₀ :: b₁ :: b₂ :: b₃ :: b₄ :: rest) :
    p.signature.take 21 = (bytesOf b₃.data).drop 11 := by
  rw [signature_eq hb]
  exact List.take_left' (by simp)

theorem length_token (p : Request) : p.token.length = 81 := by
  obtain ⟨b₀, b₁, b₂, b₃, b₄, rest, hb, -⟩ := p.exists_beats
  simp [token_eq hb, length_jwtBase64Header]

/-- The padding of the last block does not read the bytes behind the token. -/
theorem padBlock_parsedData (p : Request) (n : BitVec 64) :
    padBlock 136 n p.parsedData.secondWord = padBlock 136 n (p.token.drop 64) := by
  have hlen : (p.token.drop 64).length = 17 := by simp [p.length_token]
  have htake : (p.token.drop 64 ++ List.replicate 47 (0 : Byte)).take 17 = p.token.drop 64 := by
    rw [← hlen]
    exact List.take_left
  have hself : (p.token.drop 64).take 17 = p.token.drop 64 :=
    List.take_of_length_le (by rw [hlen])
  simp only [padBlock, parsedData]
  rw [htake, hself]

end Request

end Nica.Hls.Coap
