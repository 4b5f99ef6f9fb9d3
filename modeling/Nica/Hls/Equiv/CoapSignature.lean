import Nica.Hls.Equiv.CoapFraming
import Nica.Lib.Base64
import Nica.Lib.Hmac
import Mathlib.Tactic.IntervalCases

/-!
# The signature check of the CoAP ikernel

The parser cuts the token out of four beats and the units behind it pad it by hand, for the one length that it has.
Here this is compared with the definitions: the blocks of `first_pass` are the padded blocks of the inner message of
the HMAC (`data_firstBlocks`), those of `second_pass` the padded blocks of the outer one (`data_secondBlocks`),
`base64_encode` is the unpadded base64url encoding (`base64Encode_eq`), and the decision compares the signature of the
packet with the encoded HMAC of its token (`signature_run`).
-/

namespace Nica.Hls.Coap

open Nica.Lib
open Nica.Lib.Hmac (pad padding onMessages inner outer bigEndian64)

variable {logNumTc : Nat}

/-! ### The encoding -/

theorem basis64_eq : ∀ v : BitVec 6, basis64 (v.setWidth 8) = Base64.char v := by decide +kernel

section

variable (x y z : BitVec 8)

theorem first_sextet : (x >>> 2) &&& 0x3f = ((x ++ y ++ z : BitVec 24).extractLsb' 18 6).setWidth 8 := by
  ext i hi
  interval_cases i <;> simp [Base64.getElem_group]

theorem second_sextet : ((x &&& 0x3) <<< 4) ||| ((y &&& 0xf0) >>> 4) =
    ((x ++ y ++ z : BitVec 24).extractLsb' 12 6).setWidth 8 := by
  ext i hi
  interval_cases i <;> simp [Base64.getElem_group]

theorem third_sextet : ((y &&& 0xf) <<< 2) ||| ((z &&& 0xc0) >>> 6) =
    ((x ++ y ++ z : BitVec 24).extractLsb' 6 6).setWidth 8 := by
  ext i hi
  interval_cases i <;> simp [Base64.getElem_group]

theorem fourth_sextet : z &&& 0x3f = ((x ++ y ++ z : BitVec 24).extractLsb' 0 6).setWidth 8 := by
  ext i hi
  interval_cases i <;> simp [Base64.getElem_group]

end

/-- `base64_encode` has no case for a tail of one byte, and 32 bytes do not have one. -/
theorem base64Encode_eq {bytes : List Byte} (h : bytes.length % 3 ≠ 1) : base64Encode bytes = Base64.encode bytes := by
  induction bytes using base64Encode.induct with
  | case1 x y z rest ih =>
    have hrest : rest.length % 3 ≠ 1 := by
      rw [List.length_cons, List.length_cons, List.length_cons] at h
      omega
    rw [base64Encode, Base64.encode, ih hrest, first_sextet x y z, second_sextet x y z, third_sextet x y z,
      fourth_sextet x y z]
    simp only [basis64_eq, Base64.group, List.cons_append, List.nil_append]
  | case2 x y =>
    have hthird : (y &&& 0xf) <<< 2 = ((x ++ y ++ 0#8 : BitVec 24).extractLsb' 6 6).setWidth 8 := by
      have h := third_sextet x y 0#8
      simpa using h
    rw [base64Encode, Base64.encode, first_sextet x y 0#8, second_sextet x y 0#8, hthird]
    simp only [basis64_eq, Base64.group, List.take_succ_cons, List.take_zero]
  | case3 bytes hmore htwo =>
    match bytes with
    | [] => rfl
    | [x] => exact absurd rfl h
    | [x, y] => exact absurd rfl (htwo x y)
    | x :: y :: z :: rest => exact absurd rfl (hmore x y z rest)

/-! ### The padding -/

theorem lengthBytes_eq (v : ℕ) : lengthBytes (BitVec.ofNat 64 v) = bigEndian64 v := by
  apply List.map_congr_left
  intro i hi
  have hi' : i < 8 := List.mem_range.mp hi
  ext j hj
  have hpow : 256 ^ (7 - i) = 2 ^ (8 * (7 - i)) := by rw [pow_mul]; rfl
  have hlt : 8 * (7 - i) + j < 64 := by omega
  rw [BitVec.getElem_extractLsb', BitVec.getLsbD_ofNat, ← BitVec.getLsbD_eq_getElem, BitVec.getLsbD_ofNat, hpow,
    Nat.testBit_div_two_pow, Nat.add_comm j, decide_eq_true hlt, decide_eq_true hj]

/-- `pad_block` makes the last block of a message whose rest leaves room for the length. -/
theorem pad_eq_padBlock {front : List (List Byte)} {rest : List Byte} (hfront : ∀ b ∈ front, b.length = 64)
    (hrest : rest.length < 56) :
    pad (front.flatten ++ rest) =
      front ++ [padBlock (8 * rest.length) (BitVec.ofNat 64 (8 * (64 * front.length + rest.length))) rest] := by
  have hlen : front.flatten.length = 64 * front.length := by
    rw [List.length_flatten, List.map_congr_left (g := fun _ => 64) hfront, List.map_const', List.sum_replicate_nat,
      Nat.mul_comm]
  have hmod : (64 * front.length + rest.length) % 64 = rest.length := by omega
  have hzeros : (119 - rest.length) % 64 = 55 - rest.length := by omega
  apply Hmac.pad_eq
  · rw [List.flatten_append, List.flatten_singleton, List.append_assoc, List.length_append, hlen, padding, hmod, hzeros,
      padBlock, Nat.mul_div_cancel_left _ (by decide), List.take_length, lengthBytes_eq]
    simp only [List.append_assoc, List.cons_append, List.nil_append]
  · intro b hb
    rcases List.mem_append.mp hb with hb | hb
    · exact hfront b hb
    · rw [List.mem_singleton.mp hb, padBlock, Nat.mul_div_cancel_left _ (by decide), List.take_length, lengthBytes_eq]
      simp only [List.length_append, List.length_replicate, List.length_singleton, Hmac.length_bigEndian64]
      omega

theorem length_key (c : Config) (id : BitVec 6) : (c.key id).length = 64 := by
  simp [Config.key, List.length_flatMap, intToBytes]

/-! ### The blocks of the two passes -/

/-- The requests for the blocks of one message. -/
def requests : List (List Byte) → List ShaRequest
  | [] => []
  | [b] => [⟨b, true⟩]
  | b :: b' :: bs => ⟨b, false⟩ :: requests (b' :: bs)

theorem data_requests (bs : List (List Byte)) : (requests bs).map ShaRequest.data = bs := by
  induction bs using requests.induct with
  | case1 => rfl
  | case2 b => rfl
  | case3 b b' bs ih => rw [requests, List.map_cons, ih]

theorem firstBlocks_eq {key : List Byte} (hkey : key.length = 64) (p : Request) :
    firstBlocks key p = requests (pad (inner key p.token)) := by
  have hlen := p.length_token
  have hfront : ∀ b ∈ [xorPad ipad key, p.token.take 64], b.length = 64 := by simp [xorPad, hkey, hlen]
  have hpad := pad_eq_padBlock hfront (show (p.token.drop 64).length < 56 by simp [hlen])
  have hrest : (p.token.drop 64).length = 17 := by rw [List.length_drop, hlen]
  rw [List.flatten_cons, List.flatten_singleton, List.append_assoc, List.take_append_drop, hrest] at hpad
  have hinner : inner key p.token = xorPad ipad key ++ p.token := rfl
  rw [hinner, hpad]
  rfl

section

variable {hash : List (List Byte) → List Byte} (hlength : ∀ blocks, (hash blocks).length = 32)

theorem firstDigest_eq {key : List Byte} (hkey : key.length = 64) (p : Request) :
    firstDigest hash key p = onMessages hash (inner key p.token) := by
  rw [firstDigest, firstBlocks_eq hkey, data_requests]
  rfl

include hlength

theorem secondBlocks_eq {key : List Byte} (hkey : key.length = 64) (p : Request) :
    secondBlocks hash key p = requests (pad (outer (onMessages hash) key p.token)) := by
  have hdigest : (firstDigest hash key p).length = 32 := hlength _
  have hfront : ∀ b ∈ [xorPad opad key], b.length = 64 := by simp [xorPad, hkey]
  have hpad := pad_eq_padBlock hfront (show (firstDigest hash key p).length < 56 by rw [hdigest]; decide)
  rw [List.flatten_singleton, hdigest] at hpad
  have houter : outer (onMessages hash) key p.token = xorPad opad key ++ firstDigest hash key p := by
    rw [firstDigest_eq hkey]
    rfl
  rw [houter, hpad]
  rfl

theorem hmac_eq {key : List Byte} (hkey : key.length = 64) (p : Request) :
    hmac hash key p = Hmac.hmac (onMessages hash) key p.token := by
  rw [hmac, secondBlocks_eq hlength hkey, data_requests]
  rfl

end

/-! ### Packets with a token -/

/-- The packets that the parser makes of the data of a sequence of packets. -/
def received (packets : List Datagram) : List Request :=
  takenPackets (packets.map Datagram.metadata) (packets.flatMap Datagram.beats)

/-- The layout of a packet with a signed token: the header of the token is where it is expected, and the token and its
signature are there, in the first five beats. -/
structure HasToken (p : Datagram) : Prop where
  long : 5 ≤ p.beats.length
  header : ((words p.beats).drop 25).take 37 = jwtBase64Header

/-- Header and body of the token, bytes 25 to 105. -/
def signedBytes (p : Datagram) : List Byte := ((words p.beats).drop 25).take 81

/-- Bytes 107 to 149. -/
def signatureBytes (p : Datagram) : List Byte := ((words p.beats).drop 107).take 43

theorem exists_beats {p : Datagram} (h : 5 ≤ p.beats.length) :
    ∃ b₀ b₁ b₂ b₃ b₄ rest, p.beats = b₀ :: b₁ :: b₂ :: b₃ :: b₄ :: rest := by
  match hb : p.beats with
  | [] | [_] | [_, _] | [_, _, _] | [_, _, _, _] => simp [hb] at h
  | b₀ :: b₁ :: b₂ :: b₃ :: b₄ :: rest => exact ⟨b₀, b₁, b₂, b₃, b₄, rest, rfl⟩

theorem token_takenOf {p : Datagram} (h : HasToken p) : (takenOf p).token = signedBytes p := by
  obtain ⟨b₀, b₁, b₂, b₃, b₄, rest, hb⟩ := exists_beats h.long
  have htaken : (takenOf p).beats =
      clearLast b₀ :: clearLast b₁ :: clearLast b₂ :: clearLast b₃ :: clearLast b₄ :: [anyEnd] := by
    simp only [takenOf, taken, hb]
    rfl
  have hbody : ((words p.beats).drop 62).take 44 =
      (bytesOf b₁.data).drop 30 ++ bytesOf b₂.data ++ (bytesOf b₃.data).take 10 := by
    rw [hb, words_cons, words_cons, words_cons, words_cons]
    exact bodyBytes_eq (length_bytesOf _) (length_bytesOf _) (length_bytesOf _) (length_bytesOf _) _
  have hsplit : signedBytes p = ((words p.beats).drop 25).take 37 ++ ((words p.beats).drop 62).take 44 := by
    rw [signedBytes, show 81 = 37 + 44 from rfl, List.take_add, List.drop_drop]
  rw [Request.token_eq htaken, hsplit, h.header, hbody]
  simp only [clearLast, List.append_assoc]

theorem signature_takenOf {p : Datagram} (h : HasToken p) : (takenOf p).signature = signatureBytes p := by
  obtain ⟨b₀, b₁, b₂, b₃, b₄, rest, hb⟩ := exists_beats h.long
  have htaken : (takenOf p).beats =
      clearLast b₀ :: clearLast b₁ :: clearLast b₂ :: clearLast b₃ :: clearLast b₄ :: [anyEnd] := by
    simp only [takenOf, taken, hb]
    rfl
  have hbytes : signatureBytes p = (bytesOf b₃.data).drop 11 ++ (bytesOf b₄.data).take 22 := by
    rw [signatureBytes, hb, words_cons, words_cons, words_cons, words_cons, words_cons]
    exact signatureBytes_eq (length_bytesOf _) (length_bytesOf _) (length_bytesOf _) (length_bytesOf _)
      (length_bytesOf _) _
  rw [Request.signature_eq htaken, hbytes]
  rfl

/-- Behind packets that are long enough, the parser starts a packet with its first beat. -/
theorem received_getElem? {packets : List Datagram} {k : ℕ} {p : Datagram} (hp : packets[k]? = some p)
    (hbefore : ∀ q ∈ packets.take k, 6 ≤ q.beats.length) (h : 5 ≤ p.beats.length) :
    (received packets)[k]? = some (takenOf p) := by
  induction packets generalizing k with
  | nil => cases hp
  | cons q packets ih =>
    rw [received, List.map_cons, List.flatMap_cons, takenPackets]
    cases k with
    | zero =>
      obtain rfl : q = p := Option.some.inj hp
      rw [List.getElem?_cons_zero, taken_append h]
      rfl
    | succ k =>
      have hq : 6 ≤ q.beats.length := hbefore q (List.mem_cons_self ..)
      rw [List.getElem?_cons_succ, afterLast_drop q.isPacket _ hq]
      exact ih hp fun q' hq' => hbefore q' (List.mem_cons_of_mem q hq')

/-! ### The check -/

/-- What the SHA units are sent and what is decided, for the packets of the services. -/
structure Checked (hash : List (List Byte) → List Byte) (services : List (Service logNumTc)) (s : State logNumTc) :
    Prop where
  inner_sent : s.firstShaIn.sent <+: services.flatMap fun x => requests (pad (inner x.key x.packet.token))
  inner_idle : s.firstPass.state = .readRequest → s.firstShaIn.sent =
    (services.take s.toFirstPass.past.length).flatMap fun x => requests (pad (inner x.key x.packet.token))
  outer_sent : s.secondShaIn.sent <+:
    services.flatMap fun x => requests (pad (outer (onMessages hash) x.key x.packet.token))
  outer_idle : s.secondPass = .hashKey → s.secondShaIn.sent =
    (services.take s.toSecondPass.past.length).flatMap
      fun x => requests (pad (outer (onMessages hash) x.key x.packet.token))
  decision_sent : ∃ n, s.decision.sent = (services.take n).map fun x =>
    ⟨Base64.encode (Hmac.hmac (onMessages hash) x.key x.packet.token) == x.packet.signature, x.dispatch.request.ringId⟩

theorem checked_of_pairingInv {hash : List (List Byte) → List Byte} (hlength : ∀ blocks, (hash blocks).length = 32)
    {setData : List Byte → AxiData} {packets : List Request} {services : List (Service logNumTc)} {s : State logNumTc}
    (h : PairingInv hash setData packets services s) : Checked hash services s := by
  have hkey : ∀ x : Service logNumTc, x.key.length = 64 := fun x => length_key _ _
  have hinner : (Service.firstBlocks : Service logNumTc → _) =
      fun x => requests (pad (inner x.key x.packet.token)) :=
    funext fun x => firstBlocks_eq (hkey x) x.packet
  have houter : (Service.secondBlocks hash : Service logNumTc → _) =
      fun x => requests (pad (outer (onMessages hash) x.key x.packet.token)) :=
    funext fun x => secondBlocks_eq hlength (hkey x) x.packet
  have hdecision : (Service.decision hash : Service logNumTc → _) = fun x =>
      ⟨Base64.encode (Hmac.hmac (onMessages hash) x.key x.packet.token) == x.packet.signature,
        x.dispatch.request.ringId⟩ := by
    funext x
    have hlen : (Hmac.hmac (onMessages hash) x.key x.packet.token).length % 3 ≠ 1 := by
      rw [Hmac.hmac, onMessages, hlength]
      decide
    rw [Service.decision, hmac_eq hlength (hkey x), base64Encode_eq hlen]
    rfl
  constructor
  · rw [← hinner]
    exact h.firstPass.out_prefix
  · intro hidle
    have hfirst := h.firstPass
    simp only [FirstPassInv, hidle] at hfirst
    rw [← hinner]
    exact (List.append_nil _).symm.trans hfirst
  · rw [← houter]
    exact h.secondPass.out_prefix
  · intro hidle
    have hsecond := h.secondPass
    rw [hidle] at hsecond
    rw [← houter]
    exact (List.append_nil _).symm.trans hsecond.2
  · exact ⟨_, by rw [← hdecision]; exact h.decision_sent⟩

theorem length_sha256 (blocks : List (List Byte)) : (Verilog.Sha256.sha256 blocks).length = 32 := rfl

/-- A packet with the token of an empty body, signed with the key of ikernel 4 that is its id. -/
def signedPacket : Datagram where
  metadata := ⟨0, 0, 4, .inl ⟨0, 0, 0, 0, 0, 0⟩, 0, 0, 150⟩
  beats := [⟨0x65794a68624763, -1, false⟩,
    ⟨0x694f694a49557a49314e694973496e52356343493649 <<< 80 ||| 0x6b705856434a392e <<< 16, -1, false⟩, ⟨0, -1, false⟩,
    ⟨0x6d615356414b344a6a534751416b59794d694b705f, -1, false⟩,
    ⟨0x767a6542716a414e4e6e4a6932573531754a6d76505900000000000000000000, -1, true⟩]
  isPacket := by rw [← isPacket_iff]; rfl

example : HasToken signedPacket ∧
    (run (step Verilog.Sha256.sha256 fun _ => anyEnd)
      (State.ofDatagrams ⟨fun n id => if n = 0 then id.setWidth 32 else 0, fun _ => 0⟩ [signedPacket] : State 2)
      (.dupMetadata false :: List.replicate 5 (.dupData false) ++
        List.replicate 6 (.parsePacket ⟨false, false, false, false, false⟩) ++
        [.readKey ⟨false, [], some (0, 1), false, false, false⟩] ++
        List.replicate 3 .firstPass ++ List.replicate 3 .firstSha ++ List.replicate 2 .secondPass ++
        List.replicate 2 .secondSha ++ [.verifySig false])).decision.sent = [⟨true, 0⟩] :=
  ⟨⟨by decide, by decide +kernel⟩, by decide +kernel⟩

end Nica.Hls.Coap
