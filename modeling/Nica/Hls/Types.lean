import Nica.Lib.Fifo
import Mathlib.Data.List.Basic

/-!
# The data types that travel between the HLS units

The beats of a data stream (`ntl::axi_data`) and the metadata of a packet (`hls_ik::metadata`,
`nica/hls/ikernel.hpp`), with the widths of `nica/hls/ikernel-types.hpp`: `CUSTOM_RINGS_LOG_NUM`,
`LOG_NUM_IKERNELS` are 6 and `FLOW_TABLE_LOG_SIZE` is 10.
-/

namespace Nica.Hls

open Nica.Lib

/-- One beat of an AXI4 stream: 32 bytes, one keep bit for each of them and the end-of-packet
mark.  Byte 0 of the packet is the most significant byte of the first beat. -/
structure AxiData where
  data : BitVec 256
  keep : BitVec 32
  last : Bool
deriving DecidableEq, Repr

/-! ### Bytes -/

/-- The bytes of a word in the order of the packet: the most significant byte comes first. -/
def bytesOf (d : BitVec 256) : List (BitVec 8) :=
  (List.range 32).map fun i => d.extractLsb' (8 * (31 - i)) 8

@[simp]
theorem length_bytesOf (d : BitVec 256) : (bytesOf d).length = 32 := by
  rw [bytesOf, List.length_map, List.length_range]

theorem getElem_bytesOf (d : BitVec 256) (i : Nat) (h : i < (bytesOf d).length) :
    (bytesOf d)[i] = d.extractLsb' (8 * (31 - i)) 8 := by
  simp only [bytesOf, List.getElem_map, List.getElem_range]

/-- All bytes of the words of a sequence of beats, kept or not. -/
def words (bs : List AxiData) : List (BitVec 8) :=
  bs.flatMap (bytesOf ·.data)

theorem length_words (bs : List AxiData) : (words bs).length = 32 * bs.length := by
  induction bs with
  | nil => rfl
  | cons b bs ih =>
    rw [words, List.flatMap_cons, List.length_append, length_bytesOf, List.length_cons]
    have : (List.flatMap (fun b : AxiData => bytesOf b.data) bs).length = 32 * bs.length := ih
    omega

theorem words_append (bs cs : List AxiData) : words (bs ++ cs) = words bs ++ words cs :=
  List.flatMap_append

theorem words_cons (b : AxiData) (bs : List AxiData) :
    words (b :: bs) = bytesOf b.data ++ words bs :=
  List.flatMap_cons

/-! ### Metadata -/

/-- `hls_ik::packet_metadata`: the addresses of a UDP/IP packet. -/
structure PacketMetadata where
  ethDst : BitVec 48
  ethSrc : BitVec 48
  ipDst : BitVec 32
  ipSrc : BitVec 32
  udpDst : BitVec 16
  udpSrc : BitVec 16
deriving DecidableEq, Repr

/-- `packet_metadata::reply`. -/
def PacketMetadata.reply (p : PacketMetadata) : PacketMetadata where
  ethDst := p.ethSrc
  ethSrc := p.ethDst
  ipDst := p.ipSrc
  ipSrc := p.ipDst
  udpDst := p.udpSrc
  udpSrc := p.udpDst

/-- `hls_ik::custom_ring_metadata`. -/
structure CustomRingMetadata where
  endOfMessage : BitVec 1
deriving DecidableEq, Repr

/-- `hls_ik::metadata`: the metadata that accompanies a packet into and out of an ikernel.  `var`
is the union of the packet metadata and the custom ring metadata. -/
structure Metadata where
  pktType : BitVec 1
  flowId : BitVec 11
  ikernelId : BitVec 6
  var : PacketMetadata ⊕ CustomRingMetadata
  ringId : BitVec 7
  ipIdentification : BitVec 16
  length : BitVec 16
deriving DecidableEq, Repr

/-- `metadata::empty_packet`. -/
def Metadata.emptyPacket (m : Metadata) : Bool :=
  m.length == 0

/-- `metadata::get_packet_metadata`: the bits of the union, whichever side it is. -/
def getPacketMetadata (m : Metadata) : PacketMetadata :=
  match m.var with
  | .inl p => p
  | .inr c => ⟨0, 0, 0, 0, 0, c.endOfMessage.setWidth 16⟩

/-! ### `hls_helpers` -/

/-- `duplicator::dup2` and `dup3`: forward an element unless one of the outputs is full. -/
def dup {α : Type} (anyFull : Bool) (word : Option α) : Option α :=
  if anyFull then none else word

theorem past_readIf_dup {α : Type} (f : Fifo α) (full : Bool) :
    (f.readIf (dup full f.head).isSome).past = f.past ++ (dup full f.head).toList := by
  have h : dup full f.head = none ∨ dup full f.head = f.head.map id := by
    cases full with
    | true => exact .inl rfl
    | false => exact .inr Option.map_id'.symm
  simpa using f.map_past_readIf h

theorem head_eq_none_of_dup {α : Type} {f : Fifo α} (h : f.readIf (dup false f.head).isSome = f) :
    f.head = none := by
  cases hx : f.head with
  | none => rfl
  | some x =>
    rw [hx] at h
    rw [← hx]
    exact f.head_eq_none_of_readIf h

/-! ### Packets -/

/-- The beats of one packet: at least one, with `last` set on the final one only. -/
def IsPacket (beats : List AxiData) : Prop :=
  ∃ front final, beats = front ++ [final] ∧ final.last = true ∧ ∀ b ∈ front, b.last = false

theorem IsPacket.ne_nil {beats : List AxiData} (h : IsPacket beats) : beats ≠ [] := by
  obtain ⟨front, final, rfl, -⟩ := h
  simp

/-- Decides `IsPacket` by walking over the beats. -/
def isPacket : List AxiData → Bool
  | [] => false
  | [b] => b.last
  | b :: b' :: bs => !b.last && isPacket (b' :: bs)

theorem isPacket_iff : ∀ beats : List AxiData, isPacket beats = true ↔ IsPacket beats
  | [] => by
    constructor
    · intro h; cases h
    · rintro ⟨front, final, h, -⟩; exact absurd h.symm (by simp)
  | [b] => by
    constructor
    · intro h
      exact ⟨[], b, rfl, h, by simp⟩
    · rintro ⟨front, final, h, hl, -⟩
      obtain ⟨rfl, rfl⟩ : front = [] ∧ b = final := by
        cases front with
        | nil => simpa using h
        | cons c cs => simp at h
      exact hl
  | b :: b' :: bs => by
    rw [isPacket, Bool.and_eq_true, Bool.not_eq_true', isPacket_iff (b' :: bs)]
    constructor
    · rintro ⟨hb, front, final, h, hl, hf⟩
      refine ⟨b :: front, final, by rw [h, List.cons_append], hl, ?_⟩
      intro c hc
      rcases List.mem_cons.mp hc with rfl | hc
      · exact hb
      · exact hf c hc
    · rintro ⟨front, final, h, hl, hf⟩
      cases front with
      | nil => simp at h
      | cons c cs =>
        rw [List.cons_append, List.cons.injEq] at h
        exact ⟨by rw [h.1]; exact hf c (List.mem_cons_self ..), cs, final, h.2, hl,
          fun d hd => hf d (List.mem_cons_of_mem _ hd)⟩

instance (beats : List AxiData) : Decidable (IsPacket beats) :=
  decidable_of_iff _ (isPacket_iff beats)

/-- The first beat of a packet ends it exactly when no other follows; else the others are framed
like a packet too. -/
theorem isPacket_cons {b : AxiData} {bs : List AxiData} (h : IsPacket (b :: bs)) :
    (b.last = true → bs = []) ∧ (b.last = false → IsPacket bs) := by
  rw [← isPacket_iff] at h
  cases bs with
  | nil =>
    refine ⟨fun _ => rfl, fun hb => ?_⟩
    rw [isPacket, hb] at h
    cases h
  | cons c cs =>
    rw [isPacket, Bool.and_eq_true, Bool.not_eq_true', isPacket_iff] at h
    refine ⟨fun hb => ?_, fun _ => h.2⟩
    rw [h.1] at hb
    cases hb

/-- A packet on a metadata stream and its data stream: one data packet for a metadata that is not
empty, no data for one that is. -/
structure Packet where
  metadata : Metadata
  beats : List AxiData
  framed : if metadata.emptyPacket then beats = [] else IsPacket beats

namespace Packet

theorem framed_nil {m : Metadata} (h : m.emptyPacket = true) :
    if m.emptyPacket then ([] : List AxiData) = [] else IsPacket [] := by
  rw [if_pos h]

variable (k : Packet)

theorem beats_eq_nil (h : k.metadata.emptyPacket = true) : k.beats = [] := by
  have := k.framed
  rwa [if_pos h] at this

theorem isPacket_beats (h : k.metadata.emptyPacket = false) : IsPacket k.beats := by
  have := k.framed
  rwa [h, if_neg (by decide)] at this

/-- A beat that is not the final one of a packet does not end it, and the final one does. -/
theorem last_iff (h : k.metadata.emptyPacket = false) {front rest : List AxiData} {b : AxiData}
    (hk : k.beats = front ++ b :: rest) : b.last = true ↔ rest = [] := by
  obtain ⟨init, final, hi, hl, hf⟩ := k.isPacket_beats h
  rw [hk] at hi
  rcases List.eq_nil_or_concat rest with rfl | ⟨rest', c, rfl⟩
  · obtain ⟨-, hb⟩ := List.append_inj' hi rfl
    rw [List.cons.injEq] at hb
    rw [hb.1]
    exact iff_of_true hl rfl
  · have hi' : (front ++ b :: rest') ++ [c] = init ++ [final] := by simpa using hi
    obtain ⟨h1, -⟩ := List.append_inj' hi' rfl
    have hb : b ∈ init := by rw [← h1]; simp
    simp [hf b hb]

end Packet

/-- A packet that has data, whatever the length in its metadata: one data packet for the metadata. -/
structure Datagram where
  metadata : Metadata
  beats : List AxiData
  isPacket : IsPacket beats

end Nica.Hls
