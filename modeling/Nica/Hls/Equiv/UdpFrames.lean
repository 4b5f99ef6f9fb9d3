import Nica.Hls.Udp
import Mathlib.Data.List.Basic

/-!
# Frames and what the receive path makes of them

A `Frame` is an Ethernet frame of at least two beats; a `Passage` is a frame together with what is
decided about it on its way, the configuration flag at its check and the answer of the flow table.
The definitions say what each stream of the receive path carries for one frame:

* `Frame.header` and `Frame.raw`, the headers and the data beats that `split` makes of it;
* `Passage.decided` and `Passage.pass`, the decision of the steering units;
* `Passage.through`, the data beats that get past the dropper;
* `Passage.cut`, the data beats that remain after the length adjustment (`cutBeats`).
-/

namespace Nica.Hls.Udp

open Nica.Lib

/-- The keep bits of `t` leading bytes. -/
def leadingKeep (t : Nat) : BitVec 32 :=
  BitVec.allOnes 32 <<< (32 - t)

/-- An Ethernet frame of at least two beats: `tail` is the number of bytes in the last one. -/
structure Frame where
  first : Axi4s
  middle : List Axi4s
  final : Axi4s
  tail : Nat
  tail_pos : 0 < tail
  tail_le : tail ≤ 32
  body_last : ∀ b ∈ first :: middle, b.last = false
  body_keep : ∀ b ∈ first :: middle, b.keep = BitVec.allOnes 32
  final_last : final.last = true
  final_keep : final.keep = leadingKeep tail

namespace Frame

variable (f : Frame)

/-- The bytes of the frame. -/
def bytes : List (BitVec 8) :=
  (f.first :: f.middle).flatMap (bytesOf ·.data) ++ (bytesOf f.final.data).take f.tail

/-- The beats of the frame, the first one marked. -/
def marked : List (Bool × Axi4s) :=
  (true, f.first) :: (f.middle ++ [f.final]).map (false, ·)

/-- The metadata `mlxMetadata` makes of the frame. -/
def mlx : MlxMetadata := (splitMetadata f.first).1

/-- The beats behind the first one. -/
def rest : List AxiData := (f.middle ++ [f.final]).map (splitMetadata · |>.2)

/-- The beats `mlxMetadata` makes of the frame. -/
def beats : List AxiData := (splitMetadata f.first).2 :: f.rest

theorem isPacket_rest : IsPacket f.rest := by
  refine ⟨f.middle.map (splitMetadata · |>.2), (splitMetadata f.final).2, ?_, f.final_last, ?_⟩
  · rw [rest, List.map_append, List.map_singleton]
  · intro b hb
    obtain ⟨flit, hflit, rfl⟩ := List.mem_map.mp hb
    exact f.body_last flit (List.mem_cons_of_mem _ hflit)

end Frame

/-- The data beats `split` makes of the beats `bs` behind a beat with the data `buffer`. -/
def rawFrom (keepBytes : Nat → BitVec 32) (buffer : BitVec 256) : List AxiData → List AxiData
  | [] => [splitFinal keepBytes buffer]
  | b :: bs => splitBeat buffer b.data :: rawFrom keepBytes b.data bs

theorem isPacket_rawFrom (keepBytes : Nat → BitVec 32) (bs : List AxiData) :
    ∀ buffer : BitVec 256, IsPacket (rawFrom keepBytes buffer bs) := by
  induction bs with
  | nil =>
    intro buffer
    exact ⟨[], splitFinal keepBytes buffer, rfl, rfl, by simp⟩
  | cons b bs ih =>
    intro buffer
    obtain ⟨front, final, hf, hl, hfront⟩ := ih b.data
    refine ⟨splitBeat buffer b.data :: front, final, ?_, hl, ?_⟩
    · rw [rawFrom, hf, List.cons_append]
    · intro c hc
      rcases List.mem_cons.mp hc with rfl | hc
      · rfl
      · exact hfront c hc

namespace Frame

variable (f : Frame)

/-- The headers of the frame. -/
def header : HeaderBuffer :=
  match f.rest with
  | [] => splitHeader f.mlx f.first.data 0
  | b :: _ => splitHeader f.mlx f.first.data b.data

/-- The data beats of the frame. -/
def raw (keepBytes : Nat → BitVec 32) : List AxiData :=
  match f.rest with
  | [] => []
  | b :: bs => rawFrom keepBytes b.data bs

/-- The second beat makes the headers and starts the data. -/
theorem exists_second : ∃ b bs, f.rest = b :: bs ∧
    f.header = splitHeader f.mlx f.first.data b.data ∧
    ∀ keepBytes, f.raw keepBytes = rawFrom keepBytes b.data bs := by
  cases hr : f.rest with
  | nil =>
    obtain ⟨front, final, h, -⟩ := f.isPacket_rest
    rw [hr] at h
    exact absurd h.symm (by simp)
  | cons b bs =>
    refine ⟨b, bs, rfl, ?_, ?_⟩
    · rw [header, hr]
    · intro keepBytes
      rw [raw, hr]

theorem isPacket_raw (keepBytes : Nat → BitVec 32) : IsPacket (f.raw keepBytes) := by
  obtain ⟨b, bs, -, -, hraw⟩ := f.exists_second
  rw [hraw]
  exact isPacket_rawFrom keepBytes bs b.data

end Frame

/-- The data beats `cutData` lets through of the beats of a packet, when `words` words are counted
and the last one has `lastWordData` bytes. -/
def cutBeats (lastWordData : BitVec 5) : Nat → List AxiData → List AxiData
  | _, [] => []
  | words, b :: bs =>
    if words = 0 then []
    else if words = 1 then
      [{ b with keep := lastWordKeepNumBytesValid lastWordData, last := true }]
    else b :: cutBeats lastWordData (words - 1) bs

/-- A frame on its way through the receive path: `enable` is the configuration flag when its headers
are checked and `result` the answer of the flow table. -/
structure Passage where
  frame : Frame
  enable : Bool
  result : FlowTableResult

namespace Passage

variable (p : Passage)

/-- The parsed headers of the frame. -/
def headers : HeaderParser := p.frame.header.parse

/-- The checks of its headers. -/
def checks : Checks := checkHeader p.enable p.frame.header

/-- The result it is handled by. -/
def decided : FlowTableResult := applyChecks p.checks p.result

/-- Whether it goes to an ikernel. -/
def pass : Bool := p.decided.v.action = .ikernel

/-- The data beats that get past the dropper. -/
def through (keepBytes : Nat → BitVec 32) : List AxiData :=
  if p.pass && !p.headers.udp.emptyPacket then p.frame.raw keepBytes else []

/-- The lengths `findLength` takes from its headers. -/
def lengths : PacketLength := packetLength p.frame.header

/-- The data beats that remain after the length adjustment. -/
def cut (keepBytes : Nat → BitVec 32) : List AxiData :=
  cutBeats p.lengths.lastWordData p.lengths.wordCount.toNat (p.through keepBytes)

/-- The metadata of the packet for the ikernel. -/
def metadata : Metadata := headerMetadata p.frame.header p.decided

/-- Whether it is handed to engine `e`. -/
def goesTo {n : Nat} (e : Fin n) : Bool := p.pass && engineOf n p.decided = some e

end Passage

/-! ### Cutting -/

/-- What is left of a packet when more words are counted than it has: all of it. -/
theorem cutBeats_of_length_lt (lw : BitVec 5) (bs : List AxiData) :
    ∀ words, bs.length < words → cutBeats lw words bs = bs := by
  induction bs with
  | nil => intro words _; rfl
  | cons b bs ih =>
    intro words h
    have hb : bs.length < words - 1 := by
      rw [List.length_cons] at h; omega
    rw [cutBeats, if_neg (by omega), if_neg (by rw [List.length_cons] at h; omega), ih _ hb]

/-- What is left of a packet with at least as many words as counted: the counted words, the last one
marked and with the bytes of the last word. -/
theorem cutBeats_of_le_length (lw : BitVec 5) (bs : List AxiData) :
    ∀ words, words + 1 ≤ bs.length → ∃ b, bs[words]? = some b ∧ cutBeats lw (words + 1) bs
      = bs.take words ++ [{ b with keep := lastWordKeepNumBytesValid lw, last := true }] := by
  induction bs with
  | nil => intro words h; exact absurd h (by simp)
  | cons b bs ih =>
    intro words h
    rw [cutBeats, if_neg (by omega)]
    cases words with
    | zero => exact ⟨b, rfl, rfl⟩
    | succ words =>
      obtain ⟨c, hc, hcut⟩ := ih words (by rw [List.length_cons] at h; omega)
      refine ⟨c, hc, ?_⟩
      rw [if_neg (by omega), Nat.add_sub_cancel, hcut, List.take_succ_cons, List.cons_append]

/-- Cutting a packet leaves a packet. -/
theorem isPacket_cutBeats (lw : BitVec 5) {bs : List AxiData} (h : IsPacket bs) {words : Nat}
    (hw : words ≠ 0) : IsPacket (cutBeats lw words bs) := by
  by_cases hlen : words ≤ bs.length
  · obtain ⟨w, rfl⟩ : ∃ w, words = w + 1 := ⟨words - 1, by omega⟩
    obtain ⟨b, hb, hcut⟩ := cutBeats_of_le_length lw bs w hlen
    refine ⟨bs.take w, _, hcut, rfl, ?_⟩
    -- the beats in front of the last counted one do not end the packet
    intro c hc
    obtain ⟨front, final, rfl, -, hfront⟩ := h
    have hw' : w ≤ front.length := by
      rw [List.length_append, List.length_singleton] at hlen
      omega
    rw [List.take_append_of_le_length hw'] at hc
    exact hfront c (List.mem_of_mem_take hc)
  · rw [cutBeats_of_length_lt lw bs words (by omega)]
    exact h

end Nica.Hls.Udp
