import Nica.Hls.Equiv.Demux
import Nica.Hls.Equiv.PaddingFrames
import Nica.Hls.Equiv.PassthroughWrapper
import Nica.Hls.Equiv.SteeringWhole

/-!
# One frame on its way through the NIC

An `Ingress` is a frame that the NIC can be given.  `Ingress.packet` is the packet that stands for it at the arbiter, and
`Ingress.bytes` what leaves for it: a raw frame as it arrived, and a packet of the ikernel with its payload behind the
headers that the builder makes from the metadata (`rebuilt`).  The builder and the padding transmit these bytes, filled
up to 60 (`emitted_transmitted`).
-/

namespace Nica.Hls.NicaStep

open Nica.Lib
open Nica.Hls.Steering (Arrival)
open Nica.Hls.Udp (kept leadingKeep)

/-! ### Frames -/

/-- A frame that the NIC can be given: it has at most 64 beats, and if it is for the ikernel its lengths agree. -/
structure Ingress (table : FlowTable.Table) where
  arrival : Arrival
  le_64 : arrival.wire.length ≤ 64
  inFrame : arrival.destination table = .ikernel → (arrival.passage table).InFrame

/-- The headers that the builder makes: those of the packet, apart from the fields that the metadata does not carry. -/
def rebuilt (h : HeaderParser) : HeaderParser where
  eth := { h.eth with proto := ethPIp }
  ip :=
    { h.ip with
      version := 4
      ihl := 5
      tos := 0
      totLen := h.udp.length + 20
      fragOff := 0
      ttl := 64
      protocol := ipprotoUdp
      check := 0 }
  udp := { h.udp with checksum := 0 }

theorem metadataToHeader_metadata (p : Udp.Passage) : Builder.metadataToHeader p.metadata = rebuilt p.headers := by
  have hudp : (64 / 8 + (p.headers.udp.length - 8) : BitVec 16) = p.headers.udp.length := by
    change (8 : BitVec 16) + _ = _
    bv_omega
  have hip : ((64 + 160) / 8 + (p.headers.udp.length - 8) : BitVec 16) = p.headers.udp.length + 20 := by
    change (28 : BitVec 16) + _ = _
    bv_omega
  have hsplit : Builder.metadataToHeader p.metadata =
      { rebuilt p.headers with
        ip := { (rebuilt p.headers).ip with totLen := (64 + 160) / 8 + (p.headers.udp.length - 8) }
        udp := { (rebuilt p.headers).udp with length := 64 / 8 + (p.headers.udp.length - 8) } } := rfl
  rw [hsplit, hudp, hip]
  rfl

/-- A packet that goes to an ikernel is one beside its metadata. -/
theorem framed_cut (keepBytes : ℕ → BitVec 32) {p : Udp.Passage} (h : p.InFrame) (hpass : p.pass = true) :
    if p.metadata.emptyPacket then p.cut keepBytes = [] else IsPacket (p.cut keepBytes) := by
  have hengine : (Udp.engineOf (p.decided.v.engineId.toNat + 1) p.decided).isSome = true := by
    rw [Udp.engineOf, dif_pos (Nat.lt_succ_self _)]
    rfl
  have hrouted : p.Routed _ keepBytes := h.routed hpass hengine
  rw [Udp.metadata_emptyPacket h.length_ge]
  split_ifs with hempty
  · exact hrouted.empty hempty
  · exact hrouted.nonempty (Bool.not_eq_true _ ▸ hempty)

namespace Ingress

variable {table : FlowTable.Table} (x : Ingress table)

theorem pass (h : x.arrival.destination table = .ikernel) : (x.arrival.passage table).pass = true := by
  rw [Steering.pass_eq]
  exact decide_eq_true h

/-- The frame as `passthrough_wrapper` has it, if it passes raw. -/
def rawFrame : PassthroughWrapper.RawFrame where
  beats := x.arrival.wire
  pass := true
  framed := (Steering.framed_arrivals [x.arrival] x.arrival (List.mem_singleton_self _)).1
  two_le := (Steering.framed_arrivals [x.arrival] x.arrival (List.mem_singleton_self _)).2
  le_64 := x.le_64

/-- The packet that stands for the frame at the arbiter, if it gets there. -/
def packet (keepBytes : ℕ → BitVec 32) : Packet :=
  if h : x.arrival.destination table = .ikernel then
    { metadata := (x.arrival.passage table).metadata
      beats := (x.arrival.passage table).cut keepBytes
      framed := framed_cut keepBytes (x.inFrame h) (x.pass h) }
  else x.rawFrame.packet

/-- Its traffic class. -/
def trafficClass (cfg : Demux.Config) : ℕ :=
  if x.arrival.destination table = .ikernel then cfg.trafficClass (x.arrival.result table).v.ikernelId
  else cfg.numPorts

/-- The bytes that leave for the frame, before the padding. -/
def bytes : List (BitVec 8) :=
  if x.arrival.destination table = .ikernel then
    Udp.headerBytes (rebuilt x.arrival.headers).toBits ++
      (x.arrival.frame.bytes.drop 42).take (x.arrival.headers.udp.length.toNat - 8)
  else x.arrival.frame.bytes

/-- The beats are one frame with these bytes, filled up to 60. -/
structure Emitted (beats : List Axi4s) : Prop where
  framed : IsPacket (beats.map PassthroughWrapper.rawToData)
  bytes : kept (beats.map PassthroughWrapper.rawToData) = x.bytes ++ List.replicate (60 - x.bytes.length) 0
  sideband : ∀ b ∈ beats, b.user = 0 ∧ b.id = 0

end Ingress

/-! ### The padding -/

section Padding

variable {bs : List AxiData}

theorem length_kept_packed {front : List AxiData} {final : AxiData} {t : ℕ} (hfront : ∀ b ∈ front, b.keep = 0xffffffff)
    (hfinal : final.keep = leadingKeep t) (ht : t ≤ 32) : (kept (front ++ [final])).length = 32 * front.length + t := by
  rw [kept, List.flatMap_append, List.flatMap_singleton, List.length_append]
  congr 1
  · exact (congrArg List.length (Udp.kept_of_full hfront)).trans (length_words front)
  · rw [Udp.keptOf_leadingKeep ht hfinal, List.length_take, length_bytesOf, Nat.min_eq_left ht]

/-- A packet whose bytes are in full beats is a frame of the padding unit. -/
theorem exists_frame (hpacket : IsPacket bs) (hpacked : Packed bs) :
    ∃ f : Builder.Frame, f.beats = bs.map (joinMetadata ⟨0, 0⟩) ∧ f.front.length + 1 = bs.length ∧
      f.bytes = kept bs ∧ f.size = (kept bs).length := by
  obtain ⟨front, final, t, rfl, hfull, hkeep, -, ht⟩ := hpacked
  obtain ⟨front', final', heq, hlast, hbody⟩ := hpacket
  obtain ⟨rfl, hfinal⟩ := List.append_inj' heq rfl
  obtain rfl := List.singleton_inj.mp hfinal
  refine ⟨{
    front := front.map (joinMetadata ⟨0, 0⟩)
    final := joinMetadata ⟨0, 0⟩ final
    ones := t
    front_last := ?_
    final_last := hlast
    ones_le := ht
    final_keep := hkeep }, ?_, ?_, ?_, ?_⟩
  · intro b hb
    obtain ⟨d, hd, rfl⟩ := List.mem_map.mp hb
    exact hbody d hd
  · rw [Builder.Frame.beats, List.map_append, List.map_singleton]
  · rw [List.length_map, List.length_append, List.length_singleton]
  · show kept ((front.map (joinMetadata ⟨0, 0⟩) ++ [joinMetadata ⟨0, 0⟩ final]).map fun b => (splitMetadata b).2) = _
    rw [List.map_append, List.map_map]
    exact congrArg (fun ds => kept (ds ++ [final])) (List.map_id _)
  · rw [length_kept_packed hfull hkeep ht, Builder.Frame.size, List.length_map]

/-- The padding makes a frame of a packet of 2 to 64 beats. -/
theorem emitted_padFrom {table : FlowTable.Table} {x : Ingress table} (hpacket : IsPacket bs) (hpacked : Packed bs)
    (hbytes : kept bs = x.bytes) (htwo : 2 ≤ bs.length) (hle : bs.length ≤ 64) :
    x.Emitted (Builder.padFrom 0 (bs.map (joinMetadata ⟨0, 0⟩))) := by
  obtain ⟨f, hbeats, hfront, hf, hsize⟩ := exists_frame hpacket hpacked
  rw [← hbeats, f.padFrom_beats (by omega)]
  have hspec := f.padded_spec
  have hzero : ∀ b ∈ f.beats, b.user = 0 ∧ b.id = 0 := by
    intro b hb
    rw [hbeats] at hb
    obtain ⟨d, -, rfl⟩ := List.mem_map.mp hb
    exact ⟨rfl, rfl⟩
  have hmem : ∀ b ∈ f.padded.beats, b ∈ f.front ∨ b = f.padded.final := by
    intro b hb
    rw [Builder.Frame.beats, hspec.front, List.mem_append, List.mem_singleton] at hb
    exact hb
  refine ⟨⟨f.padded.front.map PassthroughWrapper.rawToData, PassthroughWrapper.rawToData f.padded.final, ?_,
    f.padded.final_last, ?_⟩, ?_, ?_⟩
  · rw [Builder.Frame.beats, List.map_append, List.map_singleton]
  · intro b hb
    obtain ⟨w, hw, rfl⟩ := List.mem_map.mp hb
    exact f.padded.front_last w hw
  · refine hspec.bytes.trans ?_
    rw [hf, hbytes]
    congr 1
    -- with two beats or more, only a frame of two can be below 60 bytes
    have hones := f.ones_le
    rw [Builder.Frame.size] at hsize
    rw [← hbytes, ← hsize, Builder.Frame.short, Builder.Frame.size]
    split_ifs with hshort
    · rfl
    · rw [decide_eq_true_eq] at hshort
      have hlong : 60 - (32 * f.front.length + f.ones) = 0 := by omega
      rw [hlong, List.replicate_zero]
  · intro b hb
    rcases hmem b hb with hb | rfl
    · exact hzero b (List.mem_append_left _ hb)
    · rw [hspec.sideband.1, hspec.sideband.2]
      exact hzero _ (List.mem_append_right _ (List.mem_singleton_self _))

end Padding

/-! ### What is transmitted -/

section Transmitted

variable {keepBytes : ℕ → BitVec 32} {table : FlowTable.Table} {M : Merger AxiData}
  {merge : Merger.Job AxiData → List AxiData}

/-- The data that is left of a packet for an ikernel is in full beats. -/
theorem packed_cut (hkeep : keepBytes 10 = leadingKeep 10) {p : Udp.Passage} (h : p.InFrame) (hpass : p.pass = true)
    (hne : p.headers.udp.emptyPacket = false) : Packed (p.cut keepBytes) := by
  have hwords : p.lengths.wordCount.toNat ≠ 0 := by
    intro h0
    have hzero : p.lengths.wordCount = 0 := BitVec.eq_of_toNat_eq h0
    rw [(h.wordCount_iff hpass).mp hzero] at hne
    cases hne
  obtain ⟨w, hw⟩ := Nat.exists_eq_succ_of_ne_zero hwords
  rw [Udp.Passage.cut, Udp.through_of_nonempty hpass hne, hw]
  by_cases hle : w ≤ p.frame.middle.length
  · obtain ⟨front, c, rest, -, -, hfull, hcut⟩ := Udp.cutBeats_raw p.frame keepBytes p.lengths.lastWordData hle
    have hpos : 0 < Udp.lastBytes p.lengths.lastWordData := by
      rw [Udp.lastBytes]
      split_ifs with h0
      · exact Nat.zero_lt_succ _
      · exact Nat.pos_of_ne_zero fun hz => h0 (BitVec.eq_of_toNat_eq hz)
    exact ⟨front, _, _, hcut, fun b hb => (hfull b hb).1, rfl, hpos, Udp.lastBytes_le _⟩
  · -- the frame ends before the counted words
    have hlength := p.frame.length_raw keepBytes
    obtain ⟨front, final, hraw, -, hfinal, hfull⟩ := p.frame.raw_keep keepBytes
    rw [Udp.cutBeats_of_length_lt _ _ _ (by omega)]
    exact ⟨front, final, 10, hraw, fun b hb => (hfull b hb).1, hfinal.trans hkeep, by decide, by decide⟩

/-- The bytes of the two beats of headers. -/
theorem kept_headerBeats (hkeep : keepBytes 10 = leadingKeep 10) (k : Packet) :
    Packed (Builder.headerBeats keepBytes k) ∧
      kept (Builder.headerBeats keepBytes k) = Udp.headerBytes (Builder.metadataToHeader k.metadata).toBits := by
  generalize hhdr : (Builder.metadataToHeader k.metadata).toBits = hdr
  have hbeats : Builder.headerBeats keepBytes k =
      [Builder.firstBeat hdr, Builder.secondBeat keepBytes (hdr.extractLsb' 0 80)] := by
    rw [Builder.headerBeats, hhdr]
  have hsecond : (Builder.secondBeat keepBytes (hdr.extractLsb' 0 80)).keep = leadingKeep 10 := hkeep
  have hfirst : (Builder.firstBeat hdr).keep = leadingKeep 32 := Udp.leadingKeep_all.symm
  have hsplit : hdr = hdr.extractLsb' 80 256 ++ hdr.extractLsb' 0 80 := by
    apply BitVec.eq_of_getLsbD_eq
    intro i hi
    simp only [BitVec.getLsbD_append, BitVec.getLsbD_extractLsb']
    by_cases h80 : i < 80
    · simp [h80]
    · have hsub : 80 + (i - 80) = i := by omega
      have hlt : i - 80 < 256 := by omega
      simp [h80, hsub, hlt]
  rw [hbeats]
  refine ⟨⟨[Builder.firstBeat hdr], _, 10, rfl, ?_, hsecond, by decide, by decide⟩, ?_⟩
  · intro b hb
    rw [List.mem_singleton.mp hb]
    rfl
  · rw [kept, List.flatMap_cons, List.flatMap_singleton, Udp.keptOf_leadingKeep (by decide) hfirst,
      Udp.keptOf_leadingKeep (by decide) hsecond, List.take_of_length_le (by rw [length_bytesOf])]
    conv_rhs => rw [hsplit, Udp.headerBytes_append]
    congr 1
    have hdata : (Builder.secondBeat keepBytes (hdr.extractLsb' 0 80)).data.extractLsb' 176 80 =
        hdr.extractLsb' 0 80 := by
      show ((hdr.extractLsb' 0 80) ++ 0#176).extractLsb' 176 80 = _
      apply BitVec.eq_of_getLsbD_eq
      intro i hi
      have hnot : ¬176 + i < 176 := by omega
      have hlow : (hdr.extractLsb' 0 80 ++ 0#176).getLsbD (176 + i) = (hdr.extractLsb' 0 80).getLsbD i := by
        rw [BitVec.getLsbD_append, if_neg hnot, Nat.add_sub_cancel_left]
      rw [BitVec.getLsbD_extractLsb', decide_eq_true hi, Bool.true_and]
      exact hlow
    rw [← Udp.tenBytes_extract, hdata]

variable (x : Ingress table)

theorem packet_of_ikernel (keepBytes : ℕ → BitVec 32) (h : x.arrival.destination table = .ikernel) :
    (x.packet keepBytes).metadata = (x.arrival.passage table).metadata ∧
      (x.packet keepBytes).beats = (x.arrival.passage table).cut keepBytes := by
  rw [Ingress.packet, dif_pos h]
  exact ⟨rfl, rfl⟩

theorem packet_of_raw (keepBytes : ℕ → BitVec 32) (h : x.arrival.destination table ≠ .ikernel) :
    x.packet keepBytes = x.rawFrame.packet :=
  dif_neg h

theorem sendable_packet (keepBytes : ℕ → BitVec 32) : Builder.Sendable (x.packet keepBytes) := by
  by_cases h : x.arrival.destination table = .ikernel
  · obtain ⟨hmeta, -⟩ := packet_of_ikernel x keepBytes h
    apply PassthroughWrapper.UdpPacket.sendable
    refine ⟨?_, ?_⟩
    · rw [Builder.isUdp, hmeta]
      rfl
    · have hlt := (x.arrival.passage table).headers.udp.length.isLt
      rw [hmeta, Udp.toNat_metadata_length (x.inFrame h).length_ge]
      omega
  · rw [packet_of_raw x keepBytes h]
    exact PassthroughWrapper.sendable_packet x.rawFrame

/-- A raw frame is transmitted as it arrived. -/
theorem emitted_raw (hM : M.Concatenates IsPacket merge) (h : x.arrival.destination table ≠ .ikernel) :
    x.Emitted (Builder.transmitted keepBytes merge (x.packet keepBytes)) := by
  have hbytes : x.bytes = x.arrival.frame.bytes := if_neg h
  have hmerged : merge (Builder.job keepBytes x.rawFrame.packet) = x.arrival.wire.map PassthroughWrapper.rawToData :=
    hM.merge_of_disabled _ rfl
  have hwire : x.arrival.wire.map PassthroughWrapper.rawToData =
      (x.arrival.frame.first :: x.arrival.frame.middle).map PassthroughWrapper.rawToData ++
        [PassthroughWrapper.rawToData x.arrival.frame.final] := by
    rw [Arrival.wire, ← List.cons_append, List.map_append, List.map_singleton]
  have hfull : ∀ b ∈ (x.arrival.frame.first :: x.arrival.frame.middle).map PassthroughWrapper.rawToData,
      b.keep = 0xffffffff := by
    intro b hb
    obtain ⟨w, hw, rfl⟩ := List.mem_map.mp hb
    exact x.arrival.frame.body_keep w hw
  rw [packet_of_raw x keepBytes h, Builder.transmitted, Builder.joined, hmerged]
  refine emitted_padFrom (show IsPacket (x.arrival.wire.map _) from x.rawFrame.framed) ?_ ?_ ?_ ?_
  · exact ⟨_, _, x.arrival.frame.tail, hwire, hfull, x.arrival.frame.final_keep, x.arrival.frame.tail_pos,
      x.arrival.frame.tail_le⟩
  · rw [hbytes, hwire, kept, List.flatMap_append, List.flatMap_singleton,
      Udp.keptOf_leadingKeep x.arrival.frame.tail_le x.arrival.frame.final_keep, Udp.Frame.bytes]
    congr 1
    refine (Udp.kept_of_full hfull).trans ?_
    rw [words, List.flatMap_map]
    rfl
  · rw [List.length_map]
    exact x.rawFrame.two_le
  · rw [List.length_map]
    exact x.le_64

/-- The data of a packet of the ikernel is its payload, which lies in the frame behind the headers. -/
theorem payload_packet (hkeep : keepBytes 10 = leadingKeep 10) (h : x.arrival.destination table = .ikernel) :
    ((x.packet keepBytes).beats = [] ∨ Packed (x.packet keepBytes).beats) ∧
      kept (x.packet keepBytes).beats =
        (x.arrival.frame.bytes.drop 42).take (x.arrival.headers.udp.length.toNat - 8) ∧
      (kept (x.packet keepBytes).beats).length ≤ x.arrival.frame.bytes.length - 42 := by
  rw [(packet_of_ikernel x keepBytes h).2]
  cases hempty : (x.arrival.passage table).headers.udp.emptyPacket with
  | true =>
    have hle := Udp.emptyPacket_iff.mp hempty
    change x.arrival.headers.udp.length.toNat ≤ 8 at hle
    have hnil : (x.arrival.passage table).cut keepBytes = [] := by
      rw [Udp.Passage.cut, Udp.through_of_empty hempty, Udp.cutBeats]
    rw [hnil, Nat.sub_eq_zero_of_le hle, List.take_zero]
    exact ⟨.inl rfl, rfl, Nat.zero_le _⟩
  | false =>
    obtain ⟨-, hcut⟩ := (x.inFrame h).kept_cut hkeep (x.pass h) hempty
    refine ⟨.inr (packed_cut hkeep (x.inFrame h) (x.pass h) hempty), hcut, ?_⟩
    rw [hcut, List.length_take]
    exact (Nat.min_le_right _ _).trans (List.length_drop ..).le

/-- A packet of the ikernel is transmitted with its payload behind the new headers. -/
theorem emitted_ikernel (hM : M.Concatenates IsPacket merge) (hpush : PushesHeader merge)
    (hkeep : keepBytes 10 = leadingKeep 10) (h : x.arrival.destination table = .ikernel) :
    x.Emitted (Builder.transmitted keepBytes merge (x.packet keepBytes)) := by
  have hmeta := (packet_of_ikernel x keepBytes h).1
  obtain ⟨hdata, hpayload, hfits⟩ := payload_packet x hkeep h
  obtain ⟨hheader, hkept⟩ := kept_headerBeats hkeep (x.packet keepBytes)
  have hudp : Builder.isUdp (x.packet keepBytes) = true := by
    rw [Builder.isUdp, hmeta]
    rfl
  have hframed := Builder.framed_job keepBytes (sendable_packet x keepBytes)
  have hextra : (Builder.job keepBytes (x.packet keepBytes)).extra = Builder.headerBeats keepBytes (x.packet keepBytes) := by
    rw [Builder.job, hudp]
    rfl
  obtain ⟨hmerged, hconcat⟩ := hpush _ hframed hudp (hextra ▸ hheader) hdata
  have hbytes : kept (merge (Builder.job keepBytes (x.packet keepBytes))) = x.bytes := by
    rw [hconcat, hextra, hkept, hmeta, metadataToHeader_metadata]
    show _ ++ kept (x.packet keepBytes).beats = _
    rw [hpayload, Ingress.bytes, if_pos h]
    rfl
  have hlength : (kept (merge (Builder.job keepBytes (x.packet keepBytes)))).length =
      42 + (kept (x.packet keepBytes).beats).length := by
    rw [hbytes, hpayload, Ingress.bytes, if_pos h, List.length_append, Udp.headerBytes, List.length_map,
      List.length_range]
  have hwire : x.arrival.wire.length = x.arrival.frame.middle.length + 2 := by
    rw [Arrival.wire, List.length_cons, List.length_append, List.length_singleton]
  have h64 := x.le_64
  have hsize := x.arrival.frame.length_bytes
  have htail := x.arrival.frame.tail_le
  -- the headers alone take two beats, and no more bytes leave than arrived, but for those of a shorter frame
  obtain ⟨front, final, t, heq, hfull, hfinal, hpos, hle⟩ := id hmerged
  rw [heq, length_kept_packed hfull hfinal hle] at hlength
  rw [Builder.transmitted, Builder.joined]
  apply emitted_padFrom (hM.isPacket_merge _ hframed hudp) hmerged hbytes
  · rw [heq, List.length_append, List.length_singleton]
    omega
  · rw [heq, List.length_append, List.length_singleton]
    omega

/-- What is transmitted for a frame. -/
theorem emitted_transmitted (hM : M.Concatenates IsPacket merge) (hpush : PushesHeader merge)
    (hkeep : keepBytes 10 = leadingKeep 10) :
    x.Emitted (Builder.transmitted keepBytes merge (x.packet keepBytes)) := by
  by_cases h : x.arrival.destination table = .ikernel
  · exact emitted_ikernel x hM hpush hkeep h
  · exact emitted_raw x hM h

end Transmitted

end Nica.Hls.NicaStep
