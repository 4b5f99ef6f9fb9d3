import Nica.Hls.Equiv.UdpBytes
import Nica.Hls.Equiv.UdpProgress

/-!
# What the receive path delivers

The lengths that `findLength` takes from a header, as numbers (`toNat_wordCount`,
`toNat_lastWordData`), and what follows from them for whole runs:

* `payload_extracted`: of well-formed UDP packets exactly the payload is extracted, whatever the
  padding and the stalls;
* `aligned_of_inFrame`: metadata and data stay aligned if the lengths in the headers of each packet
  agree with each other and with the frame (`Passage.InFrame`).
-/

namespace Nica.Hls.Udp

open Nica.Lib

variable {n : Nat} {keepBytes : Nat → BitVec 32} {ps : List Passage}

/-! ### Lengths -/

section Lengths

variable (p : Passage)

/-- The length of the data according to the IP header. -/
def Passage.dataLength : Nat := p.headers.ip.totLen.toNat - 28

variable {p}

theorem toNat_totLen_sub (h : 28 ≤ p.headers.ip.totLen.toNat) :
    (p.headers.ip.totLen - 28).toNat = p.dataLength := by
  have hle : (28 : BitVec 16) ≤ p.headers.ip.totLen := h
  rw [BitVec.toNat_sub_of_le hle]
  rfl

theorem toNat_lastWordData (h : 28 ≤ p.headers.ip.totLen.toNat) :
    p.lengths.lastWordData.toNat = p.dataLength % 32 := by
  show ((p.headers.ip.totLen - 28).extractLsb' 0 5).toNat = _
  rw [BitVec.extractLsb'_toNat, toNat_totLen_sub h, Nat.shiftRight_zero]

/-- The word count is the number of words of the data, in 11 bits. -/
theorem toNat_wordCount (h : 28 ≤ p.headers.ip.totLen.toNat) :
    p.lengths.wordCount.toNat = (p.dataLength + 31) / 32 % 2048 := by
  have hlt : p.dataLength < 2 ^ 16 := by
    have := p.headers.ip.totLen.isLt
    rw [Passage.dataLength]
    omega
  have hhigh : ((p.headers.ip.totLen - 28).extractLsb' 5 11).toNat = p.dataLength / 32 := by
    rw [BitVec.extractLsb'_toNat, toNat_totLen_sub h, Nat.shiftRight_eq_div_pow]
    omega
  have hlow := toNat_lastWordData h
  have hcount : p.lengths.wordCount = (p.headers.ip.totLen - 28).extractLsb' 5 11
      + (if p.lengths.lastWordData ≠ 0 then 1 else 0) := rfl
  rw [hcount, BitVec.toNat_add, hhigh]
  by_cases h0 : p.lengths.lastWordData = 0
  · have hz : p.dataLength % 32 = 0 := by rw [← hlow, h0]; rfl
    rw [if_neg (not_not.mpr h0)]
    show (p.dataLength / 32 + 0) % 2048 = _
    omega
  · have hz : p.dataLength % 32 ≠ 0 := by
      rw [← hlow]
      exact fun hc => h0 (BitVec.eq_of_toNat_eq hc)
    rw [if_pos h0]
    show (p.dataLength / 32 + 1) % 2048 = _
    omega

theorem lastBytes_lastWordData (h : 28 ≤ p.headers.ip.totLen.toNat) :
    lastBytes p.lengths.lastWordData = if p.dataLength % 32 = 0 then 32 else p.dataLength % 32 := by
  have hlow := toNat_lastWordData h
  rw [lastBytes]
  by_cases h0 : p.lengths.lastWordData = 0
  · have hz : p.dataLength % 32 = 0 := by rw [← hlow, h0]; rfl
    rw [if_pos h0, if_pos hz]
  · have hz : p.dataLength % 32 ≠ 0 := by
      rw [← hlow]
      exact fun hc => h0 (BitVec.eq_of_toNat_eq hc)
    rw [if_neg h0, if_neg hz, hlow]

/-- A passage that goes to an ikernel passed all checks. -/
theorem totLen_of_pass (hp : p.pass = true) : 28 ≤ p.headers.ip.totLen.toNat := by
  have haction : p.decided.v.action = .ikernel := of_decide_eq_true hp
  by_contra hlt
  have hbad : p.checks.badLength = true := by
    have hlt' : p.headers.ip.totLen < 28 := by
      rw [BitVec.lt_def]
      show _ < 28
      omega
    exact decide_eq_true hlt'
  have hpass : p.decided.v.action = .passthrough := by
    rw [Passage.decided, applyChecks, hbad]
    simp
  rw [hpass] at haction
  cases haction

theorem emptyPacket_iff : p.headers.udp.emptyPacket = true ↔ p.headers.udp.length.toNat ≤ 8 := by
  rw [UdpHeader.emptyPacket, decide_eq_true_eq, BitVec.le_def]
  rfl

end Lengths

theorem through_of_empty {p : Passage} (h : p.headers.udp.emptyPacket = true) :
    p.through keepBytes = [] := by
  rw [Passage.through, h, Bool.not_true, Bool.and_false]
  rfl

theorem through_of_nonempty {p : Passage} (hpass : p.pass = true)
    (h : p.headers.udp.emptyPacket = false) : p.through keepBytes = p.frame.raw keepBytes := by
  rw [Passage.through, hpass, h]
  rfl

/-- What is left of a frame whose data is counted within it: the counted words, with exactly the
bytes of the data. -/
theorem cut_of_inside (keepBytes : Nat → BitVec 32) {p : Passage} (hpass : p.pass = true)
    (hne : p.headers.udp.emptyPacket = false) (hpos : 0 < p.dataLength)
    (hsmall : p.dataLength ≤ 65504) (hin : 42 + p.dataLength ≤ p.frame.bytes.length) :
    ∃ w, w + 1 = (p.dataLength + 31) / 32 ∧ w ≤ p.frame.middle.length ∧
      p.cut keepBytes = cutBeats p.lengths.lastWordData (w + 1) (p.frame.raw keepBytes) ∧
      kept (p.cut keepBytes) = (p.frame.bytes.drop 42).take p.dataLength := by
  have htot := totLen_of_pass hpass
  have hcount := toNat_wordCount htot
  have hbytes := p.frame.length_bytes
  have htail := p.frame.tail_le
  obtain ⟨w, hw⟩ : ∃ w, w + 1 = (p.dataLength + 31) / 32 := ⟨(p.dataLength + 31) / 32 - 1, by omega⟩
  have hwords : p.lengths.wordCount.toNat = w + 1 := by
    rw [hcount, ← hw]
    omega
  have hwle : w ≤ p.frame.middle.length := by omega
  have hcut : p.cut keepBytes
      = cutBeats p.lengths.lastWordData (w + 1) (p.frame.raw keepBytes) := by
    rw [Passage.cut, through_of_nonempty hpass hne, hwords]
  refine ⟨w, hw, hwle, hcut, ?_⟩
  have hlen : 32 * w + lastBytes p.lengths.lastWordData = p.dataLength := by
    rw [lastBytes_lastWordData htot]
    split_ifs <;> omega
  rw [hcut, kept_cutBeats p.frame keepBytes _ hwle, hlen, p.frame.take_words_raw keepBytes hin]

/-! ### Well-formed packets -/

/-- The payload length of a packet according to its UDP header. -/
def Passage.payload (p : Passage) : Nat := p.headers.udp.length.toNat - 8

/-- A UDP/IPv4 packet with a 20-byte IP header and at most 65504 bytes of payload, all of them in the
frame, that is steered to an ikernel. -/
structure Passage.WellFormed (p : Passage) : Prop where
  proto : p.headers.eth.proto = ethPIp
  version : p.headers.ip.version = 4
  ihl : p.headers.ip.ihl = 5
  protocol : p.headers.ip.protocol = ipprotoUdp
  totLen : p.headers.ip.totLen.toNat = 28 + p.payload
  length : p.headers.udp.length.toNat = 8 + p.payload
  payload_le : p.payload ≤ 65504
  carried : 42 + p.payload ≤ p.frame.bytes.length
  enable : p.enable = true
  steered : p.result.v.action = .ikernel

/-- A header buffer and data beats that hold exactly the headers and the payload of a packet. -/
structure ExactPayload (p : Passage) (header : HeaderBuffer) (beats : List AxiData) : Prop where
  header : headerBytes header.hdr = p.frame.bytes.take 42
  count : beats.length = (p.payload + 31) / 32
  bytes : kept beats = (p.frame.bytes.drop 42).take p.payload
  last : ∀ i b, beats[i]? = some b → (b.last = true ↔ i + 1 = beats.length)
  keep : ∀ i b, beats[i]? = some b →
    b.keep = leadingKeep (if i + 1 = beats.length ∧ p.payload % 32 ≠ 0 then p.payload % 32 else 32)

namespace Passage.WellFormed

variable {p : Passage}

theorem pass (h : p.WellFormed) : p.pass = true := by
  have hchecks : p.checks = ⟨false, false, false, false⟩ := by
    have h1 : p.checks.disabled = false := by
      show (!p.enable) = false
      rw [h.enable]
      rfl
    have h2 : p.checks.notIpv4 = false := decide_eq_false (not_not.mpr h.proto)
    have h3 : p.checks.badLength = false := by
      apply decide_eq_false
      intro hlt
      have hnat : p.headers.ip.totLen.toNat < 28 := hlt
      rw [h.totLen] at hnat
      omega
    have h4 : p.checks.notUdp = false := decide_eq_false (not_not.mpr h.protocol)
    rw [show p.checks = ⟨p.checks.disabled, p.checks.notIpv4, p.checks.badLength,
      p.checks.notUdp⟩ from rfl, h1, h2, h3, h4]
  rw [Passage.pass, Passage.decided, applyChecks, hchecks]
  exact decide_eq_true h.steered

theorem dataLength_eq (h : p.WellFormed) : p.dataLength = p.payload := by
  rw [Passage.dataLength, h.totLen, Nat.add_sub_cancel_left]

/-- A packet without payload leaves no data. -/
theorem cut_eq_nil (h : p.WellFormed) (h0 : p.payload = 0) : p.cut keepBytes = [] := by
  have hempty : p.headers.udp.emptyPacket = true := by
    rw [emptyPacket_iff, h.length, h0]
  rw [Passage.cut, through_of_empty hempty, cutBeats]

theorem counted (h : p.WellFormed) : p.Counted keepBytes := by
  have hcount := toNat_wordCount (totLen_of_pass h.pass)
  rw [h.dataLength_eq] at hcount
  have hle := h.payload_le
  constructor
  · intro hw
    have h0 : p.payload = 0 := by
      rw [hw] at hcount
      change 0 = _ at hcount
      omega
    exact through_of_empty (by rw [emptyPacket_iff, h.length, h0])
  · intro hw
    have hpos : p.payload ≠ 0 := by
      intro h0
      apply hw
      apply BitVec.eq_of_toNat_eq
      rw [hcount, h0]
      rfl
    have hne : p.headers.udp.emptyPacket = false := by
      rw [← Bool.not_eq_true, emptyPacket_iff, h.length]
      omega
    rw [through_of_nonempty h.pass hne]
    exact p.frame.isPacket_raw keepBytes

theorem exactPayload (h : p.WellFormed) :
    ExactPayload p p.frame.header (p.cut keepBytes) := by
  have hheader := headerBytes_header p.frame (by have := h.carried; omega)
  by_cases h0 : p.payload = 0
  · rw [h.cut_eq_nil h0]
    refine ⟨hheader, by rw [h0]; rfl, by rw [h0]; rfl, ?_, ?_⟩
    · intro i b hb; cases hb
    · intro i b hb; cases hb
  · have hne : p.headers.udp.emptyPacket = false := by
      rw [← Bool.not_eq_true, emptyPacket_iff, h.length]
      omega
    obtain ⟨w, hw, hwle, hcut, hkept⟩ := cut_of_inside keepBytes h.pass hne
      (by rw [h.dataLength_eq]; omega) (by rw [h.dataLength_eq]; exact h.payload_le)
      (by rw [h.dataLength_eq]; exact h.carried)
    rw [h.dataLength_eq] at hw hkept
    obtain ⟨front, c, rest, -, hlen, hfull, hbeats⟩ :=
      cutBeats_raw p.frame keepBytes p.lengths.lastWordData hwle
    have hlast : lastBytes p.lengths.lastWordData
        = if p.payload % 32 = 0 then 32 else p.payload % 32 := by
      rw [lastBytes_lastWordData (totLen_of_pass h.pass), h.dataLength_eq]
    have hcount : (p.cut keepBytes).length = w + 1 := by
      rw [hcut, hbeats, List.length_append, List.length_singleton, hlen]
    -- a beat is either one of the first `w` or the last one
    have hbeat : ∀ i b, (p.cut keepBytes)[i]? = some b →
        (i < w ∧ b.keep = 0xffffffff ∧ b.last = false) ∨
        (i = w ∧ b.keep = leadingKeep (lastBytes p.lengths.lastWordData) ∧ b.last = true) := by
      intro i b hb
      rw [hcut, hbeats] at hb
      by_cases hi : i < w
      · rw [List.getElem?_append_left (by omega)] at hb
        exact .inl ⟨hi, hfull b (List.mem_of_getElem? hb)⟩
      · rw [List.getElem?_append_right (by omega), hlen, List.getElem?_singleton] at hb
        split_ifs at hb with hz
        obtain rfl := Option.some.inj hb
        exact .inr ⟨by omega, rfl, rfl⟩
    refine ⟨hheader, by rw [hcount, hw], hkept, ?_, ?_⟩
    · intro i b hb
      rw [hcount]
      rcases hbeat i b hb with ⟨hi, -, hl⟩ | ⟨hi, -, hl⟩
      · rw [hl]
        exact iff_of_false Bool.false_ne_true (by omega)
      · rw [hl]
        exact iff_of_true rfl (by omega)
    · intro i b hb
      rw [hcount]
      rcases hbeat i b hb with ⟨hi, hk, -⟩ | ⟨hi, hk, -⟩
      · rw [hk, if_neg (by omega), leadingKeep_all]
      · rw [hk, hlast]
        by_cases hz : p.payload % 32 = 0
        · rw [if_pos hz, if_neg (by omega)]
        · rw [if_neg hz, if_pos ⟨by omega, hz⟩]

end Passage.WellFormed

/-- The headers and the data that left the length adjustment are a prefix of the headers and the
payloads of the packets, in order; and once all beats have arrived, the rest of them can follow. -/
def ExtractsPayloads (keepBytes : Nat → BitVec 32) (ps : List Passage) (s : State n) : Prop :=
  ∃ data : Passage → List AxiData,
    (∀ p ∈ ps, ExactPayload p p.frame.header (data p)) ∧
    s.headerSteerToDup.sent <+: ps.map (·.frame.header) ∧
    s.dataLengthToCrossbar.sent <+: ps.flatMap data ∧
    (Arrived ps s → ∃ more, Traffic ps (run (step keepBytes) s more) ∧
      (run (step keepBytes) s more).headerSteerToDup.sent = ps.map (·.frame.header) ∧
      (run (step keepBytes) s more).dataLengthToCrossbar.sent = ps.flatMap data)

/-- **The payload is extracted exactly**, for every sequence of well-formed packets, every
interleaving of the units and every stall. -/
theorem payload_extracted (keepBytes : Nat → BitVec 32) (ps : List Passage)
    (hwf : ∀ p ∈ ps, p.WellFormed) (acts : List (Act n))
    (hT : Traffic ps (run (step keepBytes) (State.init : State n) acts)) :
    ExtractsPayloads keepBytes ps (run (step keepBytes) (State.init : State n) acts) := by
  have hpassing : passing ps = ps := List.filter_eq_self.mpr fun p hp => (hwf p hp).pass
  have hfit : ∀ p ∈ passing ps, p.Counted keepBytes := by
    rw [hpassing]
    exact fun p hp => (hwf p hp).counted
  have hinv := pathInv_run hfit acts hT
  refine ⟨(·.cut keepBytes), fun p hp => (hwf p hp).exactPayload, ?_, ?_, ?_⟩
  · have := hinv.headerSteerToDup_prefix
    rwa [hpassing] at this
  · have := hinv.dataLengthToCrossbar_prefix
    rwa [hpassing] at this
  · intro harrived
    obtain ⟨more, hT', hx⟩ := exists_extracted hfit hinv hT harrived
    have hheaders := hx.headers
    have hdata := hx.data
    rw [hpassing] at hheaders hdata
    exact ⟨more, hT', hheaders, hdata⟩

/-- The two beats of a 64-byte UDP frame with the given lengths and 22 bytes behind the headers. -/
def udpFrame (totLen length : BitVec 16) (payload : BitVec 176) : Frame where
  first := ⟨0x112233445566aabbccddeeff08004500#128 ++ totLen ++ 0x0000000040110000c0a80101c0a8#112,
    0xffffffff, false, 0, 1⟩
  middle := []
  final := ⟨0x010204d2162e#48 ++ length ++ 0#16 ++ payload, 0xffffffff, true, 0, 1⟩
  tail := 32
  tail_pos := by decide
  tail_le := by decide
  body_last b hb := by obtain rfl := List.mem_singleton.mp hb; rfl
  body_keep b hb := by obtain rfl := List.mem_singleton.mp hb; rfl
  final_last := rfl
  final_keep := leadingKeep_all.symm

/-- A frame that the flow table steers to ikernel 3. -/
def steered (f : Frame) : Passage := ⟨f, true, ⟨⟨.ikernel, 0, 3⟩, 5⟩⟩

/-- The beats of a frame arrive. -/
def arrivals {n : Nat} (f : Frame) : List (Act n) :=
  .arrive 0 f.first :: (f.middle ++ [f.final]).map (.arrive 1)

/-- Call every unit once, without a stall. -/
def round {n : Nat} (p : Passage) (e : Fin n) : List (Act n) :=
  [.mlxMetadata false false, .split false false, .hdrDup3 false, .hdrChecks p.enable false,
    .ftStep p.result, .checksToAction false false, .updateStatsActions false false,
    .udpDropperStep false false, .hdrDup2 false, .findLength false, .cutData false,
    .crossbar false false ⟨0, 0, 0, false⟩, .splitUdpHdrStream e false]

/-- A packet with 3 bytes of payload and one without. -/
def twoPackets : List Passage :=
  [steered (udpFrame 31 11 (0xaabbcc#24 ++ 0#152)), steered (udpFrame 28 8 0)]

/-- Both packets arrive and the units are called seven times each. -/
def twoPacketsActs : List (Act 1) :=
  twoPackets.flatMap (fun p => arrivals p.frame)
    ++ (List.replicate 7 (round (steered (udpFrame 28 8 0)) 0)).flatten

def twoPacketsEnd : State 1 := run (step leadingKeep) State.init twoPacketsActs

theorem traffic_twoPackets : Traffic twoPackets twoPacketsEnd :=
  ⟨by decide +kernel, by decide +kernel, by decide +kernel⟩

theorem wellFormed_twoPackets : ∀ p ∈ twoPackets, p.WellFormed := by
  intro p hp
  rcases List.mem_cons.mp hp with rfl | hp
  · exact ⟨by decide +kernel, by decide +kernel, by decide +kernel, by decide +kernel,
      by decide +kernel, by decide +kernel, by decide +kernel, by decide +kernel, rfl, rfl⟩
  · obtain rfl := List.mem_singleton.mp hp
    exact ⟨by decide +kernel, by decide +kernel, by decide +kernel, by decide +kernel,
      by decide +kernel, by decide +kernel, by decide +kernel, by decide +kernel, rfl, rfl⟩

theorem payload_extracted_twoPackets :
    ExtractsPayloads leadingKeep twoPackets twoPacketsEnd ∧
      kept twoPacketsEnd.dataLengthToCrossbar.sent = [0xaa, 0xbb, 0xcc] :=
  ⟨payload_extracted leadingKeep twoPackets wellFormed_twoPackets twoPacketsActs
    traffic_twoPackets, by decide +kernel⟩

/-! ### Arbitrary packets -/

/-- The lengths of a packet agree with each other and with the frame:

* the UDP header says that there is no data, and no words are counted for it; or
* both headers give the same length, which is counted without overflow and lies in the frame; or
* more words are counted than the frame has, and the UDP header gives the number of bytes that are
  marked as kept when a frame ends early. -/
def Passage.InFrame (p : Passage) : Prop :=
  (p.headers.udp.length.toNat = 8 ∧
    (p.headers.ip.totLen.toNat = 28 ∨ 65533 ≤ p.headers.ip.totLen.toNat)) ∨
  (8 < p.headers.udp.length.toNat ∧
    p.headers.ip.totLen.toNat = p.headers.udp.length.toNat + 20 ∧
    p.headers.ip.totLen.toNat ≤ 65532 ∧
    p.headers.udp.length.toNat + 34 ≤ p.frame.bytes.length) ∨
  (p.headers.udp.length.toNat + 14 = 32 * (p.frame.middle.length + 1) ∧
    28 + 32 * (p.frame.middle.length + 1) < p.headers.ip.totLen.toNat ∧
    p.headers.ip.totLen.toNat ≤ 65532 ∧ 20 ≤ p.frame.tail)

instance (p : Passage) : Decidable p.InFrame :=
  inferInstanceAs (Decidable (_ ∨ _ ∨ _))

/-- The data that goes with the metadata of a packet: nothing if it is empty, and else one packet of
as many bytes of the frame as the metadata says. -/
structure Passage.Carries (p : Passage) (beats : List AxiData) : Prop where
  framed : if p.metadata.emptyPacket then beats = [] else IsPacket beats
  inside : kept beats <:+: p.frame.bytes
  length : (kept beats).length = p.metadata.length.toNat

/-- The metadata and the data that an engine got so far belong to the same packets, one by one. -/
def Aligned (ps : List Passage) (s : State n) (e : Fin n) : Prop :=
  s.metadataOut e <+: (deliveredTo e ps).map (·.metadata) ∧
    ∃ data : Passage → List AxiData, (∀ p ∈ deliveredTo e ps, p.Carries (data p)) ∧
      s.dataOut e <+: (deliveredTo e ps).flatMap data

theorem toNat_metadata_length {p : Passage} (h : 8 ≤ p.headers.udp.length.toNat) :
    p.metadata.length.toNat = p.headers.udp.length.toNat - 8 := by
  have hle : (8 : BitVec 16) ≤ p.headers.udp.length := h
  show (p.headers.udp.length - 8).toNat = _
  rw [BitVec.toNat_sub_of_le hle]
  rfl

theorem metadata_emptyPacket {p : Passage} (h : 8 ≤ p.headers.udp.length.toNat) :
    p.metadata.emptyPacket = p.headers.udp.emptyPacket := by
  have hlen := toNat_metadata_length h
  rw [Bool.eq_iff_iff, emptyPacket_iff, Metadata.emptyPacket, beq_iff_eq]
  constructor
  · intro h0
    rw [h0] at hlen
    change 0 = _ at hlen
    omega
  · intro h8
    apply BitVec.eq_of_toNat_eq
    rw [hlen]
    show _ = 0
    omega

/-- A frame that ends before the counted words: everything goes through, with the keep bits that
`split` sets on the final beat. -/
theorem cut_of_short (hkeep : keepBytes 10 = leadingKeep 10) {p : Passage} (hpass : p.pass = true)
    (hne : p.headers.udp.emptyPacket = false)
    (hmore : p.frame.middle.length + 1 < p.lengths.wordCount.toNat) :
    p.cut keepBytes = p.frame.raw keepBytes ∧
      kept (p.cut keepBytes)
        = (words (p.frame.raw keepBytes)).take (32 * p.frame.middle.length + 10) := by
  have hcut : p.cut keepBytes = p.frame.raw keepBytes := by
    rw [Passage.cut, through_of_nonempty hpass hne]
    exact cutBeats_of_length_lt _ _ _ (by rw [p.frame.length_raw]; exact hmore)
  refine ⟨hcut, ?_⟩
  obtain ⟨front, final, hraw, hlen, hfinal, hfull⟩ := p.frame.raw_keep keepBytes
  have hwlen : (words front).length = 32 * p.frame.middle.length := by rw [length_words, hlen]
  have hall : (words front).take (32 * p.frame.middle.length + 10) = words front :=
    List.take_of_length_le (by omega)
  rw [hcut, hraw, kept, List.flatMap_append, List.flatMap_singleton, words_append, List.take_append,
    hall, hwlen, Nat.add_sub_cancel_left, words_cons, List.take_append_of_le_length (by
      rw [length_bytesOf]; decide)]
  congr 1
  · exact kept_of_full fun b hb => (hfull b hb).1
  · exact keptOf_leadingKeep (by decide) (by rw [hfinal, hkeep])

theorem infix_of_take_drop {α : Type} (l : List α) (i k : Nat) : (l.drop i).take k <:+: l :=
  (List.take_prefix k _).isInfix.trans (List.drop_suffix i l).isInfix

namespace Passage.InFrame

variable {p : Passage}

theorem length_ge (h : p.InFrame) : 8 ≤ p.headers.udp.length.toNat := by
  rcases h with ⟨h, -⟩ | ⟨h, -⟩ | ⟨h, -⟩
  · omega
  · omega
  · omega

/-- Words are counted exactly for the packets with data. -/
theorem wordCount_iff (h : p.InFrame) (hpass : p.pass = true) :
    p.lengths.wordCount = 0 ↔ p.headers.udp.emptyPacket = true := by
  have hcount := toNat_wordCount (totLen_of_pass hpass)
  have hlt := p.headers.ip.totLen.isLt
  have htot := totLen_of_pass hpass
  rw [Passage.dataLength] at hcount
  have hzero : p.lengths.wordCount = 0 ↔ (p.headers.ip.totLen.toNat - 28 + 31) / 32 % 2048 = 0 := by
    rw [← hcount]
    exact ⟨fun h0 => by rw [h0]; rfl, fun h0 => BitVec.eq_of_toNat_eq h0⟩
  rw [hzero, emptyPacket_iff]
  rcases h with ⟨hu, ht⟩ | ⟨hu, ht, hle, -⟩ | ⟨hu, ht, hle, -⟩
  · omega
  · omega
  · omega

theorem counted (h : p.InFrame) (hpass : p.pass = true) : p.Counted keepBytes := by
  constructor
  · intro h0
    exact through_of_empty ((h.wordCount_iff hpass).mp h0)
  · intro h0
    have hne : p.headers.udp.emptyPacket = false := by
      rw [← Bool.not_eq_true, ← h.wordCount_iff hpass]
      exact h0
    rw [through_of_nonempty hpass hne]
    exact p.frame.isPacket_raw keepBytes

theorem routed (h : p.InFrame) (hpass : p.pass = true)
    (hengine : (engineOf n p.decided).isSome = true) : p.Routed n keepBytes := by
  refine ⟨hpass, hengine, ?_, ?_⟩
  · intro hempty
    rw [Passage.cut, through_of_empty hempty, cutBeats]
  · intro hne
    have hw : p.lengths.wordCount ≠ 0 := by
      intro h0
      rw [(h.wordCount_iff hpass).mp h0] at hne
      cases hne
    rw [Passage.cut, through_of_nonempty hpass hne]
    exact isPacket_cutBeats _ (p.frame.isPacket_raw keepBytes)
      fun h0 => hw (BitVec.eq_of_toNat_eq h0)

/-- The bytes that are left of a packet with data are those of the frame behind the headers. -/
theorem kept_cut (h : p.InFrame) (hkeep : keepBytes 10 = leadingKeep 10) (hpass : p.pass = true)
    (hne : p.headers.udp.emptyPacket = false) :
    42 + (p.headers.udp.length.toNat - 8) ≤ p.frame.bytes.length ∧
      kept (p.cut keepBytes) = (p.frame.bytes.drop 42).take (p.headers.udp.length.toNat - 8) := by
  have hlt := p.headers.ip.totLen.isLt
  have hbytes := p.frame.length_bytes
  have hgt : ¬ p.headers.udp.length.toNat ≤ 8 := by
    rw [← emptyPacket_iff, hne]
    exact Bool.false_ne_true
  rcases h with ⟨hu, -⟩ | ⟨hu, ht, hle, hin⟩ | ⟨hu, ht, hle, htail⟩
  · omega
  · have hdata : p.dataLength = p.headers.udp.length.toNat - 8 := by
      rw [Passage.dataLength]
      omega
    obtain ⟨w, -, -, -, hkept⟩ := cut_of_inside keepBytes hpass hne (by omega) (by omega) (by omega)
    rw [hdata] at hkept
    exact ⟨by omega, hkept⟩
  · -- the frame ends before the counted words
    have hcount := toNat_wordCount (totLen_of_pass hpass)
    rw [Passage.dataLength] at hcount
    obtain ⟨-, hkept⟩ := cut_of_short hkeep hpass hne (by omega)
    have hlen : 32 * p.frame.middle.length + 10 = p.headers.udp.length.toNat - 8 := by omega
    rw [hlen, p.frame.take_words_raw keepBytes (by omega)] at hkept
    exact ⟨by omega, hkept⟩

theorem carries (h : p.InFrame) (hkeep : keepBytes 10 = leadingKeep 10) (hpass : p.pass = true)
    (hengine : (engineOf n p.decided).isSome = true) : p.Carries (p.cut keepBytes) := by
  have hrouted : p.Routed n keepBytes := h.routed hpass hengine
  have hmeta := metadata_emptyPacket h.length_ge
  have hlength := toNat_metadata_length h.length_ge
  cases he : p.headers.udp.emptyPacket with
  | true =>
    have hnil := hrouted.empty he
    refine ⟨?_, ?_, ?_⟩
    · rw [hmeta, he, if_pos rfl]
      exact hnil
    · rw [hnil]
      exact List.nil_infix
    · rw [hnil, hlength]
      have h8 := emptyPacket_iff.mp he
      show 0 = _
      omega
  | false =>
    obtain ⟨hin, hkept⟩ := h.kept_cut hkeep hpass he
    refine ⟨?_, ?_, ?_⟩
    · rw [hmeta, he, if_neg Bool.false_ne_true]
      exact hrouted.nonempty he
    · rw [hkept]
      exact infix_of_take_drop _ _ _
    · rw [hkept, hlength, List.length_take, List.length_drop]
      omega

end Passage.InFrame

/-- The metadata and the data stay aligned, and once all beats have arrived the rest can be
delivered. -/
def StaysAligned (keepBytes : Nat → BitVec 32) (ps : List Passage) (s : State n) : Prop :=
  (∀ e, Aligned ps s e) ∧
    (Arrived ps s → ∃ more, Traffic ps (run (step keepBytes) s more) ∧
      ∀ e, Aligned ps (run (step keepBytes) s more) e ∧
        (run (step keepBytes) s more).metadataOut e = (deliveredTo e ps).map (·.metadata) ∧
        ∃ data : Passage → List AxiData, (∀ p ∈ deliveredTo e ps, p.Carries (data p)) ∧
          (run (step keepBytes) s more).dataOut e = (deliveredTo e ps).flatMap data)

/-- **Metadata and data stay aligned** for every sequence of frames, every interleaving and every
stall, if the lengths of each packet that goes to an ikernel agree with its frame and the engine of
its result exists. -/
theorem staysAligned_of_inFrame (hkeep : keepBytes 10 = leadingKeep 10) (ps : List Passage)
    (hin : ∀ p ∈ ps, p.pass = true → p.InFrame ∧ (engineOf n p.decided).isSome = true)
    (acts : List (Act n)) (hT : Traffic ps (run (step keepBytes) (State.init : State n) acts)) :
    StaysAligned keepBytes ps (run (step keepBytes) (State.init : State n) acts) := by
  have hmem : ∀ p ∈ passing ps, p.InFrame ∧ p.pass = true ∧
      (engineOf n p.decided).isSome = true := by
    intro p hp
    obtain ⟨hp, hpass⟩ := List.mem_filter.mp hp
    exact ⟨(hin p hp hpass).1, hpass, (hin p hp hpass).2⟩
  have hcount : ∀ p ∈ passing ps, p.Counted keepBytes :=
    fun p hp => (hmem p hp).1.counted (hmem p hp).2.1
  have hroute : ∀ p ∈ passing ps, p.Routed n keepBytes :=
    fun p hp => (hmem p hp).1.routed (hmem p hp).2.1 (hmem p hp).2.2
  have hcarries : ∀ (e : Fin n), ∀ p ∈ deliveredTo e ps, p.Carries (p.cut keepBytes) := by
    intro e p hp
    have hp' : p ∈ passing ps := List.mem_of_mem_filter hp
    exact (hmem p hp').1.carries hkeep (hmem p hp').2.1 (hmem p hp').2.2
  have haligned : ∀ s : State n, DeliveryInv keepBytes ps s → ∀ e, Aligned ps s e :=
    fun s hinv e => ⟨hinv.metadataOut_prefix e, (·.cut keepBytes), hcarries e, hinv.dataOut_prefix e⟩
  obtain ⟨hpath, hinv⟩ := invs_run hcount hroute acts (pathInv_init keepBytes ps)
    (deliveryInv_init keepBytes ps) hT
  refine ⟨haligned _ hinv, fun harrived => ?_⟩
  obtain ⟨more, hT', hall⟩ := exists_delivered hcount hroute hpath hinv hT harrived
  obtain ⟨-, hinv'⟩ := invs_run hcount hroute more hpath hinv hT'
  exact ⟨more, hT', fun e => ⟨haligned _ hinv' e, (hall e).1, (·.cut keepBytes), hcarries e,
    (hall e).2⟩⟩

theorem staysAligned_twoPackets :
    (∀ p ∈ twoPackets, p.pass = true → p.InFrame ∧ (engineOf 1 p.decided).isSome = true) ∧
      StaysAligned leadingKeep twoPackets twoPacketsEnd := by
  have hin : ∀ p ∈ twoPackets, p.pass = true →
      p.InFrame ∧ (engineOf 1 p.decided).isSome = true := by
    decide +kernel
  exact ⟨hin, staysAligned_of_inFrame rfl twoPackets hin twoPacketsActs traffic_twoPackets⟩

/-- A packet whose UDP header announces one byte of data but whose IP header leaves no room for any,
followed by a packet with two bytes of data. -/
def mismatched : List Passage :=
  [steered (udpFrame 28 9 (0x11#8 ++ 0#168)), steered (udpFrame 30 10 (0x2233#16 ++ 0#160))]

def mismatchedActs : List (Act 1) :=
  mismatched.flatMap (fun p => arrivals p.frame)
    ++ (List.replicate 9 (round (steered (udpFrame 28 8 0)) 0)).flatten

def mismatchedEnd : State 1 := run (step leadingKeep) State.init mismatchedActs

/-- No words are counted for the first packet, so that its beat is cut by the length of the second:
the ikernel gets two bytes with the metadata that announces one. -/
theorem not_aligned_mismatched :
    Traffic mismatched mismatchedEnd ∧ mismatchedEnd.metadataOut 0 = mismatched.map (·.metadata) ∧
      kept (mismatchedEnd.dataOut 0) = [0x11, 0x00] ∧ ¬ Aligned mismatched mismatchedEnd 0 := by
  refine ⟨⟨by decide +kernel, by decide +kernel, by decide +kernel⟩, by decide +kernel,
    by decide +kernel, ?_⟩
  rintro ⟨-, data, hcarries, hprefix⟩
  have hto : ∃ p q, deliveredTo (0 : Fin 1) mismatched = [p, q] ∧ p.metadata.length = 1 := by
    refine ⟨steered (udpFrame 28 9 (0x11#8 ++ 0#168)),
      steered (udpFrame 30 10 (0x2233#16 ++ 0#160)), ?_, by decide +kernel⟩
    rw [deliveredTo, passing, List.filter_eq_self.mpr (by decide +kernel),
      List.filter_eq_self.mpr (by decide +kernel)]
    rfl
  obtain ⟨p, q, hto, hlen⟩ := hto
  obtain ⟨b, hout, hlast, hkept⟩ : ∃ b, mismatchedEnd.dataOut 0 = [b] ∧ b.last = true ∧
      (keptOf b).length = 2 := by
    refine ⟨⟨0x11#8 ++ 0#248, leadingKeep 2, true⟩, ?_, rfl, ?_⟩
    · decide +kernel
    · decide +kernel
  have hp := hcarries p (by rw [hto]; exact List.mem_cons_self)
  have hpacket : IsPacket (data p) := by
    have hframed := hp.framed
    rwa [Metadata.emptyPacket, hlen, if_neg (by decide)] at hframed
  -- the beat delivered first would have to be the whole data of the first packet
  rw [hto, hout, List.flatMap_cons] at hprefix
  cases hd : data p with
  | nil => rw [hd] at hpacket; exact not_isPacket_nil hpacket
  | cons c rest =>
    rw [hd, List.cons_append, List.cons_prefix_cons] at hprefix
    obtain rfl := hprefix.1
    rw [hd] at hpacket
    have hlength := hp.length
    rw [hd, (isPacket_cons hpacket).1 hlast, hlen] at hlength
    change (keptOf b ++ []).length = 1 at hlength
    rw [List.append_nil, hkept] at hlength
    omega

end Nica.Hls.Udp
