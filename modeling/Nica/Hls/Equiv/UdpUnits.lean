import Nica.Lib.Owed
import Nica.Hls.Equiv.UdpFrames

/-!
# The units of the receive path, one by one

Each unit with registers has an invariant that relates what it has read and written to the passages
`ps` it has taken up, in terms of `Owed`, and a lemma that one call keeps it whatever streams are
full.  The lemmas assume only that the streams the unit reads carry prefixes of what is expected.

* `SplitInv` and `splitInv_split`;
* `DropperInv` and `dropperInv_udpDropperStep`;
* `CutInv` and `cutInv_cutData`;
* `CrossbarInv` and `crossbarInv_crossbar`.
-/

namespace Nica.Hls.Udp

open Nica.Lib

variable {keepBytes : Nat → BitVec 32} {ps : List Passage}

/-! ### `split` -/

/-- What `split` owes in each of its states. -/
def SplitPhase (keepBytes : Nat → BitVec 32) (u : Split) (due : List AxiData)
    (dueHeader : List HeaderBuffer) (dueData : List AxiData) : Prop :=
  match u.state with
  | .idle => due = [] ∧ dueHeader = [] ∧ dueData = []
  | .readingHeader => ∃ f : Frame, u.buffer = f.first.data ∧ u.meta_ = f.mlx ∧ due = f.rest ∧
      dueHeader = [f.header] ∧ dueData = f.raw keepBytes
  | .stream => IsPacket due ∧ dueHeader = [] ∧ dueData = rawFrom keepBytes u.buffer due
  | .last => due = [] ∧ dueHeader = [] ∧ dueData = rawFrom keepBytes u.buffer []

/-- `split` took up as many frames as it read metadata. -/
def SplitInv (keepBytes : Nat → BitVec 32) (ps : List Passage) (u : Split)
    (metas : List MlxMetadata) (beats : List AxiData) (headers : List HeaderBuffer)
    (data : List AxiData) : Prop :=
  ∃ due dueHeader dueData, SplitPhase keepBytes u due dueHeader dueData ∧
    Owed (·.frame.beats) ps metas.length beats due ∧
    Owed (fun p => [p.frame.header]) ps metas.length headers dueHeader ∧
    Owed (·.frame.raw keepBytes) ps metas.length data dueData

/-- Starting on a frame, from any state that owes nothing. -/
theorem splitInv_splitIdle {u : Split} (hu : u.state = .idle) {metas : Fifo MlxMetadata}
    {beats : Fifo AxiData} {headers : List HeaderBuffer} {data : List AxiData}
    (hm : metas.sent <+: ps.map (·.frame.mlx)) (hb : beats.sent <+: ps.flatMap (·.frame.beats))
    (hbeats : Owed (·.frame.beats) ps metas.past.length beats.past [])
    (hheaders : Owed (fun p => [p.frame.header]) ps metas.past.length headers [])
    (hdata : Owed (·.frame.raw keepBytes) ps metas.past.length data []) :
    SplitInv keepBytes ps (splitIdle u metas.head beats.head).1
      (metas.readIf (splitIdle u metas.head beats.head).2).past
      (beats.readIf (splitIdle u metas.head beats.head).2).past headers data := by
  have hstay : SplitInv keepBytes ps u metas.past beats.past headers data :=
    ⟨[], [], [], by rw [SplitPhase, hu]; exact ⟨rfl, rfl, rfl⟩, hbeats, hheaders, hdata⟩
  cases hmh : metas.head with
  | none => exact hstay
  | some m =>
    cases hbh : beats.head with
    | none => exact hstay
    | some cur =>
      obtain ⟨p, hp, hpm⟩ := exists_item ((metas.past_snoc_prefix_sent hmh).trans hm)
      have hdue := hbeats.start hp
      obtain rfl : cur = (splitMetadata p.frame.first).2 := hdue.head_eq hb hbh
      refine ⟨p.frame.rest, [p.frame.header], p.frame.raw keepBytes, ?_, ?_, ?_, ?_⟩
      · exact ⟨p.frame, rfl, hpm.symm, rfl, rfl, rfl⟩
      · show Owed _ ps (metas.readIf true).past.length (beats.readIf true).past _
        rw [metas.past_readIf_true hmh, beats.past_readIf_true hbh, List.length_append]
        exact hdue.advance
      · show Owed _ ps (metas.readIf true).past.length _ _
        rw [metas.past_readIf_true hmh, List.length_append]
        exact hheaders.start hp
      · show Owed _ ps (metas.readIf true).past.length _ _
        rw [metas.past_readIf_true hmh, List.length_append]
        exact hdata.start hp

/-- The state behind a beat that was taken over into the buffer. -/
theorem splitPhase_next {u : Split} {b : AxiData} {due : List AxiData} (h : IsPacket (b :: due)) :
    SplitPhase keepBytes { u with buffer := b.data, state := if b.last then .last else .stream }
      due [] (rawFrom keepBytes b.data due) := by
  by_cases hl : b.last = true
  · have hdue := (isPacket_cons h).1 hl
    rw [SplitPhase, hl, hdue]
    exact ⟨rfl, rfl, rfl⟩
  · have hfalse : b.last = false := Bool.not_eq_true _ ▸ hl
    rw [SplitPhase, hfalse]
    exact ⟨(isPacket_cons h).2 hfalse, rfl, rfl⟩

theorem splitInv_split (headerFull dataFull : Bool) {u : Split} {metas : Fifo MlxMetadata}
    {beats : Fifo AxiData} {headers : List HeaderBuffer} {data : List AxiData}
    (hm : metas.sent <+: ps.map (·.frame.mlx)) (hb : beats.sent <+: ps.flatMap (·.frame.beats))
    (h : SplitInv keepBytes ps u metas.past beats.past headers data) :
    let r := split keepBytes headerFull dataFull u metas.head beats.head
    SplitInv keepBytes ps r.1 (metas.readIf r.2.readMetadata).past
      (beats.readIf r.2.readData).past (headers ++ r.2.header.toList)
      (data ++ r.2.data.toList) := by
  have hstay : SplitInv keepBytes ps u (metas.readIf false).past (beats.readIf false).past
      (headers ++ []) (data ++ []) := by
    rw [List.append_nil, List.append_nil]
    exact h
  obtain ⟨due, dueHeader, dueData, hphase, hbeats, hheaders, hdata⟩ := h
  unfold split
  cases hu : u.state with
  | idle =>
    rw [SplitPhase, hu] at hphase
    obtain ⟨rfl, rfl, rfl⟩ := hphase
    dsimp only [Option.toList_none]
    rw [List.append_nil, List.append_nil]
    exact splitInv_splitIdle hu hm hb hbeats hheaders hdata
  | readingHeader =>
    cases hbh : beats.head with
    | none => exact hstay
    | some cur =>
      cases headerFull with
      | true => exact hstay
      | false =>
        rw [SplitPhase, hu] at hphase
        obtain ⟨f, hbuf, hmeta, rfl, rfl, rfl⟩ := hphase
        obtain ⟨b, bs, hrest, hheader, hraw⟩ := f.exists_second
        rw [hrest] at hbeats
        rw [hheader] at hheaders
        rw [hraw] at hdata
        obtain rfl : cur = b := hbeats.head_eq hb hbh
        refine ⟨bs, [], _, splitPhase_next (hrest ▸ f.isPacket_rest), ?_, ?_, ?_⟩
        · show Owed _ ps metas.past.length (beats.readIf true).past bs
          rw [beats.past_readIf_true hbh]
          exact hbeats.advance
        · show Owed _ ps metas.past.length
            (headers ++ [splitHeader u.meta_ u.buffer cur.data]) []
          rw [hbuf, hmeta]
          exact hheaders.advance
        · show Owed _ ps metas.past.length (data ++ []) _
          rw [List.append_nil]
          exact hdata
  | stream =>
    cases hbh : beats.head with
    | none => exact hstay
    | some cur =>
      cases dataFull with
      | true => exact hstay
      | false =>
        rw [SplitPhase, hu] at hphase
        obtain ⟨hpacket, rfl, rfl⟩ := hphase
        cases due with
        | nil => exact absurd hpacket (by decide)
        | cons b due =>
          obtain rfl : cur = b := hbeats.head_eq hb hbh
          refine ⟨due, [], _, splitPhase_next hpacket, ?_, ?_, ?_⟩
          · show Owed _ ps metas.past.length (beats.readIf true).past due
            rw [beats.past_readIf_true hbh]
            exact hbeats.advance
          · show Owed _ ps metas.past.length (headers ++ []) []
            rw [List.append_nil]
            exact hheaders
          · show Owed _ ps metas.past.length (data ++ [splitBeat u.buffer cur.data]) _
            exact hdata.advance
  | last =>
    cases dataFull with
    | true => exact hstay
    | false =>
      rw [SplitPhase, hu] at hphase
      obtain ⟨rfl, rfl, rfl⟩ := hphase
      have hdone := hdata.advance
      rw [← List.append_nil headers] at hheaders
      exact splitInv_splitIdle (u := { u with state := .idle }) rfl hm hb hbeats hheaders hdone

/-! ### `udpDropperStep` -/

/-- Refilling a register does not change what was read apart from the register. -/
theorem past_refill {α : List AxiData} {s : Fifo AxiData} {w : Option AxiData}
    (h : s.past = α ++ w.toList) :
    (s.readIf (refill w s.head).2).past = α ++ (refill w s.head).1.toList := by
  cases w with
  | some word => exact h
  | none =>
    cases hs : s.head with
    | none => exact h
    | some word =>
      show (s.readIf true).past = _
      rw [s.past_readIf_true hs, h, Option.toList_none, List.append_nil]
      rfl

/-- What the dropper owes in each of its states. -/
def DropperPhase (u : Dropper) (due dueData : List AxiData) : Prop :=
  match u.state with
  | .idle => due = [] ∧ dueData = []
  | .stream => IsPacket due ∧ dueData = if u.drop then [] else due

/-- The dropper took up as many frames as it read decisions and headers; `beats` are the beats it is
done with, apart from the one in its register. -/
def DropperInv (keepBytes : Nat → BitVec 32) (ps : List Passage) (u : Dropper) (passes : List Bool)
    (headersIn : List HeaderBuffer) (beatsIn : List AxiData) (headers : List HeaderBuffer)
    (data : List AxiData) : Prop :=
  passes.length = headersIn.length ∧
    headers = ((ps.take passes.length).filter (·.pass)).map (·.frame.header) ∧
    ∃ beats due dueData, beatsIn = beats ++ u.dataBuf.toList ∧ DropperPhase u due dueData ∧
      Owed (·.frame.raw keepBytes) ps passes.length beats due ∧
      Owed (·.through keepBytes) ps passes.length data dueData

/-- The data a frame owes to the output once its header was read. -/
theorem through_eq (p : Passage) (drop : Bool)
    (hdrop : drop = if p.headers.udp.emptyPacket then true else !p.pass) :
    p.through keepBytes = if drop then [] else p.frame.raw keepBytes := by
  rw [Passage.through, hdrop]
  cases p.headers.udp.emptyPacket <;> cases p.pass <;> rfl

theorem filter_take_succ {k : Nat} {p : Passage} (hp : ps[k]? = some p) :
    ((ps.take (k + 1)).filter (·.pass)).map (·.frame.header)
      = ((ps.take k).filter (·.pass)).map (·.frame.header)
        ++ (if p.pass then some p.frame.header else none).toList := by
  rw [take_succ_eq hp, List.filter_append, List.map_append]
  cases h : p.pass <;> simp [h]

theorem dropperInv_udpDropperStep (headerOutFull dataOutFull : Bool) {u : Dropper}
    {passes : Fifo Bool} {headersIn : Fifo HeaderBuffer} {beatsIn : Fifo AxiData}
    {headers : List HeaderBuffer} {data : List AxiData}
    (hp : passes.sent <+: ps.map (·.pass)) (hh : headersIn.sent <+: ps.map (·.frame.header))
    (hb : beatsIn.sent <+: ps.flatMap (·.frame.raw keepBytes))
    (h : DropperInv keepBytes ps u passes.past headersIn.past beatsIn.past headers data) :
    let r := udpDropperStep true headerOutFull dataOutFull u passes.head headersIn.head beatsIn.head
    DropperInv keepBytes ps r.1 (passes.readIf r.2.readHeader).past
      (headersIn.readIf r.2.readHeader).past (beatsIn.readIf r.2.readData).past
      (headers ++ r.2.header.toList) (data ++ r.2.data.toList) := by
  have hstay : DropperInv keepBytes ps u (passes.readIf false).past (headersIn.readIf false).past
      (beatsIn.readIf false).past (headers ++ []) (data ++ []) := by
    rw [List.append_nil, List.append_nil]
    exact h
  obtain ⟨hlen, hheaders, beats, due, dueData, hbeats, hphase, hraw, hthrough⟩ := h
  unfold udpDropperStep
  cases hu : u.state with
  | idle =>
    cases hph : passes.head with
    | none => exact hstay
    | some pass =>
      cases hhh : headersIn.head with
      | none => exact hstay
      | some buf =>
        cases headerOutFull with
        | true => exact hstay
        | false =>
          -- the decision and the header are those of the next frame
          obtain ⟨p, hpk, rfl⟩ := exists_item ((passes.past_snoc_prefix_sent hph).trans hp)
          obtain ⟨p', hpk', rfl⟩ := exists_item ((headersIn.past_snoc_prefix_sent hhh).trans hh)
          obtain rfl : p = p' := by
            rw [← hlen, hpk] at hpk'
            exact Option.some.inj hpk'
          rw [DropperPhase, hu] at hphase
          obtain ⟨rfl, rfl⟩ := hphase
          have hstart : ∀ drop : Bool, (drop = if p.headers.udp.emptyPacket then true else !p.pass) →
              DropperInv keepBytes ps { u with state := .stream, drop } (passes.readIf true).past
                (headersIn.readIf true).past (beatsIn.readIf false).past
                (headers ++ (if p.pass then some p.frame.header else none).toList)
                (data ++ []) := by
            intro drop hdrop
            rw [passes.past_readIf_true hph, headersIn.past_readIf_true hhh, List.append_nil]
            refine ⟨by rw [List.length_append, List.length_append, hlen]; rfl, ?_, beats,
              p.frame.raw keepBytes, p.through keepBytes, hbeats, ?_, ?_, ?_⟩
            · rw [List.length_append, hheaders]
              exact (filter_take_succ hpk).symm
            · exact ⟨p.frame.isPacket_raw keepBytes, through_eq p drop hdrop⟩
            · rw [List.length_append]
              exact hraw.start hpk
            · rw [List.length_append]
              exact hthrough.start hpk
          cases he : p.headers.udp.emptyPacket with
          | false =>
            have he' : p.frame.header.parse.udp.emptyPacket = false := he
            simp only [he', Bool.not_false, if_true, Bool.false_eq_true, if_false]
            exact hstart _ (by rw [he]; rfl)
          | true =>
            have he' : p.frame.header.parse.udp.emptyPacket = true := he
            simp only [he', Bool.not_true, if_true, Bool.false_eq_true, if_false]
            exact hstart _ (by rw [he]; rfl)
  | stream =>
    have hwait : DropperInv keepBytes ps
        { u with state := .stream, dataBuf := (refill u.dataBuf beatsIn.head).1 }
        (passes.readIf false).past (headersIn.readIf false).past
        (beatsIn.readIf (refill u.dataBuf beatsIn.head).2).past (headers ++ []) (data ++ []) := by
      rw [List.append_nil, List.append_nil]
      rw [DropperPhase, hu] at hphase
      exact ⟨hlen, hheaders, beats, due, dueData, past_refill hbeats, hphase, hraw, hthrough⟩
    cases hbuf : u.dataBuf with
    | none =>
      rw [hbuf] at hwait
      exact hwait
    | some word =>
      cases dataOutFull with
      | true =>
        rw [hbuf] at hwait
        exact hwait
      | false =>
        -- the word in the register is the first one due
        rw [DropperPhase, hu] at hphase
        obtain ⟨hpacket, hdueData⟩ := hphase
        cases due with
        | nil => exact absurd hpacket (by decide)
        | cons b due =>
          rw [hbuf, Option.toList_some] at hbeats
          obtain rfl : word = b := hraw.register_eq (by
            rw [← hbeats]
            exact beatsIn.past_prefix_sent.trans hb)
          have hrefill := past_refill (s := beatsIn) (w := none) (by
            rw [hbeats, Option.toList_none, List.append_nil])
          dsimp only
          rw [Option.toList_none, List.append_nil]
          refine ⟨hlen, hheaders, beats ++ [word], due, if u.drop then [] else due, hrefill, ?_,
            hraw.advance, ?_⟩
          · by_cases hl : word.last = true
            · rw [DropperPhase, if_pos hl, (isPacket_cons hpacket).1 hl]
              exact ⟨rfl, by cases u.drop <;> rfl⟩
            · rw [DropperPhase, if_neg hl]
              exact ⟨(isPacket_cons hpacket).2 (Bool.not_eq_true _ ▸ hl), rfl⟩
          · rw [hdueData] at hthrough
            cases hd : u.drop with
            | true =>
              rw [hd] at hthrough
              show Owed _ ps _ (data ++ []) []
              rw [List.append_nil]
              exact hthrough
            | false =>
              rw [hd] at hthrough
              exact hthrough.advance

/-! ### `cutData` -/

/-- What `cutData` owes in each of its states. -/
def CutPhase (u : Cut) (due dueData : List AxiData) : Prop :=
  match u.state with
  | .idle => due = [] ∧ dueData = []
  | .count => IsPacket due ∧ u.pkt.wordCount ≠ 0 ∧
      dueData = cutBeats u.pkt.lastWordData u.pkt.wordCount.toNat due
  | .consume => IsPacket due ∧ dueData = []

/-- `cutData` took up as many packets as it read lengths; `beats` are the beats it is done with, apart
from the one in its register. -/
def CutInv (keepBytes : Nat → BitVec 32) (qs : List Passage) (u : Cut) (lengths : List PacketLength)
    (beatsIn data : List AxiData) : Prop :=
  ∃ beats due dueData, beatsIn = beats ++ u.dataBuf.toList ∧ CutPhase u due dueData ∧
    Owed (·.through keepBytes) qs lengths.length beats due ∧
    Owed (·.cut keepBytes) qs lengths.length data dueData

/-- A passage brings data to the length adjustment exactly when words are counted for it. -/
def Passage.Counted (keepBytes : Nat → BitVec 32) (p : Passage) : Prop :=
  (p.lengths.wordCount = 0 → p.through keepBytes = []) ∧
    (p.lengths.wordCount ≠ 0 → IsPacket (p.through keepBytes))

/-- Counting a word of a packet. -/
theorem cutPhase_count {u : Cut} {word : AxiData} {due : List AxiData}
    (hpacket : IsPacket (word :: due)) (hw : u.pkt.wordCount ≠ 0) (dataBuf : Option AxiData) :
    let pkt := { u.pkt with wordCount := u.pkt.wordCount - 1 }
    if pkt.wordCount = 0 then
      cutBeats u.pkt.lastWordData u.pkt.wordCount.toNat (word :: due)
          = [{ word with keep := lastWordKeepNumBytesValid pkt.lastWordData, last := true }] ∧
        CutPhase { pkt, dataBuf, state := if word.last then .idle else .consume } due []
    else ∃ dueData, cutBeats u.pkt.lastWordData u.pkt.wordCount.toNat (word :: due)
          = word :: dueData ∧
        CutPhase { pkt, dataBuf, state := if word.last then .idle else .count } due dueData := by
  intro pkt
  have hpos : u.pkt.wordCount.toNat ≠ 0 := by
    intro h0
    exact hw (BitVec.eq_of_toNat_eq h0)
  have hlt : u.pkt.wordCount.toNat < 2 ^ 11 := u.pkt.wordCount.isLt
  have hsub : pkt.wordCount.toNat = u.pkt.wordCount.toNat - 1 := by
    show (u.pkt.wordCount - 1).toNat = _
    rw [BitVec.toNat_sub]
    show (2 ^ 11 - 1 + u.pkt.wordCount.toNat) % 2 ^ 11 = _
    omega
  by_cases h0 : pkt.wordCount = 0
  · rw [if_pos h0]
    have h1 : u.pkt.wordCount.toNat = 1 := by
      rw [h0] at hsub
      have hz : (0 : BitVec 11).toNat = 0 := rfl
      omega
    refine ⟨by rw [h1]; rfl, ?_⟩
    by_cases hl : word.last = true
    · rw [CutPhase, if_pos hl, (isPacket_cons hpacket).1 hl]
      exact ⟨rfl, rfl⟩
    · rw [CutPhase, if_neg hl]
      exact ⟨(isPacket_cons hpacket).2 (Bool.not_eq_true _ ▸ hl), rfl⟩
  · rw [if_neg h0]
    have h2 : u.pkt.wordCount.toNat ≠ 1 := by
      intro h1
      exact h0 (BitVec.eq_of_toNat_eq (by rw [hsub, h1]; rfl))
    refine ⟨cutBeats u.pkt.lastWordData (u.pkt.wordCount.toNat - 1) due, ?_, ?_⟩
    · rw [cutBeats, if_neg hpos, if_neg h2]
    · by_cases hl : word.last = true
      · rw [CutPhase, if_pos hl, (isPacket_cons hpacket).1 hl]
        exact ⟨rfl, rfl⟩
      · rw [CutPhase, if_neg hl]
        exact ⟨(isPacket_cons hpacket).2 (Bool.not_eq_true _ ▸ hl), h0, by rw [hsub]⟩

theorem cutInv_cutData {qs : List Passage} (hfit : ∀ q ∈ qs, q.Counted keepBytes)
    (dataOutFull : Bool) {u : Cut} {lengths : Fifo PacketLength} {beatsIn : Fifo AxiData}
    {data : List AxiData} (hl : lengths.sent <+: qs.map (·.lengths))
    (hb : beatsIn.sent <+: qs.flatMap (·.through keepBytes))
    (h : CutInv keepBytes qs u lengths.past beatsIn.past data) :
    let r := cutData dataOutFull u lengths.head beatsIn.head
    CutInv keepBytes qs r.1 (lengths.readIf r.2.readPacket).past (beatsIn.readIf r.2.readData).past
      (data ++ r.2.data.toList) := by
  have hstay : CutInv keepBytes qs u (lengths.readIf false).past (beatsIn.readIf false).past
      (data ++ []) := by
    rw [List.append_nil]
    exact h
  obtain ⟨beats, due, dueData, hbeats, hphase, hthrough, hcut⟩ := h
  unfold cutData
  cases hu : u.state with
  | idle =>
    cases hlh : lengths.head with
    | none => exact hstay
    | some pkt =>
      obtain ⟨q, hq, rfl⟩ := exists_item ((lengths.past_snoc_prefix_sent hlh).trans hl)
      obtain ⟨hzero, hpos⟩ := hfit q (List.mem_of_getElem? hq)
      rw [CutPhase, hu] at hphase
      obtain ⟨rfl, rfl⟩ := hphase
      dsimp only
      rw [lengths.past_readIf_true hlh, Option.toList_none, List.append_nil]
      refine ⟨beats, q.through keepBytes, q.cut keepBytes, hbeats, ?_, ?_, ?_⟩
      · by_cases hw : q.lengths.wordCount = 0
        · rw [CutPhase, if_neg (not_not.mpr hw), Passage.cut, hzero hw]
          exact ⟨rfl, rfl⟩
        · rw [CutPhase, if_pos hw]
          exact ⟨hpos hw, hw, rfl⟩
      · rw [List.length_append]
        exact hthrough.start hq
      · rw [List.length_append]
        exact hcut.start hq
  | count =>
    have hwait : CutInv keepBytes qs
        { u with state := .count, dataBuf := (refill u.dataBuf beatsIn.head).1 }
        (lengths.readIf false).past (beatsIn.readIf (refill u.dataBuf beatsIn.head).2).past
        (data ++ []) := by
      rw [List.append_nil]
      rw [CutPhase, hu] at hphase
      exact ⟨beats, due, dueData, past_refill hbeats, hphase, hthrough, hcut⟩
    cases hbuf : u.dataBuf with
    | none =>
      rw [hbuf] at hwait
      exact hwait
    | some word =>
      cases dataOutFull with
      | true =>
        rw [hbuf] at hwait
        exact hwait
      | false =>
        rw [CutPhase, hu] at hphase
        obtain ⟨hpacket, hw, rfl⟩ := hphase
        cases due with
        | nil => exact absurd hpacket (by decide)
        | cons b due =>
          rw [hbuf, Option.toList_some] at hbeats
          obtain rfl : word = b := hthrough.register_eq (by
            rw [← hbeats]
            exact beatsIn.past_prefix_sent.trans hb)
          have hrefill := past_refill (s := beatsIn) (w := none) (by
            rw [hbeats, Option.toList_none, List.append_nil])
          have hnext := cutPhase_count hpacket hw (refill none beatsIn.head).1
          dsimp only at hnext ⊢
          by_cases h0 : u.pkt.wordCount - 1 = 0
          · rw [if_pos h0] at hnext
            rw [if_pos h0]
            rw [hnext.1] at hcut
            exact ⟨beats ++ [word], due, [], hrefill, hnext.2, hthrough.advance, hcut.advance⟩
          · rw [if_neg h0] at hnext
            rw [if_neg h0]
            obtain ⟨dueData, hdue, hphase⟩ := hnext
            rw [hdue] at hcut
            exact ⟨beats ++ [word], due, dueData, hrefill, hphase, hthrough.advance, hcut.advance⟩
  | consume =>
    rw [CutPhase, hu] at hphase
    obtain ⟨hpacket, rfl⟩ := hphase
    dsimp only
    rw [Option.toList_none, List.append_nil]
    cases hbuf : u.dataBuf with
    | none =>
      rw [hbuf] at hbeats
      exact ⟨beats, due, [], past_refill hbeats, ⟨hpacket, rfl⟩, hthrough, hcut⟩
    | some word =>
      cases due with
      | nil => exact absurd hpacket (by decide)
      | cons b due =>
        rw [hbuf, Option.toList_some] at hbeats
        obtain rfl : word = b := hthrough.register_eq (by
          rw [← hbeats]
          exact beatsIn.past_prefix_sent.trans hb)
        have hrefill := past_refill (s := beatsIn) (w := none) (by
          rw [hbeats, Option.toList_none, List.append_nil])
        refine ⟨beats ++ [word], due, [], hrefill, ?_, hthrough.advance, hcut⟩
        dsimp only
        by_cases hl : word.last = true
        · rw [CutPhase, if_pos hl, (isPacket_cons hpacket).1 hl]
          exact ⟨rfl, rfl⟩
        · rw [CutPhase, if_neg hl]
          exact ⟨(isPacket_cons hpacket).2 (Bool.not_eq_true _ ▸ hl), rfl⟩

/-! ### `crossbar` -/

variable {n : Nat}

/-- The engine of the packet the crossbar is copying. -/
def Crossbar.engine (n : Nat) (u : Crossbar) : Option (Fin n) :=
  engineOf n u.currentSteeringDecision

/-- What the crossbar owes in each of its states. -/
def CrossbarPhase (n : Nat) (u : Crossbar) (due : List AxiData) : Prop :=
  match u.state with
  | .idle => due = []
  | .stream => IsPacket due ∧ (u.engine n).isSome = true

/-- The crossbar took up as many packets as it read results and headers. -/
structure CrossbarInv (keepBytes : Nat → BitVec 32) (qs : List Passage) (u : Crossbar)
    (results : List FlowTableResult) (headersIn : List HeaderBuffer) (beats : List AxiData)
    (headers : Fin n → List HeaderBuffer) (decisions : Fin n → List FlowTableResult)
    (data : Fin n → List AxiData) : Prop where
  length_eq : results.length = headersIn.length
  headers_eq : ∀ e, headers e = ((qs.take results.length).filter (·.goesTo e)).map (·.frame.header)
  decisions_eq : ∀ e, decisions e = ((qs.take results.length).filter (·.goesTo e)).map (·.decided)
  owed : ∃ due, CrossbarPhase n u due ∧ Owed (·.cut keepBytes) qs results.length beats due ∧
    ∀ e, Owed (fun q => if q.goesTo e then q.cut keepBytes else []) qs results.length (data e)
      (if u.engine n = some e then due else [])

/-- A passage that reaches the crossbar has an engine, and its header says whether data follows. -/
structure Passage.Routed (n : Nat) (keepBytes : Nat → BitVec 32) (p : Passage) : Prop where
  pass : p.pass = true
  engine : (engineOf n p.decided).isSome = true
  empty : p.headers.udp.emptyPacket = true → p.cut keepBytes = []
  nonempty : p.headers.udp.emptyPacket = false → IsPacket (p.cut keepBytes)

/-- The part of an output that goes to engine `e`. -/
def sentTo {α : Type} (e : Fin n) : Option (Fin n × α) → List α
  | none => []
  | some (e', x) => if e' = e then [x] else []

theorem sent_putAt {α : Type} (f : Fin n → Fifo α) (o : Option (Fin n × α)) (e : Fin n) :
    (putAt f o e).sent = (f e).sent ++ sentTo e o := by
  cases o with
  | none => exact (List.append_nil _).symm
  | some o =>
    obtain ⟨e', x⟩ := o
    show (Function.update f e' ((f e').put (some x)) e).sent = _ ++ if e' = e then [x] else []
    by_cases he : e' = e
    · subst he
      rw [Function.update_self, Fifo.sent_put, if_pos rfl]
      rfl
    · rw [Function.update_of_ne (Ne.symm he), if_neg he, List.append_nil]

theorem past_putAt {α : Type} (f : Fin n → Fifo α) (o : Option (Fin n × α)) (e : Fin n) :
    (putAt f o e).past = (f e).past := by
  cases o with
  | none => rfl
  | some o =>
    obtain ⟨e', x⟩ := o
    show (Function.update f e' ((f e').put (some x)) e).past = _
    by_cases he : e' = e
    · subst he
      rw [Function.update_self, Fifo.past_put]
    · rw [Function.update_of_ne (Ne.symm he)]

theorem appendAt_eq {α : Type} (f : Fin n → List α) (o : Option (Fin n × α)) (e : Fin n) :
    appendAt f o e = f e ++ sentTo e o := by
  cases o with
  | none => exact (List.append_nil _).symm
  | some o =>
    obtain ⟨e', x⟩ := o
    show Function.update f e' (f e' ++ [x]) e = _ ++ if e' = e then [x] else []
    by_cases he : e' = e
    · subst he
      rw [Function.update_self, if_pos rfl]
    · rw [Function.update_of_ne (Ne.symm he), if_neg he, List.append_nil]

/-- The outputs for an engine grow by the packets that go to it. -/
theorem filter_goesTo_succ {γ : Type} (label : Passage → γ) {qs : List Passage} {k : Nat}
    {q : Passage} (hq : qs[k]? = some q) (hpass : q.pass = true) {e' : Fin n}
    (he' : engineOf n q.decided = some e') (e : Fin n) :
    ((qs.take (k + 1)).filter (·.goesTo e)).map label
      = ((qs.take k).filter (·.goesTo e)).map label ++ sentTo e (some (e', label q)) := by
  rw [take_succ_eq hq, List.filter_append, List.map_append]
  congr 1
  by_cases he : e' = e
  · simp [Passage.goesTo, hpass, he', he, sentTo]
  · simp [Passage.goesTo, hpass, he', he, sentTo]

theorem crossbarInv_crossbar {qs : List Passage} (hfit : ∀ q ∈ qs, q.Routed n keepBytes)
    (anyHdrOutFull dataOutFull : Bool) (garbage : HeaderBuffer) {u : Crossbar}
    {results : Fifo FlowTableResult} {headersIn : Fifo HeaderBuffer} {beatsIn : Fifo AxiData}
    {headers : Fin n → List HeaderBuffer} {decisions : Fin n → List FlowTableResult}
    {data : Fin n → List AxiData} (hr : results.sent <+: qs.map (·.decided))
    (hh : headersIn.sent <+: qs.map (·.frame.header))
    (hb : beatsIn.sent <+: qs.flatMap (·.cut keepBytes))
    (h : CrossbarInv keepBytes qs u results.past headersIn.past beatsIn.past headers decisions
      data) :
    let r := crossbar n anyHdrOutFull dataOutFull garbage u results.head headersIn.head beatsIn.head
    CrossbarInv keepBytes qs r.1 (results.readIf r.2.readResult).past
      (headersIn.readIf r.2.readHeader).past (beatsIn.readIf r.2.readData).past
      (fun e => headers e ++ sentTo e (r.2.header.map fun o => (o.1, o.2.1)))
      (fun e => decisions e ++ sentTo e (r.2.header.map fun o => (o.1, o.2.2)))
      (fun e => data e ++ sentTo e r.2.data) := by
  have hstay : CrossbarInv keepBytes qs u (results.readIf false).past (headersIn.readIf false).past
      (beatsIn.readIf false).past (fun e => headers e ++ []) (fun e => decisions e ++ [])
      (fun e => data e ++ []) := by
    simp only [List.append_nil]
    exact h
  obtain ⟨hlen, hheaders, hdecisions, due, hphase, hcut, hdata⟩ := h
  unfold crossbar
  cases hu : u.state with
  | idle =>
    cases hrh : results.head with
    | none => exact hstay
    | some r =>
      cases hhh : headersIn.head with
      | none => exact hstay
      | some hdr =>
        cases anyHdrOutFull with
        | true => exact hstay
        | false =>
          obtain ⟨q, hq, rfl⟩ := exists_item ((results.past_snoc_prefix_sent hrh).trans hr)
          obtain ⟨q', hq', rfl⟩ := exists_item ((headersIn.past_snoc_prefix_sent hhh).trans hh)
          obtain rfl : q = q' := by
            rw [← hlen, hq] at hq'
            exact Option.some.inj hq'
          have hfitq := hfit q (List.mem_of_getElem? hq)
          obtain ⟨e', he'⟩ := Option.isSome_iff_exists.mp hfitq.engine
          rw [CrossbarPhase, hu] at hphase
          subst hphase
          simp only [he', Option.isSome_some, if_true, Bool.false_eq_true, if_false,
            Option.map_some]
          rw [results.past_readIf_true hrh, headersIn.past_readIf_true hhh]
          refine ⟨?_, ?_, ?_, q.cut keepBytes, ?_, ?_, ?_⟩
          · rw [List.length_append, List.length_append, hlen]; rfl
          · intro e
            rw [List.length_append, hheaders]
            exact (filter_goesTo_succ (·.frame.header) hq hfitq.pass he' e).symm
          · intro e
            rw [List.length_append, hdecisions]
            exact (filter_goesTo_succ (·.decided) hq hfitq.pass he' e).symm
          · -- an empty packet is over at once
            have hudp : q.frame.header.parse.udp = q.headers.udp := rfl
            rw [hudp]
            cases hempty : q.headers.udp.emptyPacket with
            | true =>
              rw [CrossbarPhase, if_pos rfl]
              exact hfitq.empty hempty
            | false =>
              rw [CrossbarPhase, if_neg (by decide)]
              exact ⟨hfitq.nonempty hempty, hfitq.engine⟩
          · rw [List.length_append]
            exact hcut.start hq
          · intro e
            rw [List.length_append]
            have hdata' := hdata e
            rw [ite_self] at hdata'
            have hstart := hdata'.start hq
            have hgoes : q.goesTo e = true ↔ engineOf n q.decided = some e := by
              rw [Passage.goesTo, hfitq.pass, Bool.true_and, decide_eq_true_eq]
            have hsame : (if q.goesTo e = true then q.cut keepBytes else [])
                = if engineOf n q.decided = some e then q.cut keepBytes else [] :=
              if_congr hgoes rfl rfl
            rw [hsame] at hstart
            show Owed _ qs _ (data e ++ []) _
            rw [List.append_nil]
            exact hstart
  | stream =>
    rw [CrossbarPhase, hu] at hphase
    obtain ⟨hpacket, hengine⟩ := hphase
    obtain ⟨e', he'⟩ := Option.isSome_iff_exists.mp hengine
    have he : engineOf n u.currentSteeringDecision = some e' := he'
    rw [he]
    cases hbh : beatsIn.head with
    | none => exact hstay
    | some word =>
      cases dataOutFull with
      | true => exact hstay
      | false =>
        cases due with
        | nil => exact absurd hpacket (by decide)
        | cons b due =>
          obtain rfl : word = b := hcut.head_eq hb hbh
          refine ⟨hlen, fun e => (List.append_nil _).trans (hheaders e),
            fun e => (List.append_nil _).trans (hdecisions e), due, ?_, ?_, ?_⟩
          · show CrossbarPhase n { u with state := if word.last then .idle else .stream } due
            by_cases hl : word.last = true
            · rw [CrossbarPhase, hl]
              exact (isPacket_cons hpacket).1 hl
            · have hfalse : word.last = false := Bool.not_eq_true _ ▸ hl
              rw [CrossbarPhase, hfalse]
              exact ⟨(isPacket_cons hpacket).2 hfalse, hengine⟩
          · show Owed _ qs _ (beatsIn.readIf true).past due
            rw [beatsIn.past_readIf_true hbh]
            exact hcut.advance
          · intro e
            have hde := hdata e
            show Owed _ qs results.past.length (data e ++ if e' = e then [word] else [])
              (if u.engine n = some e then due else [])
            rw [he'] at hde ⊢
            by_cases hee : e' = e
            · have hsome : some e' = some e := by rw [hee]
              rw [if_pos hsome] at hde ⊢
              rw [if_pos hee]
              exact hde.advance
            · have hne : some e' ≠ some e := fun h => hee (Option.some.inj h)
              rw [if_neg hne] at hde ⊢
              rw [if_neg hee, List.append_nil]
              exact hde

end Nica.Hls.Udp
