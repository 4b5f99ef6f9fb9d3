import Nica.Hls.Echo
import Nica.Hls.Passthrough
import Nica.Hls.Equiv.MemcachedConservation
import Nica.Hls.Equiv.PktgenBounds
import Nica.Hls.Equiv.ThresholdPipeline

/-!
# Ikernels and empty packets

A packet without data has a metadata of length 0 and no beat (`Packet`).  The units of the ikernels read a metadata, or
a decision about it, and then a packet of data, whatever the length in the metadata.  So if no packet is empty they
process every metadata with its own data, in every run, and an empty one takes the data of the next packet.
-/

namespace Nica.Hls

open Nica.Lib

/-! ### `echo` -/

namespace Echo

/-- A metadata is processed with its own data. -/
def OwnData (packets : List Packet) (s : State) : Prop :=
  Hls.OwnData Packet.beats packets s.netMetadata.past.length (s.state = .metadata) s.netData.past

structure Inv (packets : List Packet) (s : State) : Prop where
  netMetadata : s.netMetadata.sent = packets.map Packet.metadata
  netData : s.netData.sent = packets.flatMap Packet.beats
  reading : Reading Packet.beats packets s.netMetadata.past.length (s.state = .metadata) s.netData.past

variable {packets : List Packet} {s : State}

theorem inv_init (packets : List Packet) :
    Inv packets (State.init (packets.map Packet.metadata) (packets.flatMap Packet.beats)) where
  netMetadata := rfl
  netData := rfl
  reading := .zero _ _ rfl

theorem last_firstBeat (canTransmit : Bool) (d : AxiData) (s : State) : (firstBeat canTransmit d s).1.last = d.last := by
  unfold firstBeat
  dsimp only
  split <;> rfl

/-- A beat of the packet is read, whatever is sent back. -/
theorem Inv.sendBack (h : Inv packets s) (hs : s.state = .data) {d b : AxiData} (hd : s.netData.head = some d)
    (hlast : b.last = d.last) : Inv packets (Echo.sendBack b s) where
  netMetadata := h.netMetadata
  netData := (Fifo.sent_readIf _ _).trans h.netData
  reading := by
    refine h.reading.read (by rw [hs]; decide) (h.netData ▸ List.prefix_rfl) hd ?_
    show (if b.last then EchoState.metadata else .data) = .metadata ↔ _
    rw [hlast]
    cases d.last <;> decide

theorem Inv.packet (hne : NoneEmpty packets) (h : Inv packets s) (canTransmit : Bool) :
    Inv packets (Echo.packet canTransmit s) := by
  unfold Echo.packet
  cases hs : s.state with
  | metadata =>
    cases hm : s.netMetadata.head with
    | none => exact h
    | some m =>
      obtain ⟨p, hp, -⟩ := exists_packet (by rw [h.netMetadata]) hm
      constructor
      · exact (Fifo.sent_readIf _ _).trans h.netMetadata
      · exact h.netData
      · show Reading _ _ (s.netMetadata.readIf true).past.length _ _
        rw [s.netMetadata.length_past_readIf_true hm]
        exact h.reading.start hs hp (hne.isPacket p (List.mem_of_getElem? hp)) (fun h => by cases h)
  | data =>
    cases hd : s.netData.head with
    | none => exact h
    | some d =>
      dsimp only
      split
      · exact Inv.sendBack (s := (firstBeat canTransmit d s).2) { h with } hs hd (last_firstBeat canTransmit d s)
      · exact h.sendBack hs hd rfl

theorem Inv.step (hne : NoneEmpty packets) (h : Inv packets s) : ∀ a : Act, Inv packets (Echo.step s a)
  | .pipeline canTransmit =>
    Inv.packet hne (s := { s with
      respondToSockperf := s.respondToSockperfUpdate.head.getD s.respondToSockperf
      respondToSockperfUpdate := s.respondToSockperfUpdate.readIf true }) { h with } canTransmit
  | .regWrite full value => by
    show Inv packets (if full then s else _)
    split
    · exact h
    · exact { h with }

theorem inv_run (hne : NoneEmpty packets) (acts : List Act) :
    Inv packets (run step (State.init (packets.map Packet.metadata) (packets.flatMap Packet.beats)) acts) :=
  run_invariant (P := Inv packets) (fun _ a h => h.step hne a) acts _ (inv_init packets)

end Echo

/-! ### `passthrough` -/

namespace Passthrough

/-- The data is read for the decision on its own metadata. -/
structure OwnData (packets : List Packet) (s : State) : Prop where
  decisions : s.decisions.sent.length = s.netMetadata.past.length
  dropper : Hls.OwnData Packet.beats packets s.decisions.past.length (s.dropper.state = .decision) s.netData.past

structure Inv (packets : List Packet) (s : State) : Prop where
  netMetadata : s.netMetadata.sent = packets.map Packet.metadata
  netData : s.netData.sent = packets.flatMap Packet.beats
  decisions : s.decisions.sent.length = s.netMetadata.past.length
  reading : Reading Packet.beats packets s.decisions.past.length (s.dropper.state = .decision) s.netData.past

variable {packets : List Packet} {s : State}

theorem Inv.length_decisions (h : Inv packets s) : s.decisions.sent.length ≤ packets.length := by
  have hle := s.netMetadata.past_prefix_sent.length_le
  rw [h.netMetadata, List.length_map] at hle
  exact h.decisions.le.trans hle

theorem inv_init (packets : List Packet) :
    Inv packets (State.init (packets.map Packet.metadata) (packets.flatMap Packet.beats)) where
  netMetadata := rfl
  netData := rfl
  decisions := rfl
  reading := .zero _ _ rfl

theorem Inv.interceptIn (h : Inv packets s) (i : InterceptIn) : Inv packets (Passthrough.interceptIn i s) := by
  unfold Passthrough.interceptIn
  split
  · exact { h with }
  · cases hm : s.netMetadata.head with
    | none => exact h
    | some m =>
      dsimp only
      split
      · exact h
      · constructor
        · exact (Fifo.sent_readIf _ _).trans h.netMetadata
        · exact h.netData
        · show (s.decisions.write _).sent.length = (s.netMetadata.readIf true).past.length
          rw [s.netMetadata.length_past_readIf_true hm, Fifo.sent_write, List.length_append, List.length_singleton,
            h.decisions]
        · exact h.reading

theorem Inv.filter (hne : NoneEmpty packets) (h : Inv packets s) : Inv packets (Passthrough.filter s) where
  netMetadata := h.netMetadata
  netData := (Fifo.sent_readIf _ _).trans h.netData
  decisions := (congrArg List.length (Fifo.sent_readIf _ _)).trans h.decisions
  reading := h.reading.filter hne.isPacket h.length_decisions (h.netData ▸ List.prefix_rfl)

theorem Inv.step (hne : NoneEmpty packets) (h : Inv packets s) : ∀ a : Act, Inv packets (Passthrough.step s a)
  | .interceptIn i => h.interceptIn i
  | .filter => h.filter hne

theorem inv_run (hne : NoneEmpty packets) (acts : List Act) :
    Inv packets (run step (State.init (packets.map Packet.metadata) (packets.flatMap Packet.beats)) acts) :=
  run_invariant (P := Inv packets) (fun _ a h => h.step hne a) acts _ (inv_init packets)

theorem Inv.ownData (h : Inv packets s) : OwnData packets s where
  decisions := h.decisions
  dropper := h.reading.ownData

end Passthrough

/-! ### `pktgen` -/

namespace Pktgen

variable {S : Scheduler (BitVec 6)}

/-- A packet from the host is recorded from its own data. -/
def OwnData (packets : List Packet) (s : State S) : Prop :=
  Hls.OwnData Packet.beats packets s.metadataInput.past.length (s.state ≠ .inputPacket) s.dataInput.past

variable {packets : List Packet} {s : State S}

/-- Packets with data, without the convention on their length. -/
theorem exists_datagrams (hne : NoneEmpty packets) :
    ∃ ps : List Datagram, ps.map Datagram.metadata = packets.map Packet.metadata ∧
      ps.map Datagram.beats = packets.map Packet.beats := by
  induction packets with
  | nil => exact ⟨[], rfl, rfl⟩
  | cons p packets ih =>
    obtain ⟨ps, hm, hb⟩ := ih fun q hq => hne q (List.mem_cons_of_mem p hq)
    refine ⟨⟨p.metadata, p.beats, hne.isPacket p (List.mem_cons_self ..)⟩ :: ps, ?_, ?_⟩
    · rw [List.map_cons, List.map_cons, hm]
    · rw [List.map_cons, List.map_cons, hb]

theorem ownData_of_arrived (hne : NoneEmpty packets) (burst dataLength : BitVec 6 → BitVec 32) (acts : List Act)
    (hmeta : (run step (State.init S burst dataLength) acts).metadataInput.sent <+: packets.map Packet.metadata)
    (hdata : (run step (State.init S burst dataLength) acts).dataInput.sent <+: packets.flatMap Packet.beats) :
    OwnData packets (run step (State.init S burst dataLength) acts) := by
  obtain ⟨ps, hm, hb⟩ := exists_datagrams hne
  have hbeats : ∀ n, (ps.take n).flatMap Datagram.beats = (packets.take n).flatMap Packet.beats := by
    intro n
    rw [List.flatMap_def, List.flatMap_def, List.map_take, List.map_take, hb]
  have hreceiving : Input ps (run step (State.init S burst dataLength) acts) →
      ∃ due, Receiving ps (run step (State.init S burst dataLength) acts) due := by
    apply run_invariant (P := fun s => Input ps s → ∃ due, Receiving ps s due)
    · intro s a ih h
      obtain ⟨due, hrec⟩ := ih h.of_step
      exact receiving_step hrec h.of_step a
    · intro _
      exact ⟨[], receiving_init burst dataLength⟩
  obtain ⟨due, howed, hresting, -⟩ := hreceiving ⟨hm ▸ hmeta, by rw [List.flatMap_def, hb, ← List.flatMap_def]; exact hdata⟩
  rw [Owed, hbeats] at howed
  refine ⟨⟨due, howed⟩, fun hidle => ?_⟩
  rw [hresting hidle, List.append_nil] at howed
  exact howed

end Pktgen

/-! ### `memcached` -/

namespace Memcached

variable {z : Sizes}

/-- The state before anything has moved, with packets of any length on the two ports. -/
def State.ofPackets (cells : BitVec 64 → BitVec 512) (logSize : BitVec 6 → ℕ) (ringId : BitVec 6 → RingId)
    (packets hosted : List Packet) : State z :=
  { State.init cells logSize ringId [] [] with
    netMetadata := ⟨[], packets.map Packet.metadata⟩
    netData := ⟨[], packets.flatMap Packet.beats⟩
    hostMetadata := ⟨[], hosted.map Packet.metadata⟩
    hostData := ⟨[], hosted.flatMap Packet.beats⟩ }

/-- The parser, the dropper and the way to the network process every metadata with its own data. -/
structure OwnData (packets hosted : List Packet) (s : State z) : Prop where
  parser : Hls.OwnData Packet.beats packets s.parserMetadata.past.length (s.parser.inState = .metadata)
    s.parserData.past
  actions : s.packetAction.sent.length = s.bufferMetadata.past.length
  dropper : Hls.OwnData Packet.beats packets s.packetAction.past.length (s.dropper.state = .metadata) s.bufferData.past
  interceptor : Hls.OwnData Packet.beats hosted s.hostMetadata.past.length (s.interceptor.outState = .metadata)
    s.hostData.past

structure Inv (packets hosted : List Packet) (s : State z) : Prop where
  netMetadata : s.netMetadata.sent = packets.map Packet.metadata
  netData : s.netData.sent = packets.flatMap Packet.beats
  hostMetadata : s.hostMetadata.sent = hosted.map Packet.metadata
  hostData : s.hostData.sent = hosted.flatMap Packet.beats
  parserMetadata : s.parserMetadata.sent = s.netMetadata.past
  bufferMetadata : s.bufferMetadata.sent = s.netMetadata.past
  parserData : s.parserData.sent = s.netData.past
  bufferData : s.bufferData.sent = s.netData.past
  parser : Reading Packet.beats packets s.parserMetadata.past.length (s.parser.inState = .metadata) s.parserData.past
  actions : s.packetAction.sent.length = s.bufferMetadata.past.length
  dropper : Reading Packet.beats packets s.packetAction.past.length (s.dropper.state = .metadata) s.bufferData.past
  interceptor : Reading Packet.beats hosted s.hostMetadata.past.length (s.interceptor.outState = .metadata)
    s.hostData.past

variable {packets hosted : List Packet} {s : State z}

theorem inv_init (cells : BitVec 64 → BitVec 512) (logSize : BitVec 6 → ℕ) (ringId : BitVec 6 → RingId)
    (packets hosted : List Packet) :
    Inv packets hosted (State.ofPackets cells logSize ringId packets hosted : State z) where
  netMetadata := rfl
  netData := rfl
  hostMetadata := rfl
  hostData := rfl
  parserMetadata := rfl
  bufferMetadata := rfl
  parserData := rfl
  bufferData := rfl
  parser := .zero _ _ rfl
  actions := rfl
  dropper := .zero _ _ rfl
  interceptor := .zero _ _ rfl

namespace Inv

theorem parserMetadata_le (h : Inv packets hosted s) : s.parserMetadata.sent.length ≤ packets.length := by
  rw [h.parserMetadata, ← List.length_map Packet.metadata, ← h.netMetadata]
  exact s.netMetadata.past_prefix_sent.length_le

theorem packetAction_le (h : Inv packets hosted s) : s.packetAction.sent.length ≤ packets.length := by
  rw [h.actions]
  refine s.bufferMetadata.past_prefix_sent.length_le.trans ?_
  rw [h.bufferMetadata, ← List.length_map Packet.metadata, ← h.netMetadata]
  exact s.netMetadata.past_prefix_sent.length_le

theorem parserData_prefix (h : Inv packets hosted s) : s.parserData.sent <+: packets.flatMap Packet.beats := by
  rw [h.parserData, ← h.netData]
  exact s.netData.past_prefix_sent

theorem bufferData_prefix (h : Inv packets hosted s) : s.bufferData.sent <+: packets.flatMap Packet.beats := by
  rw [h.bufferData, ← h.netData]
  exact s.netData.past_prefix_sent

end Inv

theorem metadata_iff_last (last : Bool) :
    (if last then PacketState.metadata else .data) = .metadata ↔ last = true := by
  cases last <;> decide

theorem readingCall_parsePacket (full : Bool) (u : Parser z) (m : Option Metadata) (d : Option AxiData) :
    ReadingCall (u.inState = .metadata) ((parsePacket full u m d).1.inState = .metadata) m d
      (parsePacket full u m d).2.readMetadata (parsePacket full u m d).2.readData := by
  have hlook : ∀ b, (u.look b).inState = u.inState := by
    intro b
    unfold Parser.look
    split <;> rfl
  unfold parsePacket
  cases hu : u.inState with
  | metadata =>
    cases m with
    | none => exact .inl ⟨rfl, rfl, by simp only [hu]⟩
    | some m => exact .inr (.inl ⟨m, rfl, rfl, rfl, rfl, fun h => by cases h⟩)
  | data =>
    cases d with
    | none => exact .inl ⟨rfl, rfl, by simp only [hu]⟩
    | some b =>
      dsimp only
      split
      · exact .inl ⟨rfl, rfl, by simp only [hu]⟩
      · right; right
        refine ⟨b, rfl, (fun h => by cases h), ?_⟩
        split
        · rename_i hl
          exact ⟨rfl, rfl, iff_of_true rfl hl⟩
        · rename_i hl
          exact ⟨rfl, rfl, iff_of_false (by rw [hlook, hu]; decide) hl⟩

theorem readingCall_dropOrPass (setData : List Byte → AxiData) (u : Dropper) (a : Option PacketAction)
    (d : Option AxiData) :
    ReadingCall (u.state = .metadata) ((dropOrPass setData u a d).1.state = .metadata) a d
      (dropOrPass setData u a d).2.readAction (dropOrPass setData u a d).2.readData := by
  unfold dropOrPass
  cases hu : u.state with
  | metadata =>
    cases a with
    | none => exact .inl ⟨rfl, rfl, by simp only [hu]⟩
    | some a => exact .inr (.inl ⟨a, rfl, rfl, rfl, rfl, fun h => by cases h⟩)
  | data =>
    cases d with
    | none => exact .inl ⟨rfl, rfl, by simp only [hu]⟩
    | some b => exact .inr (.inr ⟨b, rfl, (fun h => by cases h), rfl, rfl, metadata_iff_last b.last⟩)

theorem readingCall_interceptOut (i : InterceptIn) (u : Interceptor z) (m : Option Metadata) (d : Option AxiData) :
    ReadingCall (u.outState = .metadata) ((interceptOut i u m d).1.outState = .metadata) m d
      (interceptOut i u m d).2.readMetadata (interceptOut i u m d).2.readData := by
  unfold interceptOut
  cases hu : u.outState with
  | metadata =>
    cases m with
    | none => exact .inl ⟨rfl, rfl, by simp only [hu]⟩
    | some m =>
      dsimp only
      split
      · exact .inl ⟨rfl, rfl, by simp only [hu]⟩
      · exact .inr (.inl ⟨m, rfl, rfl, rfl, rfl, fun h => by cases h⟩)
  | data =>
    cases d with
    | none => exact .inl ⟨rfl, rfl, by simp only [hu]⟩
    | some b =>
      dsimp only
      split
      · exact .inl ⟨rfl, rfl, by simp only [hu]⟩
      · exact .inr (.inr ⟨b, rfl, (fun h => by cases h), rfl, rfl, metadata_iff_last b.last⟩)

theorem Inv.actionResolution (h : Inv packets hosted s) (i : ActionIn) :
    Inv packets hosted (s.actionResolution i) := by
  unfold State.actionResolution
  cases hcall : Memcached.actionResolution i s.ringId s.bufferMetadata.head s.actionStream.head with
  | none => exact { h with }
  | some x =>
    have hm : ∃ m, s.bufferMetadata.head = some m := by
      cases hm : s.bufferMetadata.head with
      | some m => exact ⟨m, rfl⟩
      | none =>
        rw [hm] at hcall
        cases hcall
    obtain ⟨m, hm⟩ := hm
    refine { h with bufferMetadata := ?_, actions := ?_ }
    · exact (Fifo.sent_pop _).trans h.bufferMetadata
    · show (s.packetAction.write _).sent.length = (s.bufferMetadata.readIf true).past.length
      rw [s.bufferMetadata.length_past_readIf_true hm, Fifo.sent_write, List.length_append, List.length_singleton,
        h.actions]

theorem Inv.step (hpackets : NoneEmpty packets) (hhosted : NoneEmpty hosted) (setData : List Byte → AxiData)
    (h : Inv packets hosted s) (a : Act) : Inv packets hosted (Memcached.step setData s a) := by
  cases a with
  | dupMetadata full =>
    refine { h with netMetadata := ?_, parserMetadata := ?_, bufferMetadata := ?_ }
    · exact (Fifo.sent_readIf _ _).trans h.netMetadata
    · show (s.parserMetadata.put _).sent = _
      rw [Fifo.sent_put, h.parserMetadata]
      exact (past_readIf_dup _ _).symm
    · show (s.bufferMetadata.put _).sent = _
      rw [Fifo.sent_put, h.bufferMetadata]
      exact (past_readIf_dup _ _).symm
  | dupData full =>
    refine { h with netData := ?_, parserData := ?_, bufferData := ?_ }
    · exact (Fifo.sent_readIf _ _).trans h.netData
    · show (s.parserData.put _).sent = _
      rw [Fifo.sent_put, h.parserData]
      exact (past_readIf_dup _ _).symm
    · show (s.bufferData.put _).sent = _
      rw [Fifo.sent_put, h.bufferData]
      exact (past_readIf_dup _ _).symm
  | parsePacket full =>
    exact { h with
      parserMetadata := (Fifo.sent_readIf _ _).trans h.parserMetadata
      parserData := (Fifo.sent_readIf _ _).trans h.parserData
      parser := h.parser.call hpackets.isPacket h.parserMetadata_le h.parserData_prefix
        (readingCall_parsePacket full s.parser _ _) }
  | handleParsedPacket i =>
    show Inv packets hosted (s.handleParsedPacket i)
    unfold State.handleParsedPacket
    cases Memcached.handleParsedPacket i s.kvPairs.head s.reqPrs2mem.head with
    | none => exact { h with }
    | insert kv => exact { h with }
    | request r => exact { h with }
  | memory => exact { h with }
  | handleMemoryResponses i =>
    show Inv packets hosted (s.handleMemoryResponses i)
    rcases s.handleMemoryResponses_cases i with heq | ⟨r, heq⟩ | ⟨r, f, cache, -, heq⟩
    · rw [heq]
      exact h
    · rw [heq]
      exact { h with }
    · rw [heq]
      exact { h with }
  | actionResolution i => exact h.actionResolution i
  | dropOrPass =>
    exact { h with
      bufferData := (Fifo.sent_readIf _ _).trans h.bufferData
      actions := (congrArg List.length (Fifo.sent_readIf _ _)).trans h.actions
      dropper := h.dropper.call hpackets.isPacket h.packetAction_le h.bufferData_prefix
        (readingCall_dropOrPass setData s.dropper _ _) }
  | replyCachedValue m2Full d2Full => exact { h with }
  | interceptOut i =>
    have hmetas : s.hostMetadata.sent.length ≤ hosted.length := by
      rw [h.hostMetadata, List.length_map]
    exact { h with
      hostMetadata := (Fifo.sent_readIf _ _).trans h.hostMetadata
      hostData := (Fifo.sent_readIf _ _).trans h.hostData
      interceptor := h.interceptor.call hhosted.isPacket hmetas (by rw [h.hostData])
        (readingCall_interceptOut i s.interceptor _ _) }
  | arbitrate => exact { h with }
  | updateStats update =>
    cases update with
    | true => exact h
    | false => exact { h with }

theorem inv_run (hpackets : NoneEmpty packets) (hhosted : NoneEmpty hosted) (setData : List Byte → AxiData)
    (cells : BitVec 64 → BitVec 512) (logSize : BitVec 6 → ℕ) (ringId : BitVec 6 → RingId) (acts : List Act) :
    Inv packets hosted
      (run (Memcached.step setData) (State.ofPackets cells logSize ringId packets hosted : State z) acts) :=
  run_invariant (P := Inv packets hosted) (fun _ a h => h.step hpackets hhosted setData a) acts _
    (inv_init cells logSize ringId packets hosted)

theorem Inv.ownData (h : Inv packets hosted s) : OwnData packets hosted s where
  parser := h.parser.ownData
  actions := h.actions
  dropper := h.dropper.ownData
  interceptor := h.interceptor.ownData

end Memcached

/-! ### The ikernels -/

/-- **Own data**: if no packet is empty, every metadata is processed with its own data, in every run of each of the
ikernels. -/
theorem ownData_run {packets hosted : List Packet} (hpackets : NoneEmpty packets) (hhosted : NoneEmpty hosted) :
    (∀ acts, Echo.OwnData packets
      (run Echo.step (.init (packets.map Packet.metadata) (packets.flatMap Packet.beats)) acts)) ∧
    (∀ acts, Passthrough.OwnData packets
      (run Passthrough.step (.init (packets.map Packet.metadata) (packets.flatMap Packet.beats)) acts)) ∧
    (∀ (N : ContextManager ThresholdContext) (contexts : N.Table) (acts : List Threshold.Act),
      Threshold.OwnData packets
        (run Threshold.step (.init contexts (packets.map Packet.metadata) (packets.flatMap Packet.beats)) acts)) ∧
    (∀ (S : Scheduler (BitVec 6)) (burst dataLength : BitVec 6 → BitVec 32) (acts : List Pktgen.Act),
      (run Pktgen.step (.init S burst dataLength) acts).metadataInput.sent <+: hosted.map Packet.metadata →
      (run Pktgen.step (.init S burst dataLength) acts).dataInput.sent <+: hosted.flatMap Packet.beats →
      Pktgen.OwnData hosted (run Pktgen.step (.init S burst dataLength) acts)) ∧
    ∀ (z : Memcached.Sizes) (setData : List Memcached.Byte → AxiData) (cells : BitVec 64 → BitVec 512)
      (logSize : BitVec 6 → ℕ) (ringId : BitVec 6 → RingId) (acts : List Memcached.Act),
      Memcached.OwnData packets hosted
        (run (Memcached.step setData) (.ofPackets cells logSize ringId packets hosted : Memcached.State z) acts) :=
  ⟨fun acts => (Echo.inv_run hpackets acts).reading.ownData,
    fun acts => (Passthrough.inv_run hpackets acts).ownData,
    fun _ contexts acts => (Threshold.inv_run contexts hpackets acts).ownData,
    fun _ burst dataLength acts => Pktgen.ownData_of_arrived hhosted burst dataLength acts,
    fun _ setData cells logSize ringId acts =>
      (Memcached.inv_run hpackets hhosted setData cells logSize ringId acts).ownData⟩

/-- A packet of one beat, and one without data. -/
def onePacket : Packet where
  metadata := { Memcached.noMetadata with length := 32 }
  beats := [⟨0, -1, true⟩]
  framed := by decide +kernel

def noPacket : Packet where
  metadata := Memcached.noMetadata
  beats := []
  framed := Packet.framed_nil rfl

/-- The packets that have data are echoed from their own data. -/
theorem ownData_run_onePacket :
    Echo.OwnData [onePacket, onePacket]
      (run Echo.step (.init [onePacket.metadata, onePacket.metadata] (onePacket.beats ++ onePacket.beats))
        (List.replicate 3 (.pipeline true))) := by
  have hne : NoneEmpty [onePacket, onePacket] := by
    intro p hp
    rcases List.mem_cons.mp hp with rfl | hp
    · decide
    · rw [List.mem_singleton.mp hp]
      decide
  exact (ownData_run hne hne).1 _

theorem OwnData.length_eq {ι : Type} {f : ι → List AxiData} {items : List ι} {n : ℕ} {idle : Prop} {done : List AxiData}
    (h : OwnData f items n idle done) (hi : idle) : done.length = ((items.take n).flatMap f).length :=
  congrArg List.length (h.between hi)

/-- An empty packet and one with data: each of the ikernels reads the beat of the second one for the first metadata. -/
theorem not_ownData_noPacket :
    ¬Echo.OwnData [noPacket, onePacket]
      (run Echo.step (.init [noPacket.metadata, onePacket.metadata] onePacket.beats) (List.replicate 2 (.pipeline true))) ∧
    ¬Passthrough.OwnData [noPacket, onePacket]
      (run Passthrough.step (.init [noPacket.metadata, onePacket.metadata] onePacket.beats)
        [.interceptIn ⟨none, false, true, false⟩, .filter]) ∧
    ¬Threshold.OwnData (N := .plain ThresholdContext) [noPacket, onePacket]
      (run Threshold.step (.init (fun _ => .init) [noPacket.metadata, onePacket.metadata] onePacket.beats)
        [.dup false, .parser false, .netIngress none ⟨fun _ => 0, fun _ => 0⟩ false]) ∧
    ¬Pktgen.OwnData [noPacket, onePacket]
      (run Pktgen.step (.init (Scheduler.inTurn (BitVec 6) 100) (fun _ => 1) fun _ => 0)
        [.arriveMetadata noPacket.metadata, .arriveMetadata onePacket.metadata, .arriveData ⟨0, -1, true⟩,
          .dataPlane true]) ∧
    ¬Memcached.OwnData [noPacket, onePacket] []
      (run (Memcached.step fun _ => ⟨0, 0, false⟩)
        (.ofPackets (fun _ => 0) (fun _ => 0) (fun _ => 0) [noPacket, onePacket] [] : Memcached.State ⟨1, 1, by decide, by decide⟩)
        [.dupMetadata false, .dupData false, .parsePacket false, .parsePacket false]) := by
  refine ⟨?_, ?_, ?_, ?_, ?_⟩
  · intro h
    exact absurd (OwnData.length_eq h (by decide +kernel)) (by decide +kernel)
  · intro h
    exact absurd (h.dropper.length_eq (by decide +kernel)) (by decide +kernel)
  · intro h
    exact absurd (congrArg List.length h.values) (by decide +kernel)
  · intro h
    exact absurd (OwnData.length_eq h (by decide +kernel)) (by decide +kernel)
  · intro h
    exact absurd (h.parser.length_eq (by decide +kernel)) (by decide +kernel)

end Nica.Hls
