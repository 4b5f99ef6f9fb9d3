import Nica.Hls.HostPath
import Nica.Hls.Equiv.CustomRxRing
import Nica.Hls.Equiv.NicaForward

/-!
# What leaves for the host

`Linked` says of the units behind the ikernel what it says in `NicaStep`: each has taken steps of its own only, and what
arrived at it is what the one before it has written, or what the link between them has read there (`linked_run`).

`Hosts` is what becomes of the packets of the ikernel: the custom ring sends one packet for each, as it has to leave; the
demultiplexer gives it to its traffic class; and what leaves are the packets of the classes and the raw frames, each
class in its order, and all of them once nothing can move (`hosts_run`).
-/

namespace Nica.Hls.HostPath

open Nica.Lib
open Nica.Hls.CustomRxRing (Aligned Counted Emission Emitted HeaderOf Served)
open Nica.Hls.NicaStep (isDemuxArrival)
open Nica.Hls.PassthroughWrapper (RawFrame allPackets)

variable {k : ℕ} {B : Merger AxiData} {C : Merger (BitVec 32)} {N : Arbiter.Ntl (k + 1)} {M : Merger AxiData}
  {cfg : Demux.Config} {keepBytes : ℕ → BitVec 32} {contexts : ℤ → RingContext} {sched : N.Sched}
  {s : State k B C N M}

/-! ### What the units have written -/

/-- What the custom ring has written stays. -/
theorem outputs_grow_ring (keepBytes : ℕ → BitVec 32) (s : CustomRxRing.State B C) (a : CustomRxRing.Act) :
    s.hdrOut.sent <+: (CustomRxRing.step keepBytes s a).hdrOut.sent ∧
      s.dataOut.sent <+: (CustomRxRing.step keepBytes s a).dataOut.sent := by
  have hsame : s.hdrOut.sent <+: s.hdrOut.sent ∧ s.dataOut.sent <+: s.dataOut.sent := ⟨List.prefix_rfl, List.prefix_rfl⟩
  cases a with
  | call c =>
    cases c with
    | ringHdrs command full =>
      simp only [CustomRxRing.step, CustomRxRing.call, CustomRxRing.ringHdrs]
      cases command with
      | some c => cases c <;> exact hsame
      | none =>
        cases hhead : (CustomRxRing.readUpdate s).hdrIn.head with
        | none => exact hsame
        | some m =>
          cases full with
          | true => exact hsame
          | false =>
            refine ⟨?_, List.prefix_rfl⟩
            show s.hdrOut.sent <+: (s.hdrOut.write _).sent
            rw [Fifo.sent_write]
            exact List.prefix_append _ _
    | reorderIcrc full =>
      refine ⟨List.prefix_rfl, ?_⟩
      show s.dataOut.sent <+: (s.dataOut.put _).sent
      rw [Fifo.sent_put]
      exact List.prefix_append _ _
    | _ => exact hsame
  | _ => exact hsame

/-- What the custom ring writes arrives at the demultiplexer, and nothing else happens. -/
theorem demux_arrivals (cfg : Demux.Config) (s : Demux.State) (ms : List Metadata) (bs : List AxiData) :
    run (Demux.step cfg) s (ms.map .arriveMeta ++ bs.map .arriveData) =
      { s with metadataIn := run Fifo.write s.metadataIn ms, dataIn := run Fifo.write s.dataIn bs } := by
  have hmetas : ∀ s : Demux.State, run (Demux.step cfg) s (ms.map .arriveMeta) =
      { s with metadataIn := run Fifo.write s.metadataIn ms } := by
    induction ms with
    | nil => exact fun _ => rfl
    | cons m ms ih => exact fun s => ih { s with metadataIn := s.metadataIn.write m }
  have hdata : ∀ s : Demux.State, run (Demux.step cfg) s (bs.map .arriveData) =
      { s with dataIn := run Fifo.write s.dataIn bs } := by
    induction bs with
    | nil => exact fun _ => rfl
    | cons b bs ih => exact fun s => ih { s with dataIn := s.dataIn.write b }
  rw [run_append, hmetas, hdata]

/-! ### The links -/

/-- Each unit has taken steps of its own, and what arrived at it is what the one before it has written, or what a link
has read. -/
structure Linked (cfg : Demux.Config) (keepBytes : ℕ → BitVec 32) (contexts : ℤ → RingContext) (sched : N.Sched)
    (s : State k B C N M) : Prop where
  ring : Reachable (CustomRxRing.step keepBytes) (CustomRxRing.State.init B C contexts) s.ring
  demux : Reachable (Demux.step cfg) Demux.State.init s.demux
  wrapper : Reachable (PassthroughWrapper.step keepBytes) (PassthroughWrapper.State.init M sched) s.wrapper
  metadataIn : s.demux.metadataIn.sent = s.ring.hdrOut.sent
  dataIn : s.demux.dataIn.sent = s.ring.dataOut.sent
  tcMeta : ∀ p : Fin k, (s.tcMeta p).sent = (s.demux.tcMeta p).sent
  tcData : ∀ p : Fin k, (s.tcData p).sent = (s.demux.tcData p).sent
  portMeta : ∀ p : Fin k, (s.wrapper.egress.arbiter.tcMeta p.castSucc).sent = (s.tcMeta p).past
  portData : ∀ p : Fin k, (s.wrapper.egress.arbiter.tcData p.castSucc).sent = (s.tcData p).past

theorem linked_init (cfg : Demux.Config) (keepBytes : ℕ → BitVec 32) (contexts : ℤ → RingContext) (sched : N.Sched) :
    Linked cfg keepBytes contexts sched (State.init B C M contexts sched : State k B C N M) where
  ring := .refl _ _
  demux := .refl _ _
  wrapper := .refl _ _
  metadataIn := rfl
  dataIn := rfl
  tcMeta _ := rfl
  tcData _ := rfl
  portMeta _ := rfl
  portData _ := rfl

theorem linked_ring (h : Linked cfg keepBytes contexts sched s) (a : CustomRxRing.Act) :
    Linked cfg keepBytes contexts sched (ringStep cfg keepBytes s a) := by
  obtain ⟨hmetas, hbeats⟩ := outputs_grow_ring keepBytes s.ring a
  have hdemux := demux_arrivals cfg s.demux
    ((CustomRxRing.step keepBytes s.ring a).hdrOut.sent.drop s.ring.hdrOut.sent.length)
    ((CustomRxRing.step keepBytes s.ring a).dataOut.sent.drop s.ring.dataOut.sent.length)
  refine { h with
    ring := h.ring.next a
    demux := h.demux.run _
    metadataIn := (congrArg (·.metadataIn.sent) hdemux).trans ?_
    dataIn := (congrArg (·.dataIn.sent) hdemux).trans ?_
    tcMeta := fun p => (h.tcMeta p).trans (congrArg (fun t => (t.tcMeta p).sent) hdemux).symm
    tcData := fun p => (h.tcData p).trans (congrArg (fun t => (t.tcData p).sent) hdemux).symm }
  · refine (NicaStep.sent_run_write _ _).trans ?_
    rw [h.metadataIn]
    exact Egress.append_drop_of_prefix hmetas
  · refine (NicaStep.sent_run_write _ _).trans ?_
    rw [h.dataIn]
    exact Egress.append_drop_of_prefix hbeats

theorem linked_demux (h : Linked cfg keepBytes contexts sched s) {a : Demux.Act} (ha : isDemuxArrival a = false) :
    Linked cfg keepBytes contexts sched (demuxStep cfg s a) := by
  obtain ⟨hmeta, hdata⟩ := NicaStep.sent_demux cfg s.demux ha
  refine { h with
    demux := h.demux.next a
    metadataIn := hmeta.trans h.metadataIn
    dataIn := hdata.trans h.dataIn
    tcMeta := fun p => ?_
    tcData := fun p => ?_
    portMeta := fun p => (h.portMeta p).trans (NicaStep.past_run_write _ _).symm
    portData := fun p => (h.portData p).trans (NicaStep.past_run_write _ _).symm }
  · refine (NicaStep.sent_run_write _ _).trans ?_
    rw [h.tcMeta p]
    exact Egress.append_drop_of_prefix (NicaStep.ports_grow_demux cfg s.demux a p).1
  · refine (NicaStep.sent_run_write _ _).trans ?_
    rw [h.tcData p]
    exact Egress.append_drop_of_prefix (NicaStep.ports_grow_demux cfg s.demux a p).2

theorem linked_linkTcMeta (h : Linked cfg keepBytes contexts sched s) (p : Fin k) (full : Bool) :
    Linked cfg keepBytes contexts sched (linkTcMeta keepBytes p full s) := by
  obtain ⟨hdata, hmeta⟩ := NicaStep.wrapper_arriveMeta keepBytes s.wrapper p (dup full (s.tcMeta p).head)
  refine { h with
    wrapper := h.wrapper.run _
    tcMeta := fun q => (sent_readLane _ _ _ _).trans (h.tcMeta q)
    portMeta := fun q => (congrArg (fun f => (f q.castSucc).sent) hmeta).trans ?_
    portData := fun q => (congrArg (fun f => (f q.castSucc).sent) hdata).trans (h.portData q) }
  show (putLane _ _ _ q.castSucc).sent = (readLane s.tcMeta p _ q).past
  rw [NicaStep.sent_putLane_castSucc, NicaStep.past_readLane, h.portMeta q]

theorem linked_linkTcData (h : Linked cfg keepBytes contexts sched s) (p : Fin k) (full : Bool) :
    Linked cfg keepBytes contexts sched (linkTcData keepBytes p full s) := by
  obtain ⟨hmeta, hdata⟩ := NicaStep.wrapper_arriveData keepBytes s.wrapper p (dup full (s.tcData p).head)
  refine { h with
    wrapper := h.wrapper.run _
    tcData := fun q => (sent_readLane _ _ _ _).trans (h.tcData q)
    portMeta := fun q => (congrArg (fun f => (f q.castSucc).sent) hmeta).trans (h.portMeta q)
    portData := fun q => (congrArg (fun f => (f q.castSucc).sent) hdata).trans ?_ }
  show (putLane _ _ _ q.castSucc).sent = (readLane s.tcData p _ q).past
  rw [NicaStep.sent_putLane_castSucc, NicaStep.past_readLane, h.portData q]

theorem isTcArrival_eq (a : PassthroughWrapper.Act k) : NicaStep.isTcArrival (.wrapper a) = isTcArrival a := by
  cases a with
  | egress a =>
    cases a with
    | arbiter a => cases a <;> rfl
    | builder c => rfl
  | _ => rfl

theorem linked_wrapper (h : Linked cfg keepBytes contexts sched s) {a : PassthroughWrapper.Act k}
    (ha : isTcArrival a = false) :
    Linked cfg keepBytes contexts sched { s with wrapper := PassthroughWrapper.step keepBytes s.wrapper a } := by
  have hports := NicaStep.samePorts_wrapper keepBytes s.wrapper ((isTcArrival_eq a).trans ha)
  exact { h with
    wrapper := h.wrapper.next a
    portMeta := fun p => (hports p).1.trans (h.portMeta p)
    portData := fun p => (hports p).2.trans (h.portData p) }

theorem linked_step (h : Linked cfg keepBytes contexts sched s) (a : Act k) :
    Linked cfg keepBytes contexts sched (step cfg keepBytes s a) := by
  cases a with
  | ring a => exact linked_ring h a
  | demux a =>
    cases ha : isDemuxArrival a with
    | true => rw [step, ha]; exact h
    | false => rw [step, ha]; exact linked_demux h ha
  | tcMeta p full => exact linked_linkTcMeta h p full
  | tcData p full => exact linked_linkTcData h p full
  | wrapper a =>
    cases ha : isTcArrival a with
    | true => rw [step, ha]; exact h
    | false => rw [step, ha]; exact linked_wrapper h ha

theorem linked_run (cfg : Demux.Config) (keepBytes : ℕ → BitVec 32) (contexts : ℤ → RingContext) (sched : N.Sched)
    (acts : List (Act k)) :
    Linked cfg keepBytes contexts sched
      (run (step cfg keepBytes) (State.init B C M contexts sched : State k B C N M) acts) :=
  run_invariant (P := Linked cfg keepBytes contexts sched) (fun _ a h => linked_step h a) acts _
    (linked_init cfg keepBytes contexts sched)

/-! ### The packets that the custom ring sends -/

/-- A packet that the ikernel can hand over: the builder has room for its headers, and if it is for a ring the custom
ring can encapsulate it. -/
structure Outgoing (p : Packet) : Prop where
  udp : Builder.isUdp p = true
  length_le : p.metadata.ringId = 0 → p.metadata.length.toNat ≤ 65527
  ring : p.metadata.ringId ≠ 0 → Counted p ∧ Aligned p ∧ p.metadata.length.toNat ≤ 65511

/-- The packet that the custom ring sends for another one, with the context that it was given. -/
structure Sent (p : Packet) (q : Served × Packet) : Prop where
  header : HeaderOf p.metadata q.1 q.2.metadata
  emitted : Emitted p ⟨q.1, q.2.metadata, q.2.beats⟩

/-- What is sent is a packet: for a ring it has the bytes of the header and of the trailer at least. -/
theorem framed_of_emitted {p : Packet} {e : Emission} (h : Emitted p e) :
    if e.metadata.emptyPacket then e.beats = [] else IsPacket e.beats := by
  unfold Emitted at h
  by_cases hring : p.metadata.ringId = 0
  · rw [if_pos hring] at h
    rw [h.1, h.2]
    exact p.framed
  · rw [if_neg hring] at h
    obtain ⟨bth, pad, trailer, hbytes, hbth, htrailer, -⟩ := h.bytes
    have hlen := h.length
    rw [hbytes] at hlen
    simp only [List.length_append, hbth, htrailer] at hlen
    have hne : e.metadata.emptyPacket = false := by
      rw [Metadata.emptyPacket, beq_eq_false_iff_ne]
      intro hzero
      have hnat : e.metadata.length.toNat = 0 := by rw [hzero]; rfl
      omega
    rw [hne, if_neg Bool.false_ne_true]
    exact h.isPacket

theorem Sent.udpPacket {p : Packet} {q : Served × Packet} (h : Sent p q) (hp : Outgoing p) :
    PassthroughWrapper.UdpPacket q.2 := by
  have hheader := h.header
  unfold HeaderOf at hheader
  by_cases hring : p.metadata.ringId = 0
  · rw [if_pos hring] at hheader
    rw [PassthroughWrapper.UdpPacket, Builder.isUdp, hheader]
    exact ⟨hp.udp, hp.length_le hring⟩
  · rw [if_neg hring] at hheader
    obtain ⟨source, hm⟩ := hheader
    obtain ⟨-, haligned, hle⟩ := hp.ring hring
    rw [PassthroughWrapper.UdpPacket, Builder.isUdp, hm]
    refine ⟨hp.udp, ?_⟩
    -- no padding is counted
    have hpad := CustomRxRing.toNat_padCount p.metadata.length
    rw [haligned.multiple] at hpad
    have hsum : (CustomRxRing.ringMetadata source q.1.context
        (p.metadata.length + (CustomRxRing.padCount p.metadata.length).setWidth 16) p.metadata).length.toNat =
        (p.metadata.length.toNat + (CustomRxRing.padCount p.metadata.length).toNat + 16) % 65536 := by
      simp [CustomRxRing.ringMetadata, BitVec.toNat_add, CustomRxRing.ibBthBytes]
    omega

theorem udpPacket_of_sent {ps : List Packet} {qs : List (Served × Packet)} (h : List.Forall₂ Sent ps qs)
    (hps : ∀ p ∈ ps, Outgoing p) : ∀ q ∈ qs, PassthroughWrapper.UdpPacket q.2 := by
  induction h with
  | nil =>
    intro q hq
    cases hq
  | @cons p q ps qs hpq _ ih =>
    intro r hr
    rcases List.mem_cons.mp hr with rfl | hr
    · exact hpq.udpPacket (hps p (List.mem_cons_self ..))
    · exact ih (fun p hp => hps p (List.mem_cons_of_mem _ hp)) r hr

/-- The emissions of the custom ring as packets. -/
theorem exists_packets {ps : List Packet} {es : List Emission}
    (h : List.Forall₂ (fun p e => HeaderOf p.metadata e.served e.metadata ∧ Emitted p e) ps es) :
    ∃ qs : List (Served × Packet), List.Forall₂ Sent ps qs ∧
      qs.map (fun q => ⟨q.1, q.2.metadata, q.2.beats⟩) = es := by
  induction h with
  | nil => exact ⟨[], .nil, rfl⟩
  | @cons p e ps es hpe _ ih =>
    obtain ⟨qs, hqs, rfl⟩ := ih
    obtain ⟨hheader, hemitted⟩ := hpe
    exact ⟨(e.served, ⟨e.metadata, e.beats, framed_of_emitted hemitted⟩) :: qs, .cons ⟨hheader, hemitted⟩ hqs, rfl⟩

/-! ### The traffic classes -/

/-- The packets of one traffic class. -/
def classPackets (cfg : Demux.Config) (pkts : List Packet) (p : Fin k) : List Packet :=
  lane (Demux.cls cfg) pkts p.val

/-- What the ports of the ikernels get are the packets of their classes. -/
theorem ikernelInput_classPackets (hlinked : Linked cfg keepBytes contexts sched s) {pkts : List Packet}
    (hrouted : Demux.Routed cfg pkts s.demux) : PassthroughWrapper.IkernelInput (classPackets cfg pkts) s.wrapper := by
  intro p
  constructor
  · rw [hlinked.portMeta]
    apply (Fifo.past_prefix_sent _).trans
    rw [hlinked.tcMeta, hrouted.tcMeta]
    exact (lane_take_prefix_lane _ _ _ _).map _
  · rw [hlinked.portData]
    apply (Fifo.past_prefix_sent _).trans
    rw [hlinked.tcData, hrouted.tcData, classPackets, ← lane_flatMap_tag]
    exact (lane_take_prefix_lane _ _ _ _).map _

/-! ### Nothing can move -/

/-- All packets and frames have arrived, and no unit has anything left to do. -/
structure AtRest (cfg : Demux.Config) (keepBytes : ℕ → BitVec 32) (ps : List Packet) (frames : List RawFrame)
    (s : State k B C N M) : Prop where
  ring : CustomRxRing.Finished keepBytes ps s.ring
  demux : Demux.Settled cfg s.demux
  tcMeta : ∀ p, (s.tcMeta p).head = none
  tcData : ∀ p, (s.tcData p).head = none
  wrapper : PassthroughWrapper.WrapperDone frames s.wrapper
  arbiter : Arbiter.Quiet s.wrapper.egress.arbiter
  builder : Builder.Settled keepBytes s.wrapper.egress.builder

/-- Then the ports of the ikernels have got everything that the custom ring has sent for them. -/
theorem AtRest.classPackets_arrived {ps : List Packet} {frames : List RawFrame}
    (hrest : AtRest cfg keepBytes ps frames s) (hlinked : Linked cfg keepBytes contexts sched s) {pkts : List Packet}
    (hrouted : Demux.Routed cfg pkts s.demux) (hmeta : s.ring.hdrOut.sent = pkts.map Packet.metadata)
    (hdata : s.ring.dataOut.sent = pkts.flatMap Packet.beats) (p : Fin k) :
    (s.wrapper.egress.arbiter.tcMeta p.castSucc).sent = (classPackets cfg pkts p).map Packet.metadata ∧
      (s.wrapper.egress.arbiter.tcData p.castSucc).sent = (classPackets cfg pkts p).flatMap Packet.beats := by
  obtain ⟨hmetas, hbeats⟩ := hrouted.settled hrest.demux (hlinked.metadataIn.trans hmeta)
    (hlinked.dataIn.trans hdata) p.val
  constructor
  · rw [hlinked.portMeta, Fifo.past_eq_sent _ (hrest.tcMeta p), hlinked.tcMeta, hmetas, classPackets]
  · rw [hlinked.portData, Fifo.past_eq_sent _ (hrest.tcData p), hlinked.tcData, hbeats, classPackets]

/-! ### The host -/

/-- What becomes of the packets `ps` of the ikernel and of the raw frames: `qs` are the packets that the custom ring
sends with the contexts that it gives them, and `order` is the order in which the packets of all ports leave. -/
structure Hosts (cfg : Demux.Config) (keepBytes : ℕ → BitVec 32) (merge : Merger.Job AxiData → List AxiData)
    (ps : List Packet) (frames : List RawFrame) (s : State k B C N M) (qs : List (Served × Packet))
    (order : List (Fin (k + 1) × Packet)) : Prop where
  sent : List.Forall₂ Sent ps qs
  /-- The packets that were taken so far got these contexts. -/
  contexts : s.ring.served <+: qs.map Prod.fst
  /-- Each packet has its traffic class. -/
  class_lt : ∀ q ∈ qs, Demux.cls cfg q.2 < k
  /-- The packets of a port that have left so far are the first of those that were sent for it. -/
  ports : ∀ p, Arbiter.ofPort p order <+: allPackets frames (classPackets cfg (qs.map Prod.snd)) p
  out : s.wrapper.egress.builder.out <+: order.flatMap fun q => Builder.transmitted keepBytes merge q.2
  /-- In the end each has left exactly once. -/
  complete : AtRest cfg keepBytes ps frames s →
    (∀ p, Arbiter.ofPort p order = allPackets frames (classPackets cfg (qs.map Prod.snd)) p) ∧
      s.wrapper.egress.builder.out = order.flatMap fun q => Builder.transmitted keepBytes merge q.2

/-- In every run on packets that can be handed over, with any contexts of the rings, any commands of the gateway, any
order of the calls and any stalls, the packets go to the host. -/
theorem hosts_run {mergeBth merge : Merger.Job AxiData → List AxiData} {mergeIcrc : Merger.Job (BitVec 32) → List AxiData}
    (hB : B.Concatenates IsPacket mergeBth) (hpushB : PushesHeader mergeBth)
    (hC : C.Concatenates (·.length = 1) mergeIcrc) (hpushC : PushesSuffix mergeIcrc) (hM : M.Concatenates IsPacket merge)
    (hN : N.Lawful) (hwork : N.WorkConserving) (hkeep : keepBytes 12 = Udp.leadingKeep 12) (hcfg : cfg.Valid)
    (hports : cfg.numPorts = k) (contexts : ℤ → RingContext) (sched : N.Sched) (ps : List Packet)
    (frames : List RawFrame) (hps : ∀ p ∈ ps, Outgoing p) (acts : List (Act k))
    (hdel : CustomRxRing.Delivers ps
      (run (step cfg keepBytes) (State.init B C M contexts sched : State k B C N M) acts).ring)
    (hin : PassthroughWrapper.Input frames
      (run (step cfg keepBytes) (State.init B C M contexts sched : State k B C N M) acts).wrapper) :
    ∃ qs order, Hosts cfg keepBytes merge ps frames
      (run (step cfg keepBytes) (State.init B C M contexts sched : State k B C N M) acts) qs order := by
  have hlinked := linked_run (B := B) (C := C) (N := N) (M := M) cfg keepBytes contexts sched acts
  generalize run (step cfg keepBytes) (State.init B C M contexts sched : State k B C N M) acts = s at hdel hin hlinked ⊢
  have hinv : CustomRxRing.Inv keepBytes s.ring := by
    obtain ⟨ringActs, hring⟩ := hlinked.ring
    rw [hring]
    exact CustomRxRing.inv_run contexts ringActs
  obtain ⟨es, hes, hserved, hmetas, hbeats, hfinished⟩ := CustomRxRing.exists_sent hB hpushB hC hpushC hkeep
    (fun p hp hring => ((hps p hp).ring hring).1) (fun p hp hring => ((hps p hp).ring hring).2.1) hinv hdel
  obtain ⟨qs, hqs, rfl⟩ := exists_packets hes
  rw [List.map_map] at hserved hmetas
  rw [List.flatMap_map] at hbeats
  have hmetadata : (qs.map Prod.snd).map Packet.metadata = qs.map fun q => q.2.metadata := List.map_map
  have hdata : (qs.map Prod.snd).flatMap Packet.beats = qs.flatMap fun q => q.2.beats := List.flatMap_map ..
  -- what the demultiplexer gets are the packets that the custom ring sends
  have hdemux : Demux.Delivers (qs.map Prod.snd) s.demux := by
    rw [Demux.Delivers, hmetadata, hdata, hlinked.metadataIn, hlinked.dataIn]
    exact ⟨hmetas, hbeats⟩
  have hrouted := Demux.routed_of_reachable hcfg hlinked.demux hdemux
  have hudp : ∀ p : Fin k, ∀ q ∈ classPackets cfg (qs.map Prod.snd) p, PassthroughWrapper.UdpPacket q := by
    intro p q hq
    obtain ⟨r, hr, rfl⟩ := List.mem_map.mp (List.mem_of_mem_filter hq)
    exact udpPacket_of_sent hqs hps r hr
  obtain ⟨order, hdeparts⟩ := Egress.exists_departs hM hN hwork (PassthroughWrapper.reachable_egress hlinked.wrapper)
    (PassthroughWrapper.sendable_allPackets frames hudp)
    (PassthroughWrapper.delivers_allPackets hin hlinked.wrapper (ikernelInput_classPackets hlinked hrouted))
  refine ⟨qs, order, {
    sent := hqs
    contexts := hserved
    class_lt := fun q hq => hports ▸ hrouted.port_lt q.2 (List.mem_map_of_mem hq)
    ports := hdeparts.order
    out := hdeparts.out
    complete := fun hrest => ?_ }⟩
  obtain ⟨hhdr, hbeats⟩ := hfinished hrest.ring
  rw [List.map_map] at hhdr
  rw [List.flatMap_map] at hbeats
  have harrived := hrest.classPackets_arrived hlinked hrouted (hhdr.trans hmetadata.symm) (hbeats.trans hdata.symm)
  exact hdeparts.complete hrest.arbiter hrest.builder
    (PassthroughWrapper.arrived_allPackets hin hlinked.wrapper hrest.wrapper harrived)

/-! ### A run -/

/-- A ring without anything to read is settled. -/
theorem ring_settled {t : CustomRxRing.State B C} (hhdr : t.hdrIn.head = none ∧ t.metadataUpdates.head = none)
    (hflags : t.enableStream.head = none ∧ t.emptyPacket.head = none)
    (hbth : B.reorder t.pushBth t.bth.head t.emptyPacketBth.head t.enableBth.head t.dataIn.head false =
      (t.pushBth, ⟨false, false, false, false, none⟩))
    (hicrc : C.reorder t.pushIcrc t.icrc.head t.emptyPacketIcrc.head t.enableIcrc.head t.dataBthToIcrc.head false =
      (t.pushIcrc, ⟨false, false, false, false, none⟩)) : CustomRxRing.Settled keepBytes t := by
  obtain ⟨hin, hupdates⟩ := hhdr
  obtain ⟨henable, hempty⟩ := hflags
  refine ⟨?_, ?_, ?_, ?_, ?_⟩
  · simp [CustomRxRing.ringHdrs, CustomRxRing.readUpdate, hin, hupdates, Fifo.readIf]
  · simp [CustomRxRing.dupEnable, henable, dup, Fifo.readIf]
  · simp [CustomRxRing.dupEmpty, hempty, dup, Fifo.readIf]
  · simp [CustomRxRing.reorderBth, CustomRxRing.State.bthMerger, Merger.step, hbth, Fifo.readIf]
  · simp [CustomRxRing.reorderIcrc, CustomRxRing.State.icrcMerger, Merger.step, hicrc, Fifo.readIf]

/-- A packet of four bytes on a ring, and one of a byte that is for no ring. -/
def twoPackets : List Packet := [CustomRxRing.shortPacket 1 3, CustomRxRing.shortPacket 0 0]

theorem outgoing_twoPackets : ∀ p ∈ twoPackets, Outgoing p := by
  intro p hp
  simp only [twoPackets, List.mem_cons, List.not_mem_nil, or_false] at hp
  rcases hp with rfl | rfl
  · have hcounted : Counted (CustomRxRing.shortPacket 1 3) :=
      ⟨.inr ⟨[], _, 4, rfl, by simp, rfl, by decide, by decide⟩, by decide⟩
    exact ⟨by decide, fun h => absurd h (by decide), fun _ => ⟨hcounted, ⟨by decide, by decide, by decide⟩, by decide⟩⟩
  · exact ⟨by decide, fun _ => by decide, fun h => absurd rfl h⟩

/-- Each unit between the custom ring and the arbiter is called once. -/
def demuxRound : List (Act 1) :=
  [.demux (.dupMeta false), .demux (.portSelector false), .demux (.dupPorts false), .demux (.demuxMeta false),
    .demux (.demuxData false), .tcMeta NicaStep.ikernel false, .tcData NicaStep.ikernel false]

/-- The arbiter serves the ports once more. -/
def serveRound : List (Arbiter.Act 2) :=
  let go : Arbiter.TxMetaStalls := ⟨false, false, false⟩
  [.updatePeek, .schedulePorts false, .schedulePorts false, .pickNextPacket none false, .pickNextPacket none false] ++
    List.replicate 6 (.txMeta go) ++ List.replicate 6 (.txData false)

/-- The packets and a raw frame arrive and leave. -/
def twoPacketsActs : List (Act 1) :=
  (CustomRxRing.actsFor twoPackets).map .ring ++
    ((PassthroughWrapper.frameOfId 0).beats.map fun w => .wrapper (.arriveRaw w)) ++
    [.wrapper (.arrivePass true), .wrapper (.wrapperStep false), .wrapper (.wrapperStep false)] ++
    (List.replicate 6 demuxRound).flatten ++
    ((List.replicate 2 serveRound).flatten.map fun a => .wrapper (.egress (.arbiter a))) ++
    ((List.replicate 6 (.hdrToMlx false) ++ List.replicate 12 (.reorder false) ++
      (List.replicate 12 [.joinPacketMetadata false, .link false, .pad false]).flatten : List Builder.Call).map
      fun c => .wrapper (.egress (.builder c)))

def twoPacketsEnd : State 1 buffering bufferingSuffix (Arbiter.roundRobin 2 64) buffering :=
  run (step NicaStep.twoClasses Udp.leadingKeep)
    (State.init buffering bufferingSuffix buffering (fun _ => ⟨1, 2, 3, 4⟩) []) twoPacketsActs

instance : DecidableEq bufferingSuffix.Reg := inferInstanceAs (DecidableEq (Buffered (BitVec 32)))

/-- All units wait in the end. -/
theorem atRest_twoPackets : AtRest NicaStep.twoClasses Udp.leadingKeep twoPackets [PassthroughWrapper.frameOfId 0]
    twoPacketsEnd where
  ring := {
    settled := by
      apply ring_settled
      all_goals decide +kernel
    metas := by decide +kernel
    data := by decide +kernel }
  demux := by
    apply NicaStep.demux_settled
    all_goals decide +kernel
  tcMeta := by decide +kernel
  tcData := by decide +kernel
  wrapper := ⟨by decide +kernel, by decide +kernel, by decide +kernel⟩
  arbiter := by
    constructor
    all_goals decide +kernel
  builder := by
    apply NicaStep.builder_settled
    all_goals decide +kernel

/-- The packets and the frame leave, each as two beats. -/
theorem hosts_run_twoPackets :
    (∃ qs order, Hosts NicaStep.twoClasses Udp.leadingKeep pushHeader twoPackets [PassthroughWrapper.frameOfId 0]
      twoPacketsEnd qs order) ∧
      AtRest NicaStep.twoClasses Udp.leadingKeep twoPackets [PassthroughWrapper.frameOfId 0] twoPacketsEnd ∧
      twoPacketsEnd.wrapper.egress.builder.out.length = 6 := by
  have hdel : CustomRxRing.Delivers twoPackets twoPacketsEnd.ring := ⟨by decide +kernel, by decide +kernel⟩
  have hin : PassthroughWrapper.Input [PassthroughWrapper.frameOfId 0] twoPacketsEnd.wrapper :=
    ⟨by decide +kernel, by decide +kernel⟩
  refine ⟨?_, atRest_twoPackets, by decide +kernel⟩
  rw [twoPacketsEnd] at hdel hin ⊢
  exact hosts_run concatenates_buffering pushesHeader_pushHeader concatenates_bufferingSuffix pushesSuffix_pushSuffix
    concatenates_buffering (Arbiter.lawful_roundRobin 2 64) (PassthroughWrapper.workConserving_roundRobin 2 64) rfl
    NicaStep.twoClasses_valid rfl _ [] twoPackets [PassthroughWrapper.frameOfId 0] outgoing_twoPackets twoPacketsActs
    hdel hin

end Nica.Hls.HostPath
