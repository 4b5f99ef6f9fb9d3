import Nica.Hls.Equiv.NicaFrames
import Nica.Hls.Equiv.NicaStep

/-!
# From the network port to the network port

`Forwards` is what one direction of the NIC does with the frames that arrive: what leaves is made of frames, each of
them one that arrived and was not dropped, with the bytes of `Ingress.bytes`; the frames of a traffic class leave in
their order; and once nothing can move, each has left exactly once.  `forwards_run` proves it of every run, from the
streams between the units (`linked_run`) and what each unit does with them.
-/

namespace Nica.Hls.NicaStep

open Nica.Lib
open Nica.Hls.Steering (Arrival)

variable {k : ℕ} {E : Steering.EnumFirst} {first : E.Reg → Prop} {N : Arbiter.Ntl (k + 1)} {M : Merger AxiData}
  {cfg : Demux.Config} {keepBytes : ℕ → BitVec 32} {table : FlowTable.Table} {sched : N.Sched}
  {s : State k E N M} {xs : List (Ingress table)}

/-! ### The frames of a traffic class -/

/-- The frames for the ikernel. -/
def toIkernel (xs : List (Ingress table)) : List (Ingress table) :=
  xs.filter (·.arrival.destination table = .ikernel)

/-- The frames that are not dropped. -/
def forwarded (xs : List (Ingress table)) : List (Ingress table) :=
  xs.filter (·.arrival.destination table ≠ .nowhere)

/-- The packets of the frames of one traffic class. -/
def classPackets (cfg : Demux.Config) (keepBytes : ℕ → BitVec 32) (xs : List (Ingress table)) (c : ℕ) : List Packet :=
  (lane (·.trafficClass cfg) (forwarded xs) c).map (·.packet keepBytes)

/-- The packets for each port of the arbiter. -/
def portPackets (cfg : Demux.Config) (keepBytes : ℕ → BitVec 32) (xs : List (Ingress table)) (p : Fin (k + 1)) :
    List Packet :=
  classPackets cfg keepBytes xs p.val

theorem portPackets_last (hports : cfg.numPorts = k) (keepBytes : ℕ → BitVec 32) (xs : List (Ingress table)) :
    portPackets cfg keepBytes xs (Fin.last k) = classPackets cfg keepBytes xs cfg.numPorts := by
  rw [portPackets, Fin.val_last, hports]

theorem trafficClass_lt_iff (hcfg : cfg.Valid) (x : Ingress table) :
    x.trafficClass cfg < cfg.numPorts ↔ x.arrival.destination table = .ikernel := by
  rw [Ingress.trafficClass]
  split_ifs with h
  · exact iff_of_true (hcfg.trafficClass_lt _) h
  · exact iff_of_false (Nat.lt_irrefl _) h

theorem trafficClass_le (hcfg : cfg.Valid) (x : Ingress table) : x.trafficClass cfg ≤ cfg.numPorts := by
  rw [Ingress.trafficClass]
  split_ifs
  · exact (hcfg.trafficClass_lt _).le
  · exact Nat.le_refl _

/-- The classes below the last one are those of the ikernel. -/
theorem lane_forwarded_lt (hcfg : cfg.Valid) {c : ℕ} (hc : c < cfg.numPorts) :
    lane (·.trafficClass cfg) (forwarded xs) c = lane (·.trafficClass cfg) (toIkernel xs) c := by
  rw [lane, lane, forwarded, toIkernel, List.filter_filter, List.filter_filter]
  apply List.filter_congr
  intro x _
  by_cases hx : x.trafficClass cfg = c
  · have hik : x.arrival.destination table = .ikernel := (trafficClass_lt_iff hcfg x).mp (hx ▸ hc)
    simp [hx, hik]
  · simp [hx]

/-- The last class is that of the raw frames. -/
theorem lane_forwarded_last (hcfg : cfg.Valid) :
    lane (·.trafficClass cfg) (forwarded xs) cfg.numPorts = xs.filter (·.arrival.destination table = .raw) := by
  rw [lane, forwarded, List.filter_filter]
  apply List.filter_congr
  intro x _
  have hiff := trafficClass_lt_iff hcfg x
  cases hx : x.arrival.destination table with
  | ikernel =>
    have hlt := hiff.mpr hx
    simp [hlt.ne]
  | raw =>
    have hlast : x.trafficClass cfg = cfg.numPorts := by simp [Ingress.trafficClass, hx]
    simp [hlast]
  | nowhere => simp

theorem cls_packet {x : Ingress table} (hx : x.arrival.destination table = .ikernel) :
    Demux.cls cfg (x.packet keepBytes) = x.trafficClass cfg := by
  have hdecided := Steering.decided_of_ikernel table x.arrival hx
  rw [Demux.cls, (packet_of_ikernel x keepBytes hx).1, Ingress.trafficClass, if_pos hx, ← hdecided]
  rfl

/-- The demultiplexer gives each class the packets of its frames. -/
theorem lane_packets (hcfg : cfg.Valid) {c : ℕ} (hc : c < cfg.numPorts) :
    lane (Demux.cls cfg) ((toIkernel xs).map (·.packet keepBytes)) c = classPackets cfg keepBytes xs c := by
  rw [lane_map, classPackets, lane_forwarded_lt hcfg hc]
  congr 1
  apply List.filter_congr
  intro x hx
  have hik := of_decide_eq_true (List.mem_filter.mp hx).2
  rw [Function.comp_apply, cls_packet hik]

/-! ### What each unit gets -/

/-- The frames for the ikernel have lengths that agree, and an engine. -/
theorem fits_of_ingress (htable : Steering.EnginesBelow 1 table) (keepBytes : ℕ → BitVec 32) (xs : List (Ingress table)) :
    Steering.Fits 1 keepBytes table (xs.map (·.arrival)) := by
  have hmem : ∀ p ∈ Udp.passing (Steering.passages table (xs.map (·.arrival))), p.InFrame ∧ p.pass = true ∧
      (Udp.engineOf 1 p.decided).isSome = true := by
    intro p hp
    rw [Steering.passages, Steering.passing_passages] at hp
    obtain ⟨a, ha, rfl⟩ := List.mem_map.mp hp
    obtain ⟨hmem, hdest⟩ := List.mem_filter.mp ha
    obtain ⟨x, -, rfl⟩ := List.mem_map.mp hmem
    have hx := of_decide_eq_true hdest
    have hengine := htable.isSome_engine hx
    rw [Arrival.engine, ← Steering.decided_of_ikernel table x.arrival hx] at hengine
    exact ⟨x.inFrame hx, x.pass hx, hengine⟩
  exact ⟨fun p hp => (hmem p hp).1.counted (hmem p hp).2.1,
    fun p hp => (hmem p hp).1.routed (hmem p hp).2.1 (hmem p hp).2.2⟩

/-- The only ikernel gets all of them. -/
theorem deliveredTo_ikernel (htable : Steering.EnginesBelow 1 table) (xs : List (Ingress table)) :
    Udp.deliveredTo ikernel (Steering.passages table (xs.map (·.arrival))) =
      (toIkernel xs).map fun x => x.arrival.passage table := by
  have hpassing : Udp.passing (Steering.passages table (xs.map (·.arrival))) =
      (toIkernel xs).map fun x => x.arrival.passage table := by
    rw [Steering.passages, Steering.passing_passages, Steering.sentTo, List.filter_map, List.map_map]
    rfl
  rw [Udp.deliveredTo, hpassing, List.filter_eq_self]
  intro p hp
  obtain ⟨x, hx, rfl⟩ := List.mem_map.mp hp
  have hik := of_decide_eq_true (List.mem_filter.mp hx).2
  have hengine := htable.isSome_engine hik
  rw [Arrival.engine, ← Steering.decided_of_ikernel table x.arrival hik] at hengine
  obtain ⟨e, he⟩ := Option.isSome_iff_exists.mp hengine
  have hzero : e = ikernel := Subsingleton.elim _ _
  rw [Udp.Passage.goesTo, x.pass hik]
  exact decide_eq_true (he.trans (congrArg some hzero))

theorem map_metadata_packets (keepBytes : ℕ → BitVec 32) (xs : List (Ingress table)) :
    ((toIkernel xs).map fun x => x.arrival.passage table).map (·.metadata) =
      ((toIkernel xs).map (·.packet keepBytes)).map Packet.metadata := by
  rw [List.map_map, List.map_map]
  apply List.map_congr_left
  intro x hx
  exact (packet_of_ikernel x keepBytes (of_decide_eq_true (List.mem_filter.mp hx).2)).1.symm

theorem flatMap_cut_packets (keepBytes : ℕ → BitVec 32) (xs : List (Ingress table)) :
    ((toIkernel xs).map fun x => x.arrival.passage table).flatMap (·.cut keepBytes) =
      ((toIkernel xs).map (·.packet keepBytes)).flatMap Packet.beats := by
  rw [List.flatMap_map, List.flatMap_map]
  apply List.flatMap_congr
  intro x hx
  exact (packet_of_ikernel x keepBytes (of_decide_eq_true (List.mem_filter.mp hx).2)).2.symm

/-- What the demultiplexer gets are the packets of the frames for the ikernel. -/
theorem demux_delivers (htable : Steering.EnginesBelow 1 table) (hlinked : Linked cfg keepBytes table sched s)
    (hwhole : Steering.Whole keepBytes table (xs.map (·.arrival)) s.steering) :
    Demux.Delivers ((toIkernel xs).map (·.packet keepBytes)) s.demux := by
  have hmeta := hwhole.metadata_prefix ikernel
  have hdata := hwhole.data_prefix ikernel
  rw [deliveredTo_ikernel htable] at hmeta hdata
  rw [map_metadata_packets keepBytes, ← hlinked.metadataIn] at hmeta
  rw [flatMap_cut_packets keepBytes, ← hlinked.dataIn] at hdata
  constructor
  · rw [hlinked.counted]
    exact (Fifo.past_prefix_sent _).trans (hlinked.metadata.out_prefix.trans hmeta)
  · have hstream : s.data.bufInput.sent <+: s.dataUdpToIkernel.sent := by
      rw [hlinked.axiStream]
      exact Fifo.past_prefix_sent _
    rw [hlinked.copied]
    exact (Fifo.past_prefix_sent _).trans (hlinked.data.out_prefix.trans (hstream.trans hdata))

/-- The invariants of the steering hold of the steering in its place. -/
theorem invs_of_linked (hE : E.Marks first) (htable : Steering.EnginesBelow 1 table)
    (hin : Steering.Input (xs.map (·.arrival)) s.steering) (hlinked : Linked cfg keepBytes table sched s) :
    Steering.Chain first keepBytes table sched s.steering ∧
      Steering.Alone keepBytes table (xs.map (·.arrival)) s.steering ∧
      Steering.Whole keepBytes table (xs.map (·.arrival)) s.steering := by
  obtain ⟨steps, hsteps⟩ := hlinked.steering
  rw [hsteps] at hin ⊢
  exact Steering.whole_of_run hE (fits_of_ingress htable keepBytes xs) steps hin

/-- The raw frames are those that the wrapper forwards. -/
theorem sentTo_raw (table : FlowTable.Table) (xs : List (Ingress table)) :
    Steering.sentTo table .raw (xs.map (·.arrival)) =
      (xs.filter (·.arrival.destination table = .raw)).map (·.arrival) := by
  rw [Steering.sentTo, List.filter_map]
  rfl

theorem packet_of_mem_raw {x : Ingress table} (hx : x ∈ xs.filter (·.arrival.destination table = .raw)) :
    x.packet keepBytes = x.rawFrame.packet := by
  apply packet_of_raw
  rw [of_decide_eq_true (List.mem_filter.mp hx).2]
  intro h
  cases h

theorem metadata_classPackets_last (hcfg : cfg.Valid) (keepBytes : ℕ → BitVec 32) (xs : List (Ingress table)) :
    (classPackets cfg keepBytes xs cfg.numPorts).map Packet.metadata =
      (Steering.sentTo table .raw (xs.map (·.arrival))).map fun x =>
        PassthroughWrapper.rawMetadata (BitVec.ofNat 16 x.wire.length) := by
  rw [classPackets, lane_forwarded_last hcfg, sentTo_raw, List.map_map, List.map_map]
  apply List.map_congr_left
  intro x hx
  exact congrArg Packet.metadata (packet_of_mem_raw hx)

theorem beats_classPackets_last (hcfg : cfg.Valid) (keepBytes : ℕ → BitVec 32) (xs : List (Ingress table)) :
    (classPackets cfg keepBytes xs cfg.numPorts).flatMap Packet.beats =
      (Steering.sentTo table .raw (xs.map (·.arrival))).flatMap fun x => x.wire.map PassthroughWrapper.rawToData := by
  rw [classPackets, lane_forwarded_last hcfg, sentTo_raw, List.flatMap_map, List.flatMap_map]
  apply List.flatMap_congr
  intro x hx
  exact congrArg Packet.beats (packet_of_mem_raw hx)

/-- What each port of the arbiter gets are the packets of the frames of its class. -/
theorem arbiter_delivers (hcfg : cfg.Valid) (hports : cfg.numPorts = k) (htable : Steering.EnginesBelow 1 table)
    (hin : Steering.Input (xs.map (·.arrival)) s.steering) (hlinked : Linked cfg keepBytes table sched s)
    (hchain : Steering.Chain first keepBytes table sched s.steering)
    (halone : Steering.Alone keepBytes table (xs.map (·.arrival)) s.steering)
    (hwhole : Steering.Whole keepBytes table (xs.map (·.arrival)) s.steering) :
    Arbiter.Delivers (portPackets cfg keepBytes xs) s.steering.wrapper.egress.arbiter := by
  intro p
  induction p using Fin.lastCases with
  | last =>
    obtain ⟨due, hturn⟩ := PassthroughWrapper.exists_turn hchain.wrapper (Steering.framed_arrivals _)
      (Steering.fed_wrapper hin hchain halone)
    rw [portPackets_last hports, metadata_classPackets_last hcfg, beats_classPackets_last hcfg]
    refine ⟨hturn.metas_prefix, ?_⟩
    rw [← Steering.flatMap_written]
    exact hturn.data_prefix
  | cast p =>
    have hrouted := Demux.routed_of_reachable hcfg hlinked.demux (demux_delivers htable hlinked hwhole)
    have hlt : p.val < cfg.numPorts := hports ▸ p.isLt
    rw [portPackets, Fin.val_castSucc, ← lane_packets hcfg hlt]
    constructor
    · rw [hlinked.portMeta]
      apply (Fifo.past_prefix_sent _).trans
      rw [hlinked.tcMeta, hrouted.tcMeta]
      exact (lane_take_prefix_lane _ _ _ _).map _
    · rw [hlinked.portData]
      apply (Fifo.past_prefix_sent _).trans
      rw [hlinked.tcData, hrouted.tcData, ← lane_flatMap_tag]
      exact (lane_take_prefix_lane _ _ _ _).map _

/-! ### Nothing can move -/

/-- All frames have arrived, and no unit has anything left to do. -/
structure AtRest (cfg : Demux.Config) (keepBytes : ℕ → BitVec 32) (xs : List (Ingress table)) (s : State k E N M) :
    Prop where
  steering : Steering.AtRest (xs.map (·.arrival)) s.steering
  dataUdpToIkernel : s.dataUdpToIkernel.head = none
  metadata : s.metadata.Empty
  data : s.data.Empty
  metadataOutput : (s.wrapper.metadataOutput ikernel).head = none
  dataOutput : (s.wrapper.dataOutput ikernel).head = none
  demux : Demux.Settled cfg s.demux
  tcMeta : ∀ p, (s.tcMeta p).head = none
  tcData : ∀ p, (s.tcData p).head = none
  arbiter : Arbiter.Quiet s.steering.wrapper.egress.arbiter
  builder : Builder.Settled keepBytes s.steering.wrapper.egress.builder

/-- Then the demultiplexer has got everything. -/
theorem AtRest.demux_arrived (hrest : AtRest cfg keepBytes xs s) (htable : Steering.EnginesBelow 1 table)
    (hlinked : Linked cfg keepBytes table sched s) (hchain : Steering.Chain first keepBytes table sched s.steering)
    (hwhole : Steering.Whole keepBytes table (xs.map (·.arrival)) s.steering) :
    s.demux.metadataIn.sent = ((toIkernel xs).map (·.packet keepBytes)).map Packet.metadata ∧
      s.demux.dataIn.sent = ((toIkernel xs).map (·.packet keepBytes)).flatMap Packet.beats := by
  obtain ⟨hmeta, hdata⟩ := hrest.steering.delivered hchain hwhole ikernel
  rw [deliveredTo_ikernel htable] at hmeta hdata
  constructor
  · calc s.demux.metadataIn.sent = (s.wrapper.metadataOutput ikernel).sent := by
          rw [hlinked.counted, Fifo.past_eq_sent _ hrest.metadataOutput]
      _ = s.steering.udp.metadataOut ikernel := (hlinked.metadata.out_eq hrest.metadata).trans hlinked.metadataIn
      _ = _ := hmeta.trans (map_metadata_packets keepBytes xs)
  · calc s.demux.dataIn.sent = (s.wrapper.dataOutput ikernel).sent := by
          rw [hlinked.copied, Fifo.past_eq_sent _ hrest.dataOutput]
      _ = s.dataUdpToIkernel.past := (hlinked.data.out_eq hrest.data).trans hlinked.axiStream
      _ = s.steering.udp.dataOut ikernel := by rw [Fifo.past_eq_sent _ hrest.dataUdpToIkernel, hlinked.dataIn]
      _ = _ := hdata.trans (flatMap_cut_packets keepBytes xs)

/-- And so has each port of the arbiter. -/
theorem AtRest.arbiter_arrived (hrest : AtRest cfg keepBytes xs s) (hcfg : cfg.Valid) (hports : cfg.numPorts = k)
    (htable : Steering.EnginesBelow 1 table) (hin : Steering.Input (xs.map (·.arrival)) s.steering)
    (hlinked : Linked cfg keepBytes table sched s) (hchain : Steering.Chain first keepBytes table sched s.steering)
    (halone : Steering.Alone keepBytes table (xs.map (·.arrival)) s.steering)
    (hwhole : Steering.Whole keepBytes table (xs.map (·.arrival)) s.steering) :
    Arbiter.Arrived (portPackets cfg keepBytes xs) s.steering.wrapper.egress.arbiter := by
  intro p
  induction p using Fin.lastCases with
  | last =>
    have hall := hrest.steering.steering.delivered hin hchain halone
    rw [portPackets_last hports, metadata_classPackets_last hcfg, beats_classPackets_last hcfg]
    exact ⟨hall.rawMetadata, hall.rawData⟩
  | cast p =>
    have hrouted := Demux.routed_of_reachable hcfg hlinked.demux (demux_delivers htable hlinked hwhole)
    obtain ⟨hmeta, hdata⟩ := hrest.demux_arrived htable hlinked hchain hwhole
    obtain ⟨hmetas, hbeats⟩ := hrouted.settled hrest.demux hmeta hdata p.val
    have hlt : p.val < cfg.numPorts := hports ▸ p.isLt
    rw [portPackets, Fin.val_castSucc, ← lane_packets hcfg hlt]
    constructor
    · rw [hlinked.portMeta, Fifo.past_eq_sent _ (hrest.tcMeta p), hlinked.tcMeta, hmetas]
    · rw [hlinked.portData, Fifo.past_eq_sent _ (hrest.tcData p), hlinked.tcData, hbeats]

/-! ### Forwarding -/

/-- What leaves are the frames of `order` one after the other, each as `sent` says. -/
structure Forwards (cfg : Demux.Config) (keepBytes : ℕ → BitVec 32) (xs : List (Ingress table)) (s : State k E N M)
    (order : List (Ingress table)) (sent : Ingress table → List Axi4s) : Prop where
  /-- The bytes of a frame. -/
  emitted : ∀ x : Ingress table, x.Emitted (sent x)
  /-- The frames of a class that have left so far are the first of those that arrived for it. -/
  lanes : ∀ c, lane (·.trafficClass cfg) order c <+: lane (·.trafficClass cfg) (forwarded xs) c
  out : s.steering.wrapper.egress.builder.out <+: order.flatMap sent
  /-- In the end each has left exactly once. -/
  complete : AtRest cfg keepBytes xs s →
    order.Perm (forwarded xs) ∧ s.steering.wrapper.egress.builder.out = order.flatMap sent

/-- The packets that the arbiter has served at a port, by the number of the port. -/
theorem lane_served {n : ℕ} (served : List (Fin n × Packet)) (p : Fin n) :
    (lane Prod.fst (served.map fun q => (q.1.val, q.2)) p.val).map Prod.snd = Arbiter.ofPort p served := by
  rw [lane_map, lane, Arbiter.ofPort, List.map_map]
  congr 1
  apply List.filter_congr
  intro q _
  show decide (q.1.val = p.val) = decide (q.1 = p)
  exact decide_eq_decide.mpr Fin.ext_iff.symm

/-- In every run on frames of 2 to 64 beats, those for the ikernel with lengths that agree, with any content of the flow
table, any order of the calls and any stalls, the NIC forwards. -/
theorem forwards_run {merge : Merger.Job AxiData → List AxiData} (hE : E.Marks first)
    (hM : M.Concatenates IsPacket merge) (hpush : PushesHeader merge) (hN : N.Lawful) (hwork : N.WorkConserving)
    (hkeep : keepBytes 10 = Udp.leadingKeep 10) (hcfg : cfg.Valid) (hports : cfg.numPorts = k)
    (htable : Steering.EnginesBelow 1 table) (sched : N.Sched) (xs : List (Ingress table)) (acts : List (Act k))
    (hin : Steering.Input (xs.map (·.arrival))
      (run (step cfg keepBytes table) (State.init E M sched : State k E N M) acts).steering) :
    ∃ order sent,
      Forwards cfg keepBytes xs (run (step cfg keepBytes table) (State.init E M sched : State k E N M) acts) order sent := by
  have hlinked := linked_run (E := E) (N := N) (M := M) cfg keepBytes table sched acts
  generalize run (step cfg keepBytes table) (State.init E M sched : State k E N M) acts = s at hin hlinked ⊢
  obtain ⟨hchain, halone, hwhole⟩ := invs_of_linked hE htable hin hlinked
  have hdel := arbiter_delivers hcfg hports htable hin hlinked hchain halone hwhole
  have hsend : ∀ p : Fin (k + 1), ∀ q ∈ portPackets cfg keepBytes xs p, Builder.Sendable q := by
    intro p q hq
    obtain ⟨x, -, rfl⟩ := List.mem_map.mp hq
    exact sendable_packet x keepBytes
  obtain ⟨served, hdeparts⟩ := Egress.exists_departs hM hN hwork (PassthroughWrapper.reachable_egress hchain.wrapper)
    hsend hdel
  -- the packets that left are those of frames
  have hpre : ∀ c, (lane Prod.fst (served.map fun q => (q.1.val, q.2)) c).map Prod.snd <+:
      (lane (·.trafficClass cfg) (forwarded xs) c).map (·.packet keepBytes) := by
    intro c
    by_cases hc : c < k + 1
    · have hlane := hdeparts.order ⟨c, hc⟩
      rw [← lane_served] at hlane
      exact hlane
    · have hnil : lane Prod.fst (served.map fun q => (q.1.val, q.2)) c = [] := by
        rw [lane, List.filter_eq_nil_iff]
        intro q hq
        obtain ⟨q, -, rfl⟩ := List.mem_map.mp hq
        have hlt := q.1.isLt
        simp only [decide_eq_true_eq]
        omega
      rw [hnil]
      exact List.nil_prefix
  have hcls : ∀ c, ∀ x ∈ lane (·.trafficClass cfg) (forwarded xs) c, x.trafficClass cfg = c :=
    fun c x hx => of_decide_eq_true (List.mem_filter.mp hx).2
  obtain ⟨order, hserved, horder⟩ :=
    exists_order_of_lanes (fun x : Ingress table => x.trafficClass cfg) (fun x => x.packet keepBytes) _ _ hcls hpre
  have hout : served.flatMap (fun q => Builder.transmitted keepBytes merge q.2) =
      order.flatMap fun x => Builder.transmitted keepBytes merge (x.packet keepBytes) := by
    have hpackets := congrArg (List.map Prod.snd) hserved
    rw [List.map_map, List.map_map] at hpackets
    calc served.flatMap (fun q => Builder.transmitted keepBytes merge q.2)
        = (served.map Prod.snd).flatMap (Builder.transmitted keepBytes merge) := (List.flatMap_map ..).symm
      _ = (order.map (·.packet keepBytes)).flatMap (Builder.transmitted keepBytes merge) := by
          exact congrArg (List.flatMap _) hpackets.symm
      _ = _ := List.flatMap_map ..
  refine ⟨order, fun x => Builder.transmitted keepBytes merge (x.packet keepBytes),
    fun x => emitted_transmitted x hM hpush hkeep, horder, hout ▸ hdeparts.out, fun hrest => ?_⟩
  obtain ⟨hall, heq⟩ := hdeparts.complete hrest.arbiter hrest.builder
    (hrest.arbiter_arrived hcfg hports htable hin hlinked hchain halone hwhole)
  refine ⟨perm_of_lanes (·.trafficClass cfg) fun c => ?_, heq.trans hout⟩
  apply (horder c).eq_of_length
  by_cases hc : c < k + 1
  · have hlane : (lane (·.trafficClass cfg) order c).map (·.packet keepBytes) = portPackets cfg keepBytes xs ⟨c, hc⟩ := by
      rw [← hall, ← lane_served, ← hserved, lane_map, List.map_map]
      rfl
    have hlength := congrArg List.length hlane
    rwa [portPackets, classPackets, List.length_map, List.length_map] at hlength
  · -- there is no such class
    have hnil : lane (·.trafficClass cfg) (forwarded xs) c = [] := by
      rw [lane, List.filter_eq_nil_iff]
      intro x _
      have hle := trafficClass_le hcfg x
      simp only [decide_eq_true_eq]
      omega
    have hlane := horder c
    rw [hnil] at hlane
    rw [List.prefix_nil.mp hlane, hnil]

/-! ### A run -/

/-- A demultiplexer that waits at every stream cannot move. -/
theorem demux_settled {t : Demux.State} (hin : t.metadataIn.head = none) (hselect : t.metaToSelectPort.head = none)
    (hports : t.selectedPorts.head = none) (hmeta : t.metaState = .metaIdle ∧ t.portToMetaOutput.head = none)
    (hdata : t.state = .idle ∧ t.emptyStream.head = none) : Demux.Settled cfg t := by
  obtain ⟨hmeta, hport⟩ := hmeta
  obtain ⟨hidle, hempty⟩ := hdata
  refine ⟨?_, ?_, ?_, ?_, ?_⟩
  · simp [Demux.dupMeta, hin, dup, Fifo.readIf]
  · simp [Demux.portSelector, hselect, dup, Fifo.readIf]
  · simp [Demux.dupPorts, hports, dup, Fifo.readIf]
  · simp [Demux.demuxMeta, hmeta, hport]
  · simp [Demux.demuxData, hidle, hempty]

/-- Neither can a builder whose merger has nothing to write. -/
theorem builder_settled {t : Builder.State M} (hhdr : t.hdrState = .idle ∧ t.headerIn.head = none)
    (hmerge : M.reorder t.merge.reg t.merge.extra.head t.merge.empty.head t.merge.enable.head t.merge.data.head false =
      (t.merge.reg, ⟨false, false, false, false, none⟩))
    (hjoin : t.joinState = .idle ∧ t.mlxMetadata.head = none) (hlink : t.reg = none ∧ t.rawReorderToReg.head = none)
    (hpad : t.rawBuilderToPad.head = none) : Builder.Settled keepBytes t := by
  obtain ⟨hidle, hin⟩ := hhdr
  obtain ⟨hjidle, hmlx⟩ := hjoin
  obtain ⟨hreg, hraw⟩ := hlink
  refine ⟨?_, ?_, ?_, ?_, ?_⟩
  · simp [Builder.hdrToMlx, hidle, hin]
  · simp [Merger.step, hmerge, Fifo.readIf]
  · simp [Builder.joinPacketMetadata, hjidle, hmlx]
  · simp [Builder.link, hreg, hraw, Fifo.readIf]
    rw [← hreg]
  · simp [Builder.pad, hpad]

/-- Two traffic classes: one for the ikernel and one for the raw frames. -/
def twoClasses : Demux.Config := ⟨2, Nat.clog 2⟩

theorem twoClasses_valid : twoClasses.Valid where
  two_le := Nat.le_refl 2
  numTc_eq := (congrArg (2 ^ ·) (Nat.clog_pow 2 1 (by decide))).symm
  le_pow_log2 n := Nat.le_pow_clog (by decide) n

/-- A frame for the ikernel, and the same frame while the unit is disabled. -/
def twoIngress : List (Ingress Steering.onePort) :=
  [⟨⟨Steering.threeBytes, true⟩, by decide, fun _ => by decide⟩,
    ⟨⟨Steering.threeBytes, false⟩, by decide, fun h => absurd h (by decide)⟩]

/-- Each unit up to the ikernel is called once, apart from the checks of the headers. -/
def receiveRound : List (Act 1) :=
  (Steering.steeringRound ++
    [.udp (.findLength false), .udp (.cutData false), .udp (.crossbar false false ⟨0, 0, 0, false⟩),
      .udp (.splitUdpHdrStream ikernel false)] : List (Steering.Act 1 1)).map .steering

/-- Each unit between the receive path and the arbiter is called once. -/
def ikernelRound : List (Act 1) :=
  [.linkAxiStream false, .linkMetadataInput false, .linkDataInput false, .passPackets false, .linkMetadataOutput false,
    .linkDataOutput false, .count false, .linkFifo false, .demux (.dupMeta false), .demux (.portSelector false),
    .demux (.dupPorts false), .demux (.demuxMeta false), .demux (.demuxData false), .tcMeta ikernel false,
    .tcData ikernel false]

/-- The arbiter serves both ports, and the builder transmits both packets. -/
def transmitActs : List (Act 1) :=
  let go : Arbiter.TxMetaStalls := ⟨false, false, false⟩
  (([.updatePeek, .schedulePorts false, .schedulePorts false, .pickNextPacket none false, .pickNextPacket none false] ++
      List.replicate 6 (.txMeta go) ++ List.replicate 6 (.txData false) : List (Arbiter.Act 2)).map
    fun a => .steering (.wrapper (.egress (.arbiter a)))) ++
  ((List.replicate 4 (.hdrToMlx false) ++ List.replicate 8 (.reorder false) ++
      (List.replicate 9 [.joinPacketMetadata false, .link false, .pad false]).flatten : List Builder.Call).map
    fun c => .steering (.wrapper (.egress (.builder c))))

def twoIngressActs : List (Act 1) :=
  ((twoIngress.flatMap fun x => x.arrival.wire).map fun w => .steering (.arrive w)) ++
    (List.replicate 6 receiveRound).flatten ++
    [.steering (.udp (.hdrChecks true false)), .steering (.udp (.hdrChecks false false))] ++
    (List.replicate 6 receiveRound).flatten ++ (List.replicate 8 ikernelRound).flatten ++ transmitActs

def twoIngressEnd : State 1 Steering.counting (Arbiter.roundRobin 2 64) buffering :=
  run (step twoClasses Udp.leadingKeep Steering.onePort) (State.init Steering.counting buffering []) twoIngressActs

instance : DecidableEq buffering.Reg := inferInstanceAs (DecidableEq (Buffered AxiData))

/-- All units wait in the end. -/
theorem atRest_twoIngress : AtRest twoClasses Udp.leadingKeep twoIngress twoIngressEnd where
  steering := {
    steering := {
      arrived := by decide +kernel
      rawDup2 := by decide +kernel
      enumFirst := by decide +kernel
      steering := by
        constructor
        all_goals decide +kernel
      hashTable := by decide +kernel
      ftWrapper := by decide +kernel
      wrapper := by decide +kernel }
    hdrDup2 := by decide +kernel
    findLength := by decide +kernel
    cutData := by decide +kernel
    delivery := ⟨by decide +kernel, by decide +kernel⟩ }
  dataUdpToIkernel := by decide +kernel
  metadata := by
    constructor
    all_goals decide +kernel
  data := by
    constructor
    all_goals decide +kernel
  metadataOutput := by decide +kernel
  dataOutput := by decide +kernel
  demux := by
    apply demux_settled
    all_goals decide +kernel
  tcMeta := by decide +kernel
  tcData := by decide +kernel
  arbiter := by
    constructor
    all_goals decide +kernel
  builder := by
    apply builder_settled
    all_goals decide +kernel

/-- Both frames leave, each as two beats. -/
theorem forwards_run_twoIngress :
    (∃ order sent, Forwards twoClasses Udp.leadingKeep twoIngress twoIngressEnd order sent) ∧
      AtRest twoClasses Udp.leadingKeep twoIngress twoIngressEnd ∧
      twoIngressEnd.steering.wrapper.egress.builder.out.length = 4 := by
  have hin : Steering.Input (twoIngress.map (·.arrival)) twoIngressEnd.steering := ⟨by decide +kernel, by decide +kernel⟩
  refine ⟨?_, atRest_twoIngress, by decide +kernel⟩
  rw [twoIngressEnd] at hin ⊢
  exact forwards_run Steering.marks_counting concatenates_buffering pushesHeader_pushHeader
    (Arbiter.lawful_roundRobin 2 64) (PassthroughWrapper.workConserving_roundRobin 2 64) rfl twoClasses_valid rfl
    Steering.enginesBelow_onePort [] twoIngress twoIngressActs hin

end Nica.Hls.NicaStep
