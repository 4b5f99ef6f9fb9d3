import Nica.Hls.Equiv.Steering
import Nica.Hls.Equiv.UdpPayload
import Nica.Hls.Equiv.Merger
import Nica.Lib.Lanes

/-!
# Steering partitions the traffic

* `Paired`: the crossbar takes up a result together with the header of the same frame;
* `Partitioned`: the wrapper forwards the raw frames, the dropper hands on those for the ikernels, and the decisions on
  every stream are those of the frames, one by one;
* `Done.delivered`: when no unit can move, every frame is where it belongs;
* `exists_done`: once everything has arrived, this can be reached, whatever stalls occurred so far.

`partitioned_run` puts them together.
-/

namespace Nica.Hls.Steering

open Nica.Lib

variable {n k : ℕ} {E : EnumFirst} {first : E.Reg → Prop} {N : Arbiter.Ntl (k + 1)} {M : Merger AxiData}
  {keepBytes : ℕ → BitVec 32} {table : FlowTable.Table} {sched : N.Sched} {s : State n k E N M} {xs : List Arrival}

/-! ### The crossbar -/

/-- Every engine that the flow table names exists. -/
def EnginesBelow (n : ℕ) (table : FlowTable.Table) : Prop :=
  ∀ f flowId v, FlowTable.answer table f = some (flowId, v) → v.engineId.toNat < n

/-- The engine of a frame that goes to an ikernel. -/
def Arrival.engine (n : ℕ) (table : FlowTable.Table) (x : Arrival) : Option (Fin n) := Udp.engineOf n (x.result table)

theorem EnginesBelow.isSome_engine (h : EnginesBelow n table) {x : Arrival} (hx : x.destination table = .ikernel) :
    (x.engine n table).isSome = true := by
  have hact : (x.result table).v.action = .ikernel := by
    rw [Arrival.destination] at hx
    split_ifs at hx
    cases ha : (x.result table).v.action with
    | passthrough => rw [ha] at hx; cases hx
    | drop => rw [ha] at hx; cases hx
    | ikernel => rfl
  have hlt : (x.result table).v.engineId.toNat < n := by
    rw [Arrival.result, FlowTable.result] at hact ⊢
    cases hans : FlowTable.answer table (FlowTable.lookupOf table x.frame.header) with
    | none => rw [hans] at hact; cases hact
    | some r => exact h _ r.1 r.2 hans
  rw [Arrival.engine, Udp.engineOf, dif_pos hlt]
  rfl

/-- The crossbar has taken up as many results as headers, and given each engine those of its own frames. -/
structure Paired (table : FlowTable.Table) (xs : List Arrival) (u : Udp.State n) : Prop where
  length_eq : u.steerResults.past.length = u.headerDupToCrossbar.past.length
  headers : ∀ e, (u.hdrOut e).sent =
    (((sentTo table .ikernel xs).take u.steerResults.past.length).filter (·.engine n table = some e)).map
      (·.frame.header)
  decisions : ∀ e, (u.ftResultsOut e).sent =
    (((sentTo table .ikernel xs).take u.steerResults.past.length).filter (·.engine n table = some e)).map
      (·.result table)

theorem paired_init (table : FlowTable.Table) (xs : List Arrival) : Paired table xs (Udp.State.init : Udp.State n) :=
  ⟨rfl, fun _ => rfl, fun _ => rfl⟩

/-- One more frame for its engine. -/
theorem filter_engine_succ {γ : Type} (label : Arrival → γ) {ys : List Arrival} {j : ℕ} {x : Arrival}
    (hx : ys[j]? = some x) {e' : Fin n} (he' : x.engine n table = some e') (e : Fin n) :
    ((ys.take (j + 1)).filter (·.engine n table = some e)).map label =
      ((ys.take j).filter (·.engine n table = some e)).map label ++ Udp.sentTo e (some (e', label x)) := by
  rw [take_succ_eq hx, List.filter_append, List.map_append]
  congr 1
  by_cases he : e' = e
  · simp [he', he, Udp.sentTo]
  · simp [he', he, Udp.sentTo]

theorem decided_sentTo (table : FlowTable.Table) (xs : List Arrival) :
    (Udp.passing (passages table xs)).map (·.decided) = (sentTo table .ikernel xs).map (·.result table) := by
  rw [passages, passing_passages, List.map_map]
  apply List.map_congr_left
  intro x hx
  exact decided_of_ikernel table x (of_decide_eq_true (List.mem_filter.mp hx).2)

theorem header_sentTo (table : FlowTable.Table) (xs : List Arrival) :
    (Udp.passing (passages table xs)).map (·.frame.header) = (sentTo table .ikernel xs).map (·.frame.header) := by
  rw [passages, passing_passages, List.map_map]
  rfl

theorem Alone.steerResults_prefix (h : Alone keepBytes table xs s) :
    s.udp.steerResults.sent <+: (sentTo table .ikernel xs).map (·.result table) := by
  obtain ⟨t, hfollows, hinv⟩ := h
  rw [← hfollows.steerResults, ← decided_sentTo]
  exact hinv.steerResults_prefix

theorem Alone.headerSteerToDup_prefix (h : Alone keepBytes table xs s) :
    s.udp.headerSteerToDup.sent <+: (sentTo table .ikernel xs).map (·.frame.header) := by
  obtain ⟨t, hfollows, hinv⟩ := h
  rw [← hfollows.headerSteerToDup, ← header_sentTo]
  exact hinv.headerSteerToDup_prefix

/-- The crossbar takes a result together with the header of the same frame. -/
theorem paired_crossbar (htable : EnginesBelow n table) (hchain : Chain first keepBytes table sched s)
    (halone : Alone keepBytes table xs s) (h : Paired table xs s.udp) (hFull dFull : Bool) (buf : HeaderBuffer) :
    Paired table xs (Udp.step keepBytes s.udp (.crossbar hFull dFull buf)) := by
  obtain ⟨io, hio⟩ : ∃ io, Udp.crossbar n hFull dFull buf s.udp.crossbar s.udp.steerResults.head
      s.udp.headerDupToCrossbar.head s.udp.dataLengthToCrossbar.head = io := ⟨_, rfl⟩
  -- either nothing is taken, or one of each
  have hcases : (io.2.readResult = false ∧ io.2.readHeader = false ∧ io.2.header = none) ∨
      ∃ r hdr, s.udp.steerResults.head = some r ∧ s.udp.headerDupToCrossbar.head = some hdr ∧
        io.2.readResult = true ∧ io.2.readHeader = (Udp.engineOf n r).isSome ∧
        io.2.header = (Udp.engineOf n r).map (·, hdr, r) := by
    rw [← hio]
    unfold Udp.crossbar
    cases s.udp.crossbar.state with
    | idle =>
      cases s.udp.steerResults.head with
      | none => exact .inl ⟨rfl, rfl, rfl⟩
      | some r =>
        cases s.udp.headerDupToCrossbar.head with
        | none => exact .inl ⟨rfl, rfl, rfl⟩
        | some hdr =>
          cases hFull with
          | true => exact .inl ⟨rfl, rfl, rfl⟩
          | false => exact .inr ⟨r, hdr, rfl, rfl, rfl, rfl, rfl⟩
    | stream =>
      left
      dsimp only
      split
      · cases dFull with
        | true => exact ⟨rfl, rfl, rfl⟩
        | false => exact ⟨rfl, rfl, rfl⟩
      · exact ⟨rfl, rfl, rfl⟩
  have hstep : ∀ e, ((Udp.step keepBytes s.udp (.crossbar hFull dFull buf)).hdrOut e).sent =
        (s.udp.hdrOut e).sent ++ Udp.sentTo e (io.2.header.map fun o => (o.1, o.2.1)) ∧
      ((Udp.step keepBytes s.udp (.crossbar hFull dFull buf)).ftResultsOut e).sent =
        (s.udp.ftResultsOut e).sent ++ Udp.sentTo e (io.2.header.map fun o => (o.1, o.2.2)) := by
    intro e
    rw [← hio]
    exact ⟨Udp.sent_putAt _ _ e, Udp.sent_putAt _ _ e⟩
  have hreads : (Udp.step keepBytes s.udp (.crossbar hFull dFull buf)).steerResults =
        s.udp.steerResults.readIf io.2.readResult ∧
      (Udp.step keepBytes s.udp (.crossbar hFull dFull buf)).headerDupToCrossbar =
        s.udp.headerDupToCrossbar.readIf io.2.readHeader := by
    rw [← hio]
    exact ⟨rfl, rfl⟩
  rcases hcases with ⟨hr, hh, hnone⟩ | ⟨r, hdr, hr, hh, hread, hreadH, hout⟩
  · rw [hr, hh] at hreads
    rw [hnone] at hstep
    refine ⟨?_, ?_, ?_⟩
    · rw [hreads.1, hreads.2]
      exact h.length_eq
    · intro e
      rw [(hstep e).1, hreads.1]
      exact (List.append_nil _).trans (h.headers e)
    · intro e
      rw [(hstep e).2, hreads.1]
      exact (List.append_nil _).trans (h.decisions e)
  · -- both belong to the next frame for an ikernel
    obtain ⟨x, hx, rfl⟩ := exists_item ((s.udp.steerResults.past_snoc_prefix_sent hr).trans halone.steerResults_prefix)
    have hheaders : s.udp.headerDupToCrossbar.sent <+: (sentTo table .ikernel xs).map (·.frame.header) := by
      rw [hchain.dupCrossbar]
      exact s.udp.headerSteerToDup.past_prefix_sent.trans halone.headerSteerToDup_prefix
    obtain ⟨x', hx', rfl⟩ := exists_item ((s.udp.headerDupToCrossbar.past_snoc_prefix_sent hh).trans hheaders)
    obtain rfl : x = x' := by
      rw [← h.length_eq, hx] at hx'
      exact Option.some.inj hx'
    have hikernel : x.destination table = .ikernel :=
      of_decide_eq_true (List.mem_filter.mp (List.mem_of_getElem? hx)).2
    obtain ⟨e', he'⟩ := Option.isSome_iff_exists.mp (htable.isSome_engine hikernel)
    have hengine : Udp.engineOf n (x.result table) = some e' := he'
    rw [hengine] at hreadH hout
    rw [hread, hreadH] at hreads
    rw [hout] at hstep
    have hlen := s.udp.steerResults.length_past_readIf_true hr
    have hlen' := s.udp.headerDupToCrossbar.length_past_readIf_true hh
    refine ⟨?_, ?_, ?_⟩
    · rw [hreads.1, hreads.2, hlen, h.length_eq]
      exact hlen'.symm
    · intro e
      rw [(hstep e).1, hreads.1, hlen, h.headers e]
      exact (filter_engine_succ (·.frame.header) hx he' e).symm
    · intro e
      rw [(hstep e).2, hreads.1, hlen, h.decisions e]
      exact (filter_engine_succ (·.result table) hx he' e).symm

theorem paired_step (htable : EnginesBelow n table) (hchain : Chain first keepBytes table sched s)
    (halone : Alone keepBytes table xs s) (h : Paired table xs s.udp) (a : Act n k) :
    Paired table xs (step keepBytes table s a).udp := by
  cases a with
  | enumFirst full =>
    simp only [step]
    split
    · exact h
    · exact { h with }
  | udp a =>
    simp only [step]
    split_ifs
    · exact h
    · cases a with
      | crossbar hFull dFull buf => exact paired_crossbar htable hchain halone h hFull dFull buf
      | splitUdpHdrStream e full =>
        exact ⟨h.length_eq, fun e' => (sent_readLane s.udp.hdrOut e _ e').trans (h.headers e'),
          fun e' => (sent_readLane s.udp.ftResultsOut e _ e').trans (h.decisions e')⟩
      | _ => exact { h with }
  | wrapper a =>
    simp only [step]
    split_ifs <;> exact h
  | _ => exact { h with }

/-! ### The partition -/

/-- Everything has arrived, and no unit from the port to the dropper and the wrapper can move. -/
structure Done (xs : List Arrival) (s : State n k E N M) : Prop where
  arrived : s.port.sent = xs.flatMap Arrival.wire
  rawDup2 : s.port.head = none
  enumFirst : s.rawInToUdp.head = none
  steering : Udp.SteeringStuck s.udp
  hashTable : s.lookups.head = none
  ftWrapper : s.results.head = none
  wrapper : (s.wrapper.state = .idle ∧ (s.wrapper.passStream.head = none ∨ s.wrapper.rawIn.head = none)) ∨
    (s.wrapper.state = .stream ∧ s.wrapper.rawIn.head = none)

/-- Every frame is where it belongs. -/
structure Delivered (keepBytes : ℕ → BitVec 32) (table : FlowTable.Table) (xs : List Arrival)
    (s : State n k E N M) : Prop where
  rawData : (s.wrapper.egress.arbiter.tcData (Fin.last k)).sent =
    (sentTo table .raw xs).flatMap fun x => x.wire.map PassthroughWrapper.rawToData
  rawMetadata : (s.wrapper.egress.arbiter.tcMeta (Fin.last k)).sent =
    (sentTo table .raw xs).map fun x => PassthroughWrapper.rawMetadata (BitVec.ofNat 16 x.wire.length)
  headers : s.udp.headerSteerToDup.sent = (sentTo table .ikernel xs).map (·.frame.header)
  data : s.udp.dataSteerToLength.sent = (sentTo table .ikernel xs).flatMap (·.payload keepBytes)
  passRaw : s.udp.passRaw = xs.map fun x => decide (x.destination table = .raw)
  matched : s.udp.matched.sent = xs.map fun x => decide (x.destination table = .ikernel)
  steerResults : s.udp.steerResults.sent = (sentTo table .ikernel xs).map (·.result table)

/-- **Steering partitions the traffic.**  The wrapper forwards the beats of the raw frames, each frame with one
metadata, and nothing else; the dropper hands the headers and the payload of the frames for the ikernels on, and
nothing else; the crossbar gives each engine the headers and the results of its own frames.  So far the decisions are
those of the frames, one by one, and in the end every frame is where it belongs. -/
structure Partitioned (keepBytes : ℕ → BitVec 32) (table : FlowTable.Table) (xs : List Arrival)
    (s : State n k E N M) : Prop where
  rawData : (s.wrapper.egress.arbiter.tcData (Fin.last k)).sent <+:
    (sentTo table .raw xs).flatMap fun x => x.wire.map PassthroughWrapper.rawToData
  rawMetadata : (s.wrapper.egress.arbiter.tcMeta (Fin.last k)).sent <+:
    (sentTo table .raw xs).map fun x => PassthroughWrapper.rawMetadata (BitVec.ofNat 16 x.wire.length)
  headers : s.udp.headerSteerToDup.sent <+: (sentTo table .ikernel xs).map (·.frame.header)
  data : s.udp.dataSteerToLength.sent <+: (sentTo table .ikernel xs).flatMap (·.payload keepBytes)
  engines : ∃ j, ∀ e,
    (s.udp.hdrOut e).sent =
        (((sentTo table .ikernel xs).take j).filter (·.engine n table = some e)).map (·.frame.header) ∧
      (s.udp.ftResultsOut e).sent =
        (((sentTo table .ikernel xs).take j).filter (·.engine n table = some e)).map (·.result table)
  passRaw : s.udp.passRaw <+: xs.map fun x => decide (x.destination table = .raw)
  matched : s.udp.matched.sent <+: xs.map fun x => decide (x.destination table = .ikernel)
  steerResults : s.udp.steerResults.sent <+: (sentTo table .ikernel xs).map (·.result table)
  complete : Done xs s → Delivered keepBytes table xs s

/-- Whether the wrapper forwards a frame. -/
def isRaw (table : FlowTable.Table) (x : Arrival) : Bool := x.destination table = .raw

theorem framed_arrivals (xs : List Arrival) : PassthroughWrapper.Framed Arrival.wire xs := by
  intro x _
  refine ⟨⟨(x.frame.first :: x.frame.middle).map PassthroughWrapper.rawToData,
    PassthroughWrapper.rawToData x.frame.final, ?_, x.frame.final_last, ?_⟩, ?_⟩
  · rw [Arrival.wire, ← List.cons_append, List.map_append, List.map_singleton]
  · intro b hb
    obtain ⟨w, hw, rfl⟩ := List.mem_map.mp hb
    exact x.frame.body_last w hw
  · rw [Arrival.wire, List.length_cons, List.length_append, List.length_singleton]
    omega

theorem flatMap_written (table : FlowTable.Table) (xs : List Arrival) :
    xs.flatMap (PassthroughWrapper.written Arrival.wire (isRaw table)) =
      (sentTo table .raw xs).flatMap fun x => x.wire.map PassthroughWrapper.rawToData := by
  induction xs with
  | nil => rfl
  | cons x xs ih =>
    rw [List.flatMap_cons, ih, sentTo, PassthroughWrapper.written, isRaw]
    by_cases hx : x.destination table = .raw
    · simp [hx, sentTo]
    · simp [hx, sentTo]

theorem flatMap_payload (keepBytes : ℕ → BitVec 32) (table : FlowTable.Table) (xs : List Arrival) :
    (Udp.passing (passages table xs)).flatMap (·.through keepBytes) =
      (sentTo table .ikernel xs).flatMap (·.payload keepBytes) := by
  rw [passages, passing_passages, List.flatMap_map]
  apply List.flatMap_congr
  intro x hx
  exact through_passage table x keepBytes (of_decide_eq_true (List.mem_filter.mp hx).2)

theorem map_pass_passages (table : FlowTable.Table) (xs : List Arrival) :
    (passages table xs).map (·.pass) = xs.map fun x => decide (x.destination table = .ikernel) := by
  rw [passages, List.map_map]
  exact List.map_congr_left fun x _ => pass_eq table x

theorem map_raw_passages (table : FlowTable.Table) (xs : List Arrival) :
    ((passages table xs).map (·.decided)).map (fun r => decide (r.v.action = .passthrough)) =
      xs.map (isRaw table) := by
  rw [passages, List.map_map, List.map_map]
  exact List.map_congr_left fun x _ => raw_eq table x

/-- The decisions for the wrapper are those of the frames. -/
theorem Alone.passRaw_prefix (hchain : Chain first keepBytes table sched s) (h : Alone keepBytes table xs s) :
    s.udp.passRaw <+: xs.map (isRaw table) := by
  obtain ⟨t, hfollows, hinv⟩ := h
  have hresults : t.ftResults = s.udp.ftResults := by
    rw [hfollows.eq]
    rfl
  rw [hchain.passRaw, ← map_raw_passages, ← hresults]
  exact (t.ftResults.past_prefix_sent.trans hinv.ftResults_prefix).map _

/-- The wrapper is fed with the frames and their own decisions. -/
theorem fed_wrapper (hin : Input xs s) (hchain : Chain first keepBytes table sched s)
    (h : Alone keepBytes table xs s) : PassthroughWrapper.Fed Arrival.wire (isRaw table) xs s.wrapper := by
  refine ⟨?_, ?_⟩
  · rw [hchain.rawIn]
    exact s.port.past_prefix_sent.trans hin.port
  · rw [hchain.passStream]
    exact h.passRaw_prefix hchain

/-- With nothing left in the streams of the flow table every header was answered. -/
theorem all_answered (hchain : Chain first keepBytes table sched s) {t : Udp.State n} (ht : Udp.Follows s.udp t)
    (hinv : Udp.PathInv keepBytes (passages table xs) t) (hheaders : s.udp.hdrDupToFlowTable.head = none)
    (hlookups : s.lookups.head = none) (hresults : s.results.head = none) : t.hdrDupToFlowTable.head = none := by
  have hread : t.hdrDupToFlowTable.past.length = t.hdrDupToFlowTable.sent.length := by
    rw [← hinv.lookups, ht.hdrDupToFlowTable, ← s.udp.hdrDupToFlowTable.past_eq_sent hheaders]
    calc t.ftToAction.sent.length = s.udp.ftToAction.sent.length := by rw [ht.eq]; rfl
      _ = s.results.past.length := by rw [hchain.answers, List.length_map]
      _ = s.lookups.past.length := by rw [s.results.past_eq_sent hresults, hchain.results, List.length_map]
      _ = s.udp.hdrDupToFlowTable.past.length := by
        rw [s.lookups.past_eq_sent hlookups, hchain.lookups, List.length_map]
  rw [Fifo.sent, List.length_append] at hread
  rw [Fifo.head, List.head?_eq_none_iff]
  exact List.eq_nil_of_length_eq_zero (by omega)

theorem Done.delivered (hdone : Done xs s) (hin : Input xs s) (hchain : Chain first keepBytes table sched s)
    (halone : Alone keepBytes table xs s) : Delivered keepBytes table xs s := by
  obtain ⟨t, ht, hinv⟩ := id halone
  have hanswered := all_answered hchain ht hinv hdone.steering.ftStep hdone.hashTable hdone.ftWrapper
  have hstuck := (ht.steeringStuck_iff hdone.steering.ftStep hanswered).mpr hdone.steering
  have hport : s.port.past = xs.flatMap Arrival.wire := by
    rw [s.port.past_eq_sent hdone.rawDup2, hdone.arrived]
  have harrived : t.enumOut.sent.map (fun x => (decide (x.1 = 0), x.2)) =
      (passages table xs).flatMap (·.frame.marked) := by
    rw [ht.eq]
    show s.udp.enumOut.sent.map _ = _
    rw [hchain.marked, s.rawInToUdp.past_eq_sent hdone.enumFirst, hchain.toUdp, hport, markFrom_flatMap, passages,
      List.flatMap_map]
    rfl
  have hlength : (passages table xs).length = xs.length := List.length_map _
  obtain ⟨hheaders, hraw⟩ := hstuck.split_done hinv harrived
  obtain ⟨hmatched, hdup, hactions⟩ := hstuck.matched_done hinv hheaders
  obtain ⟨hout, hthrough⟩ := hstuck.dropper_done hinv hmatched hdup hraw
  have hresults : t.ftResults = s.udp.ftResults := by
    rw [ht.eq]
    rfl
  have hpass : s.udp.passRaw = xs.map (isRaw table) := by
    apply (halone.passRaw_prefix hchain).eq_of_length
    rw [hchain.passRaw, List.length_map, List.length_map, ← hresults, ← hlength, ← hmatched, hinv.matched,
      List.length_map]
  have hfinished : PassthroughWrapper.Finished Arrival.wire (isRaw table) xs s.wrapper :=
    ⟨hchain.rawIn.trans hport, hchain.passStream.trans hpass, hdone.wrapper⟩
  obtain ⟨due, hturn⟩ := PassthroughWrapper.exists_turn hchain.wrapper (framed_arrivals xs)
    (fed_wrapper hin hchain halone)
  obtain ⟨hmeta, hdata⟩ := hfinished.complete (framed_arrivals xs) hturn
  refine ⟨hdata.trans (flatMap_written table xs), hmeta, ?_, ?_, hpass, ?_, ?_⟩
  · rw [← ht.headerSteerToDup, hout, header_sentTo]
  · rw [← ht.dataSteerToLength, hthrough, flatMap_payload]
  · have hm : t.matched = s.udp.matched := by
      rw [ht.eq]
      rfl
    rw [← hm, ← map_pass_passages]
    apply hinv.matched_prefix.eq_of_length
    rw [hmatched, List.length_map]
  · rw [← ht.steerResults, hinv.steerResults, List.take_of_length_le hactions, decided_sentTo]

/-! ### The steering does not get stuck -/

/-- What was read so far outside the receive path, and by the flow table. -/
def taken (s : State n k E N M) : ℕ :=
  s.port.past.length + s.rawInToUdp.past.length + s.udp.hdrDupToFlowTable.past.length + s.lookups.past.length +
    s.results.past.length + s.wrapper.rawIn.past.length

/-- Everything has arrived, and `t` is the run of the steering alone. -/
structure Draining (first : E.Reg → Prop) (keepBytes : ℕ → BitVec 32) (table : FlowTable.Table) (sched : N.Sched)
    (xs : List Arrival) (s : State n k E N M) (t : Udp.State n) : Prop where
  chain : Chain first keepBytes table sched s
  input : Input xs s
  arrived : s.port.sent = xs.flatMap Arrival.wire
  follows : Udp.Follows s.udp t
  inv : Udp.PathInv keepBytes (passages table xs) t

namespace Draining

variable {t : Udp.State n}

theorem alone (h : Draining first keepBytes table sched xs s t) : Alone keepBytes table xs s := ⟨t, h.follows, h.inv⟩

theorem headers_prefix (h : Draining first keepBytes table sched xs s t) :
    s.udp.hdrDupToFlowTable.past <+: xs.map (·.frame.header) :=
  s.udp.hdrDupToFlowTable.past_prefix_sent.trans h.alone.headers_prefix

theorem traffic (h : Draining first keepBytes table sched xs s t) : Udp.Traffic (passages table xs) t :=
  traffic_of_follows h.input h.chain h.headers_prefix h.follows

/-- A call that reads no port and checks no header. -/
theorem next (hE : E.Marks first) (h : Draining first keepBytes table sched xs s t) {a : Act n k}
    (hport : (step keepBytes table s a).port.sent = s.port.sent)
    (hchecks : (step keepBytes table s a).udp.checksToActions.sent = s.udp.checksToActions.sent) {t' : Udp.State n}
    (ht' : Udp.Follows (step keepBytes table s a).udp t') (hinv' : Udp.PathInv keepBytes (passages table xs) t') :
    Draining first keepBytes table sched xs (step keepBytes table s a) t' where
  chain := chain_step hE h.chain a
  input := ⟨by rw [hport]; exact h.input.port, by rw [hchecks]; exact h.input.enable⟩
  arrived := hport.trans h.arrived
  follows := ht'
  inv := hinv'

end Draining

/-- A call with which the draining goes on. -/
def Advances (first : E.Reg → Prop) (keepBytes : ℕ → BitVec 32) (table : FlowTable.Table) (sched : N.Sched)
    (xs : List Arrival) (s : State n k E N M) (t : Udp.State n) (a : Act n k) : Prop :=
  ∃ t', Draining first keepBytes table sched xs (step keepBytes table s a) t' ∧
    taken s + Udp.progress t < taken (step keepBytes table s a) + Udp.progress t'

section Calls

variable {t : Udp.State n}

theorem advances_rawDup2 (hE : E.Marks first) (h : Draining first keepBytes table sched xs s t) {w : Axi4s}
    (hw : s.port.head = some w) : Advances first keepBytes table sched xs s t (.rawDup2 false) := by
  refine ⟨t, h.next (a := .rawDup2 false) hE (Fifo.sent_readIf _ _) rfl h.follows h.inv, ?_⟩
  have hlen : (s.port.readIf (dup false s.port.head).isSome).past.length = s.port.past.length + 1 := by
    have hsome : (dup false s.port.head).isSome = true := by rw [hw]; rfl
    rw [hsome]
    exact s.port.length_past_readIf_true hw
  have hraw : (run (PassthroughWrapper.step keepBytes) s.wrapper
      ((dup false s.port.head).toList.map .arriveRaw)).rawIn.past = s.wrapper.rawIn.past := by
    rw [hw]
    rfl
  simp only [taken, step, hlen, hraw, Fifo.past_put]
  omega

theorem advances_enumFirst (hE : E.Marks first) (h : Draining first keepBytes table sched xs s t) {w : Axi4s}
    (hw : s.rawInToUdp.head = some w) : Advances first keepBytes table sched xs s t (.enumFirst false) := by
  have hdup : dup false s.rawInToUdp.head = some w := hw
  have hstep : step keepBytes table s (.enumFirst false) =
      { s with
        rawInToUdp := s.rawInToUdp.readIf true
        enumFirst := (E.call s.enumFirst w).2
        udp := Udp.step keepBytes s.udp (.arrive (E.call s.enumFirst w).1 w) } := by
    simp only [step, hdup]
  have hfollows : Udp.Follows (step keepBytes table s (.enumFirst false)).udp
      (Udp.step keepBytes t (.arrive (E.call s.enumFirst w).1 w)) := by
    rw [hstep]
    exact h.follows.steering (a := .arrive _ w) rfl fun r hr => by cases hr
  refine ⟨_, h.next hE (by rw [hstep]) (by rw [hstep]; rfl) hfollows { h.inv with }, ?_⟩
  rw [hstep]
  have hlen := s.rawInToUdp.length_past_readIf_true hw
  have hprogress : Udp.progress (Udp.step keepBytes t (.arrive (E.call s.enumFirst w).1 w)) = Udp.progress t := rfl
  have hsame : (Udp.step keepBytes s.udp (.arrive (E.call s.enumFirst w).1 w)).hdrDupToFlowTable =
      s.udp.hdrDupToFlowTable := rfl
  simp only [taken, hlen, hprogress, hsame]
  omega

/-- The flow table reads a header. -/
theorem advances_lookup (hE : E.Marks first) (h : Draining first keepBytes table sched xs s t) {buf : HeaderBuffer}
    (hbuf : s.udp.hdrDupToFlowTable.head = some buf) :
    Advances first keepBytes table sched xs s t (.ftWrapper false true) := by
  have hnext : Udp.Follows (step keepBytes table s (.ftWrapper false true)).udp t := follows_lookup h.follows false rfl
  refine ⟨t, h.next hE rfl rfl hnext h.inv, ?_⟩
  have hlen := s.udp.hdrDupToFlowTable.length_past_readIf_true hbuf
  have hread : (step keepBytes table s (.ftWrapper false true)).udp.hdrDupToFlowTable =
      s.udp.hdrDupToFlowTable.readIf true := by
    rw [udp_ftWrapper, hbuf]
    rfl
  have hlookups : (step keepBytes table s (.ftWrapper false true)).lookups.past = s.lookups.past := rfl
  have hresults : (step keepBytes table s (.ftWrapper false true)).results.past = s.results.past := rfl
  have hport : (step keepBytes table s (.ftWrapper false true)).port = s.port := rfl
  have hudp : (step keepBytes table s (.ftWrapper false true)).rawInToUdp = s.rawInToUdp := rfl
  have hwrapper : (step keepBytes table s (.ftWrapper false true)).wrapper = s.wrapper := rfl
  simp only [taken, hread, hlen, hlookups, hresults, hport, hudp, hwrapper]
  omega

/-- The hash table answers a lookup. -/
theorem advances_hashTable (hE : E.Marks first) (h : Draining first keepBytes table sched xs s t) {f : FlowTable.Flow}
    (hf : s.lookups.head = some f) : Advances first keepBytes table sched xs s t (.hashTable false) := by
  refine ⟨t, h.next hE rfl rfl h.follows h.inv, ?_⟩
  have hlen := s.lookups.length_past_readIf_true hf
  have hread : (step keepBytes table s (.hashTable false)).lookups = s.lookups.readIf true := by
    show s.lookups.readIf (s.lookups.head).isSome = _
    rw [hf]
    rfl
  have hudp : (step keepBytes table s (.hashTable false)).udp = s.udp := rfl
  have hresults : (step keepBytes table s (.hashTable false)).results.past = s.results.past := rfl
  have hport : (step keepBytes table s (.hashTable false)).port = s.port := rfl
  have hraw : (step keepBytes table s (.hashTable false)).rawInToUdp = s.rawInToUdp := rfl
  have hwrapper : (step keepBytes table s (.hashTable false)).wrapper = s.wrapper := rfl
  simp only [taken, hread, hlen, hudp, hresults, hport, hraw, hwrapper]
  omega

theorem isSteering_of_unit {a : Udp.Act n} (ha : Udp.isSteeringUnit a = true) :
    Udp.isSteering a = true ∧ ∀ r, a ≠ .ftStep r := by
  cases a with
  | mlxMetadata mFull dFull => exact ⟨rfl, fun r hr => by cases hr⟩
  | split hFull dFull => exact ⟨rfl, fun r hr => by cases hr⟩
  | hdrDup3 full => exact ⟨rfl, fun r hr => by cases hr⟩
  | hdrChecks enable full => exact ⟨rfl, fun r hr => by cases hr⟩
  | checksToAction rFull oFull => exact ⟨rfl, fun r hr => by cases hr⟩
  | updateStatsActions mFull pFull => exact ⟨rfl, fun r hr => by cases hr⟩
  | udpDropperStep hFull dFull => exact ⟨rfl, fun r hr => by cases hr⟩
  | _ => cases ha

/-- A unit of the receive path is called as part of the whole. -/
def callOf : Udp.Act n → Act n k
  | .updateStatsActions mFull pFull => .updateStatsActions mFull pFull
  | a => .udp a

variable (keepBytes table) in
theorem step_callOf (s : State n k E N M) {a : Udp.Act n} (ha : Udp.isSteeringUnit a = true) :
    (step keepBytes table s (callOf a)).udp = Udp.step keepBytes s.udp a ∧
      (step keepBytes table s (callOf a)).port = s.port ∧ taken (step keepBytes table s (callOf a)) = taken s := by
  cases a with
  | updateStatsActions mFull pFull =>
    refine ⟨rfl, rfl, ?_⟩
    have hraw : ∀ (o : Option Bool) (u : PassthroughWrapper.State k N M),
        (run (PassthroughWrapper.step keepBytes) u (o.toList.map .arrivePass)).rawIn.past = u.rawIn.past := by
      intro o u
      cases o <;> rfl
    simp only [taken, callOf, step, hraw, Udp.step]
  | mlxMetadata mFull dFull => exact ⟨rfl, rfl, rfl⟩
  | split hFull dFull => exact ⟨rfl, rfl, rfl⟩
  | hdrDup3 full => exact ⟨rfl, rfl, rfl⟩
  | hdrChecks enable full => exact ⟨rfl, rfl, rfl⟩
  | checksToAction rFull oFull => exact ⟨rfl, rfl, rfl⟩
  | udpDropperStep hFull dFull => exact ⟨rfl, rfl, rfl⟩
  | _ => cases ha

/-- A unit of the receive path goes on. -/
theorem advances_unit (hE : E.Marks first) (h : Draining first keepBytes table sched xs s t) {a : Udp.Act n}
    (ha : Udp.isSteeringUnit a = true) (hadv : Udp.Advances keepBytes (passages table xs) t a) :
    Advances first keepBytes table sched xs s t (callOf a) := by
  obtain ⟨hprogress, htraffic, -⟩ := hadv
  obtain ⟨hsteering, hft⟩ := isSteering_of_unit ha
  obtain ⟨hudp, hport, htaken⟩ := step_callOf keepBytes table s ha
  have hfollows : Udp.Follows (step keepBytes table s (callOf a)).udp (Udp.step keepBytes t a) := by
    rw [hudp]
    exact h.follows.steering hsteering hft
  have hinv := Udp.pathInv_steering hsteering h.traffic htraffic h.inv
  have henable := htraffic.enable
  rw [hfollows.eq, passages, List.map_map] at henable
  refine ⟨_, ⟨chain_step hE h.chain _, ⟨?_, henable⟩, ?_, hfollows, hinv⟩, ?_⟩
  · rw [hport]
    exact h.input.port
  · rw [hport]
    exact h.arrived
  · rw [htaken]
    omega

/-- The flow table writes an answer. -/
theorem advances_answer (hE : E.Marks first) (h : Draining first keepBytes table sched xs s t)
    {r : Option (BitVec 11 × FlowTableValue)} (hr : s.results.head = some r) :
    Advances first keepBytes table sched xs s t (.ftWrapper true false) := by
  obtain ⟨buf, hbuf⟩ := exists_answered_header h.chain h.follows h.inv hr
  have hnext : Udp.Follows (step keepBytes table s (.ftWrapper true false)).udp _ :=
    follows_answer keepBytes table h.follows true hr hbuf
  have hchain := chain_step hE h.chain (.ftWrapper true false)
  have hin : Input xs (step keepBytes table s (.ftWrapper true false)) := ⟨h.input.port, h.input.enable⟩
  have htraffic := traffic_of_follows hin hchain
    ((hdrDupToFlowTable_past_grows s (.ftWrapper true false)).trans h.alone.headers_prefix) hnext
  have hinv := Udp.pathInv_steering rfl h.traffic htraffic h.inv
  refine ⟨_, ⟨hchain, hin, h.arrived, hnext, hinv⟩, ?_⟩
  have hprogress := Udp.progress_ftStep keepBytes (FlowTable.resultOf r) hbuf
  have hlen := s.results.length_past_readIf_true hr
  have hread : (step keepBytes table s (.ftWrapper true false)).results = s.results.readIf true := by
    show s.results.readIf s.results.head.isSome = _
    rw [hr]
    rfl
  have hheaders : (step keepBytes table s (.ftWrapper true false)).udp.hdrDupToFlowTable.past =
      s.udp.hdrDupToFlowTable.past := rfl
  have hlookups : (step keepBytes table s (.ftWrapper true false)).lookups.past = s.lookups.past := rfl
  have hport : (step keepBytes table s (.ftWrapper true false)).port = s.port := rfl
  have hraw : (step keepBytes table s (.ftWrapper true false)).rawInToUdp = s.rawInToUdp := rfl
  have hwrapper : (step keepBytes table s (.ftWrapper true false)).wrapper = s.wrapper := rfl
  simp only [taken, hread, hlen, hheaders, hlookups, hport, hraw, hwrapper]
  omega

/-- The wrapper reads a beat. -/
theorem advances_wrapper (hE : E.Marks first) (h : Draining first keepBytes table sched xs s t) {w : Axi4s}
    (hw : s.wrapper.rawIn.head = some w)
    (hpass : s.wrapper.state = .idle → s.wrapper.passStream.head ≠ none) :
    Advances first keepBytes table sched xs s t (.wrapper (.wrapperStep false)) := by
  refine ⟨t, h.next (a := .wrapper (.wrapperStep false)) hE rfl rfl h.follows h.inv, ?_⟩
  have hlen := s.wrapper.rawIn.length_past_readIf_true hw
  have hread : (PassthroughWrapper.wrapperStep keepBytes false s.wrapper).rawIn = s.wrapper.rawIn.readIf true := by
    cases hst : s.wrapper.state with
    | idle =>
      obtain ⟨b, hb⟩ := Option.ne_none_iff_exists'.mp (hpass hst)
      simp [PassthroughWrapper.wrapperStep, hst, hb, hw]
    | stream => simp [PassthroughWrapper.wrapperStep, hst, hw]
  have hstep : step keepBytes table s (.wrapper (.wrapperStep false)) =
      { s with wrapper := PassthroughWrapper.wrapperStep keepBytes false s.wrapper } := rfl
  rw [hstep]
  simp only [taken, hread, hlen]
  omega

/-- Some unit goes on, or none is left with anything to do. -/
theorem advances_or_done (hE : E.Marks first) (h : Draining first keepBytes table sched xs s t) :
    (∃ a, Advances first keepBytes table sched xs s t a) ∨ Done xs s := by
  by_cases hport : s.port.head = none
  case neg =>
    obtain ⟨w, hw⟩ := Option.ne_none_iff_exists'.mp hport
    exact .inl ⟨_, advances_rawDup2 hE h hw⟩
  by_cases hraw : s.rawInToUdp.head = none
  case neg =>
    obtain ⟨w, hw⟩ := Option.ne_none_iff_exists'.mp hraw
    exact .inl ⟨_, advances_enumFirst hE h hw⟩
  by_cases hheaders : s.udp.hdrDupToFlowTable.head = none
  case neg =>
    obtain ⟨buf, hbuf⟩ := Option.ne_none_iff_exists'.mp hheaders
    exact .inl ⟨_, advances_lookup hE h hbuf⟩
  by_cases hlookups : s.lookups.head = none
  case neg =>
    obtain ⟨f, hf⟩ := Option.ne_none_iff_exists'.mp hlookups
    exact .inl ⟨_, advances_hashTable hE h hf⟩
  by_cases hresults : s.results.head = none
  case neg =>
    obtain ⟨r, hr⟩ := Option.ne_none_iff_exists'.mp hresults
    exact .inl ⟨_, advances_answer hE h hr⟩
  by_cases hwrapper : (s.wrapper.state = .idle ∧ (s.wrapper.passStream.head = none ∨ s.wrapper.rawIn.head = none)) ∨
    (s.wrapper.state = .stream ∧ s.wrapper.rawIn.head = none)
  case neg =>
    obtain ⟨w, hw⟩ : ∃ w, s.wrapper.rawIn.head = some w := by
      apply Option.ne_none_iff_exists'.mp
      intro hnone
      cases hst : s.wrapper.state with
      | idle => exact hwrapper (.inl ⟨hst, .inr hnone⟩)
      | stream => exact hwrapper (.inr ⟨hst, hnone⟩)
    exact .inl ⟨_, advances_wrapper hE h hw fun hst hnone => hwrapper (.inl ⟨hst, .inl hnone⟩)⟩
  have hanswered := all_answered h.chain h.follows h.inv hheaders hlookups hresults
  rcases Udp.steering_advances_or_stuck h.inv h.traffic with ⟨a, ha, hadv⟩ | ⟨buf, hbuf⟩ | hstuck
  · exact .inl ⟨_, advances_unit hE h ha hadv⟩
  · rw [hanswered] at hbuf
    cases hbuf
  · exact .inr ⟨h.arrived, hport, hraw, (h.follows.steeringStuck_iff hheaders hanswered).mp hstuck, hlookups, hresults,
      hwrapper⟩

end Calls

/-- What was read is bounded by the traffic. -/
theorem taken_le {t : Udp.State n} (h : Draining first keepBytes table sched xs s t) :
    taken s ≤ 3 * (xs.flatMap Arrival.wire).length + 3 * xs.length := by
  have hport : s.port.past.length ≤ (xs.flatMap Arrival.wire).length := by
    rw [← h.arrived]
    exact s.port.past_prefix_sent.length_le
  have hraw : s.rawInToUdp.past.length ≤ s.port.past.length := by
    rw [← h.chain.toUdp]
    exact s.rawInToUdp.past_prefix_sent.length_le
  have hwrapper : s.wrapper.rawIn.past.length ≤ s.port.past.length := by
    rw [← h.chain.rawIn]
    exact s.wrapper.rawIn.past_prefix_sent.length_le
  have hheaders : s.udp.hdrDupToFlowTable.past.length ≤ xs.length := by
    have hle := h.headers_prefix.length_le
    rwa [List.length_map] at hle
  have hlookups : s.lookups.past.length ≤ s.udp.hdrDupToFlowTable.past.length := by
    have hle := s.lookups.past_prefix_sent.length_le
    rwa [h.chain.lookups, List.length_map] at hle
  have hresults : s.results.past.length ≤ s.lookups.past.length := by
    have hle := s.results.past_prefix_sent.length_le
    rwa [h.chain.results, List.length_map] at hle
  unfold taken
  omega

/-- Whatever happened so far, once everything has arrived the rest can be delivered. -/
theorem exists_done (hE : E.Marks first) {t : Udp.State n} (h : Draining first keepBytes table sched xs s t) :
    ∃ more : List (Act n k), Input xs (run (step keepBytes table) s more) ∧ Done xs (run (step keepBytes table) s more) := by
  obtain ⟨bound, hbound⟩ := Udp.progress_le (n := n) keepBytes (passages table xs)
  -- induction on the distance from the bound
  induction hd : 3 * (xs.flatMap Arrival.wire).length + 3 * xs.length + bound - (taken s + Udp.progress t)
    using Nat.strong_induction_on generalizing s t with
  | _ d ih =>
    rcases advances_or_done hE h with ⟨a, t', h', hlt⟩ | hdone
    · have hle := hbound t' h'.inv h'.traffic
      have htaken := taken_le h'
      obtain ⟨more, hin, hdone⟩ := ih _ (by omega) h' rfl
      exact ⟨a :: more, hin, hdone⟩
    · exact ⟨[], h.input, hdone⟩

/-- What holds in every state of a run on the frames `xs`. -/
theorem invs_of_run (hE : E.Marks first) (htable : EnginesBelow n table) (acts : List (Act n k))
    (hin : Input xs (run (step keepBytes table) (State.init n E M sched) acts)) :
    Chain first keepBytes table sched (run (step keepBytes table) (State.init n E M sched) acts) ∧
      Alone keepBytes table xs (run (step keepBytes table) (State.init n E M sched) acts) ∧
      Paired table xs (run (step keepBytes table) (State.init n E M sched) acts).udp := by
  revert hin
  apply run_invariant (P := fun s : State n k E N M => Input xs s →
    Chain first keepBytes table sched s ∧ Alone keepBytes table xs s ∧ Paired table xs s.udp)
  · intro s a ih hin'
    have hin := input_of_step hin'
    obtain ⟨hchain, halone, hpaired⟩ := ih hin
    have hchain' := chain_step hE hchain a
    exact ⟨hchain', alone_step hchain hchain' hin hin' halone, paired_step htable hchain halone hpaired a⟩
  · intro _
    exact ⟨chain_init hE, ⟨_, Udp.follows_init, Udp.pathInv_init _ _⟩, paired_init table xs⟩

/-- Everything can still be delivered, whatever stalls occurred so far. -/
def Drains (keepBytes : ℕ → BitVec 32) (table : FlowTable.Table) (xs : List Arrival) (s : State n k E N M) : Prop :=
  ∃ more : List (Act n k), Input xs (run (step keepBytes table) s more) ∧ Done xs (run (step keepBytes table) s more) ∧
    Partitioned keepBytes table xs (run (step keepBytes table) s more)

theorem partitioned_of_invs (hin : Input xs s) (hchain : Chain first keepBytes table sched s)
    (halone : Alone keepBytes table xs s) (hpaired : Paired table xs s.udp) : Partitioned keepBytes table xs s := by
  obtain ⟨due, hturn⟩ := PassthroughWrapper.exists_turn hchain.wrapper (framed_arrivals xs)
    (fed_wrapper hin hchain halone)
  obtain ⟨t, ht, hinv⟩ := id halone
  refine ⟨?_, hturn.metas_prefix, halone.headerSteerToDup_prefix, ?_,
    ⟨_, fun e => ⟨hpaired.headers e, hpaired.decisions e⟩⟩, halone.passRaw_prefix hchain, ?_,
    halone.steerResults_prefix, fun hdone => hdone.delivered hin hchain halone⟩
  · rw [← flatMap_written]
    exact hturn.data_prefix
  · rw [← ht.dataSteerToLength, ← flatMap_payload]
    exact hinv.dataSteerToLength_prefix
  · have hm : t.matched = s.udp.matched := by
      rw [ht.eq]
      rfl
    rw [← hm, ← map_pass_passages]
    exact hinv.matched_prefix

/-- In every run on frames of at least two beats, with any content of the flow table that names existing engines, any
value of the flag at each check and any order and stall of the calls, the traffic is partitioned; and once everything
has arrived, it can be delivered. -/
theorem partitioned_run (keepBytes : ℕ → BitVec 32) (hE : E.Marks first) (table : FlowTable.Table)
    (htable : EnginesBelow n table) (sched : N.Sched) (xs : List Arrival) (acts : List (Act n k))
    (hin : Input xs (run (step keepBytes table) (State.init n E M sched) acts)) :
    Partitioned keepBytes table xs (run (step keepBytes table) (State.init n E M sched) acts) ∧
      ((run (step keepBytes table) (State.init n E M sched) acts).port.sent = xs.flatMap Arrival.wire →
        Drains keepBytes table xs (run (step keepBytes table) (State.init n E M sched) acts)) := by
  obtain ⟨hchain, halone, hpaired⟩ := invs_of_run hE htable acts hin
  refine ⟨partitioned_of_invs hin hchain halone hpaired, fun harrived => ?_⟩
  obtain ⟨t, ht, hinv⟩ := halone
  obtain ⟨more, hin', hdone⟩ := exists_done hE ⟨hchain, hin, harrived, ht, hinv⟩
  refine ⟨more, hin', hdone, ?_⟩
  rw [← run_append] at hin' hdone ⊢
  obtain ⟨hchain', halone', hpaired'⟩ := invs_of_run hE htable (acts ++ more) hin'
  exact partitioned_of_invs hin' hchain' halone' hpaired'

/-! ### A run -/

/-- An enumerator that counts the beats of each packet. -/
def counting : EnumFirst where
  Reg := ℕ
  init := 0
  call := fun (r : ℕ) w => (r, if w.last then 0 else r + 1)

theorem marks_counting : counting.Marks (· = (0 : ℕ)) where
  init := rfl
  count := fun _ _ => Iff.rfl
  next := by
    intro (r : ℕ) w
    show (if w.last then 0 else r + 1) = 0 ↔ w.last = true
    cases w.last <;> simp

/-- A UDP frame with three bytes of payload. -/
def threeBytes : Udp.Frame := Udp.udpFrame 31 11 (0xaabbcc#24 ++ 0#152)

/-- A flow table that sends the port of the frame to ikernel 3 of the first engine. -/
def onePort : FlowTable.Table :=
  { FlowTable.Table.init with
    fields := FlowTable.Flow.fieldDstPort
    hashFlowTable := AList.insert (⟨0, 5678, 0, 0, 0⟩ : FlowTable.Flow).toInt
      (5, FlowTable.valueToInt ⟨.ikernel, 0, 3⟩) ∅ }

theorem enginesBelow_onePort : EnginesBelow 1 onePort := by
  intro f flowId v h
  rw [FlowTable.answer, Option.map_eq_some_iff] at h
  obtain ⟨e, he, hv⟩ := h
  have hval : v = FlowTable.valueOfInt e.2 := (congrArg Prod.snd hv).symm
  rw [onePort] at he
  by_cases hf : f.toInt = (⟨0, 5678, 0, 0, 0⟩ : FlowTable.Flow).toInt
  · rw [hf, AList.lookup_insert] at he
    obtain rfl := Option.some.inj he
    rw [hval]
    decide
  · rw [AList.lookup_insert_ne hf] at he
    cases he

/-- The same frame twice; the unit is disabled when the second one is checked. -/
def twoArrivals : List Arrival := [⟨threeBytes, true⟩, ⟨threeBytes, false⟩]

/-- Every unit is called once, apart from the checks of the headers. -/
def steeringRound : List (Act 1 1) :=
  [.rawDup2 false, .enumFirst false, .udp (.mlxMetadata false false), .udp (.split false false),
    .udp (.hdrDup3 false), .ftWrapper false false, .hashTable false, .udp (.checksToAction false false),
    .updateStatsActions false false, .udp (.udpDropperStep false false), .udp (.hdrDup2 false),
    .udp (.crossbar false false ⟨0, 0, 0, false⟩), .wrapper (.wrapperStep false)]

/-- Both frames arrive, and their headers are checked when all of them are there. -/
def twoArrivalsActs : List (Act 1 1) :=
  (twoArrivals.flatMap Arrival.wire).map .arrive ++ (List.replicate 6 steeringRound).flatten ++
    [.udp (.hdrChecks true false), .udp (.hdrChecks false false)] ++ (List.replicate 6 steeringRound).flatten

def twoArrivalsEnd : State 1 1 counting (Arbiter.roundRobin 2 64) buffering :=
  run (step Udp.leadingKeep onePort) (State.init 1 counting buffering []) twoArrivalsActs

/-- The first frame goes to its ikernel and the second one, for which the unit was disabled, passes raw. -/
theorem partitioned_run_twoArrivals :
    (Partitioned Udp.leadingKeep onePort twoArrivals twoArrivalsEnd ∧
      (twoArrivalsEnd.port.sent = twoArrivals.flatMap Arrival.wire →
        Drains Udp.leadingKeep onePort twoArrivals twoArrivalsEnd)) ∧
      twoArrivalsEnd.port.sent = twoArrivals.flatMap Arrival.wire ∧ twoArrivalsEnd.udp.passRaw = [false, true] ∧
      twoArrivalsEnd.udp.headerSteerToDup.sent = [threeBytes.header] ∧
      (twoArrivalsEnd.wrapper.egress.arbiter.tcData (Fin.last 1)).sent.length = 2 := by
  have hin : Input twoArrivals twoArrivalsEnd := ⟨by decide +kernel, by decide +kernel⟩
  refine ⟨?_, by decide +kernel, by decide +kernel, by decide +kernel, by decide +kernel⟩
  rw [twoArrivalsEnd] at hin ⊢
  exact partitioned_run Udp.leadingKeep marks_counting onePort enginesBelow_onePort _ twoArrivals twoArrivalsActs hin

end Nica.Hls.Steering
