import Nica.Hls.Steering
import Nica.Hls.Equiv.SteeringAlone
import Nica.Hls.Equiv.RawCopies

/-!
# Frames on their way through the steering

`Arrival.destination` says where a frame goes.  `Chain` is what the streams between the units carry, whatever arrives:
each is made of what was read from the one before it.  `Alone` says that the receive path follows a run of the steering
alone (`Nica.Hls.Udp.Follows`), so that the invariants of its units hold.  Every step keeps both (`chain_step`,
`alone_step`).
-/

namespace Nica.Hls.Steering

open Nica.Lib

/-! ### Frames and where they go -/

/-- A frame that arrives, and the configuration flag when its headers are checked. -/
structure Arrival where
  frame : Udp.Frame
  enable : Bool

/-- What can become of a frame. -/
inductive Destination
  | raw
  | ikernel
  | nowhere
deriving DecidableEq, Repr

namespace Arrival

variable (table : FlowTable.Table) (x : Arrival)

/-- The beats of the frame. -/
def wire : List Axi4s := x.frame.first :: (x.frame.middle ++ [x.frame.final])

/-- Its parsed headers. -/
def headers : HeaderParser := x.frame.header.parse

/-- What the flow table holds for it. -/
def result : FlowTableResult := FlowTable.result table x.frame.header

/-- Where the frame goes: raw if the unit is disabled or the frame is not IPv4, not UDP or too short for a UDP
header, else where the flow table says. -/
def destination : Destination :=
  if x.enable = false ∨ x.headers.eth.proto ≠ ethPIp ∨ x.headers.ip.protocol ≠ ipprotoUdp ∨
      x.headers.ip.totLen < 28 then
    .raw
  else
    match (x.result table).v.action with
    | .passthrough => .raw
    | .drop => .nowhere
    | .ikernel => .ikernel

/-- The data beats that go to the ikernels with the headers: none for an empty UDP packet. -/
def payload (keepBytes : ℕ → BitVec 32) : List AxiData :=
  if x.headers.udp.emptyPacket then [] else x.frame.raw keepBytes

/-- The frame on its way through the receive path. -/
def passage : Udp.Passage := ⟨x.frame, x.enable, x.result table⟩

end Arrival

/-- The frames that go to `d`. -/
def sentTo (table : FlowTable.Table) (d : Destination) (xs : List Arrival) : List Arrival :=
  xs.filter (·.destination table = d)

section Decisions

variable (table : FlowTable.Table) (x : Arrival)

/-- The steering units decide as `destination` says. -/
theorem action_decided : (x.passage table).decided.v.action =
    match x.destination table with
    | .raw => .passthrough
    | .ikernel => .ikernel
    | .nowhere => .drop := by
  have hchecks : (x.passage table).checks =
      ⟨!x.enable, x.headers.eth.proto ≠ ethPIp, x.headers.ip.totLen < 28, x.headers.ip.protocol ≠ ipprotoUdp⟩ := rfl
  rw [Udp.Passage.decided, hchecks, Udp.applyChecks, Arrival.destination]
  by_cases h : x.enable = false ∨ x.headers.eth.proto ≠ ethPIp ∨ x.headers.ip.protocol ≠ ipprotoUdp ∨
      x.headers.ip.totLen < 28
  · rw [if_pos h, if_pos]
    simp only [Bool.or_eq_true, Bool.not_eq_true', decide_eq_true_eq]
    tauto
  · rw [if_neg h, if_neg]
    · show (x.result table).v.action = _
      cases (x.result table).v.action <;> rfl
    · simp only [Bool.or_eq_true, Bool.not_eq_true', decide_eq_true_eq]
      tauto

theorem pass_eq : (x.passage table).pass = decide (x.destination table = .ikernel) := by
  rw [Udp.Passage.pass, action_decided]
  cases x.destination table <;> rfl

theorem raw_eq : decide ((x.passage table).decided.v.action = .passthrough) =
    decide (x.destination table = .raw) := by
  rw [action_decided]
  cases x.destination table <;> rfl

/-- A frame for an ikernel is handled by the result of its own flow. -/
theorem decided_of_ikernel (h : x.destination table = .ikernel) :
    (x.passage table).decided = x.result table := by
  have hact := action_decided table x
  rw [h] at hact
  rw [Udp.Passage.decided, Udp.applyChecks] at hact ⊢
  split_ifs with hc
  · rw [if_pos hc] at hact
    cases hact
  · rfl

theorem through_passage (keepBytes : ℕ → BitVec 32) (h : x.destination table = .ikernel) :
    (x.passage table).through keepBytes = x.payload keepBytes := by
  have hpass : (x.passage table).pass = true := by rw [pass_eq, h]; rfl
  rw [Udp.Passage.through, hpass, Bool.true_and, Arrival.payload]
  show (if (!x.headers.udp.emptyPacket) = true then x.frame.raw keepBytes else []) = _
  cases x.headers.udp.emptyPacket <;> rfl

end Decisions

/-- The passages that go to an ikernel are those of the frames that do. -/
theorem passing_passages (table : FlowTable.Table) (xs : List Arrival) :
    Udp.passing (xs.map (·.passage table)) = (sentTo table .ikernel xs).map (·.passage table) := by
  rw [Udp.passing, List.filter_map, sentTo]
  congr 1
  apply List.filter_congr
  intro x _
  exact pass_eq table x

/-! ### The beats with their marks -/

/-- The beats, each with whether a packet starts with it; `b` is that of the first one. -/
def markFrom : Bool → List Axi4s → List (Bool × Axi4s)
  | _, [] => []
  | b, w :: ws => (b, w) :: markFrom w.last ws

/-- Whether a packet starts behind the beats. -/
def startsAfter (b : Bool) (ws : List Axi4s) : Bool := ws.foldl (fun _ w => w.last) b

theorem markFrom_append (ws vs : List Axi4s) : ∀ b, markFrom b (ws ++ vs) = markFrom b ws ++ markFrom (startsAfter b ws) vs := by
  induction ws with
  | nil => intro b; rfl
  | cons w ws ih => intro b; exact congrArg ((b, w) :: ·) (ih w.last)

theorem markFrom_isPrefix {ws vs : List Axi4s} (h : ws <+: vs) (b : Bool) : markFrom b ws <+: markFrom b vs := by
  obtain ⟨rest, rfl⟩ := h
  rw [markFrom_append]
  exact List.prefix_append _ _

/-- Behind a beat that does not end a packet, up to the one that does. -/
theorem markFrom_body {ws : List Axi4s} {final : Axi4s} (hws : ∀ w ∈ ws, w.last = false) :
    markFrom false (ws ++ [final]) = (ws ++ [final]).map (false, ·) := by
  induction ws with
  | nil => rfl
  | cons w ws ih =>
    have hw : w.last = false := hws w (List.mem_cons_self ..)
    rw [List.cons_append, markFrom, hw, ih fun v hv => hws v (List.mem_cons_of_mem _ hv)]
    rfl

theorem markFrom_wire (x : Arrival) : markFrom true x.wire = x.frame.marked := by
  have hfirst : x.frame.first.last = false := x.frame.body_last _ (List.mem_cons_self ..)
  rw [Arrival.wire, markFrom, hfirst, markFrom_body fun w hw => x.frame.body_last w (List.mem_cons_of_mem _ hw)]
  rfl

theorem startsAfter_wire (x : Arrival) (b : Bool) : startsAfter b x.wire = true := by
  rw [Arrival.wire, ← List.cons_append, startsAfter, List.foldl_append]
  exact x.frame.final_last

theorem markFrom_flatMap (xs : List Arrival) :
    markFrom true (xs.flatMap Arrival.wire) = xs.flatMap (·.frame.marked) := by
  induction xs with
  | nil => rfl
  | cons x xs ih =>
    rw [List.flatMap_cons, List.flatMap_cons, markFrom_append, startsAfter_wire, ih, markFrom_wire]

/-! ### The streams between the units -/

variable {n k : ℕ} {E : EnumFirst} {first : E.Reg → Prop} {N : Arbiter.Ntl (k + 1)} {M : Merger AxiData}
  {keepBytes : ℕ → BitVec 32} {table : FlowTable.Table} {sched : N.Sched}

/-- What the streams between the units carry, whatever arrives. -/
structure Chain (first : E.Reg → Prop) (keepBytes : ℕ → BitVec 32) (table : FlowTable.Table) (sched : N.Sched)
    (s : State n k E N M) : Prop where
  rawIn : s.wrapper.rawIn.sent = s.port.past
  toUdp : s.rawInToUdp.sent = s.port.past
  marked : s.udp.enumOut.sent.map (fun x => (decide (x.1 = 0), x.2)) = markFrom true s.rawInToUdp.past
  starts : first s.enumFirst ↔ startsAfter true s.rawInToUdp.past = true
  wrapper : Reachable (PassthroughWrapper.step keepBytes) (PassthroughWrapper.State.init M sched) s.wrapper
  passStream : s.wrapper.passStream.sent = s.udp.passRaw
  passRaw : s.udp.passRaw = s.udp.ftResults.past.map (fun r => decide (r.v.action = .passthrough))
  lookups : s.lookups.sent = s.udp.hdrDupToFlowTable.past.map (FlowTable.lookupOf table)
  results : s.results.sent = s.lookups.past.map (FlowTable.answer table)
  answers : s.udp.ftToAction.sent = s.results.past.map FlowTable.resultOf
  dupCrossbar : s.udp.headerDupToCrossbar.sent = s.udp.headerSteerToDup.past

theorem chain_init (hE : E.Marks first) : Chain first keepBytes table sched (State.init n E M sched) where
  rawIn := rfl
  toUdp := rfl
  marked := rfl
  starts := ⟨fun _ => rfl, fun _ => hE.init⟩
  wrapper := .refl _ _
  passStream := rfl
  passRaw := rfl
  lookups := rfl
  results := rfl
  answers := rfl
  dupCrossbar := rfl

variable {s : State n k E N M}

theorem head_of_dup {α : Type} {full : Bool} {word : Option α} {x : α} (h : dup full word = some x) : word = some x := by
  cases full with
  | true => cases h
  | false => exact h

variable (keepBytes) in
theorem sent_arriveRaw (w : Option Axi4s) (u : PassthroughWrapper.State k N M) :
    (run (PassthroughWrapper.step keepBytes) u (w.toList.map .arriveRaw)).rawIn.sent = u.rawIn.sent ++ w.toList ∧
      (run (PassthroughWrapper.step keepBytes) u (w.toList.map .arriveRaw)).passStream.sent = u.passStream.sent := by
  cases w with
  | none => exact ⟨(List.append_nil _).symm, rfl⟩
  | some w => exact ⟨Fifo.sent_write _ _, rfl⟩

variable (keepBytes) in
theorem sent_arrivePass (b : Option Bool) (u : PassthroughWrapper.State k N M) :
    (run (PassthroughWrapper.step keepBytes) u (b.toList.map .arrivePass)).rawIn.sent = u.rawIn.sent ∧
      (run (PassthroughWrapper.step keepBytes) u (b.toList.map .arrivePass)).passStream.sent =
        u.passStream.sent ++ b.toList := by
  cases b with
  | none => exact ⟨rfl, (List.append_nil _).symm⟩
  | some b => exact ⟨rfl, Fifo.sent_write _ _⟩

theorem chain_rawDup2 (h : Chain first keepBytes table sched s) (full : Bool) :
    Chain first keepBytes table sched (step keepBytes table s (.rawDup2 full)) := by
  have hpast := past_readIf_dup s.port full
  obtain ⟨hraw, hpass⟩ := sent_arriveRaw keepBytes (dup full s.port.head) s.wrapper
  refine { h with rawIn := ?_, toUdp := ?_, wrapper := h.wrapper.run _, passStream := ?_ }
  · refine hraw.trans ?_
    show s.wrapper.rawIn.sent ++ _ = (s.port.readIf _).past
    rw [hpast, h.rawIn]
  · show (s.rawInToUdp.put _).sent = (s.port.readIf _).past
    rw [Fifo.sent_put, hpast, h.toUdp]
  · exact hpass.trans h.passStream

theorem chain_enumFirst (hE : E.Marks first) (h : Chain first keepBytes table sched s) (full : Bool) :
    Chain first keepBytes table sched (step keepBytes table s (.enumFirst full)) := by
  simp only [step]
  cases hw : dup full s.rawInToUdp.head with
  | none => exact h
  | some w =>
    have hpast := s.rawInToUdp.past_readIf_true (head_of_dup hw)
    refine { h with toUdp := ?_, marked := ?_, starts := ?_ }
    · exact (Fifo.sent_readIf _ _).trans h.toUdp
    · show ((s.udp.enumOut.write _).sent.map _) = markFrom true (s.rawInToUdp.readIf true).past
      rw [Fifo.sent_write, List.map_append, h.marked, hpast, markFrom_append]
      congr 1
      have hcount : decide ((E.call s.enumFirst w).1 = 0) = startsAfter true s.rawInToUdp.past := by
        rw [Bool.eq_iff_iff, decide_eq_true_eq, hE.count]
        exact h.starts
      show [(decide ((E.call s.enumFirst w).1 = 0), w)] = [(_, w)]
      rw [hcount]
    · show first (E.call s.enumFirst w).2 ↔ startsAfter true (s.rawInToUdp.readIf true).past = true
      rw [hpast, startsAfter, List.foldl_append]
      exact hE.next s.enumFirst w

theorem chain_ftWrapper (h : Chain first keepBytes table sched s) (lFull rFull : Bool) :
    Chain first keepBytes table sched (step keepBytes table s (.ftWrapper lFull rFull)) := by
  refine { h with lookups := ?_, results := ?_, answers := ?_ }
  · show (s.lookups.put ((dup lFull s.udp.hdrDupToFlowTable.head).map _)).sent =
      ((s.udp.hdrDupToFlowTable.readIf (dup lFull s.udp.hdrDupToFlowTable.head).isSome).past).map _
    rw [past_readIf_dup, Fifo.sent_put, h.lookups, List.map_append, Option.toList_map]
    rfl
  · show (s.results.readIf _).sent = (s.lookups.put _).past.map _
    rw [Fifo.sent_readIf, Fifo.past_put, h.results]
  · show (s.udp.ftToAction.put ((dup rFull s.results.head).map _)).sent =
      ((s.results.readIf (dup rFull s.results.head).isSome).past).map _
    rw [past_readIf_dup, Fifo.sent_put, h.answers, List.map_append, Option.toList_map]

theorem chain_hashTable (h : Chain first keepBytes table sched s) (full : Bool) :
    Chain first keepBytes table sched (step keepBytes table s (.hashTable full)) := by
  refine { h with lookups := ?_, results := ?_, answers := ?_ }
  · show (s.lookups.readIf _).sent = _
    rw [Fifo.sent_readIf]
    exact h.lookups
  · show (s.results.put ((dup full s.lookups.head).map _)).sent =
      ((s.lookups.readIf (dup full s.lookups.head).isSome).past).map _
    rw [past_readIf_dup, Fifo.sent_put, h.results, List.map_append, Option.toList_map]
    rfl
  · show s.udp.ftToAction.sent = (s.results.put _).past.map _
    rw [Fifo.past_put]
    exact h.answers

theorem chain_updateStatsActions (h : Chain first keepBytes table sched s) (mFull pFull : Bool) :
    Chain first keepBytes table sched (step keepBytes table s (.updateStatsActions mFull pFull)) := by
  obtain ⟨out, hout⟩ : ∃ out, Udp.updateStatsActions mFull pFull s.udp.ftResults.head = out := ⟨_, rfl⟩
  obtain ⟨hraw, hpass⟩ := sent_arrivePass keepBytes (out.map (·.2)) s.wrapper
  have hread : out.map (·.2) = none ∨
      out.map (·.2) = s.udp.ftResults.head.map fun r => decide (r.v.action = .passthrough) := by
    rw [← hout, Udp.updateStatsActions]
    split_ifs
    · exact .inl rfl
    · right
      rw [Option.map_map]
      rfl
  have hnext := s.udp.ftResults.map_past_readIf hread
  rw [Option.isSome_map] at hnext
  have hstep : step keepBytes table s (.updateStatsActions mFull pFull) =
      { s with
        udp := { s.udp with
          ftResults := s.udp.ftResults.readIf out.isSome
          matched := s.udp.matched.put (out.map (·.1))
          passRaw := s.udp.passRaw ++ (out.map (·.2)).toList }
        wrapper := run (PassthroughWrapper.step keepBytes) s.wrapper ((out.map (·.2)).toList.map .arrivePass) } := by
    rw [← hout]
    rfl
  rw [hstep]
  refine { h with rawIn := ?_, wrapper := h.wrapper.run _, passStream := ?_, passRaw := ?_ }
  · exact hraw.trans h.rawIn
  · refine hpass.trans ?_
    show s.wrapper.passStream.sent ++ _ = s.udp.passRaw ++ _
    rw [h.passStream]
  · show s.udp.passRaw ++ _ = (s.udp.ftResults.readIf _).past.map _
    rw [hnext, h.passRaw]

theorem chain_udp (h : Chain first keepBytes table sched s) (a : Udp.Act n) :
    Chain first keepBytes table sched (step keepBytes table s (.udp a)) := by
  cases a with
  | arrive count flit => exact h
  | ftStep r => exact h
  | updateStatsActions mFull pFull => exact h
  | mlxMetadata mFull dFull =>
    refine { h with marked := ?_ }
    show (s.udp.enumOut.readIf _).sent.map _ = _
    rw [Fifo.sent_readIf]
    exact h.marked
  | checksToAction rFull oFull =>
    refine { h with answers := ?_ }
    exact (Fifo.sent_readIf _ _).trans h.answers
  | hdrDup2 full =>
    refine { h with dupCrossbar := ?_ }
    show (s.udp.headerDupToCrossbar.put _).sent = (s.udp.headerSteerToDup.readIf _).past
    rw [Fifo.sent_put, past_readIf_dup, h.dupCrossbar]
  | crossbar hFull dFull buf =>
    refine { h with dupCrossbar := ?_ }
    exact (Fifo.sent_readIf _ _).trans h.dupCrossbar
  | _ => exact { h with }

theorem chain_wrapper (h : Chain first keepBytes table sched s) (a : PassthroughWrapper.Act k) :
    Chain first keepBytes table sched (step keepBytes table s (.wrapper a)) := by
  cases a with
  | arriveRaw w => exact h
  | arrivePass b => exact h
  | wrapperStep full =>
    obtain ⟨hraw, hpass⟩ := PassthroughWrapper.sent_wrapperStep keepBytes full s.wrapper
    exact { h with
      rawIn := hraw.trans h.rawIn
      wrapper := h.wrapper.next (.wrapperStep full)
      passStream := hpass.trans h.passStream }
  | egress a =>
    have hsame : (PassthroughWrapper.step keepBytes s.wrapper (.egress a)).rawIn = s.wrapper.rawIn ∧
        (PassthroughWrapper.step keepBytes s.wrapper (.egress a)).passStream = s.wrapper.passStream := by
      simp only [PassthroughWrapper.step]
      split_ifs
      · exact ⟨rfl, rfl⟩
      · exact ⟨rfl, rfl⟩
    exact { h with
      rawIn := (congrArg Fifo.sent hsame.1).trans h.rawIn
      wrapper := h.wrapper.next (.egress a)
      passStream := (congrArg Fifo.sent hsame.2).trans h.passStream }

theorem chain_step (hE : E.Marks first) (h : Chain first keepBytes table sched s) (a : Act n k) :
    Chain first keepBytes table sched (step keepBytes table s a) := by
  cases a with
  | arrive w => exact { h with }
  | rawDup2 full => exact chain_rawDup2 h full
  | enumFirst full => exact chain_enumFirst hE h full
  | ftWrapper lFull rFull => exact chain_ftWrapper h lFull rFull
  | hashTable full => exact chain_hashTable h full
  | updateStatsActions mFull pFull => exact chain_updateStatsActions h mFull pFull
  | udp a => exact chain_udp h a
  | wrapper a => exact chain_wrapper h a

/-! ### The steering alone -/

/-- The frames that arrive, and the configuration flag at each check of a header, are those of `xs`. -/
structure Input (xs : List Arrival) (s : State n k E N M) : Prop where
  port : s.port.sent <+: xs.flatMap Arrival.wire
  enable : s.udp.checksToActions.sent.map (·.disabled) <+: xs.map (!·.enable)

/-- The passages of the frames. -/
def passages (table : FlowTable.Table) (xs : List Arrival) : List Udp.Passage := xs.map (·.passage table)

/-- The receive path follows a run of the steering alone. -/
def Alone (keepBytes : ℕ → BitVec 32) (table : FlowTable.Table) (xs : List Arrival) (s : State n k E N M) : Prop :=
  ∃ t, Udp.Follows s.udp t ∧ Udp.PathInv keepBytes (passages table xs) t

variable {xs : List Arrival}

theorem input_of_step {a : Act n k} (h : Input xs (step keepBytes table s a)) : Input xs s := by
  have hport : s.port.sent <+: (step keepBytes table s a).port.sent := by
    cases a with
    | arrive w =>
      show _ <+: (s.port.write w).sent
      rw [Fifo.sent_write]
      exact List.prefix_append _ _
    | rawDup2 full => exact Udp.sent_prefix_readIf _ _
    | enumFirst full =>
      simp only [step]
      split <;> exact List.prefix_rfl
    | udp a =>
      simp only [step]
      split_ifs <;> exact List.prefix_rfl
    | wrapper a =>
      simp only [step]
      split_ifs <;> exact List.prefix_rfl
    | _ => exact List.prefix_rfl
  have hchecks : s.udp.checksToActions.sent <+: (step keepBytes table s a).udp.checksToActions.sent := by
    cases a with
    | enumFirst full =>
      simp only [step]
      split <;> exact List.prefix_rfl
    | udp a =>
      cases a with
      | hdrChecks enable full => exact Udp.sent_prefix_put _ _
      | checksToAction rFull oFull => exact Udp.sent_prefix_readIf _ _
      | _ => exact List.prefix_rfl
    | wrapper a =>
      simp only [step]
      split_ifs <;> exact List.prefix_rfl
    | _ => exact List.prefix_rfl
  exact ⟨hport.trans h.port, (hchecks.map _).trans h.enable⟩

theorem map_header_passages (table : FlowTable.Table) (xs : List Arrival) :
    (passages table xs).map (·.frame.header) = xs.map (·.frame.header) := by
  rw [passages, List.map_map]
  rfl

/-- The headers that the flow table has been sent are those of the frames. -/
theorem Alone.headers_prefix (h : Alone keepBytes table xs s) :
    s.udp.hdrDupToFlowTable.sent <+: xs.map (·.frame.header) := by
  obtain ⟨t, hfollows, hinv⟩ := h
  rw [← hfollows.hdrDupToFlowTable, hinv.dupFlowTable, ← map_header_passages table]
  exact t.headerSplitToSteer.past_prefix_sent.trans hinv.headerSplitToSteer_prefix

/-- The flow table answers each header with the result of its own flow. -/
theorem Chain.answers_prefix (h : Chain first keepBytes table sched s)
    (hheaders : s.udp.hdrDupToFlowTable.past <+: xs.map (·.frame.header)) :
    s.udp.ftToAction.sent <+: xs.map (·.result table) := by
  have hlookups : s.lookups.past <+: (xs.map (·.frame.header)).map (FlowTable.lookupOf table) := by
    refine s.lookups.past_prefix_sent.trans ?_
    rw [h.lookups]
    exact hheaders.map _
  have hresults : s.results.past <+:
      ((xs.map (·.frame.header)).map (FlowTable.lookupOf table)).map (FlowTable.answer table) := by
    refine s.results.past_prefix_sent.trans ?_
    rw [h.results]
    exact hlookups.map _
  have hall : xs.map (·.result table) =
      (((xs.map (·.frame.header)).map (FlowTable.lookupOf table)).map (FlowTable.answer table)).map
        FlowTable.resultOf := by
    rw [List.map_map, List.map_map, List.map_map]
    rfl
  rw [h.answers, hall]
  exact hresults.map _

theorem traffic_of_follows (hin : Input xs s) (h : Chain first keepBytes table sched s)
    (hheaders : s.udp.hdrDupToFlowTable.past <+: xs.map (·.frame.header)) {t : Udp.State n}
    (ht : Udp.Follows s.udp t) : Udp.Traffic (passages table xs) t := by
  refine ⟨?_, ?_, ?_⟩
  · rw [ht.eq]
    show s.udp.enumOut.sent.map _ <+: _
    rw [h.marked]
    have hpast : s.rawInToUdp.past <+: xs.flatMap Arrival.wire := by
      refine s.rawInToUdp.past_prefix_sent.trans ?_
      rw [h.toUdp]
      exact s.port.past_prefix_sent.trans hin.port
    refine (markFrom_isPrefix hpast true).trans ?_
    rw [markFrom_flatMap, passages, List.flatMap_map]
    exact List.prefix_rfl
  · rw [ht.eq, passages, List.map_map]
    exact hin.enable
  · rw [ht.eq, passages, List.map_map]
    exact h.answers_prefix hheaders

theorem hdrDupToFlowTable_past_grows (s : State n k E N M) (a : Act n k) :
    (step keepBytes table s a).udp.hdrDupToFlowTable.past <+: s.udp.hdrDupToFlowTable.sent := by
  have hsame := s.udp.hdrDupToFlowTable.past_prefix_sent
  cases a with
  | enumFirst full =>
    simp only [step]
    split <;> exact hsame
  | ftWrapper lFull rFull =>
    refine (Fifo.past_prefix_sent (s.udp.hdrDupToFlowTable.readIf (dup lFull s.udp.hdrDupToFlowTable.head).isSome)).trans ?_
    rw [Fifo.sent_readIf]
  | udp a =>
    simp only [step]
    split_ifs with ha
    · exact hsame
    · cases a with
      | ftStep r => exact absurd rfl ha
      | _ => exact hsame
  | wrapper a =>
    simp only [step]
    split_ifs <;> exact hsame
  | _ => exact hsame

/-- The header of the next answer is still to be taken in the run of the steering alone. -/
theorem exists_answered_header (hchain : Chain first keepBytes table sched s) {t : Udp.State n}
    (ht : Udp.Follows s.udp t) (hinv : Udp.PathInv keepBytes (passages table xs) t)
    {r : Option (BitVec 11 × FlowTableValue)} (hr : s.results.head = some r) :
    ∃ buf, t.hdrDupToFlowTable.head = some buf := by
  have hbehind : t.hdrDupToFlowTable.past.length < t.hdrDupToFlowTable.sent.length := by
    have h₁ := (s.results.past_snoc_prefix_sent hr).length_le
    have h₂ := s.lookups.past_prefix_sent.length_le
    have h₃ := s.udp.hdrDupToFlowTable.past_prefix_sent.length_le
    have hpast : t.ftToAction.sent.length = s.results.past.length := by
      rw [ht.eq]
      show s.udp.ftToAction.sent.length = _
      rw [hchain.answers, List.length_map]
    rw [hchain.results, List.length_append, List.length_map, List.length_singleton] at h₁
    rw [hchain.lookups, List.length_map] at h₂
    rw [← hinv.lookups, hpast, ht.hdrDupToFlowTable]
    omega
  apply Option.ne_none_iff_exists'.mp
  intro hnone
  rw [t.hdrDupToFlowTable.past_eq_sent hnone] at hbehind
  exact absurd hbehind (Nat.lt_irrefl _)

/-- What `ft_wrapper` does to the streams of the receive path. -/
theorem udp_ftWrapper (s : State n k E N M) (lFull rFull : Bool) :
    (step keepBytes table s (.ftWrapper lFull rFull)).udp =
      { s.udp with
        hdrDupToFlowTable := s.udp.hdrDupToFlowTable.readIf (dup lFull s.udp.hdrDupToFlowTable.head).isSome
        ftToAction := s.udp.ftToAction.put ((dup rFull s.results.head).map FlowTable.resultOf) } := rfl

/-- No answer is written: the run of the steering alone stays where it is. -/
theorem follows_lookup {t : Udp.State n} (ht : Udp.Follows s.udp t) (lFull : Bool) {rFull : Bool}
    (hr : dup rFull s.results.head = none) :
    Udp.Follows (step keepBytes table s (.ftWrapper lFull rFull)).udp t := by
  rw [udp_ftWrapper, hr, Option.map_none, Fifo.put_none]
  exact ht.lookup _

variable (keepBytes table) in
/-- An answer is written: the run of the steering alone takes its header with it. -/
theorem follows_answer {t : Udp.State n} (ht : Udp.Follows s.udp t) (lFull : Bool) {rFull : Bool}
    {r : Option (BitVec 11 × FlowTableValue)} (hr : dup rFull s.results.head = some r) {buf : HeaderBuffer}
    (hbuf : t.hdrDupToFlowTable.head = some buf) :
    Udp.Follows (step keepBytes table s (.ftWrapper lFull rFull)).udp
      (Udp.step keepBytes t (.ftStep (FlowTable.resultOf r))) := by
  rw [udp_ftWrapper, hr, Option.map_some]
  exact (ht.lookup _).answer hbuf _

/-- A call of the flow table: a header is read, and an answer is written. -/
theorem alone_ftWrapper (hchain : Chain first keepBytes table sched s) (lFull rFull : Bool)
    (hT : ∀ t, Udp.Follows s.udp t → Udp.Traffic (passages table xs) t)
    (hT' : ∀ t, Udp.Follows (step keepBytes table s (.ftWrapper lFull rFull)).udp t →
      Udp.Traffic (passages table xs) t) (h : Alone keepBytes table xs s) :
    Alone keepBytes table xs (step keepBytes table s (.ftWrapper lFull rFull)) := by
  obtain ⟨t, ht, hinv⟩ := h
  cases hr : dup rFull s.results.head with
  | none => exact ⟨t, follows_lookup ht lFull hr, hinv⟩
  | some r =>
    obtain ⟨buf, hbuf⟩ := exists_answered_header hchain ht hinv (head_of_dup hr)
    have hnext := follows_answer keepBytes table ht lFull hr hbuf
    exact ⟨_, hnext, Udp.pathInv_steering rfl (hT t ht) (hT' _ hnext) hinv⟩

/-- A call that the run of the steering alone makes too. -/
theorem alone_steering {s' : State n k E N M} {a : Udp.Act n} (ha : Udp.isSteering a = true)
    (hft : ∀ r, a ≠ .ftStep r) (hstep : s'.udp = Udp.step keepBytes s.udp a)
    (hT : ∀ t, Udp.Follows s.udp t → Udp.Traffic (passages table xs) t)
    (hT' : ∀ t, Udp.Follows s'.udp t → Udp.Traffic (passages table xs) t) (h : Alone keepBytes table xs s) :
    Alone keepBytes table xs s' := by
  obtain ⟨t, hfollows, hinv⟩ := h
  have hnext : Udp.Follows s'.udp (Udp.step keepBytes t a) := by
    rw [hstep]
    exact hfollows.steering ha hft
  exact ⟨_, hnext, Udp.pathInv_steering ha (hT t hfollows) (hT' _ hnext) hinv⟩

theorem alone_udp {a : Udp.Act n} (hT : ∀ t, Udp.Follows s.udp t → Udp.Traffic (passages table xs) t)
    (hT' : ∀ t, Udp.Follows (step keepBytes table s (.udp a)).udp t → Udp.Traffic (passages table xs) t)
    (h : Alone keepBytes table xs s) : Alone keepBytes table xs (step keepBytes table s (.udp a)) := by
  by_cases hothers : ofOthers a = true
  · have hsame : step keepBytes table s (.udp a) = s := by simp only [step, hothers, if_true]
    rw [hsame]
    exact h
  · have hstep : (step keepBytes table s (.udp a)).udp = Udp.step keepBytes s.udp a := by
      simp only [step, hothers]
      rfl
    cases ha : Udp.isSteering a with
    | true =>
      refine alone_steering ha ?_ hstep hT hT' h
      rintro r rfl
      exact hothers rfl
    | false =>
      obtain ⟨t, hfollows, hinv⟩ := h
      refine ⟨t, ?_, hinv⟩
      rw [hstep]
      exact hfollows.behind ha

theorem alone_step (hchain : Chain first keepBytes table sched s) {a : Act n k}
    (hchain' : Chain first keepBytes table sched (step keepBytes table s a)) (hin : Input xs s)
    (hin' : Input xs (step keepBytes table s a)) (h : Alone keepBytes table xs s) :
    Alone keepBytes table xs (step keepBytes table s a) := by
  have hT : ∀ t, Udp.Follows s.udp t → Udp.Traffic (passages table xs) t := fun t ht =>
    traffic_of_follows hin hchain (s.udp.hdrDupToFlowTable.past_prefix_sent.trans h.headers_prefix) ht
  have hT' : ∀ t, Udp.Follows (step keepBytes table s a).udp t → Udp.Traffic (passages table xs) t := fun t ht =>
    traffic_of_follows hin' hchain' ((hdrDupToFlowTable_past_grows s a).trans h.headers_prefix) ht
  cases a with
  | arrive w => exact h
  | rawDup2 full => exact h
  | enumFirst full =>
    cases hw : dup full s.rawInToUdp.head with
    | none =>
      have hsame : step keepBytes table s (.enumFirst full) = s := by simp only [step, hw]
      rw [hsame]
      exact h
    | some w =>
      have hstep : (step keepBytes table s (.enumFirst full)).udp =
          Udp.step keepBytes s.udp (.arrive (E.call s.enumFirst w).1 w) := by simp only [step, hw]
      exact alone_steering rfl (fun r hr => by cases hr) hstep hT hT' h
  | ftWrapper lFull rFull => exact alone_ftWrapper hchain lFull rFull hT hT' h
  | hashTable full => exact h
  | updateStatsActions mFull pFull =>
    exact alone_steering (a := .updateStatsActions mFull pFull) rfl (fun r hr => by cases hr) rfl hT hT' h
  | udp a => exact alone_udp hT hT' h
  | wrapper a =>
    have hsame : (step keepBytes table s (.wrapper a)).udp = s.udp := by
      simp only [step]
      split_ifs <;> rfl
    obtain ⟨t, hfollows, hinv⟩ := h
    exact ⟨t, by rw [hsame]; exact hfollows, hinv⟩

end Nica.Hls.Steering
