import Nica.Hls.Equiv.UdpProgress

/-!
# The receive path up to the dropper

What lies behind the dropper of the receive path reads what the steering wrote and writes nothing it reads.  So
`Follows u t` is kept when `t` leaves out the calls behind the dropper, and when `t` takes a header and its answer
through the flow table in one step while `u` has the lookup underway: `t` is a run of the steering alone.  On such a
run the invariants of the units hold without a condition on the lengths in the headers (`pathInv_steering`).
-/

namespace Nica.Hls.Udp

open Nica.Lib

variable {n : ℕ} {keepBytes : ℕ → BitVec 32} {ps : List Passage}

/-- The calls up to the dropper. -/
def isSteering : Act n → Bool
  | .hdrDup2 _ => false
  | .findLength _ => false
  | .cutData _ => false
  | .crossbar _ _ _ => false
  | .splitUdpHdrStream _ _ => false
  | _ => true

/-- The state `u` with the queue to the flow table and everything behind the dropper from `t`. -/
def overlay (u t : State n) : State n :=
  { u with
    hdrDupToFlowTable := t.hdrDupToFlowTable
    steerResults := t.steerResults
    headerSteerToDup := t.headerSteerToDup
    dataSteerToLength := t.dataSteerToLength
    headerDupToLength := t.headerDupToLength
    headerDupToCrossbar := t.headerDupToCrossbar
    packets := t.packets
    cut := t.cut
    dataLengthToCrossbar := t.dataLengthToCrossbar
    crossbar := t.crossbar
    hdrOut := t.hdrOut
    ftResultsOut := t.ftResultsOut
    dataOut := t.dataOut
    metadataOut := t.metadataOut }

/-- `t` is `u` up to the dropper, apart from how far the lookups are, and has been sent the same behind it. -/
structure Follows (u t : State n) : Prop where
  eq : t = overlay u t
  hdrDupToFlowTable : t.hdrDupToFlowTable.sent = u.hdrDupToFlowTable.sent
  steerResults : t.steerResults.sent = u.steerResults.sent
  headerSteerToDup : t.headerSteerToDup.sent = u.headerSteerToDup.sent
  dataSteerToLength : t.dataSteerToLength.sent = u.dataSteerToLength.sent

theorem follows_init : Follows (State.init : State n) State.init :=
  ⟨rfl, rfl, rfl, rfl, rfl⟩

theorem overlay_steering (u x : State n) {a : Act n} (ha : isSteering a = true) (hft : ∀ r, a ≠ .ftStep r) :
    step keepBytes (overlay u x) a = overlay (step keepBytes u a) (step keepBytes (overlay u x) a) := by
  cases a with
  | ftStep r => exact absurd rfl (hft r)
  | hdrDup2 full => cases ha
  | findLength full => cases ha
  | cutData full => cases ha
  | crossbar hFull dFull buf => cases ha
  | splitUdpHdrStream e full => cases ha
  | _ => rfl

theorem sent_put_congr {α : Type} {f g : Fifo α} (h : f.sent = g.sent) (x : Option α) :
    (f.put x).sent = (g.put x).sent := by
  rw [Fifo.sent_put, Fifo.sent_put, h]

/-- A call up to the dropper does the same in both. -/
theorem Follows.steering {u t : State n} (h : Follows u t) {a : Act n} (ha : isSteering a = true)
    (hft : ∀ r, a ≠ .ftStep r) : Follows (step keepBytes u a) (step keepBytes t a) := by
  obtain ⟨heq, hlookup, hsteer, hheader, hdata⟩ := h
  have hnext : _ = overlay (step keepBytes u a) _ := overlay_steering u t ha hft
  rw [← heq] at hnext
  refine ⟨hnext, ?_, ?_, ?_, ?_⟩
  all_goals rw [heq]
  · cases a with
    | hdrDup3 full => exact sent_put_congr hlookup _
    | ftStep r => exact absurd rfl (hft r)
    | _ => exact hlookup
  · cases a with
    | checksToAction rFull oFull => exact sent_put_congr hsteer _
    | _ => first | exact hsteer | cases ha
  · cases a with
    | udpDropperStep hFull dFull => exact sent_put_congr hheader _
    | _ => first | exact hheader | cases ha
  · cases a with
    | udpDropperStep hFull dFull => exact sent_put_congr hdata _
    | _ => first | exact hdata | cases ha

/-- A call behind the dropper changes nothing up to it. -/
theorem Follows.behind {u t : State n} (h : Follows u t) {a : Act n} (ha : isSteering a = false) :
    Follows (step keepBytes u a) t := by
  obtain ⟨heq, hlookup, hsteer, hheader, hdata⟩ := h
  refine ⟨?_, ?_, ?_, ?_, ?_⟩
  · cases a with
    | hdrDup2 full => exact heq
    | findLength full => exact heq
    | cutData full => exact heq
    | crossbar hFull dFull buf => exact heq
    | splitUdpHdrStream e full => exact heq
    | _ => cases ha
  · cases a with
    | _ => first | exact hlookup | cases ha
  · cases a with
    | crossbar hFull dFull buf => exact hsteer.trans (Fifo.sent_readIf _ _).symm
    | _ => first | exact hsteer | cases ha
  · cases a with
    | hdrDup2 full => exact hheader.trans (Fifo.sent_readIf _ _).symm
    | _ => first | exact hheader | cases ha
  · cases a with
    | cutData full => exact hdata.trans (Fifo.sent_readIf _ _).symm
    | _ => first | exact hdata | cases ha

/-- The flow table reads a header: nothing yet, for who takes header and answer together. -/
theorem Follows.lookup {u t : State n} (h : Follows u t) (b : Bool) :
    Follows { u with hdrDupToFlowTable := u.hdrDupToFlowTable.readIf b } t :=
  ⟨h.eq, h.hdrDupToFlowTable.trans (Fifo.sent_readIf _ _).symm, h.steerResults, h.headerSteerToDup,
    h.dataSteerToLength⟩

/-- The flow table answers the next header. -/
theorem Follows.answer {u t : State n} (h : Follows u t) {buf : HeaderBuffer}
    (hbuf : t.hdrDupToFlowTable.head = some buf) (r : FlowTableResult) :
    Follows { u with ftToAction := u.ftToAction.put (some r) } (step keepBytes t (.ftStep r)) := by
  have hanswer : step keepBytes t (.ftStep r) =
      { t with
        hdrDupToFlowTable := t.hdrDupToFlowTable.readIf true
        ftToAction := t.ftToAction.put (some r) } := by
    simp only [step, hbuf, Option.isSome_some, Option.map_some]
  rw [hanswer]
  refine ⟨?_, (Fifo.sent_readIf _ _).trans h.hdrDupToFlowTable, h.steerResults, h.headerSteerToDup,
    h.dataSteerToLength⟩
  rw [h.eq]
  rfl

/-- With no lookup underway the units wait in both or in neither. -/
theorem Follows.steeringStuck_iff {u t : State n} (h : Follows u t) (hu : u.hdrDupToFlowTable.head = none)
    (ht : t.hdrDupToFlowTable.head = none) : SteeringStuck t ↔ SteeringStuck u := by
  rw [h.eq] at ht ⊢
  constructor
  · intro hst
    exact ⟨hst.mlxMetadata, hst.split, hst.hdrDup3, hst.hdrChecks, hu, hst.checksToAction, hst.updateStatsActions,
      hst.udpDropperStep⟩
  · intro hst
    exact ⟨hst.mlxMetadata, hst.split, hst.hdrDup3, hst.hdrChecks, ht, hst.checksToAction, hst.updateStatsActions,
      hst.udpDropperStep⟩

/-- The steering alone keeps its invariants whatever the headers say. -/
theorem pathInv_steering {s : State n} {a : Act n} (ha : isSteering a = true) (hT : Traffic ps s)
    (hT' : Traffic ps (step keepBytes s a)) (h : PathInv keepBytes ps s) :
    PathInv keepBytes ps (step keepBytes s a) := by
  cases a with
  | arrive count flit => exact { h with }
  | mlxMetadata mFull dFull => exact pathInv_mlxMetadata mFull dFull h
  | split hFull dFull => exact pathInv_split hFull dFull hT h
  | hdrDup3 full => exact pathInv_hdrDup3 full h
  | hdrChecks enable full => exact pathInv_hdrChecks enable full h hT'
  | ftStep result => exact pathInv_ftStep result h
  | checksToAction rFull oFull => exact pathInv_checksToAction rFull oFull hT h
  | updateStatsActions mFull pFull => exact pathInv_updateStatsActions mFull pFull h
  | udpDropperStep hFull dFull => exact pathInv_udpDropperStep hFull dFull h
  | _ => cases ha

end Nica.Hls.Udp
