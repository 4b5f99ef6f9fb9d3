import Nica.Hls.Equiv.UdpPath
import Mathlib.Algebra.Order.BigOperators.Group.Finset
import Mathlib.Data.Fintype.Basic

/-!
# The receive path does not get stuck

`progress` counts what the units up to the length adjustment have read, and `Stuck` says of each of
them that it waits for input.  A unit that is not waiting makes progress when it is called without a
stall (`progress_or_stuck`), and progress is bounded by the traffic (`progress_le`).  When all of them
wait, everything has gone through (`Stuck.complete`).  So whatever stalls occurred so far, the streams
can still be drained (`exists_drained`).
-/

namespace Nica.Hls.Udp

open Nica.Lib

variable {n : Nat} {keepBytes : Nat → BitVec 32} {ps : List Passage}

/-- What was read so far, counted twice, and the registers that were emptied. -/
def progress (s : State n) : Nat :=
  2 * (s.enumOut.past.length + s.outMetadata.past.length + s.outData.past.length
    + s.headerSplitToSteer.past.length + s.dataSplitToSteer.past.length
    + s.hdrDupToDropper.past.length + s.hdrDupToChecks.past.length
    + s.hdrDupToFlowTable.past.length + s.checksToActions.past.length
    + s.ftToAction.past.length + s.ftResults.past.length + s.matched.past.length
    + s.headerSteerToDup.past.length + s.dataSteerToLength.past.length
    + s.headerDupToLength.past.length + s.packets.past.length)
    + (if s.split.state = .last then 0 else 1) + (if s.dropper.dataBuf = none then 1 else 0)
    + (if s.cut.dataBuf = none then 1 else 0)

/-- Every unit up to the length adjustment waits for input. -/
structure Stuck (s : State n) : Prop where
  mlxMetadata : s.enumOut.head = none
  split : s.split.state ≠ .last ∧ (s.outData.head = none ∨
    s.split.state = .idle ∧ s.outMetadata.head = none)
  hdrDup3 : s.headerSplitToSteer.head = none
  hdrChecks : s.hdrDupToChecks.head = none
  ftStep : s.hdrDupToFlowTable.head = none
  checksToAction : s.checksToActions.head = none ∨ s.ftToAction.head = none
  updateStatsActions : s.ftResults.head = none
  udpDropperStep : (s.dropper.state = .idle ∧
      (s.matched.head = none ∨ s.hdrDupToDropper.head = none)) ∨
    (s.dropper.state = .stream ∧ s.dropper.dataBuf = none ∧ s.dataSplitToSteer.head = none)
  hdrDup2 : s.headerSteerToDup.head = none
  findLength : s.headerDupToLength.head = none
  cutData : (s.cut.state = .idle ∧ s.packets.head = none) ∨
    (s.cut.state ≠ .idle ∧ s.cut.dataBuf = none ∧ s.dataSteerToLength.head = none)

/-- The units up to the dropper wait for input. -/
structure SteeringStuck (s : State n) : Prop where
  mlxMetadata : s.enumOut.head = none
  split : s.split.state ≠ .last ∧ (s.outData.head = none ∨
    s.split.state = .idle ∧ s.outMetadata.head = none)
  hdrDup3 : s.headerSplitToSteer.head = none
  hdrChecks : s.hdrDupToChecks.head = none
  ftStep : s.hdrDupToFlowTable.head = none
  checksToAction : s.checksToActions.head = none ∨ s.ftToAction.head = none
  updateStatsActions : s.ftResults.head = none
  udpDropperStep : (s.dropper.state = .idle ∧
      (s.matched.head = none ∨ s.hdrDupToDropper.head = none)) ∨
    (s.dropper.state = .stream ∧ s.dropper.dataBuf = none ∧ s.dataSplitToSteer.head = none)

theorem Stuck.steering {s : State n} (h : Stuck s) : SteeringStuck s :=
  ⟨h.mlxMetadata, h.split, h.hdrDup3, h.hdrChecks, h.ftStep, h.checksToAction, h.updateStatsActions,
    h.udpDropperStep⟩

/-! ### Units that do not wait -/

theorem progress_mlxMetadata {s : State n} {x : Nat × Axi4s} (h : s.enumOut.head = some x) :
    progress s < progress (step keepBytes s (.mlxMetadata false false)) := by
  have hread : (mlxMetadata false false s.enumOut.head).read = true := by
    rw [h, mlxMetadata]
    by_cases hc : x.1 = 0 <;> simp [hc]
  have hlen := s.enumOut.length_past_readIf_true h
  simp only [progress, step, hread, Fifo.past_put]
  omega

theorem splitIdle_state_ne_last {u : Split} (hu : u.state = .idle) (m : Option MlxMetadata)
    (cur : Option AxiData) : (splitIdle u m cur).1.state ≠ .last := by
  have hstay : u.state ≠ .last := by rw [hu]; decide
  cases m with
  | none => exact hstay
  | some m =>
    cases cur with
    | none => exact hstay
    | some cur => exact fun h => SplitState.noConfusion h

/-- `split` reads a beat unless it only writes the final one. -/
theorem split_reads {u : Split} {m : Option MlxMetadata} {cur : AxiData}
    (hlast : u.state ≠ .last) (hm : u.state = .idle → m.isSome = true) :
    (split keepBytes false false u m (some cur)).2.readData = true := by
  unfold split
  cases hu : u.state with
  | idle =>
    obtain ⟨m, rfl⟩ := Option.isSome_iff_exists.mp (hm hu)
    rfl
  | readingHeader => rfl
  | stream => rfl
  | last => exact absurd hu hlast

theorem progress_split {s : State n} (h : s.split.state = .last ∨ (s.outData.head ≠ none ∧
    (s.split.state = .idle → s.outMetadata.head ≠ none))) :
    progress s < progress (step keepBytes s (.split false false)) := by
  have hmetas := s.outMetadata.length_past_le_readIf
  have hbeats := s.outData.length_past_le_readIf
  by_cases hlast : s.split.state = .last
  · have hnext : (split keepBytes false false s.split s.outMetadata.head s.outData.head).1.state
        ≠ .last := by
      unfold split
      rw [hlast]
      exact splitIdle_state_ne_last rfl _ _
    obtain ⟨u, io, hr⟩ : ∃ u io, split keepBytes false false s.split s.outMetadata.head
        s.outData.head = (u, io) := ⟨_, _, rfl⟩
    rw [hr] at hnext
    have h₁ := hmetas io.readMetadata
    have h₂ := hbeats io.readData
    simp only [progress, step, hr, Fifo.past_put, hlast, if_true, if_neg hnext]
    omega
  · obtain ⟨hdata, hidle⟩ := h.resolve_left hlast
    obtain ⟨cur, hcur⟩ := Option.ne_none_iff_exists'.mp hdata
    have hread : (split keepBytes false false s.split s.outMetadata.head s.outData.head).2.readData
        = true := by
      rw [hcur]
      exact split_reads hlast fun hi => Option.isSome_iff_ne_none.mpr (hidle hi)
    obtain ⟨u, io, hr⟩ : ∃ u io, split keepBytes false false s.split s.outMetadata.head
        s.outData.head = (u, io) := ⟨_, _, rfl⟩
    rw [hr] at hread
    have h₁ := hmetas io.readMetadata
    have h₂ := s.outData.length_past_readIf_true hcur
    have hread' : io.readData = true := hread
    simp only [progress, step, hr, Fifo.past_put, hread', if_neg hlast]
    split_ifs <;> omega

theorem progress_hdrDup3 {s : State n} {buf : HeaderBuffer}
    (h : s.headerSplitToSteer.head = some buf) :
    progress s < progress (step keepBytes s (.hdrDup3 false)) := by
  have hread : (dup false s.headerSplitToSteer.head).isSome = true := by rw [h]; rfl
  have hlen := s.headerSplitToSteer.length_past_readIf_true h
  simp only [progress, step, hread, Fifo.past_put]
  omega

theorem progress_hdrChecks {s : State n} {buf : HeaderBuffer} (enable : Bool)
    (h : s.hdrDupToChecks.head = some buf) :
    progress s < progress (step keepBytes s (.hdrChecks enable false)) := by
  have hread : (hdrChecks enable false s.hdrDupToChecks.head).isSome = true := by rw [h]; rfl
  have hlen := s.hdrDupToChecks.length_past_readIf_true h
  simp only [progress, step, hread, Fifo.past_put]
  omega

variable (keepBytes) in
theorem progress_ftStep {s : State n} {buf : HeaderBuffer} (result : FlowTableResult)
    (h : s.hdrDupToFlowTable.head = some buf) :
    progress s < progress (step keepBytes s (.ftStep result)) := by
  have hread : s.hdrDupToFlowTable.head.isSome = true := by rw [h]; rfl
  have hlen := s.hdrDupToFlowTable.length_past_readIf_true h
  simp only [progress, step, hread, Fifo.past_put]
  omega

theorem progress_checksToAction {s : State n} {c : Checks} {r : FlowTableResult}
    (hc : s.checksToActions.head = some c) (hr : s.ftToAction.head = some r) :
    progress s < progress (step keepBytes s (.checksToAction false false)) := by
  have hread : (checksToAction false false s.checksToActions.head s.ftToAction.head).read
      = true := by rw [hc, hr]; rfl
  have hlen := s.checksToActions.length_past_readIf_true hc
  have hlen' := s.ftToAction.length_past_readIf_true hr
  simp only [progress, step, hread, Fifo.past_put]
  omega

theorem progress_updateStatsActions {s : State n} {r : FlowTableResult}
    (h : s.ftResults.head = some r) :
    progress s < progress (step keepBytes s (.updateStatsActions false false)) := by
  have hread : (updateStatsActions false false s.ftResults.head).isSome = true := by rw [h]; rfl
  have hlen := s.ftResults.length_past_readIf_true h
  simp only [progress, step, hread, Fifo.past_put]
  omega

theorem progress_hdrDup2 {s : State n} {buf : HeaderBuffer}
    (h : s.headerSteerToDup.head = some buf) :
    progress s < progress (step keepBytes s (.hdrDup2 false)) := by
  have hread : (dup false s.headerSteerToDup.head).isSome = true := by rw [h]; rfl
  have hlen := s.headerSteerToDup.length_past_readIf_true h
  simp only [progress, step, hread, Fifo.past_put]
  omega

theorem progress_findLength {s : State n} {buf : HeaderBuffer}
    (h : s.headerDupToLength.head = some buf) :
    progress s < progress (step keepBytes s (.findLength false)) := by
  have hread : (findLength false s.headerDupToLength.head).isSome = true := by rw [h]; rfl
  have hlen := s.headerDupToLength.length_past_readIf_true h
  simp only [progress, step, hread, Fifo.past_put]
  omega

/-- Emptying the register counts for one, and refilling it takes one back but reads an element. -/
theorem refill_cases (dataIn : Fifo AxiData) :
    (refill none dataIn.head = (none, false) ∧ dataIn.head = none) ∨
      ∃ word, refill none dataIn.head = (some word, true) ∧
        (dataIn.readIf true).past.length = dataIn.past.length + 1 := by
  cases h : dataIn.head with
  | none => exact .inl ⟨rfl, rfl⟩
  | some word => exact .inr ⟨word, rfl, dataIn.length_past_readIf_true h⟩

theorem progress_dropper_idle {s : State n} (hu : s.dropper.state = .idle) {pass : Bool}
    {buf : HeaderBuffer} (hp : s.matched.head = some pass)
    (hh : s.hdrDupToDropper.head = some buf) :
    progress s < progress (step keepBytes s (.udpDropperStep false false)) := by
  have hlen := s.matched.length_past_readIf_true hp
  have hlen' := s.hdrDupToDropper.length_past_readIf_true hh
  have hr : ∃ u header, udpDropperStep true false false s.dropper s.matched.head
      s.hdrDupToDropper.head s.dataSplitToSteer.head = (u, ⟨true, false, header, none⟩) ∧
      u.dataBuf = s.dropper.dataBuf := by
    unfold udpDropperStep
    rw [hu, hp, hh]
    cases he : buf.parse.udp.emptyPacket <;> simp [he]
  obtain ⟨u, header, hr, hbuf⟩ := hr
  have hstay : (s.dataSplitToSteer.readIf false).past = s.dataSplitToSteer.past := rfl
  simp only [progress, step, hr, Fifo.past_put, hbuf, hstay]
  omega

theorem progress_dropper_stream {s : State n} (hu : s.dropper.state = .stream)
    (h : s.dropper.dataBuf ≠ none ∨ s.dataSplitToSteer.head ≠ none) :
    progress s < progress (step keepBytes s (.udpDropperStep false false)) := by
  have hmatched : (s.matched.readIf false).past = s.matched.past := rfl
  have hheader : (s.hdrDupToDropper.readIf false).past = s.hdrDupToDropper.past := rfl
  have hdata : (s.dataSplitToSteer.readIf false).past = s.dataSplitToSteer.past := rfl
  cases hbuf : s.dropper.dataBuf with
  | none =>
    rcases refill_cases s.dataSplitToSteer with ⟨-, hnone⟩ | ⟨word, hrefill, hlen⟩
    · exact absurd hnone (h.resolve_left (by rw [hbuf]; simp))
    · have hr : udpDropperStep true false false s.dropper s.matched.head s.hdrDupToDropper.head
          s.dataSplitToSteer.head
          = (⟨.stream, s.dropper.drop, some word⟩, ⟨false, true, none, none⟩) := by
        unfold udpDropperStep
        rw [hu, hbuf, hrefill]
      simp only [progress, step, hr, Fifo.past_put, hmatched, hheader, hbuf, if_true,
        reduceCtorEq, if_false]
      omega
  | some word =>
    obtain ⟨u, out, hr⟩ : ∃ state out, udpDropperStep true false false s.dropper s.matched.head
        s.hdrDupToDropper.head s.dataSplitToSteer.head
        = (⟨state, s.dropper.drop, (refill none s.dataSplitToSteer.head).1⟩,
          ⟨false, (refill none s.dataSplitToSteer.head).2, none, out⟩) := by
      unfold udpDropperStep
      rw [hu, hbuf]
      exact ⟨_, _, rfl⟩
    rcases refill_cases s.dataSplitToSteer with ⟨hrefill, -⟩ | ⟨word', hrefill, hlen⟩
    · simp only [progress, step, hr, Fifo.past_put, hmatched, hheader, hdata, hbuf, hrefill,
        if_true, reduceCtorEq, if_false]
      omega
    · simp only [progress, step, hr, Fifo.past_put, hmatched, hheader, hbuf, hrefill,
        reduceCtorEq, if_false]
      omega

theorem progress_cut_idle {s : State n} (hu : s.cut.state = .idle) {pkt : PacketLength}
    (hp : s.packets.head = some pkt) :
    progress s < progress (step keepBytes s (.cutData false)) := by
  have hlen := s.packets.length_past_readIf_true hp
  have hdata : (s.dataSteerToLength.readIf false).past = s.dataSteerToLength.past := rfl
  obtain ⟨state, hr⟩ : ∃ state, cutData false s.cut s.packets.head s.dataSteerToLength.head
      = (⟨state, pkt, s.cut.dataBuf⟩, ⟨true, false, none⟩) := by
    unfold cutData
    rw [hu, hp]
    exact ⟨_, rfl⟩
  simp only [progress, step, hr, hdata]
  omega

theorem progress_cut_busy {s : State n} (hu : s.cut.state ≠ .idle)
    (h : s.cut.dataBuf ≠ none ∨ s.dataSteerToLength.head ≠ none) :
    progress s < progress (step keepBytes s (.cutData false)) := by
  have hpackets : (s.packets.readIf false).past = s.packets.past := rfl
  have hdata : (s.dataSteerToLength.readIf false).past = s.dataSteerToLength.past := rfl
  -- in both states the register is emptied and refilled
  obtain ⟨state, pkt, out, hr⟩ : ∃ state pkt out,
      cutData false s.cut s.packets.head s.dataSteerToLength.head
        = (⟨state, pkt, (refill none s.dataSteerToLength.head).1⟩,
          ⟨false, (refill none s.dataSteerToLength.head).2, out⟩) := by
    unfold cutData
    cases hs : s.cut.state with
    | idle => exact absurd hs hu
    | count =>
      cases hbuf : s.cut.dataBuf with
      | none => exact ⟨_, _, _, rfl⟩
      | some word =>
        dsimp only
        split_ifs
        · exact ⟨_, _, _, rfl⟩
        · exact ⟨_, _, _, rfl⟩
        · exact ⟨_, _, _, rfl⟩
        · exact ⟨_, _, _, rfl⟩
    | consume => exact ⟨_, _, _, rfl⟩
  rcases refill_cases s.dataSteerToLength with ⟨hrefill, hnone⟩ | ⟨word, hrefill, hlen⟩
  · have hbuf : s.cut.dataBuf ≠ none := h.resolve_right (by rw [hnone]; simp)
    simp only [progress, step, hr, hpackets, hdata, hrefill, if_true, if_neg hbuf]
    omega
  · simp only [progress, step, hr, hpackets, hrefill, reduceCtorEq, if_false]
    split_ifs <;> omega

/-! ### When every unit waits -/

theorem length_le_of_flatMap_eq {α : Type} {f : Passage → List α} (hf : ∀ p, f p ≠ [])
    {ps : List Passage} {k : Nat} (h : (ps.take k).flatMap f = ps.flatMap f) : ps.length ≤ k := by
  by_contra hk
  obtain ⟨p, hp⟩ : ∃ p, ps[k]? = some p := ⟨ps[k], List.getElem?_eq_getElem (by omega)⟩
  have hsplit : ps = ps.take k ++ p :: ps.drop (k + 1) := by
    obtain ⟨hlt, hget⟩ := List.getElem?_eq_some_iff.mp hp
    rw [← hget, ← List.drop_eq_getElem_cons hlt, List.take_append_drop]
  have hflat : ps.flatMap f = (ps.take k).flatMap f ++ (f p ++ (ps.drop (k + 1)).flatMap f) := by
    conv_lhs => rw [hsplit, List.flatMap_append, List.flatMap_cons]
  rw [hflat] at h
  have hnil := List.self_eq_append_right.mp h
  exact hf p (List.append_eq_nil_iff.mp hnil).1

/-- Nothing is due on a stream that was read to the end of the traffic. -/
theorem due_eq_nil {α : Type} {f : Passage → List α} {ps : List Passage} {k : Nat}
    {done due : List α} (h : Owed f ps k done due) (hdone : done = ps.flatMap f) : due = [] := by
  have hlen := h.all_prefix_pieces.length_le
  rw [← hdone, List.length_append] at hlen
  exact List.eq_nil_of_length_eq_zero (by omega)

theorem not_isPacket_nil : ¬ IsPacket [] := by decide

section

variable {s : State n}

/-- Everything arrived and the units before the headers are read have handed it on. -/
theorem SteeringStuck.split_done (h : SteeringStuck s) (hinv : PathInv keepBytes ps s)
    (harrived : s.enumOut.sent.map (fun x => (decide (x.1 = 0), x.2))
      = ps.flatMap (·.frame.marked)) :
    s.headerSplitToSteer.sent = ps.map (·.frame.header) ∧
      s.dataSplitToSteer.sent = ps.flatMap (·.frame.raw keepBytes) := by
  have hpast := s.enumOut.past_eq_sent h.mlxMetadata
  have hbeats : s.outData.sent = ps.flatMap (·.frame.beats) := by
    have hmap := congrArg (List.map fun x : Bool × Axi4s => (splitMetadata x.2).2) harrived
    rw [List.map_map, List.map_flatMap] at hmap
    simp only [map_marked] at hmap
    rw [hinv.mlxData, hpast]
    exact hmap
  have hmetas : s.outMetadata.sent.length = ps.length := by
    have hfilter := congrArg (fun l => (l.filter (·.1)).length) harrived
    have hr : ((ps.flatMap (·.frame.marked)).filter (·.1)).length = ps.length := by
      rw [List.filter_flatMap]
      simp only [filter_marked]
      rw [flatMap_singleton_eq, List.length_map]
    rw [hinv.mlxMetas, hpast, List.length_map, ← hr, ← hfilter, List.filter_map, List.length_map]
    rfl
  obtain ⟨due, dueHeader, dueData, hphase, howed, hheaders, hdata⟩ := hinv.split
  -- `split` took up every frame and owes nothing
  obtain ⟨hk, rfl, rfl⟩ : ps.length ≤ s.outMetadata.past.length ∧ dueHeader = [] ∧ dueData = [] := by
    rcases h.split with ⟨hlast, hnone | ⟨hidle, hnone⟩⟩
    · have hall : s.outData.past = ps.flatMap (·.frame.beats) := by
        rw [s.outData.past_eq_sent hnone, hbeats]
      have hdue := due_eq_nil howed hall
      subst hdue
      cases hst : s.split.state with
      | idle =>
        rw [SplitPhase, hst] at hphase
        rw [Owed, List.append_nil, hall] at howed
        exact ⟨length_le_of_flatMap_eq (f := (·.frame.beats)) (fun _ => List.cons_ne_nil _ _)
          howed.symm, hphase.2⟩
      | readingHeader =>
        rw [SplitPhase, hst] at hphase
        obtain ⟨f, -, -, hrest, -⟩ := hphase
        exact absurd f.isPacket_rest (by rw [← hrest]; exact not_isPacket_nil)
      | stream =>
        rw [SplitPhase, hst] at hphase
        exact absurd hphase.1 not_isPacket_nil
      | last => exact absurd hst hlast
    · rw [SplitPhase, hidle] at hphase
      refine ⟨?_, hphase.2⟩
      rw [s.outMetadata.past_eq_sent hnone, hmetas]
  exact ⟨by rw [hheaders.done_eq hk, flatMap_singleton_eq], hdata.done_eq hk⟩

/-- The decisions about all frames were made. -/
theorem SteeringStuck.matched_done (h : SteeringStuck s) (hinv : PathInv keepBytes ps s)
    (hheaders : s.headerSplitToSteer.sent = ps.map (·.frame.header)) :
    s.matched.sent.length = ps.length ∧ s.hdrDupToDropper.sent.length = ps.length ∧
      ps.length ≤ s.ftToAction.past.length := by
  have hpast : s.headerSplitToSteer.past.length = ps.length := by
    rw [s.headerSplitToSteer.past_eq_sent h.hdrDup3, hheaders, List.length_map]
  have hchecks : s.checksToActions.sent.length = ps.length := by
    rw [hinv.checks, s.hdrDupToChecks.past_eq_sent h.hdrChecks, hinv.dupChecks, hpast,
      List.take_length, List.length_map]
  have hlookups : s.ftToAction.sent.length = ps.length := by
    rw [hinv.lookups, s.hdrDupToFlowTable.past_eq_sent h.ftStep, hinv.dupFlowTable, hpast]
  have hactions : s.ftToAction.past.length = ps.length := by
    rcases h.checksToAction with hnone | hnone
    · rw [← hinv.paired, s.checksToActions.past_eq_sent hnone, hchecks]
    · rw [s.ftToAction.past_eq_sent hnone, hlookups]
  refine ⟨?_, by rw [hinv.dupDropper, hpast], hactions.ge⟩
  rw [hinv.matched, List.length_map, s.ftResults.past_eq_sent h.updateStatsActions, hinv.ftResults,
    hactions, List.take_length, List.length_map]

/-- The dropper has passed on everything. -/
theorem SteeringStuck.dropper_done (h : SteeringStuck s) (hinv : PathInv keepBytes ps s)
    (hmatched : s.matched.sent.length = ps.length)
    (hheaders : s.hdrDupToDropper.sent.length = ps.length)
    (hraw : s.dataSplitToSteer.sent = ps.flatMap (·.frame.raw keepBytes)) :
    s.headerSteerToDup.sent = (passing ps).map (·.frame.header) ∧
      s.dataSteerToLength.sent = (passing ps).flatMap (·.through keepBytes) := by
  obtain ⟨hlen, hout, beats, due, dueData, hbeats, hphase, howed, hthrough⟩ := hinv.dropper
  obtain ⟨hk, rfl⟩ : ps.length ≤ s.matched.past.length ∧ dueData = [] := by
    rcases h.udpDropperStep with ⟨hidle, hnone⟩ | ⟨hstream, hbuf, hnone⟩
    · rw [DropperPhase, hidle] at hphase
      refine ⟨?_, hphase.2⟩
      rcases hnone with hnone | hnone
      · rw [s.matched.past_eq_sent hnone, hmatched]
      · rw [hlen, s.hdrDupToDropper.past_eq_sent hnone, hheaders]
    · rw [DropperPhase, hstream] at hphase
      rw [hbuf, Option.toList_none, List.append_nil, s.dataSplitToSteer.past_eq_sent hnone,
        hraw] at hbeats
      rw [due_eq_nil howed hbeats.symm] at hphase
      exact absurd hphase.1 not_isPacket_nil
  refine ⟨?_, ?_⟩
  · rw [hout, List.take_of_length_le hk]
    rfl
  · rw [flatMap_passing (fun p hp => through_of_not_pass hp)]
    exact hthrough.done_eq hk

/-- The length adjustment has passed on everything. -/
theorem Stuck.cut_done (h : Stuck s) (hinv : PathInv keepBytes ps s)
    (hheaders : s.headerSteerToDup.sent = (passing ps).map (·.frame.header))
    (hdata : s.dataSteerToLength.sent = (passing ps).flatMap (·.through keepBytes)) :
    s.dataLengthToCrossbar.sent = (passing ps).flatMap (·.cut keepBytes) := by
  have hpackets : s.packets.sent.length = (passing ps).length := by
    rw [hinv.lengths, List.length_map, s.headerDupToLength.past_eq_sent h.findLength,
      hinv.dupLength, s.headerSteerToDup.past_eq_sent h.hdrDup2, hheaders, List.length_map]
  obtain ⟨beats, due, dueData, hbeats, hphase, howed, hcut⟩ := hinv.cut
  obtain ⟨hk, rfl⟩ : (passing ps).length ≤ s.packets.past.length ∧ dueData = [] := by
    rcases h.cutData with ⟨hidle, hnone⟩ | ⟨hbusy, hbuf, hnone⟩
    · rw [CutPhase, hidle] at hphase
      refine ⟨?_, hphase.2⟩
      rw [s.packets.past_eq_sent hnone, hpackets]
    · rw [hbuf, Option.toList_none, List.append_nil, s.dataSteerToLength.past_eq_sent hnone,
        hdata] at hbeats
      rw [due_eq_nil howed hbeats.symm] at hphase
      cases hst : s.cut.state with
      | idle => exact absurd hst hbusy
      | count =>
        rw [CutPhase, hst] at hphase
        exact absurd hphase.1 not_isPacket_nil
      | consume =>
        rw [CutPhase, hst] at hphase
        exact absurd hphase.1 not_isPacket_nil
  exact hcut.done_eq hk

end

/-- All beats of the traffic have arrived. -/
def Arrived (ps : List Passage) (s : State n) : Prop :=
  s.enumOut.sent.map (fun x => (decide (x.1 = 0), x.2)) = ps.flatMap (·.frame.marked)

/-- The headers, the results and the data of every passage are on their way to the crossbar. -/
structure Extracted (keepBytes : Nat → BitVec 32) (ps : List Passage) (s : State n) : Prop where
  headers : s.headerSteerToDup.sent = (passing ps).map (·.frame.header)
  data : s.dataLengthToCrossbar.sent = (passing ps).flatMap (·.cut keepBytes)
  results : s.steerResults.sent = (passing ps).map (·.decided)
  copies : s.headerDupToCrossbar.sent = (passing ps).map (·.frame.header)

theorem Stuck.extracted {s : State n} (h : Stuck s) (hinv : PathInv keepBytes ps s)
    (harrived : Arrived ps s) : Extracted keepBytes ps s := by
  obtain ⟨hheaders, hraw⟩ := h.steering.split_done hinv harrived
  obtain ⟨hmatched, hdup, hactions⟩ := h.steering.matched_done hinv hheaders
  obtain ⟨hout, hthrough⟩ := h.steering.dropper_done hinv hmatched hdup hraw
  refine ⟨hout, h.cut_done hinv hout hthrough, ?_, ?_⟩
  · rw [hinv.steerResults, List.take_of_length_le hactions]
  · rw [hinv.dupCrossbar, s.headerSteerToDup.past_eq_sent h.hdrDup2, hout]

/-! ### Draining -/

theorem Traffic.congr {s s' : State n} (h : Traffic ps s) (he : s'.enumOut.sent = s.enumOut.sent)
    (hc : s'.checksToActions.sent = s.checksToActions.sent)
    (hr : s'.ftToAction.sent = s.ftToAction.sent) : Traffic ps s' := by
  refine ⟨?_, ?_, ?_⟩
  · rw [he]; exact h.flits
  · rw [hc]; exact h.enable
  · rw [hr]; exact h.results

/-- A call that makes progress and stays within the traffic. -/
def Advances (keepBytes : Nat → BitVec 32) (ps : List Passage) (s : State n) (a : Act n) : Prop :=
  progress s < progress (step keepBytes s a) ∧ Traffic ps (step keepBytes s a) ∧
    (step keepBytes s a).enumOut.sent = s.enumOut.sent

/-- The next check of a header is made with the flag of its passage. -/
theorem advances_hdrChecks {s : State n} (hinv : PathInv keepBytes ps s) (hT : Traffic ps s)
    {buf : HeaderBuffer} (h : s.hdrDupToChecks.head = some buf) :
    ∃ enable, Advances keepBytes ps s (.hdrChecks enable false) := by
  obtain ⟨p, hp, rfl⟩ := exists_item
    ((s.hdrDupToChecks.past_snoc_prefix_sent h).trans hinv.hdrDupToChecks_prefix)
  refine ⟨p.enable, progress_hdrChecks p.enable h, ⟨hT.flits, ?_, hT.results⟩, rfl⟩
  show (Fifo.put _ (hdrChecks p.enable false s.hdrDupToChecks.head)).sent.map _ <+: _
  rw [Fifo.sent_put, hinv.checks, h]
  have hnext : (ps.take s.hdrDupToChecks.past.length).map (·.checks)
      ++ (hdrChecks p.enable false (some p.frame.header)).toList
      = (ps.take (s.hdrDupToChecks.past.length + 1)).map (·.checks) := by
    rw [take_succ_eq hp, List.map_append]
    rfl
  rw [hnext, List.map_map]
  exact map_take_isPrefix _ _ _

/-- The flow table answers the next lookup with the result of its passage. -/
theorem advances_ftStep {s : State n} (hinv : PathInv keepBytes ps s) (hT : Traffic ps s)
    {buf : HeaderBuffer} (h : s.hdrDupToFlowTable.head = some buf) :
    ∃ result, Advances keepBytes ps s (.ftStep result) := by
  have hprefix : s.hdrDupToFlowTable.sent <+: ps.map (·.frame.header) := by
    rw [hinv.dupFlowTable]
    exact s.headerSplitToSteer.past_prefix_sent.trans hinv.headerSplitToSteer_prefix
  obtain ⟨p, hp, -⟩ := exists_item ((s.hdrDupToFlowTable.past_snoc_prefix_sent h).trans hprefix)
  refine ⟨p.result, progress_ftStep keepBytes p.result h, ⟨hT.flits, hT.enable, ?_⟩, rfl⟩
  show (Fifo.put _ _).sent <+: _
  have hsent : s.ftToAction.sent = (ps.take s.hdrDupToFlowTable.past.length).map (·.result) := by
    rw [← hinv.lookups, List.map_take]
    exact List.prefix_iff_eq_take.mp hT.results
  have hnext : s.ftToAction.sent ++ [p.result]
      = (ps.take (s.hdrDupToFlowTable.past.length + 1)).map (·.result) := by
    rw [take_succ_eq hp, List.map_append, hsent]
    rfl
  rw [Fifo.sent_put, h]
  show s.ftToAction.sent ++ [p.result] <+: _
  rw [hnext]
  exact map_take_isPrefix _ _ _

/-- The calls of the units up to the dropper, apart from the flow table. -/
def isSteeringUnit : Act n → Bool
  | .mlxMetadata _ _ => true
  | .split _ _ => true
  | .hdrDup3 _ => true
  | .hdrChecks _ _ => true
  | .checksToAction _ _ => true
  | .updateStatsActions _ _ => true
  | .udpDropperStep _ _ => true
  | _ => false

/-- Some unit up to the dropper makes progress unless all of them wait, or the flow table has a header to look up. -/
theorem steering_advances_or_stuck {s : State n} (hinv : PathInv keepBytes ps s) (hT : Traffic ps s) :
    (∃ a, isSteeringUnit a = true ∧ Advances keepBytes ps s a) ∨ (∃ buf, s.hdrDupToFlowTable.head = some buf) ∨
      SteeringStuck s := by
  by_cases hmlx : s.enumOut.head = none
  case neg =>
    obtain ⟨x, hx⟩ := Option.ne_none_iff_exists'.mp hmlx
    exact .inl ⟨.mlxMetadata false false, rfl, progress_mlxMetadata hx,
      hT.congr (Fifo.sent_readIf _ _) rfl rfl, Fifo.sent_readIf _ _⟩
  by_cases hsplit : s.split.state = .last ∨ (s.outData.head ≠ none ∧
      (s.split.state = .idle → s.outMetadata.head ≠ none))
  case pos =>
    exact .inl ⟨.split false false, rfl, progress_split hsplit, hT.congr rfl rfl rfl, rfl⟩
  by_cases hdup : s.headerSplitToSteer.head = none
  case neg =>
    obtain ⟨x, hx⟩ := Option.ne_none_iff_exists'.mp hdup
    exact .inl ⟨.hdrDup3 false, rfl, progress_hdrDup3 hx, hT.congr rfl rfl rfl, rfl⟩
  by_cases hchecks : s.hdrDupToChecks.head = none
  case neg =>
    obtain ⟨x, hx⟩ := Option.ne_none_iff_exists'.mp hchecks
    obtain ⟨enable, h⟩ := advances_hdrChecks hinv hT hx
    exact .inl ⟨_, rfl, h⟩
  by_cases hactions : s.checksToActions.head = none ∨ s.ftToAction.head = none
  case neg =>
    obtain ⟨c, hc⟩ := Option.ne_none_iff_exists'.mp fun h => hactions (.inl h)
    obtain ⟨r, hr⟩ := Option.ne_none_iff_exists'.mp fun h => hactions (.inr h)
    exact .inl ⟨.checksToAction false false, rfl, progress_checksToAction hc hr,
      hT.congr rfl (Fifo.sent_readIf _ _) (Fifo.sent_readIf _ _), rfl⟩
  by_cases hresults : s.ftResults.head = none
  case neg =>
    obtain ⟨x, hx⟩ := Option.ne_none_iff_exists'.mp hresults
    exact .inl ⟨.updateStatsActions false false, rfl, progress_updateStatsActions hx,
      hT.congr rfl rfl rfl, rfl⟩
  by_cases hdropper : (s.dropper.state = .idle ∧
      (s.matched.head = none ∨ s.hdrDupToDropper.head = none)) ∨
    (s.dropper.state = .stream ∧ s.dropper.dataBuf = none ∧ s.dataSplitToSteer.head = none)
  case neg =>
    refine .inl ⟨.udpDropperStep false false, rfl, ?_, hT.congr rfl rfl rfl, rfl⟩
    cases hst : s.dropper.state with
    | idle =>
      obtain ⟨x, hx⟩ := Option.ne_none_iff_exists'.mp fun h => hdropper (.inl ⟨hst, .inl h⟩)
      obtain ⟨y, hy⟩ := Option.ne_none_iff_exists'.mp fun h => hdropper (.inl ⟨hst, .inr h⟩)
      exact progress_dropper_idle hst hx hy
    | stream =>
      apply progress_dropper_stream hst
      by_contra hnone
      rw [not_or, not_not, not_not] at hnone
      exact hdropper (.inr ⟨hst, hnone⟩)
  by_cases hft : s.hdrDupToFlowTable.head = none
  case neg => exact .inr (.inl (Option.ne_none_iff_exists'.mp hft))
  refine .inr (.inr ⟨hmlx, ?_, hdup, hchecks, hft, hactions, hresults, hdropper⟩)
  rw [not_or] at hsplit
  refine ⟨hsplit.1, ?_⟩
  by_cases hdata : s.outData.head = none
  · exact .inl hdata
  · have hidle := not_and.mp hsplit.2 hdata
    rw [Classical.not_imp, not_not] at hidle
    exact .inr hidle

/-- Some unit makes progress unless all of them wait. -/
theorem advances_or_stuck {s : State n} (hinv : PathInv keepBytes ps s) (hT : Traffic ps s) :
    (∃ a, Advances keepBytes ps s a) ∨ Stuck s := by
  rcases steering_advances_or_stuck hinv hT with ⟨a, -, ha⟩ | ⟨buf, hbuf⟩ | hsteering
  · exact .inl ⟨a, ha⟩
  · obtain ⟨result, h⟩ := advances_ftStep hinv hT hbuf
    exact .inl ⟨_, h⟩
  by_cases hdup2 : s.headerSteerToDup.head = none
  case neg =>
    obtain ⟨x, hx⟩ := Option.ne_none_iff_exists'.mp hdup2
    exact .inl ⟨.hdrDup2 false, progress_hdrDup2 hx, hT.congr rfl rfl rfl, rfl⟩
  by_cases hlength : s.headerDupToLength.head = none
  case neg =>
    obtain ⟨x, hx⟩ := Option.ne_none_iff_exists'.mp hlength
    exact .inl ⟨.findLength false, progress_findLength hx, hT.congr rfl rfl rfl, rfl⟩
  by_cases hcut : (s.cut.state = .idle ∧ s.packets.head = none) ∨
    (s.cut.state ≠ .idle ∧ s.cut.dataBuf = none ∧ s.dataSteerToLength.head = none)
  case neg =>
    refine .inl ⟨.cutData false, ?_, hT.congr rfl rfl rfl, rfl⟩
    by_cases hst : s.cut.state = .idle
    · obtain ⟨x, hx⟩ := Option.ne_none_iff_exists'.mp fun h => hcut (.inl ⟨hst, h⟩)
      exact progress_cut_idle hst hx
    · apply progress_cut_busy hst
      by_contra hnone
      rw [not_or, not_not, not_not] at hnone
      exact hcut (.inr ⟨hst, hnone⟩)
  exact .inr ⟨hsteering.mlxMetadata, hsteering.split, hsteering.hdrDup3, hsteering.hdrChecks, hsteering.ftStep,
    hsteering.checksToAction, hsteering.updateStatsActions, hsteering.udpDropperStep, hdup2, hlength, hcut⟩

theorem length_past_le {α : Type} {f : Fifo α} {l : List α} (h : f.sent <+: l) :
    f.past.length ≤ l.length :=
  (f.past_prefix_sent.trans h).length_le

/-- Progress is bounded by the traffic. -/
theorem progress_le (keepBytes : Nat → BitVec 32) (ps : List Passage) : ∃ bound, ∀ s : State n, PathInv keepBytes ps s →
    Traffic ps s → progress s ≤ bound := by
  refine ⟨2 * ((ps.flatMap (·.frame.marked)).length + ps.length
    + (ps.flatMap (·.frame.beats)).length + ps.length
    + (ps.flatMap (·.frame.raw keepBytes)).length + 7 * ps.length + (passing ps).length
    + ((passing ps).flatMap (·.through keepBytes)).length + 2 * (passing ps).length) + 3, ?_⟩
  intro s hinv hT
  have h₁ : s.enumOut.past.length ≤ (ps.flatMap (·.frame.marked)).length := by
    have hle := ((s.enumOut.past_prefix_sent.map _).trans hT.flits).length_le
    rw [List.length_map] at hle
    exact hle
  have h₂ := length_past_le (hinv.outMetadata_prefix hT)
  have h₃ := length_past_le (hinv.outData_prefix hT)
  have h₄ := length_past_le hinv.headerSplitToSteer_prefix
  have h₅ := length_past_le hinv.dataSplitToSteer_prefix
  have h₆ := length_past_le hinv.hdrDupToDropper_prefix
  have h₇ := length_past_le hinv.hdrDupToChecks_prefix
  have h₈ : s.hdrDupToFlowTable.past.length ≤ (ps.map (·.frame.header)).length := by
    apply length_past_le
    rw [hinv.dupFlowTable]
    exact s.headerSplitToSteer.past_prefix_sent.trans hinv.headerSplitToSteer_prefix
  have h₉ := length_past_le hinv.checksToActions_prefix
  have h₁₀ := length_past_le hT.results
  have h₁₁ := length_past_le hinv.ftResults_prefix
  have h₁₂ := length_past_le hinv.matched_prefix
  have h₁₃ := length_past_le hinv.headerSteerToDup_prefix
  have h₁₄ := length_past_le hinv.dataSteerToLength_prefix
  have h₁₅ : s.headerDupToLength.past.length ≤ ((passing ps).map (·.frame.header)).length := by
    apply length_past_le
    rw [hinv.dupLength]
    exact s.headerSteerToDup.past_prefix_sent.trans hinv.headerSteerToDup_prefix
  have h₁₆ := length_past_le hinv.packets_prefix
  rw [List.length_map] at h₂ h₄ h₆ h₇ h₈ h₉ h₁₀ h₁₁ h₁₂ h₁₃ h₁₅ h₁₆
  unfold progress
  split_ifs <;> omega

/-- Whatever happened so far, once everything has arrived the rest can be extracted. -/
theorem exists_extracted {s : State n} (hfit : ∀ p ∈ passing ps, p.Counted keepBytes)
    (hinv : PathInv keepBytes ps s) (hT : Traffic ps s) (harrived : Arrived ps s) :
    ∃ acts, Traffic ps (run (step keepBytes) s acts) ∧
      Extracted keepBytes ps (run (step keepBytes) s acts) := by
  obtain ⟨bound, hbound⟩ := progress_le (n := n) keepBytes ps
  -- induction on the distance from the bound
  induction hd : bound - progress s using Nat.strong_induction_on generalizing s with
  | _ d ih =>
    rcases advances_or_stuck hinv hT with ⟨a, hlt, hT', henum⟩ | hstuck
    · have hinv' := pathInv_step hfit a hT hT' hinv
      have harrived' : Arrived ps (step keepBytes s a) := by
        rw [Arrived, henum]
        exact harrived
      have hle := hbound _ hinv' hT'
      obtain ⟨acts, h⟩ := ih (bound - progress (step keepBytes s a)) (by omega) hinv' hT'
        harrived' rfl
      exact ⟨a :: acts, h⟩
    · exact ⟨[], hT, hstuck.extracted hinv harrived⟩

/-! ### Draining the crossbar -/

/-- What the crossbar and the units behind it have read. -/
def deliveryProgress (s : State n) : Nat :=
  s.steerResults.past.length + s.dataLengthToCrossbar.past.length
    + ∑ e, (s.hdrOut e).past.length

/-- The packets of the traffic have been handed to the engine. -/
def Delivered (keepBytes : Nat → BitVec 32) (ps : List Passage) (s : State n) (e : Fin n) : Prop :=
  s.metadataOut e = (deliveredTo e ps).map (·.metadata) ∧
    s.dataOut e = (deliveredTo e ps).flatMap (·.cut keepBytes)

/-- The crossbar and the units behind it wait for input. -/
structure DeliveryStuck (s : State n) : Prop where
  crossbar : (s.crossbar.state = .idle ∧
      (s.steerResults.head = none ∨ s.headerDupToCrossbar.head = none)) ∨
    (s.crossbar.state = .stream ∧ s.dataLengthToCrossbar.head = none)
  metadata : ∀ e, (s.hdrOut e).head = none ∨ (s.ftResultsOut e).head = none

theorem DeliveryStuck.delivered {s : State n} (h : DeliveryStuck s)
    (hinv : DeliveryInv keepBytes ps s) (hx : Extracted keepBytes ps s) (e : Fin n) :
    Delivered keepBytes ps s e := by
  obtain ⟨due, hphase, hcut, hdata⟩ := hinv.crossbar.owed
  obtain ⟨hk, rfl⟩ : (passing ps).length ≤ s.steerResults.past.length ∧ due = [] := by
    rcases h.crossbar with ⟨hidle, hnone⟩ | ⟨hstream, hnone⟩
    · rw [CrossbarPhase, hidle] at hphase
      refine ⟨?_, hphase⟩
      rcases hnone with hnone | hnone
      · rw [s.steerResults.past_eq_sent hnone, hx.results, List.length_map]
      · rw [hinv.crossbar.length_eq, s.headerDupToCrossbar.past_eq_sent hnone, hx.copies,
          List.length_map]
    · rw [CrossbarPhase, hstream] at hphase
      have hpast : s.dataLengthToCrossbar.past = (passing ps).flatMap (·.cut keepBytes) := by
        rw [s.dataLengthToCrossbar.past_eq_sent hnone, hx.data]
      rw [due_eq_nil hcut hpast] at hphase
      exact absurd hphase.1 not_isPacket_nil
  have hheaders : (s.hdrOut e).sent.length = (deliveredTo e ps).length := by
    rw [hinv.crossbar.headers_eq e, List.take_of_length_le hk, List.length_map]
    rfl
  have hdecisions : (s.ftResultsOut e).sent.length = (deliveredTo e ps).length := by
    rw [hinv.crossbar.decisions_eq e, List.take_of_length_le hk, List.length_map]
    rfl
  have hpast : (deliveredTo e ps).length ≤ (s.hdrOut e).past.length := by
    rcases h.metadata e with hnone | hnone
    · rw [(s.hdrOut e).past_eq_sent hnone, hheaders]
    · rw [hinv.paired e, (s.ftResultsOut e).past_eq_sent hnone, hdecisions]
  refine ⟨?_, ?_⟩
  · rw [hinv.metadata e, List.take_of_length_le hpast]
  · have hall := hdata e
    rw [ite_self] at hall
    rw [hall.done_eq hk, flatMap_goesTo]

/-- A call of the crossbar or of a unit behind it keeps what was extracted. -/
theorem Extracted.crossbar {s : State n} (hx : Extracted keepBytes ps s) (hFull dFull : Bool)
    (buf : HeaderBuffer) : Extracted keepBytes ps (step keepBytes s (.crossbar hFull dFull buf)) :=
  ⟨hx.headers, (Fifo.sent_readIf _ _).trans hx.data, (Fifo.sent_readIf _ _).trans hx.results,
    (Fifo.sent_readIf _ _).trans hx.copies⟩

theorem deliveryProgress_crossbar_idle {s : State n} (hst : s.crossbar.state = .idle)
    {r : FlowTableResult} {hdr : HeaderBuffer} (hr : s.steerResults.head = some r)
    (hh : s.headerDupToCrossbar.head = some hdr) (buf : HeaderBuffer) :
    deliveryProgress s < deliveryProgress (step keepBytes s (.crossbar false false buf)) := by
  have hlen := s.steerResults.length_past_readIf_true hr
  have hdata : (s.dataLengthToCrossbar.readIf false).past = s.dataLengthToCrossbar.past := rfl
  obtain ⟨u, rh, header, hc⟩ : ∃ u rh header, crossbar n false false buf s.crossbar
      s.steerResults.head s.headerDupToCrossbar.head s.dataLengthToCrossbar.head
      = (u, ⟨true, rh, false, header, none⟩) := by
    unfold crossbar
    rw [hst, hr, hh]
    exact ⟨_, _, _, rfl⟩
  simp only [deliveryProgress, step, hc, hdata, past_putAt]
  omega

theorem deliveryProgress_crossbar_stream {s : State n} (hst : s.crossbar.state = .stream)
    (he : (s.crossbar.engine n).isSome = true) {word : AxiData}
    (hd : s.dataLengthToCrossbar.head = some word) (buf : HeaderBuffer) :
    deliveryProgress s < deliveryProgress (step keepBytes s (.crossbar false false buf)) := by
  have hlen := s.dataLengthToCrossbar.length_past_readIf_true hd
  have hresults : (s.steerResults.readIf false).past = s.steerResults.past := rfl
  obtain ⟨e, he'⟩ := Option.isSome_iff_exists.mp he
  have hengine : engineOf n s.crossbar.currentSteeringDecision = some e := he'
  obtain ⟨u, data, hc⟩ : ∃ u data, crossbar n false false buf s.crossbar
      s.steerResults.head s.headerDupToCrossbar.head s.dataLengthToCrossbar.head
      = (u, ⟨false, false, true, none, data⟩) := by
    unfold crossbar
    rw [hst, hengine, hd]
    exact ⟨_, _, rfl⟩
  simp only [deliveryProgress, step, hc, hresults, past_putAt]
  omega

theorem deliveryProgress_splitUdpHdrStream {s : State n} {e : Fin n} {hdr : HeaderBuffer}
    {r : FlowTableResult} (hh : (s.hdrOut e).head = some hdr)
    (hr : (s.ftResultsOut e).head = some r) :
    deliveryProgress s < deliveryProgress (step keepBytes s (.splitUdpHdrStream e false)) := by
  have hread : (splitUdpHdrStream false (s.hdrOut e).head (s.ftResultsOut e).head).isSome
      = true := by rw [hh, hr]; rfl
  have hlen := (s.hdrOut e).length_past_readIf_true hh
  have hsum : ∑ e', (s.hdrOut e').past.length
      < ∑ e', (Function.update s.hdrOut e ((s.hdrOut e).readIf true) e').past.length := by
    apply Finset.sum_lt_sum
    · intro e' _
      by_cases he : e' = e
      · subst he
        rw [Function.update_self, hlen]
        exact Nat.le_succ _
      · rw [Function.update_of_ne he]
    · refine ⟨e, Finset.mem_univ e, ?_⟩
      rw [Function.update_self, hlen]
      exact Nat.lt_succ_self _
  simp only [deliveryProgress, step, hread]
  omega

/-- Some unit behind the length adjustment makes progress unless all of them wait. -/
theorem delivery_advances_or_stuck {s : State n} (hinv : DeliveryInv keepBytes ps s)
    (hx : Extracted keepBytes ps s) (hT : Traffic ps s) :
    (∃ a, deliveryProgress s < deliveryProgress (step keepBytes s a) ∧
      Extracted keepBytes ps (step keepBytes s a) ∧ Traffic ps (step keepBytes s a)) ∨
      DeliveryStuck s := by
  obtain ⟨due, hphase, -⟩ := hinv.crossbar.owed
  let buf : HeaderBuffer := ⟨0, 0, 0, false⟩
  by_cases hcross : (s.crossbar.state = .idle ∧
      (s.steerResults.head = none ∨ s.headerDupToCrossbar.head = none)) ∨
    (s.crossbar.state = .stream ∧ s.dataLengthToCrossbar.head = none)
  case neg =>
    refine .inl ⟨.crossbar false false buf, ?_, hx.crossbar false false buf, hT.congr rfl rfl rfl⟩
    cases hst : s.crossbar.state with
    | idle =>
      obtain ⟨r, hr⟩ := Option.ne_none_iff_exists'.mp fun h => hcross (.inl ⟨hst, .inl h⟩)
      obtain ⟨hdr, hh⟩ := Option.ne_none_iff_exists'.mp fun h => hcross (.inl ⟨hst, .inr h⟩)
      exact deliveryProgress_crossbar_idle hst hr hh buf
    | stream =>
      obtain ⟨word, hd⟩ := Option.ne_none_iff_exists'.mp fun h => hcross (.inr ⟨hst, h⟩)
      rw [CrossbarPhase, hst] at hphase
      exact deliveryProgress_crossbar_stream hst hphase.2 hd buf
  by_cases hmeta : ∀ e, (s.hdrOut e).head = none ∨ (s.ftResultsOut e).head = none
  case neg =>
    obtain ⟨e, he⟩ := not_forall.mp hmeta
    obtain ⟨hdr, hh⟩ := Option.ne_none_iff_exists'.mp fun h => he (.inl h)
    obtain ⟨r, hr⟩ := Option.ne_none_iff_exists'.mp fun h => he (.inr h)
    exact .inl ⟨.splitUdpHdrStream e false, deliveryProgress_splitUdpHdrStream hh hr,
      ⟨hx.headers, hx.data, hx.results, hx.copies⟩, hT.congr rfl rfl rfl⟩
  exact .inr ⟨hcross, hmeta⟩

theorem deliveryProgress_le {s : State n} (hpath : PathInv keepBytes ps s)
    (hinv : DeliveryInv keepBytes ps s) :
    deliveryProgress s ≤ (passing ps).length + ((passing ps).flatMap (·.cut keepBytes)).length
      + ∑ e : Fin n, (deliveredTo e ps).length := by
  have h₁ := length_past_le hpath.steerResults_prefix
  have h₂ := length_past_le hpath.dataLengthToCrossbar_prefix
  have h₃ : ∑ e, (s.hdrOut e).past.length ≤ ∑ e : Fin n, (deliveredTo e ps).length := by
    apply Finset.sum_le_sum
    intro e _
    have hle := length_past_le (hinv.hdrOut_prefix e)
    rw [List.length_map] at hle
    exact hle
  rw [List.length_map] at h₁
  unfold deliveryProgress
  omega

/-- Whatever happened so far, once everything has arrived the rest can be delivered. -/
theorem exists_delivered {s : State n} (hcount : ∀ p ∈ passing ps, p.Counted keepBytes)
    (hroute : ∀ p ∈ passing ps, p.Routed n keepBytes) (hpath : PathInv keepBytes ps s)
    (hinv : DeliveryInv keepBytes ps s) (hT : Traffic ps s) (harrived : Arrived ps s) :
    ∃ acts, Traffic ps (run (step keepBytes) s acts) ∧
      ∀ e, Delivered keepBytes ps (run (step keepBytes) s acts) e := by
  obtain ⟨acts₁, hT₁, hx₁⟩ := exists_extracted hcount hpath hT harrived
  obtain ⟨hpath₁, hinv₁⟩ := invs_run hcount hroute acts₁ hpath hinv hT₁
  -- from there on only the crossbar and the units behind it have work to do
  have hdrain : ∃ acts₂, Traffic ps (run (step keepBytes) (run (step keepBytes) s acts₁) acts₂) ∧
      ∀ e, Delivered keepBytes ps
        (run (step keepBytes) (run (step keepBytes) s acts₁) acts₂) e := by
    clear hpath hinv hT harrived
    generalize run (step keepBytes) s acts₁ = t at hT₁ hx₁ hpath₁ hinv₁
    induction hd : (passing ps).length + ((passing ps).flatMap (·.cut keepBytes)).length
        + ∑ e : Fin n, (deliveredTo e ps).length - deliveryProgress t
      using Nat.strong_induction_on generalizing t with
    | _ d ih =>
      rcases delivery_advances_or_stuck hinv₁ hx₁ hT₁ with ⟨a, hlt, hx', hT'⟩ | hstuck
      · have hpath' := pathInv_step hcount a hT₁ hT' hpath₁
        have hinv' := deliveryInv_step hroute a hpath₁ hinv₁
        have hle := deliveryProgress_le hpath' hinv'
        obtain ⟨acts, h⟩ := ih _ (by omega) _ hT' hx' hpath' hinv' rfl
        exact ⟨a :: acts, h⟩
      · exact ⟨[], hT₁, fun e => hstuck.delivered hinv₁ hx₁ e⟩
  obtain ⟨acts₂, hT₂, hall⟩ := hdrain
  rw [← run_append] at hT₂
  refine ⟨acts₁ ++ acts₂, hT₂, fun e => ?_⟩
  rw [run_append]
  exact hall e

end Nica.Hls.Udp
