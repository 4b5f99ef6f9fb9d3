import Nica.Hls.Equiv.UdpUnits
import Mathlib.Tactic.Tauto

/-!
# Runs of the receive path

`Traffic ps s` says that what came in so far is made of the passages `ps`: their beats arrive in
order, and the configuration flag at each check and the answers of the flow table are theirs.
`PathInv` puts the invariants of the units together, from the network port to the output of the
length adjustment; `DeliveryInv` adds the crossbar and the metadata.  Both hold after every run:

* `pathInv_run`, if the length adjustment counts words exactly for the packets that bring data;
* `invs_run`, if moreover the header agrees with it and the engine exists.
-/

namespace Nica.Hls.Udp

open Nica.Lib

variable {n : Nat} {keepBytes : Nat → BitVec 32} {ps : List Passage}

/-- The input of a run is that of the passages `ps`. -/
structure Traffic (ps : List Passage) (s : State n) : Prop where
  flits : s.enumOut.sent.map (fun x => (decide (x.1 = 0), x.2)) <+: ps.flatMap (·.frame.marked)
  enable : s.checksToActions.sent.map (·.disabled) <+: ps.map (!·.enable)
  results : s.ftToAction.sent <+: ps.map (·.result)

/-- The passages that go to an ikernel. -/
def passing (ps : List Passage) : List Passage := ps.filter (·.pass)

/-- The invariants of the units up to the length adjustment. -/
structure PathInv (keepBytes : Nat → BitVec 32) (ps : List Passage) (s : State n) : Prop where
  mlxMetas : s.outMetadata.sent
    = (s.enumOut.past.filter (·.1 = 0)).map (fun x => (splitMetadata x.2).1)
  mlxData : s.outData.sent = s.enumOut.past.map (fun x => (splitMetadata x.2).2)
  split : SplitInv keepBytes ps s.split s.outMetadata.past s.outData.past
    s.headerSplitToSteer.sent s.dataSplitToSteer.sent
  dupDropper : s.hdrDupToDropper.sent = s.headerSplitToSteer.past
  dupChecks : s.hdrDupToChecks.sent = s.headerSplitToSteer.past
  dupFlowTable : s.hdrDupToFlowTable.sent = s.headerSplitToSteer.past
  checks : s.checksToActions.sent = (ps.take s.hdrDupToChecks.past.length).map (·.checks)
  lookups : s.ftToAction.sent.length = s.hdrDupToFlowTable.past.length
  paired : s.checksToActions.past.length = s.ftToAction.past.length
  ftResults : s.ftResults.sent = (ps.take s.ftToAction.past.length).map (·.decided)
  steerResults : s.steerResults.sent = (passing (ps.take s.ftToAction.past.length)).map (·.decided)
  matched : s.matched.sent = s.ftResults.past.map (fun r => decide (r.v.action = .ikernel))
  dropper : DropperInv keepBytes ps s.dropper s.matched.past s.hdrDupToDropper.past
    s.dataSplitToSteer.past s.headerSteerToDup.sent s.dataSteerToLength.sent
  dupLength : s.headerDupToLength.sent = s.headerSteerToDup.past
  dupCrossbar : s.headerDupToCrossbar.sent = s.headerSteerToDup.past
  lengths : s.packets.sent = s.headerDupToLength.past.map packetLength
  cut : CutInv keepBytes (passing ps) s.cut s.packets.past s.dataSteerToLength.past
    s.dataLengthToCrossbar.sent

theorem pathInv_init (keepBytes : Nat → BitVec 32) (ps : List Passage) :
    PathInv keepBytes ps (State.init : State n) where
  mlxMetas := rfl
  mlxData := rfl
  split := ⟨[], [], [], ⟨rfl, rfl, rfl⟩, .zero _ _, .zero _ _, .zero _ _⟩
  dupDropper := rfl
  dupChecks := rfl
  dupFlowTable := rfl
  checks := rfl
  lookups := rfl
  paired := rfl
  ftResults := rfl
  steerResults := rfl
  matched := rfl
  dropper := ⟨rfl, rfl, [], [], [], rfl, ⟨rfl, rfl⟩, .zero _ _, .zero _ _⟩
  dupLength := rfl
  dupCrossbar := rfl
  lengths := rfl
  cut := ⟨[], [], [], rfl, ⟨rfl, rfl⟩, .zero _ _, .zero _ _⟩

/-! ### What the streams carry -/

theorem flatMap_singleton_eq {α β : Type} (g : α → β) (l : List α) :
    l.flatMap (fun a => [g a]) = l.map g := by
  induction l with
  | nil => rfl
  | cons a l ih => rw [List.flatMap_cons, List.map_cons, ih, List.singleton_append]

/-- Pieces that are empty for the other passages come from the passing ones. -/
theorem flatMap_passing {α : Type} {f : Passage → List α} (hf : ∀ p, p.pass = false → f p = [])
    (ps : List Passage) : (passing ps).flatMap f = ps.flatMap f := by
  induction ps with
  | nil => rfl
  | cons p ps ih =>
    cases hp : p.pass with
    | true =>
      have : passing (p :: ps) = p :: passing ps := List.filter_cons_of_pos hp
      rw [this, List.flatMap_cons, List.flatMap_cons, ih]
    | false =>
      have : passing (p :: ps) = passing ps := List.filter_cons_of_neg (by rw [hp]; decide)
      rw [this, List.flatMap_cons, hf p hp, ih, List.nil_append]

theorem through_of_not_pass {p : Passage} (hp : p.pass = false) : p.through keepBytes = [] := by
  rw [Passage.through, hp]
  rfl

theorem passing_take_prefix {γ : Type} (label : Passage → γ) (ps : List Passage) (k : Nat) :
    (passing (ps.take k)).map label <+: (passing ps).map label :=
  ((List.take_prefix k ps).filter _).map _

theorem filter_marked (f : Frame) : f.marked.filter (·.1) = [(true, f.first)] := by
  rw [Frame.marked, List.filter_cons_of_pos rfl, List.filter_eq_nil_iff.mpr]
  intro x hx
  obtain ⟨flit, -, rfl⟩ := List.mem_map.mp hx
  exact Bool.false_ne_true

theorem map_marked (f : Frame) : f.marked.map (fun x => (splitMetadata x.2).2) = f.beats := by
  rw [Frame.marked, List.map_cons, List.map_map]
  rfl

namespace PathInv

variable {s : State n}

theorem outMetadata_prefix (h : PathInv keepBytes ps s) (hT : Traffic ps s) :
    s.outMetadata.sent <+: ps.map (·.frame.mlx) := by
  have hpast := (s.enumOut.past_prefix_sent.map fun x => (decide (x.1 = 0), x.2)).trans hT.flits
  have hmap := (hpast.filter (·.1)).map (fun x => (splitMetadata x.2).1)
  have hl : (((s.enumOut.past.map fun x => (decide (x.1 = 0), x.2)).filter (·.1)).map
      fun x => (splitMetadata x.2).1) = s.outMetadata.sent := by
    rw [h.mlxMetas, List.filter_map, List.map_map]
    rfl
  have hr : (((ps.flatMap (·.frame.marked)).filter (·.1)).map fun x => (splitMetadata x.2).1)
      = ps.map (·.frame.mlx) := by
    rw [List.filter_flatMap, List.map_flatMap, ← flatMap_singleton_eq]
    simp only [filter_marked]
    rfl
  rw [hl, hr] at hmap
  exact hmap

theorem outData_prefix (h : PathInv keepBytes ps s) (hT : Traffic ps s) :
    s.outData.sent <+: ps.flatMap (·.frame.beats) := by
  have hpast := (s.enumOut.past_prefix_sent.map fun x => (decide (x.1 = 0), x.2)).trans hT.flits
  have hmap := hpast.map (fun x => (splitMetadata x.2).2)
  rw [List.map_map, List.map_flatMap] at hmap
  simp only [map_marked] at hmap
  rw [h.mlxData]
  exact hmap

theorem headerSplitToSteer_prefix (h : PathInv keepBytes ps s) :
    s.headerSplitToSteer.sent <+: ps.map (·.frame.header) := by
  obtain ⟨_, _, _, -, -, hheaders, -⟩ := h.split
  rw [← flatMap_singleton_eq]
  exact hheaders.done_prefix_pieces

theorem dataSplitToSteer_prefix (h : PathInv keepBytes ps s) :
    s.dataSplitToSteer.sent <+: ps.flatMap (·.frame.raw keepBytes) := by
  obtain ⟨_, _, _, -, -, -, hdata⟩ := h.split
  exact hdata.done_prefix_pieces

theorem hdrDupToDropper_prefix (h : PathInv keepBytes ps s) :
    s.hdrDupToDropper.sent <+: ps.map (·.frame.header) := by
  rw [h.dupDropper]
  exact s.headerSplitToSteer.past_prefix_sent.trans h.headerSplitToSteer_prefix

theorem hdrDupToChecks_prefix (h : PathInv keepBytes ps s) :
    s.hdrDupToChecks.sent <+: ps.map (·.frame.header) := by
  rw [h.dupChecks]
  exact s.headerSplitToSteer.past_prefix_sent.trans h.headerSplitToSteer_prefix

theorem checksToActions_prefix (h : PathInv keepBytes ps s) :
    s.checksToActions.sent <+: ps.map (·.checks) := by
  rw [h.checks]
  exact map_take_isPrefix _ _ _

theorem ftResults_prefix (h : PathInv keepBytes ps s) :
    s.ftResults.sent <+: ps.map (·.decided) := by
  rw [h.ftResults]
  exact map_take_isPrefix _ _ _

theorem matched_prefix (h : PathInv keepBytes ps s) : s.matched.sent <+: ps.map (·.pass) := by
  have hpast := s.ftResults.past_prefix_sent.trans h.ftResults_prefix
  have hmap := hpast.map (fun r => decide (r.v.action = .ikernel))
  rw [List.map_map] at hmap
  rw [h.matched]
  exact hmap

theorem steerResults_prefix (h : PathInv keepBytes ps s) :
    s.steerResults.sent <+: (passing ps).map (·.decided) := by
  rw [h.steerResults]
  exact passing_take_prefix _ _ _

theorem headerSteerToDup_prefix (h : PathInv keepBytes ps s) :
    s.headerSteerToDup.sent <+: (passing ps).map (·.frame.header) := by
  obtain ⟨-, hheaders, -⟩ := h.dropper
  rw [hheaders]
  exact passing_take_prefix _ _ _

theorem dataSteerToLength_prefix (h : PathInv keepBytes ps s) :
    s.dataSteerToLength.sent <+: (passing ps).flatMap (·.through keepBytes) := by
  obtain ⟨-, -, _, _, _, -, -, -, hthrough⟩ := h.dropper
  rw [flatMap_passing (fun p hp => through_of_not_pass hp)]
  exact hthrough.done_prefix_pieces

theorem headerDupToCrossbar_prefix (h : PathInv keepBytes ps s) :
    s.headerDupToCrossbar.sent <+: (passing ps).map (·.frame.header) := by
  rw [h.dupCrossbar]
  exact s.headerSteerToDup.past_prefix_sent.trans h.headerSteerToDup_prefix

theorem packets_prefix (h : PathInv keepBytes ps s) :
    s.packets.sent <+: (passing ps).map (·.lengths) := by
  have hdup : s.headerDupToLength.sent <+: (passing ps).map (·.frame.header) := by
    rw [h.dupLength]
    exact s.headerSteerToDup.past_prefix_sent.trans h.headerSteerToDup_prefix
  have hmap := (s.headerDupToLength.past_prefix_sent.trans hdup).map packetLength
  rw [List.map_map] at hmap
  rw [h.lengths]
  exact hmap

theorem dataLengthToCrossbar_prefix (h : PathInv keepBytes ps s) :
    s.dataLengthToCrossbar.sent <+: (passing ps).flatMap (·.cut keepBytes) := by
  obtain ⟨_, _, _, -, -, -, hcut⟩ := h.cut
  exact hcut.done_prefix_pieces

end PathInv

/-! ### The steps -/

theorem pathInv_mlxMetadata {s : State n} (mFull dFull : Bool) (h : PathInv keepBytes ps s) :
    PathInv keepBytes ps (step keepBytes s (.mlxMetadata mFull dFull)) := by
  refine { h with mlxMetas := ?_, mlxData := ?_ }
  all_goals
    show (Fifo.put _ _).sent = _
    rw [Fifo.sent_put]
  · rw [h.mlxMetas]
    show _ ++ (mlxMetadata mFull dFull s.enumOut.head).metadata.toList
      = ((s.enumOut.readIf (mlxMetadata mFull dFull s.enumOut.head).read).past.filter _).map _
    cases hh : s.enumOut.head with
    | none => exact List.append_nil _
    | some x =>
      obtain ⟨count, flit⟩ := x
      unfold mlxMetadata
      by_cases hc : count = 0
      · cases dFull <;> cases mFull <;>
          simp [hc, s.enumOut.past_readIf_true hh, List.filter_append]
      · cases dFull <;> simp [hc, s.enumOut.past_readIf_true hh, List.filter_append]
  · rw [h.mlxData]
    show _ ++ (mlxMetadata mFull dFull s.enumOut.head).data.toList
      = (s.enumOut.readIf (mlxMetadata mFull dFull s.enumOut.head).read).past.map _
    cases hh : s.enumOut.head with
    | none => exact List.append_nil _
    | some x =>
      obtain ⟨count, flit⟩ := x
      unfold mlxMetadata
      by_cases hc : count = 0
      · cases dFull <;> cases mFull <;> simp [hc, s.enumOut.past_readIf_true hh]
      · cases dFull <;> simp [hc, s.enumOut.past_readIf_true hh]

theorem pathInv_split {s : State n} (hFull dFull : Bool) (hT : Traffic ps s)
    (h : PathInv keepBytes ps s) :
    PathInv keepBytes ps (step keepBytes s (.split hFull dFull)) := by
  have hsplit := splitInv_split hFull dFull (h.outMetadata_prefix hT) (h.outData_prefix hT) h.split
  refine { h with mlxMetas := ?_, mlxData := ?_, split := ?_ }
  · exact (Fifo.sent_readIf _ _).trans h.mlxMetas
  · exact (Fifo.sent_readIf _ _).trans h.mlxData
  · show SplitInv keepBytes ps _ _ _ (Fifo.put _ _).sent (Fifo.put _ _).sent
    rw [Fifo.sent_put, Fifo.sent_put]
    exact hsplit

theorem pathInv_hdrDup3 {s : State n} (full : Bool) (h : PathInv keepBytes ps s) :
    PathInv keepBytes ps (step keepBytes s (.hdrDup3 full)) := by
  have hpast := past_readIf_dup s.headerSplitToSteer full
  refine { h with split := ?_, dupDropper := ?_, dupChecks := ?_, dupFlowTable := ?_ }
  · show SplitInv keepBytes ps _ _ _ (Fifo.readIf _ _).sent _
    rw [Fifo.sent_readIf]
    exact h.split
  · show (Fifo.put _ _).sent = (Fifo.readIf _ _).past
    rw [Fifo.sent_put, h.dupDropper, hpast]
  · show (Fifo.put _ _).sent = (Fifo.readIf _ _).past
    rw [Fifo.sent_put, h.dupChecks, hpast]
  · show (Fifo.put _ _).sent = (Fifo.readIf _ _).past
    rw [Fifo.sent_put, h.dupFlowTable, hpast]

/-- The configuration flag at a check is that of the passage whose header is checked. -/
theorem pathInv_hdrChecks {s : State n} (enable full : Bool) (h : PathInv keepBytes ps s)
    (hT' : Traffic ps (step keepBytes s (.hdrChecks enable full))) :
    PathInv keepBytes ps (step keepBytes s (.hdrChecks enable full)) := by
  refine { h with dupChecks := ?_, checks := ?_ }
  · exact (Fifo.sent_readIf _ _).trans h.dupChecks
  · have henable := hT'.enable
    change (Fifo.put _ _).sent.map _ <+: _ at henable
    show (Fifo.put _ _).sent = (ps.take (Fifo.readIf _ _).past.length).map _
    rw [Fifo.sent_put] at henable ⊢
    cases hh : s.hdrDupToChecks.head with
    | none =>
      have hnone : hdrChecks enable full none = none := by cases full <;> rfl
      rw [hnone, Option.toList_none, List.append_nil, h.checks]
      rfl
    | some buf =>
      cases full with
      | true =>
        show s.checksToActions.sent ++ [] = _
        rw [List.append_nil, h.checks]
        rfl
      | false =>
        rw [hh] at henable
        obtain ⟨p, hp, rfl⟩ := exists_item
          ((s.hdrDupToChecks.past_snoc_prefix_sent hh).trans h.hdrDupToChecks_prefix)
        -- the flag written now stands at the same position
        have hlen : (s.checksToActions.sent.map (·.disabled)).length
            = s.hdrDupToChecks.past.length := by
          have hle := ((s.hdrDupToChecks.past_snoc_prefix_sent hh).trans
            h.hdrDupToChecks_prefix).length_le
          rw [List.length_map, h.checks, List.length_map, List.length_take]
          rw [List.length_append, List.length_map, List.length_singleton] at hle
          omega
        have hnext : s.checksToActions.sent.map (·.disabled) ++ [!enable]
            <+: ps.map (!·.enable) := by
          rw [List.map_append] at henable
          exact henable
        obtain ⟨p', hp', hen⟩ := exists_item hnext
        rw [hlen, hp] at hp'
        obtain rfl : p = p' := Option.some.inj hp'
        have hflag : enable = p.enable := by
          have hd : (!p.enable) = !enable := hen
          cases enable <;> cases hpe : p.enable <;> rw [hpe] at hd <;> first | rfl | cases hd
        show s.checksToActions.sent ++ [checkHeader enable p.frame.header]
          = (ps.take (s.hdrDupToChecks.readIf true).past.length).map _
        rw [s.hdrDupToChecks.past_readIf_true hh, List.length_append, List.length_singleton,
          take_succ_eq hp, List.map_append, ← h.checks, hflag]
        rfl

theorem pathInv_ftStep {s : State n} (result : FlowTableResult) (h : PathInv keepBytes ps s) :
    PathInv keepBytes ps (step keepBytes s (.ftStep result)) := by
  refine { h with dupFlowTable := ?_, lookups := ?_ }
  · exact (Fifo.sent_readIf _ _).trans h.dupFlowTable
  · show (Fifo.put _ _).sent.length = (Fifo.readIf _ _).past.length
    rw [Fifo.sent_put, List.length_append, h.lookups]
    cases hh : s.hdrDupToFlowTable.head with
    | none => rfl
    | some buf =>
      show _ = (s.hdrDupToFlowTable.readIf true).past.length
      rw [s.hdrDupToFlowTable.past_readIf_true hh, List.length_append]
      rfl

/-- A pair of checks and result that is not taken leaves everything as it is; one that is taken
belongs to the next passage. -/
theorem pathInv_checksToAction {s : State n} (rFull oFull : Bool) (hT : Traffic ps s)
    (h : PathInv keepBytes ps s) :
    PathInv keepBytes ps (step keepBytes s (.checksToAction rFull oFull)) := by
  have hstay : PathInv keepBytes ps { s with
      checksToActions := s.checksToActions.readIf false
      ftToAction := s.ftToAction.readIf false
      ftResults := s.ftResults.put none
      steerResults := s.steerResults.put none } :=
    { h with
      ftResults := (Fifo.sent_put _ _).trans ((List.append_nil _).trans h.ftResults)
      steerResults := (Fifo.sent_put _ _).trans ((List.append_nil _).trans h.steerResults) }
  cases hc : s.checksToActions.head with
  | none =>
    have hio : checksToAction rFull oFull s.checksToActions.head s.ftToAction.head
        = ⟨false, none, none⟩ := by rw [hc]; rfl
    rw [step, hio]
    exact hstay
  | some c =>
    cases hr : s.ftToAction.head with
    | none =>
      have hio : checksToAction rFull oFull s.checksToActions.head s.ftToAction.head
          = ⟨false, none, none⟩ := by rw [hc, hr]; rfl
      rw [step, hio]
      exact hstay
    | some r =>
      by_cases hfull : (rFull || oFull) = true
      · have hio : checksToAction rFull oFull s.checksToActions.head s.ftToAction.head
            = ⟨false, none, none⟩ := by rw [hc, hr, checksToAction, if_pos hfull]
        rw [step, hio]
        exact hstay
      · obtain ⟨p, hp, rfl⟩ := exists_item
          ((s.checksToActions.past_snoc_prefix_sent hc).trans h.checksToActions_prefix)
        obtain ⟨p', hp', rfl⟩ := exists_item
          ((s.ftToAction.past_snoc_prefix_sent hr).trans hT.results)
        rw [h.paired, hp'] at hp
        obtain rfl : p' = p := Option.some.inj hp
        have hio : checksToAction rFull oFull s.checksToActions.head s.ftToAction.head
            = ⟨true, some p'.decided, if p'.decided.v.action = .ikernel then some p'.decided
              else none⟩ := by
          rw [hc, hr, checksToAction, if_neg hfull]
          rfl
        rw [step, hio]
        have hpast : (s.ftToAction.readIf true).past.length = s.ftToAction.past.length + 1 := by
          rw [s.ftToAction.past_readIf_true hr, List.length_append, List.length_singleton]
        refine { h with
          checks := ?_, lookups := ?_, paired := ?_, ftResults := ?_, steerResults := ?_ }
        · exact (Fifo.sent_readIf _ _).trans h.checks
        · exact (congrArg _ (Fifo.sent_readIf _ _)).trans h.lookups
        · show (s.checksToActions.readIf true).past.length = (s.ftToAction.readIf true).past.length
          rw [hpast, s.checksToActions.past_readIf_true hc, List.length_append,
            List.length_singleton, h.paired]
        · show (s.ftResults.put _).sent = (ps.take (s.ftToAction.readIf true).past.length).map _
          rw [Fifo.sent_put, h.ftResults, hpast, take_succ_eq hp', List.map_append]
          rfl
        · show (s.steerResults.put _).sent
            = (passing (ps.take (s.ftToAction.readIf true).past.length)).map _
          rw [Fifo.sent_put, h.steerResults, hpast, take_succ_eq hp', passing, passing,
            List.filter_append, List.map_append]
          congr 1
          by_cases hpass : p'.decided.v.action = .ikernel
          · have hpass' : p'.pass = true := decide_eq_true hpass
            simp [hpass, hpass']
          · have hpass' : p'.pass = false := decide_eq_false hpass
            simp [hpass, hpass']

theorem pathInv_updateStatsActions {s : State n} (mFull pFull : Bool)
    (h : PathInv keepBytes ps s) :
    PathInv keepBytes ps (step keepBytes s (.updateStatsActions mFull pFull)) := by
  refine { h with ftResults := ?_, matched := ?_ }
  · exact (Fifo.sent_readIf _ _).trans h.ftResults
  · show (Fifo.put _ _).sent = (Fifo.readIf _ _).past.map _
    rw [Fifo.sent_put, h.matched]
    have hout : (updateStatsActions mFull pFull s.ftResults.head).map (·.1) = none ∨
        (updateStatsActions mFull pFull s.ftResults.head).map (·.1)
          = s.ftResults.head.map (fun r => decide (r.v.action = .ikernel)) := by
      unfold updateStatsActions
      split_ifs
      · exact .inl rfl
      · exact .inr (by rw [Option.map_map]; rfl)
    have hpast := s.ftResults.map_past_readIf hout
    rw [Option.isSome_map] at hpast
    exact hpast.symm

theorem pathInv_udpDropperStep {s : State n} (hFull dFull : Bool) (h : PathInv keepBytes ps s) :
    PathInv keepBytes ps (step keepBytes s (.udpDropperStep hFull dFull)) := by
  have hdropper := dropperInv_udpDropperStep hFull dFull h.matched_prefix h.hdrDupToDropper_prefix
    h.dataSplitToSteer_prefix h.dropper
  refine { h with split := ?_, dupDropper := ?_, matched := ?_, dropper := ?_ }
  · show SplitInv keepBytes ps _ _ _ _ (Fifo.readIf _ _).sent
    rw [Fifo.sent_readIf]
    exact h.split
  · exact (Fifo.sent_readIf _ _).trans h.dupDropper
  · exact (Fifo.sent_readIf _ _).trans h.matched
  · show DropperInv keepBytes ps _ _ _ _ (Fifo.put _ _).sent (Fifo.put _ _).sent
    rw [Fifo.sent_put, Fifo.sent_put]
    exact hdropper

theorem pathInv_hdrDup2 {s : State n} (full : Bool) (h : PathInv keepBytes ps s) :
    PathInv keepBytes ps (step keepBytes s (.hdrDup2 full)) := by
  have hpast := past_readIf_dup s.headerSteerToDup full
  refine { h with dropper := ?_, dupLength := ?_, dupCrossbar := ?_ }
  · show DropperInv keepBytes ps _ _ _ _ (Fifo.readIf _ _).sent _
    rw [Fifo.sent_readIf]
    exact h.dropper
  · show (Fifo.put _ _).sent = (Fifo.readIf _ _).past
    rw [Fifo.sent_put, h.dupLength, hpast]
  · show (Fifo.put _ _).sent = (Fifo.readIf _ _).past
    rw [Fifo.sent_put, h.dupCrossbar, hpast]

theorem pathInv_findLength {s : State n} (full : Bool) (h : PathInv keepBytes ps s) :
    PathInv keepBytes ps (step keepBytes s (.findLength full)) := by
  refine { h with dupLength := ?_, lengths := ?_ }
  · exact (Fifo.sent_readIf _ _).trans h.dupLength
  · show (Fifo.put _ _).sent = (Fifo.readIf _ _).past.map _
    have hout : findLength full s.headerDupToLength.head = none ∨
        findLength full s.headerDupToLength.head = s.headerDupToLength.head.map packetLength := by
      cases full with
      | true => exact .inl rfl
      | false => exact .inr rfl
    rw [Fifo.sent_put, h.lengths, s.headerDupToLength.map_past_readIf hout]

theorem pathInv_cutData {s : State n} (hfit : ∀ p ∈ passing ps, p.Counted keepBytes) (full : Bool)
    (h : PathInv keepBytes ps s) : PathInv keepBytes ps (step keepBytes s (.cutData full)) := by
  have hcut := cutInv_cutData hfit full h.packets_prefix h.dataSteerToLength_prefix h.cut
  refine { h with dropper := ?_, lengths := ?_, cut := ?_ }
  · show DropperInv keepBytes ps _ _ _ _ _ (Fifo.readIf _ _).sent
    rw [Fifo.sent_readIf]
    exact h.dropper
  · exact (Fifo.sent_readIf _ _).trans h.lengths
  · show CutInv keepBytes (passing ps) _ _ _ (Fifo.put _ _).sent
    rw [Fifo.sent_put]
    exact hcut

theorem pathInv_crossbar {s : State n} (hFull dFull : Bool) (buf : HeaderBuffer)
    (h : PathInv keepBytes ps s) :
    PathInv keepBytes ps (step keepBytes s (.crossbar hFull dFull buf)) := by
  refine { h with steerResults := ?_, dupCrossbar := ?_, cut := ?_ }
  · exact (Fifo.sent_readIf _ _).trans h.steerResults
  · exact (Fifo.sent_readIf _ _).trans h.dupCrossbar
  · show CutInv keepBytes (passing ps) _ _ _ (Fifo.readIf _ _).sent
    rw [Fifo.sent_readIf]
    exact h.cut

/-- Every step keeps the invariants up to the length adjustment. -/
theorem pathInv_step {s : State n} (hfit : ∀ p ∈ passing ps, p.Counted keepBytes) (a : Act n)
    (hT : Traffic ps s) (hT' : Traffic ps (step keepBytes s a)) (h : PathInv keepBytes ps s) :
    PathInv keepBytes ps (step keepBytes s a) := by
  cases a with
  | arrive count flit => exact { h with }
  | mlxMetadata mFull dFull => exact pathInv_mlxMetadata mFull dFull h
  | split hFull dFull => exact pathInv_split hFull dFull hT h
  | hdrDup3 full => exact pathInv_hdrDup3 full h
  | hdrChecks enable full => exact pathInv_hdrChecks enable full h hT'
  | ftStep result => exact pathInv_ftStep result h
  | checksToAction rFull oFull => exact pathInv_checksToAction rFull oFull hT h
  | updateStatsActions mFull pFull => exact pathInv_updateStatsActions mFull pFull h
  | udpDropperStep hFull dFull => exact pathInv_udpDropperStep hFull dFull h
  | hdrDup2 full => exact pathInv_hdrDup2 full h
  | findLength full => exact pathInv_findLength full h
  | cutData full => exact pathInv_cutData hfit full h
  | crossbar hFull dFull buf => exact pathInv_crossbar hFull dFull buf h
  | splitUdpHdrStream e full => exact { h with }

/-! ### Runs -/

theorem sent_prefix_put {α : Type} (f : Fifo α) (x : Option α) : f.sent <+: (f.put x).sent := by
  rw [Fifo.sent_put]
  exact List.prefix_append _ _

theorem sent_prefix_readIf {α : Type} (f : Fifo α) (b : Bool) : f.sent <+: (f.readIf b).sent := by
  rw [Fifo.sent_readIf]

/-- What came in before a step is a prefix of what came in after it. -/
theorem Traffic.of_step {s : State n} (a : Act n) (h : Traffic ps (step keepBytes s a)) :
    Traffic ps s := by
  have henum : s.enumOut.sent <+: (step keepBytes s a).enumOut.sent := by
    cases a with
    | arrive count flit =>
      show _ <+: (s.enumOut.write _).sent
      rw [Fifo.sent_write]
      exact List.prefix_append _ _
    | mlxMetadata mFull dFull => exact sent_prefix_readIf _ _
    | _ => exact List.prefix_rfl
  have hchecks : s.checksToActions.sent <+: (step keepBytes s a).checksToActions.sent := by
    cases a with
    | hdrChecks enable full => exact sent_prefix_put _ _
    | checksToAction rFull oFull => exact sent_prefix_readIf _ _
    | _ => exact List.prefix_rfl
  have hresults : s.ftToAction.sent <+: (step keepBytes s a).ftToAction.sent := by
    cases a with
    | ftStep result => exact sent_prefix_put _ _
    | checksToAction rFull oFull => exact sent_prefix_readIf _ _
    | _ => exact List.prefix_rfl
  exact ⟨(henum.map _).trans h.flits, (hchecks.map _).trans h.enable, hresults.trans h.results⟩

/-- An invariant that every step keeps on traffic made of `ps` holds after every run on it. -/
theorem run_traffic {P : State n → Prop}
    (hstep : ∀ s a, Traffic ps s → Traffic ps (step keepBytes s a) → P s → P (step keepBytes s a))
    (acts : List (Act n)) {s : State n} (hs : P s) (hT : Traffic ps (run (step keepBytes) s acts)) :
    P (run (step keepBytes) s acts) := by
  have hinv : Traffic ps (run (step keepBytes) s acts) → P (run (step keepBytes) s acts) := by
    apply run_invariant (P := fun s => Traffic ps s → P s)
    · intro s a ih h
      have hbefore := h.of_step a
      exact hstep s a hbefore h (ih hbefore)
    · intro _
      exact hs
  exact hinv hT

theorem pathInv_run (hfit : ∀ p ∈ passing ps, p.Counted keepBytes) (acts : List (Act n))
    (hT : Traffic ps (run (step keepBytes) State.init acts)) :
    PathInv keepBytes ps (run (step keepBytes) State.init acts) :=
  run_traffic (fun _ a hT hT' h => pathInv_step hfit a hT hT' h) acts (pathInv_init keepBytes ps) hT

/-! ### Delivery -/

/-- The passages that go to engine `e`. -/
def deliveredTo (e : Fin n) (ps : List Passage) : List Passage :=
  (passing ps).filter (·.goesTo e)

theorem flatMap_goesTo {α : Type} (f : Passage → List α) (e : Fin n) (ps : List Passage) :
    (passing ps).flatMap (fun q => if q.goesTo e then f q else []) = (deliveredTo e ps).flatMap f := by
  rw [deliveredTo]
  induction passing ps with
  | nil => rfl
  | cons q qs ih =>
    rw [List.flatMap_cons, ih]
    by_cases hq : q.goesTo e = true
    · simp [hq]
    · simp [hq]

/-- The invariants of the crossbar and of the units that make the metadata. -/
structure DeliveryInv (keepBytes : Nat → BitVec 32) (ps : List Passage) (s : State n) :
    Prop where
  crossbar : CrossbarInv keepBytes (passing ps) s.crossbar s.steerResults.past
    s.headerDupToCrossbar.past s.dataLengthToCrossbar.past (fun e => (s.hdrOut e).sent)
    (fun e => (s.ftResultsOut e).sent) s.dataOut
  paired : ∀ e, (s.hdrOut e).past.length = (s.ftResultsOut e).past.length
  metadata : ∀ e, s.metadataOut e
    = ((deliveredTo e ps).take (s.hdrOut e).past.length).map (·.metadata)

theorem deliveryInv_init (keepBytes : Nat → BitVec 32) (ps : List Passage) :
    DeliveryInv keepBytes ps (State.init : State n) where
  crossbar := {
    length_eq := rfl
    headers_eq := fun _ => rfl
    decisions_eq := fun _ => rfl
    owed := ⟨[], rfl, .zero _ _, fun e => by rw [ite_self]; exact .zero _ _⟩ }
  paired := fun _ => rfl
  metadata := fun _ => rfl

theorem deliveryInv_crossbar {s : State n} (hfit : ∀ q ∈ passing ps, q.Routed n keepBytes)
    (hFull dFull : Bool) (buf : HeaderBuffer) (hpath : PathInv keepBytes ps s)
    (h : DeliveryInv keepBytes ps s) :
    DeliveryInv keepBytes ps (step keepBytes s (.crossbar hFull dFull buf)) := by
  have hcross := crossbarInv_crossbar hfit hFull dFull buf hpath.steerResults_prefix
    hpath.headerDupToCrossbar_prefix hpath.dataLengthToCrossbar_prefix h.crossbar
  refine ⟨?_, ?_, ?_⟩
  · show CrossbarInv keepBytes (passing ps) _ _ _ _ (fun e => (putAt s.hdrOut _ e).sent)
      (fun e => (putAt s.ftResultsOut _ e).sent) (appendAt s.dataOut _)
    have hdata : ∀ o, appendAt s.dataOut o = fun e => s.dataOut e ++ sentTo e o :=
      fun o => funext (appendAt_eq s.dataOut o)
    simp only [sent_putAt]
    rw [hdata]
    exact hcross
  · intro e
    show (putAt s.hdrOut _ e).past.length = (putAt s.ftResultsOut _ e).past.length
    rw [past_putAt, past_putAt]
    exact h.paired e
  · intro e
    show s.metadataOut e = ((_ : List Passage).take (putAt s.hdrOut _ e).past.length).map _
    rw [past_putAt]
    exact h.metadata e

namespace DeliveryInv

variable {s : State n}

theorem hdrOut_prefix (h : DeliveryInv keepBytes ps s) (e : Fin n) :
    (s.hdrOut e).sent <+: (deliveredTo e ps).map (·.frame.header) := by
  rw [h.crossbar.headers_eq e]
  exact ((List.take_prefix _ _).filter _).map _

theorem ftResultsOut_prefix (h : DeliveryInv keepBytes ps s) (e : Fin n) :
    (s.ftResultsOut e).sent <+: (deliveredTo e ps).map (·.decided) := by
  rw [h.crossbar.decisions_eq e]
  exact ((List.take_prefix _ _).filter _).map _

theorem metadataOut_prefix (h : DeliveryInv keepBytes ps s) (e : Fin n) :
    s.metadataOut e <+: (deliveredTo e ps).map (·.metadata) := by
  rw [h.metadata e]
  exact map_take_isPrefix _ _ _

theorem dataOut_prefix (h : DeliveryInv keepBytes ps s) (e : Fin n) :
    s.dataOut e <+: (deliveredTo e ps).flatMap (·.cut keepBytes) := by
  obtain ⟨due, -, -, hdata⟩ := h.crossbar.owed
  rw [← flatMap_goesTo]
  exact (hdata e).done_prefix_pieces

end DeliveryInv

theorem deliveryInv_splitUdpHdrStream {s : State n} (e : Fin n) (full : Bool)
    (h : DeliveryInv keepBytes ps s) :
    DeliveryInv keepBytes ps (step keepBytes s (.splitUdpHdrStream e full)) := by
  have hsent : ∀ {α : Type} (f : Fin n → Fifo α) (b : Bool) (e' : Fin n),
      (Function.update f e ((f e).readIf b) e').sent = (f e').sent := by
    intro α f b e'
    by_cases he : e' = e
    · subst he
      rw [Function.update_self, Fifo.sent_readIf]
    · rw [Function.update_of_ne he]
  -- the other engines are not touched
  have hother : ∀ {α : Type} (f : Fin n → Fifo α) (b : Bool) (e' : Fin n), e' ≠ e →
      (Function.update f e ((f e).readIf b) e').past = (f e').past := by
    intro α f b e' he
    rw [Function.update_of_ne he]
  obtain ⟨m, hm⟩ : ∃ m, splitUdpHdrStream full (s.hdrOut e).head (s.ftResultsOut e).head = m :=
    ⟨_, rfl⟩
  have hself : ((s.hdrOut e).readIf m.isSome).past.length
        = ((s.ftResultsOut e).readIf m.isSome).past.length ∧
      s.metadataOut e ++ m.toList
        = ((deliveredTo e ps).take ((s.hdrOut e).readIf m.isSome).past.length).map
          (·.metadata) := by
    cases hh : (s.hdrOut e).head with
    | none =>
      rw [hh] at hm
      subst hm
      exact ⟨h.paired e, (List.append_nil _).trans (h.metadata e)⟩
    | some buf =>
      cases hr : (s.ftResultsOut e).head with
      | none =>
        rw [hh, hr] at hm
        subst hm
        exact ⟨h.paired e, (List.append_nil _).trans (h.metadata e)⟩
      | some r =>
        cases full with
        | true =>
          rw [hh, hr] at hm
          subst hm
          exact ⟨h.paired e, (List.append_nil _).trans (h.metadata e)⟩
        | false =>
          rw [hh, hr] at hm
          subst hm
          obtain ⟨q, hq, rfl⟩ := exists_item
            (((s.hdrOut e).past_snoc_prefix_sent hh).trans (h.hdrOut_prefix e))
          obtain ⟨q', hq', rfl⟩ := exists_item
            (((s.ftResultsOut e).past_snoc_prefix_sent hr).trans (h.ftResultsOut_prefix e))
          rw [← h.paired e, hq] at hq'
          obtain rfl : q = q' := Option.some.inj hq'
          show ((s.hdrOut e).readIf true).past.length = ((s.ftResultsOut e).readIf true).past.length
            ∧ s.metadataOut e ++ [q.metadata]
              = ((deliveredTo e ps).take ((s.hdrOut e).readIf true).past.length).map _
          rw [(s.hdrOut e).past_readIf_true hh, (s.ftResultsOut e).past_readIf_true hr,
            List.length_append, List.length_append, h.paired e]
          refine ⟨rfl, ?_⟩
          rw [h.metadata e, List.length_singleton, ← h.paired e, take_succ_eq hq, List.map_append]
          rfl
  set hdrOut := Function.update s.hdrOut e ((s.hdrOut e).readIf m.isSome) with hhdr
  set ftResultsOut := Function.update s.ftResultsOut e ((s.ftResultsOut e).readIf m.isSome) with hft
  have hstep : step keepBytes s (.splitUdpHdrStream e full)
      = { s with hdrOut, ftResultsOut, metadataOut := appendAt s.metadataOut (m.map (e, ·)) } := by
    rw [hhdr, hft, ← hm]
    rfl
  rw [hstep]
  refine ⟨?_, ?_, ?_⟩
  · show CrossbarInv keepBytes (passing ps) _ _ _ _ (fun e' => (hdrOut e').sent)
      (fun e' => (ftResultsOut e').sent) _
    simp only [hhdr, hft, hsent]
    exact h.crossbar
  · intro e'
    show (hdrOut e').past.length = (ftResultsOut e').past.length
    by_cases he : e' = e
    · subst he
      rw [hhdr, hft, Function.update_self, Function.update_self]
      exact hself.1
    · rw [hhdr, hft, hother _ _ e' he, hother _ _ e' he]
      exact h.paired e'
  · intro e'
    show appendAt s.metadataOut (m.map (e, ·)) e'
      = ((deliveredTo e' ps).take (hdrOut e').past.length).map _
    rw [appendAt_eq, hhdr]
    by_cases he : e' = e
    · subst he
      rw [Function.update_self, ← hself.2]
      cases m with
      | none => rfl
      | some m => simp [sentTo]
    · rw [hother _ _ e' he, h.metadata e']
      cases m with
      | none => exact List.append_nil _
      | some m => simp [sentTo, Ne.symm he]

/-- Every step keeps the invariants of the delivery. -/
theorem deliveryInv_step {s : State n} (hfit : ∀ q ∈ passing ps, q.Routed n keepBytes) (a : Act n)
    (hpath : PathInv keepBytes ps s) (h : DeliveryInv keepBytes ps s) :
    DeliveryInv keepBytes ps (step keepBytes s a) := by
  cases a with
  | crossbar hFull dFull buf => exact deliveryInv_crossbar hfit hFull dFull buf hpath h
  | splitUdpHdrStream e full => exact deliveryInv_splitUdpHdrStream e full h
  | _ => exact ⟨h.crossbar, h.paired, h.metadata⟩

/-- Both invariants hold after a run from a state in which they hold. -/
theorem invs_run (hcount : ∀ q ∈ passing ps, q.Counted keepBytes)
    (hroute : ∀ q ∈ passing ps, q.Routed n keepBytes) (acts : List (Act n)) {s : State n}
    (hpath : PathInv keepBytes ps s) (hinv : DeliveryInv keepBytes ps s)
    (hT : Traffic ps (run (step keepBytes) s acts)) :
    PathInv keepBytes ps (run (step keepBytes) s acts) ∧
      DeliveryInv keepBytes ps (run (step keepBytes) s acts) :=
  run_traffic (P := fun s => PathInv keepBytes ps s ∧ DeliveryInv keepBytes ps s)
    (fun _ a hT hT' h => ⟨pathInv_step hcount a hT hT' h.1, deliveryInv_step hroute a h.1 h.2⟩)
    acts ⟨hpath, hinv⟩ hT

end Nica.Hls.Udp
