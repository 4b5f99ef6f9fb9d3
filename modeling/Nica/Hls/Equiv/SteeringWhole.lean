import Nica.Hls.Equiv.SteeringPartition

/-!
# The receive path behind the steering

`Alone` leaves out what lies behind the dropper of the receive path, for its invariants need packets whose lengths
agree.  For such packets `Whole` takes the whole receive path: `t` is a run of it that takes a header and its answer
through the flow table in one step, and otherwise does what the steering does (`Mirrors`).  So the metadata and the data
that are handed to the ikernels are those of the frames (`Whole.metadata_prefix`, `Whole.data_prefix`), and all of them
once nothing can move (`AtRest.delivered`).
-/

namespace Nica.Hls.Udp

open Nica.Lib

variable {n : ℕ} {keepBytes : ℕ → BitVec 32}

/-- `t` is `u`, apart from how far the lookups are. -/
structure Mirrors (u t : State n) : Prop where
  eq : t = { u with hdrDupToFlowTable := t.hdrDupToFlowTable }
  sent : t.hdrDupToFlowTable.sent = u.hdrDupToFlowTable.sent

namespace Mirrors

variable {u t : State n}

theorem refl (u : State n) : Mirrors u u := ⟨rfl, rfl⟩

theorem follows (h : Mirrors u t) : Follows u t := by
  obtain ⟨heq, hsent⟩ := h
  refine ⟨?_, hsent, ?_, ?_, ?_⟩
  all_goals rw [heq]
  rfl

theorem step_with (keepBytes : ℕ → BitVec 32) (u : State n) (f : Fifo HeaderBuffer) {a : Act n} (ha : ∀ full, a ≠ .hdrDup3 full)
    (hft : ∀ r, a ≠ .ftStep r) :
    step keepBytes { u with hdrDupToFlowTable := f } a = { step keepBytes u a with hdrDupToFlowTable := f } ∧
      (step keepBytes u a).hdrDupToFlowTable = u.hdrDupToFlowTable := by
  cases a with
  | hdrDup3 full => exact absurd rfl (ha full)
  | ftStep r => exact absurd rfl (hft r)
  | _ => exact ⟨rfl, rfl⟩

/-- Every other call does the same in both. -/
theorem call (h : Mirrors u t) {a : Act n} (hft : ∀ r, a ≠ .ftStep r) :
    Mirrors (step keepBytes u a) (step keepBytes t a) := by
  obtain ⟨heq, hsent⟩ := h
  by_cases ha : ∃ full, a = .hdrDup3 full
  · obtain ⟨full, rfl⟩ := ha
    rw [heq]
    exact ⟨rfl, sent_put_congr hsent _⟩
  · have hdup : ∀ full, a ≠ .hdrDup3 full := fun full hfull => ha ⟨full, hfull⟩
    obtain ⟨hstep, hsame⟩ := step_with keepBytes u t.hdrDupToFlowTable hdup hft
    rw [heq, hstep]
    exact ⟨rfl, hsent.trans (congrArg Fifo.sent hsame.symm)⟩

theorem lookup (h : Mirrors u t) (b : Bool) :
    Mirrors { u with hdrDupToFlowTable := u.hdrDupToFlowTable.readIf b } t :=
  ⟨h.eq, h.sent.trans (Fifo.sent_readIf _ _).symm⟩

theorem answer (h : Mirrors u t) {buf : HeaderBuffer} (hbuf : t.hdrDupToFlowTable.head = some buf)
    (r : FlowTableResult) :
    Mirrors { u with ftToAction := u.ftToAction.put (some r) } (step keepBytes t (.ftStep r)) := by
  have hanswer : step keepBytes t (.ftStep r) =
      { t with
        hdrDupToFlowTable := t.hdrDupToFlowTable.readIf true
        ftToAction := t.ftToAction.put (some r) } := by
    simp only [step, hbuf, Option.isSome_some, Option.map_some]
  rw [hanswer]
  refine ⟨?_, (Fifo.sent_readIf _ _).trans h.sent⟩
  rw [h.eq]

end Mirrors

end Nica.Hls.Udp

namespace Nica.Hls.Steering

open Nica.Lib

variable {n k : ℕ} {E : EnumFirst} {first : E.Reg → Prop} {N : Arbiter.Ntl (k + 1)} {M : Merger AxiData}
  {keepBytes : ℕ → BitVec 32} {table : FlowTable.Table} {sched : N.Sched} {s : State n k E N M} {xs : List Arrival}

/-! ### The whole receive path -/

/-- The receive path mirrors a run of its own, with its invariants. -/
def Whole (keepBytes : ℕ → BitVec 32) (table : FlowTable.Table) (xs : List Arrival) (s : State n k E N M) : Prop :=
  ∃ t, Udp.Mirrors s.udp t ∧ Udp.PathInv keepBytes (passages table xs) t ∧
    Udp.DeliveryInv keepBytes (passages table xs) t

/-- What the receive path relies on: the frames for the ikernels have lengths that agree, and an engine. -/
structure Fits (n : ℕ) (keepBytes : ℕ → BitVec 32) (table : FlowTable.Table) (xs : List Arrival) : Prop where
  counted : ∀ p ∈ Udp.passing (passages table xs), p.Counted keepBytes
  routed : ∀ p ∈ Udp.passing (passages table xs), p.Routed n keepBytes

section Steps

variable {s' : State n k E N M}

theorem Traffic.of_mirrors {u t : Udp.State n} (ht : Udp.Mirrors u t) {ps : List Udp.Passage} (h : Udp.Traffic ps u) :
    Udp.Traffic ps t := by
  refine h.congr ?_ ?_ ?_
  all_goals rw [ht.eq]

/-- A call of the receive path that its own run makes too. -/
theorem whole_call (hfits : Fits n keepBytes table xs) {a : Udp.Act n} (hft : ∀ r, a ≠ .ftStep r)
    (hstep : s'.udp = Udp.step keepBytes s.udp a) (hT : Udp.Traffic (passages table xs) s.udp)
    (hT' : Udp.Traffic (passages table xs) s'.udp) (h : Whole keepBytes table xs s) : Whole keepBytes table xs s' := by
  obtain ⟨t, ht, hpath, hdelivery⟩ := h
  have hnext : Udp.Mirrors s'.udp (Udp.step keepBytes t a) := by
    rw [hstep]
    exact ht.call hft
  have hpath' := Udp.pathInv_step hfits.counted a (Traffic.of_mirrors ht hT) (Traffic.of_mirrors hnext hT') hpath
  exact ⟨_, hnext, hpath', Udp.deliveryInv_step hfits.routed a hpath hdelivery⟩

/-- A call of the flow table: a header is read, and an answer is written. -/
theorem whole_ftWrapper (hfits : Fits n keepBytes table xs) (hchain : Chain first keepBytes table sched s)
    (lFull rFull : Bool) (hT : Udp.Traffic (passages table xs) s.udp)
    (hT' : Udp.Traffic (passages table xs) (step keepBytes table s (.ftWrapper lFull rFull)).udp)
    (h : Whole keepBytes table xs s) : Whole keepBytes table xs (step keepBytes table s (.ftWrapper lFull rFull)) := by
  obtain ⟨t, ht, hpath, hdelivery⟩ := h
  cases hr : dup rFull s.results.head with
  | none =>
    refine ⟨t, ?_, hpath, hdelivery⟩
    rw [udp_ftWrapper, hr, Option.map_none, Fifo.put_none]
    exact ht.lookup _
  | some r =>
    obtain ⟨buf, hbuf⟩ := exists_answered_header hchain ht.follows hpath (head_of_dup hr)
    have hnext : Udp.Mirrors (step keepBytes table s (.ftWrapper lFull rFull)).udp
        (Udp.step keepBytes t (.ftStep (FlowTable.resultOf r))) := by
      rw [udp_ftWrapper, hr, Option.map_some]
      exact (ht.lookup _).answer hbuf _
    have hpath' := Udp.pathInv_step hfits.counted _ (Traffic.of_mirrors ht hT) (Traffic.of_mirrors hnext hT') hpath
    exact ⟨_, hnext, hpath', Udp.deliveryInv_step hfits.routed _ hpath hdelivery⟩

theorem whole_step (hfits : Fits n keepBytes table xs) (hchain : Chain first keepBytes table sched s) (a : Act n k)
    (hT : Udp.Traffic (passages table xs) s.udp) (hT' : Udp.Traffic (passages table xs) (step keepBytes table s a).udp)
    (h : Whole keepBytes table xs s) : Whole keepBytes table xs (step keepBytes table s a) := by
  cases a with
  | arrive w => exact h
  | rawDup2 full => exact h
  | enumFirst full =>
    cases hw : dup full s.rawInToUdp.head with
    | none =>
      have hsame : step keepBytes table s (.enumFirst full) = s := by simp only [step, hw]
      rw [hsame]
      exact h
    | some w =>
      have hstep : (step keepBytes table s (.enumFirst full)).udp =
          Udp.step keepBytes s.udp (.arrive (E.call s.enumFirst w).1 w) := by simp only [step, hw]
      exact whole_call hfits (fun r hr => by cases hr) hstep hT hT' h
  | ftWrapper lFull rFull => exact whole_ftWrapper hfits hchain lFull rFull hT hT' h
  | hashTable full => exact h
  | updateStatsActions mFull pFull =>
    exact whole_call (a := .updateStatsActions mFull pFull) hfits (fun r hr => by cases hr) rfl hT hT' h
  | udp a =>
    by_cases hothers : ofOthers a = true
    · have hsame : step keepBytes table s (.udp a) = s := by simp only [step, hothers, if_true]
      rw [hsame]
      exact h
    · have hstep : (step keepBytes table s (.udp a)).udp = Udp.step keepBytes s.udp a := by
        simp only [step, hothers]
        rfl
      refine whole_call hfits ?_ hstep hT hT' h
      rintro r rfl
      exact hothers rfl
  | wrapper a =>
    have hsame : (step keepBytes table s (.wrapper a)).udp = s.udp := by
      simp only [step]
      split_ifs <;> rfl
    obtain ⟨t, ht, hinvs⟩ := h
    exact ⟨t, by rw [hsame]; exact ht, hinvs⟩

end Steps

/-- The receive path gets the frames. -/
theorem traffic_udp (hin : Input xs s) (hchain : Chain first keepBytes table sched s)
    (halone : Alone keepBytes table xs s) : Udp.Traffic (passages table xs) s.udp :=
  traffic_of_follows hin hchain (s.udp.hdrDupToFlowTable.past_prefix_sent.trans halone.headers_prefix)
    (Udp.Mirrors.refl _).follows

theorem whole_of_run (hE : E.Marks first) (hfits : Fits n keepBytes table xs) (acts : List (Act n k))
    (hin : Input xs (run (step keepBytes table) (State.init n E M sched) acts)) :
    Chain first keepBytes table sched (run (step keepBytes table) (State.init n E M sched) acts) ∧
      Alone keepBytes table xs (run (step keepBytes table) (State.init n E M sched) acts) ∧
      Whole keepBytes table xs (run (step keepBytes table) (State.init n E M sched) acts) := by
  revert hin
  apply run_invariant (P := fun s : State n k E N M => Input xs s →
    Chain first keepBytes table sched s ∧ Alone keepBytes table xs s ∧ Whole keepBytes table xs s)
  · intro s a ih hin'
    have hin := input_of_step hin'
    obtain ⟨hchain, halone, hwhole⟩ := ih hin
    have hchain' := chain_step hE hchain a
    have halone' := alone_step hchain hchain' hin hin' halone
    exact ⟨hchain', halone',
      whole_step hfits hchain a (traffic_udp hin hchain halone) (traffic_udp hin' hchain' halone') hwhole⟩
  · intro _
    exact ⟨chain_init hE, ⟨_, Udp.follows_init, Udp.pathInv_init _ _⟩,
      ⟨_, .refl _, Udp.pathInv_init _ _, Udp.deliveryInv_init _ _⟩⟩

/-! ### What the ikernels get -/

theorem Whole.metadata_prefix (h : Whole keepBytes table xs s) (e : Fin n) :
    s.udp.metadataOut e <+: (Udp.deliveredTo e (passages table xs)).map (·.metadata) := by
  obtain ⟨t, ht, -, hdelivery⟩ := h
  have hpre := hdelivery.metadataOut_prefix e
  rwa [ht.eq] at hpre

theorem Whole.data_prefix (h : Whole keepBytes table xs s) (e : Fin n) :
    s.udp.dataOut e <+: (Udp.deliveredTo e (passages table xs)).flatMap (·.cut keepBytes) := by
  obtain ⟨t, ht, -, hdelivery⟩ := h
  have hpre := hdelivery.dataOut_prefix e
  rwa [ht.eq] at hpre

/-- Everything has arrived, and no unit up to the ikernels and the wrapper can move. -/
structure AtRest (xs : List Arrival) (s : State n k E N M) : Prop where
  steering : Done xs s
  hdrDup2 : s.udp.headerSteerToDup.head = none
  findLength : s.udp.headerDupToLength.head = none
  cutData : (s.udp.cut.state = .idle ∧ s.udp.packets.head = none) ∨
    (s.udp.cut.state ≠ .idle ∧ s.udp.cut.dataBuf = none ∧ s.udp.dataSteerToLength.head = none)
  delivery : Udp.DeliveryStuck s.udp

/-- Then the ikernels have got everything. -/
theorem AtRest.delivered (hrest : AtRest xs s) (hchain : Chain first keepBytes table sched s)
    (hwhole : Whole keepBytes table xs s) (e : Fin n) : Udp.Delivered keepBytes (passages table xs) s.udp e := by
  obtain ⟨t, ht, hpath, hdelivery⟩ := hwhole
  have hdone := hrest.steering
  have hanswered :=
    all_answered hchain ht.follows hpath hdone.steering.ftStep hdone.hashTable hdone.ftWrapper
  have hsteering := (ht.follows.steeringStuck_iff hdone.steering.ftStep hanswered).mpr hdone.steering
  have hport : s.port.past = xs.flatMap Arrival.wire := by
    rw [s.port.past_eq_sent hdone.rawDup2, hdone.arrived]
  have harrived : Udp.Arrived (passages table xs) t := by
    rw [Udp.Arrived, ht.eq]
    show s.udp.enumOut.sent.map _ = _
    rw [hchain.marked, s.rawInToUdp.past_eq_sent hdone.enumFirst, hchain.toUdp, hport, markFrom_flatMap, passages,
      List.flatMap_map]
    rfl
  have hstuck : Udp.Stuck t := by
    obtain ⟨h₁, h₂, h₃, h₄, h₅, h₆, h₇, h₈⟩ := hsteering
    refine ⟨h₁, h₂, h₃, h₄, h₅, h₆, h₇, h₈, ?_, ?_, ?_⟩
    all_goals rw [ht.eq]
    · exact hrest.hdrDup2
    · exact hrest.findLength
    · exact hrest.cutData
  have hlast : Udp.DeliveryStuck t := by
    rw [ht.eq]
    exact ⟨hrest.delivery.crossbar, hrest.delivery.metadata⟩
  have hall := hlast.delivered hdelivery (hstuck.extracted hpath harrived) e
  rwa [ht.eq] at hall

end Nica.Hls.Steering
