import Nica.Verilog.DdrAddressMapping
import Nica.Lib.Elastic
import Mathlib.Tactic.ByContra
import Mathlib.Tactic.NormNum

/-!
# What the DDR address mapping unit computes

A monitor (`Monitor`, `watch`) records, beside the registers, the requests accepted on the `ik2map`
side, the requests handed to the DDR, and for each request that moves from stage 2 to stage 3 the
id that was on the `ik2map` lines two clocks earlier, which is the entry the block RAM returns in
that clock.  `PipelineInv` relates the four stages to these records, and from it

* `PipelineInv.delivered_eq_zipWith`: the `k`-th request handed to the DDR is the `k`-th accepted request
  mapped through the `k`-th looked-up entry, whatever the stalls;
* `PipelineInv.faithful_iff`: it is therefore mapped through its own entry exactly when the
  looked-up entry agrees with its own one in the 19 bits the adder uses;
* `faithful_of_no_stall`: the two are the same id as long as no stall reaches stage 2.

The RAM is never stalled, so a request that waits in stage 1 or 2 meets the entry of whatever was
on the lines later (`not_faithful_under_stall`).
-/

namespace Nica.Verilog.DdrAddressMapping

open Nica.Lib

/-! ### The monitor -/

/-- The mapping of a request through the table entry `e`. -/
def translateWith (table : BitVec 10 → BitVec 32) (r : Request) (e : BitVec 10) : Mapped :=
  ⟨0#1 ++ (r.addr.extractLsb' 12 19 + (table e).extractLsb' 0 19) ++ r.addr.extractLsb' 0 12, r.axi⟩

/-- The mapping of a request through the entry of its own id. -/
def translate (table : BitVec 10 → BitVec 32) (r : Request) : Mapped :=
  translateWith table r r.ikernelId

/-- The unit with the record of a run. `idLine1` and `idLine2` are the ids on port B of the table
one and two clocks earlier. -/
structure Monitor where
  state : State
  accepted : List Request
  delivered : List Mapped
  lookups : List (BitVec 10)
  idLine1 : BitVec 10
  idLine2 : BitVec 10

/-- The monitor before the first clock. -/
def Monitor.start (s : State) : Monitor :=
  ⟨s, [], [], [], 0, 0⟩

/-- One clock of the monitored unit. -/
def watch (rdwrMode : Bool) (m : Monitor) (i : Inputs) : Monitor where
  state := clock rdwrMode m.state i
  accepted := m.accepted ++ slot (m.state.stage1Enable i) i.ik2map
  delivered := m.delivered ++ slot (m.state.stage4Vld && i.map2ddrRdy) m.state.stage4
  lookups := m.lookups ++ slot (m.state.stage3Enable i) m.idLine2
  idLine1 := m.state.mapAddr i rdwrMode
  idLine2 := m.idLine1

/-- A condition on the registers along a run holds along the monitored run. -/
theorem along_watch {rdwrMode : Bool} {C : State → Inputs → Prop} :
    ∀ (ins : List Inputs) (m : Monitor), Along (clock rdwrMode) C m.state ins →
      Along (watch rdwrMode) (fun m i => C m.state i) m ins
  | [], _, _ => trivial
  | i :: ins, m, h => ⟨h.1, along_watch ins (watch rdwrMode m i) h.2⟩

/-- The unit is out of reset, the table is not being written and the test mode is off. -/
def Quiet (rdwrMode : Bool) (s : State) (i : Inputs) : Prop :=
  i.reset = false ∧ s.ddrAdrsTableWr = false ∧
    s.ddrAdrsMapCtrl.getLsbD (if rdwrMode then 16 else 0) = false

instance (rdwrMode : Bool) (s : State) (i : Inputs) : Decidable (Quiet rdwrMode s i) :=
  inferInstanceAs (Decidable (_ ∧ _ ∧ _))

/-- The number of requests in the pipeline. -/
def State.occupancy (s : State) : Nat :=
  s.stage1Vld.toNat + s.stage2Vld.toNat + s.stage3Vld.toNat + s.stage4Vld.toNat

/-- The record says what the unit is for: every accepted request is in the pipeline or was handed
to the DDR, once, in order, mapped through the entry of its own id with its own AXI4 fields. -/
def Faithful (table : BitVec 10 → BitVec 32) (m : Monitor) : Prop :=
  m.accepted.length = m.delivered.length + m.state.occupancy ∧
    m.delivered = (m.accepted.take m.delivered.length).map (translate table)

/-! ### One clock in quiet operation -/

theorem mapAddr_of_quiet {rdwrMode : Bool} {s : State} {i : Inputs} (h : Quiet rdwrMode s i) :
    s.mapAddr i rdwrMode = i.ik2map.ikernelId := by
  obtain ⟨-, -, hctrl⟩ := h
  have hw : (i.ik2map.ikernelId.setWidth 32).setWidth 10 = i.ik2map.ikernelId := by
    rw [BitVec.setWidth_setWidth_of_le _ (by norm_num), BitVec.setWidth_eq]
  cases rdwrMode with
  | false =>
    rw [if_neg (by decide)] at hctrl
    simp only [State.mapAddr, State.mapWraddr, hctrl, Bool.not_false, Bool.false_eq_true,
      ↓reduceIte, hw]
  | true =>
    rw [if_pos rfl] at hctrl
    simp only [State.mapAddr, State.mapRdaddr, hctrl, Bool.not_true, Bool.false_eq_true,
      ↓reduceIte, hw]

/-- The part of a request that the first two stages keep. -/
def strip (r : Request) : Mapped :=
  ⟨(r.addr.extractLsb' 0 31).setWidth 32, r.axi⟩

theorem extractLsb'_strip (a : BitVec 64) (k n : Nat) (h : k + n ≤ 31) :
    ((a.extractLsb' 0 31).setWidth 32).extractLsb' k n = a.extractLsb' k n := by
  apply BitVec.eq_of_getLsbD_eq
  intro j hj
  have hkj : k + j < 31 := by omega
  simp only [BitVec.getLsbD_extractLsb', BitVec.getLsbD_setWidth, hj, hkj, decide_true,
    Bool.true_and, Nat.zero_add]
  rw [decide_eq_true (by omega), Bool.true_and]

/-- Passing a stripped request to the next stage does not change it. -/
theorem strip_next (r : Request) :
    (⟨((strip r).addr.extractLsb' 0 31).setWidth 32, (strip r).axi⟩ : Mapped) = strip r := by
  rw [strip, extractLsb'_strip r.addr 0 31 le_rfl]

theorem mapPage_strip (r : Request) (table : BitVec 10 → BitVec 32) (e : BitVec 10) :
    (⟨mapPage (strip r).addr (table e), (strip r).axi⟩ : Mapped) = translateWith table r e := by
  rw [mapPage, strip, extractLsb'_strip r.addr 12 19 le_rfl,
    extractLsb'_strip r.addr 0 12 (by omega), translateWith]

/-- The mapping of a request depends on the 19 low bits of the entry, and on all of them. -/
theorem translateWith_inj (table : BitVec 10 → BitVec 32) (r : Request) (e e' : BitVec 10) :
    translateWith table r e = translateWith table r e' ↔
      (table e).extractLsb' 0 19 = (table e').extractLsb' 0 19 := by
  rw [translateWith, translateWith, Mapped.mk.injEq]
  constructor
  · rintro ⟨h, -⟩
    exact (BitVec.add_right_inj _).mp ((BitVec.append_right_inj _).mp ((BitVec.append_left_inj _).mp h))
  · intro h
    exact ⟨by rw [h], rfl⟩

/-! ### The invariant of the pipeline -/

/-- The records and the stages of a monitored run over the table `table`: the requests still in
stages 1 and 2 are the last accepted ones, the earlier ones were looked up, and each of these is
mapped through its lookup, in stage 3, in stage 4 or handed to the DDR. -/
structure PipelineInv (table : BitVec 10 → BitVec 32) (m : Monitor) : Prop where
  table_eq : m.state.table = table
  ramReg_eq : m.state.stage1Vld || m.state.stage2Vld → m.state.ramReg = table m.idLine1
  mapOut_eq : m.state.stage2Vld → m.state.mapOut = table m.idLine2
  pending : ∃ looked r1 r2, m.accepted = looked ++ slot m.state.stage2Vld r2
      ++ slot m.state.stage1Vld r1 ∧
    (m.state.stage1Vld → m.state.stage1 = strip r1) ∧
    (m.state.stage2Vld → m.state.stage2 = strip r2) ∧
    looked.length = m.lookups.length ∧
    List.zipWith (translateWith table) looked m.lookups = m.delivered
      ++ slot m.state.stage4Vld m.state.stage4
      ++ slot m.state.stage3Vld ⟨mapPage m.state.stage3.addr m.state.stage3Map, m.state.stage3.axi⟩

theorem vld_of_occupancy_eq_zero {s : State} (h : s.occupancy = 0) :
    s.stage1Vld = false ∧ s.stage2Vld = false ∧ s.stage3Vld = false ∧ s.stage4Vld = false := by
  unfold State.occupancy at h
  refine ⟨?_, ?_, ?_, ?_⟩ <;> rw [← Bool.toNat_eq_zero] <;> omega

theorem pipelineInv_start (s : State) (h : s.occupancy = 0) :
    PipelineInv s.table (Monitor.start s) := by
  obtain ⟨h1, h2, h3, h4⟩ := vld_of_occupancy_eq_zero h
  let r : Request := ⟨0, 0, 0, 0, 0, 0, 0, 0, 0, 0⟩
  refine ⟨rfl, ?_, ?_, [], r, r, ?_⟩ <;> simp [Monitor.start, h1, h2, h3, h4]

/-- The registers of the pipeline and of the table after a clock out of reset. -/
theorem clock_pipeline {s : State} {i : Inputs} (rdwrMode : Bool) (hr : i.reset = false)
    (hwr : s.ddrAdrsTableWr = false) :
    let s' := clock rdwrMode s i
    s'.table = s.table ∧ s'.ramReg = s.table (s.mapAddr i rdwrMode) ∧ s'.mapOut = s.ramReg ∧
    s'.stage1 = (if s.stage1Enable i then strip i.ik2map else s.stage1) ∧
    s'.stage1Vld = (s.stage1Enable i || (s.stage1Vld && !s.stage2Rdy i)) ∧
    s'.stage2 = (if s.stage2Enable i
      then ⟨(s.stage1.addr.extractLsb' 0 31).setWidth 32, s.stage1.axi⟩ else s.stage2) ∧
    s'.stage2Vld = (s.stage2Enable i || (s.stage2Vld && !s.stage3Rdy i)) ∧
    s'.stage3 = (if s.stage3Enable i
      then ⟨(s.stage2.addr.extractLsb' 0 31).setWidth 32, s.stage2.axi⟩ else s.stage3) ∧
    s'.stage3Map = (if s.stage3Enable i then s.mapOut else s.stage3Map) ∧
    s'.stage3Vld = (s.stage3Enable i || (s.stage3Vld && !s.stage4Rdy i)) ∧
    s'.stage4 = (if s.stage4Enable i
      then ⟨mapPage s.stage3.addr s.stage3Map, s.stage3.axi⟩ else s.stage4) ∧
    s'.stage4Vld = (s.stage4Enable i || (s.stage4Vld && !i.map2ddrRdy)) := by
  simp only [clock, ramEdge, axiLiteEdge, pipelineEdge, hr, hwr, strip, Bool.false_eq_true,
    ↓reduceIte, and_self]

/-- The enable of a stage is raised only when the stage can take a request. -/
theorem enable_imp_rdy (s : State) (i : Inputs) :
    (s.stage1Enable i = true → s.stage1Rdy i = true) ∧
    (s.stage2Enable i = true → s.stage2Rdy i = true) ∧
    (s.stage3Enable i = true → s.stage3Rdy i = true) ∧
    (s.stage4Enable i = true → s.stage4Rdy i = true) := by
  simp only [State.stage1Enable, State.stage2Enable, State.stage3Enable, State.stage4Enable,
    State.ik2mapRdy, Bool.and_eq_true]
  exact ⟨And.right, And.right, And.right, And.right⟩

/-- **One clock preserves the pipeline invariant**, whatever the stall. -/
theorem pipelineInv_watch {rdwrMode : Bool} {table : BitVec 10 → BitVec 32} {m : Monitor}
    {i : Inputs} (hq : Quiet rdwrMode m.state i) (h : PipelineInv table m) :
    PipelineInv table (watch rdwrMode m i) := by
  obtain ⟨hreset, hwr, -⟩ := hq
  obtain ⟨htable, hram, hout, looked, r1, r2, hacc, h1, h2, hlen, hzip⟩ := h
  obtain ⟨e1, e2, e3, e4⟩ := enable_imp_rdy m.state i
  obtain ⟨ct, cr, co, c1, v1, c2, v2, c3, cm, v3, c4, v4⟩ :=
    clock_pipeline rdwrMode (s := m.state) (i := i) hreset hwr
  -- the request that enters stage 2, and the one that enters stage 3 with its looked-up entry
  have hin2 : m.state.stage2Enable i = true →
      (⟨(m.state.stage1.addr.extractLsb' 0 31).setWidth 32, m.state.stage1.axi⟩ : Mapped)
        = strip r1 := by
    intro he
    rw [h1 (Bool.and_eq_true_iff.mp he).1, strip_next]
  have hin3 : m.state.stage3Enable i = true →
      (⟨(m.state.stage2.addr.extractLsb' 0 31).setWidth 32, m.state.stage2.axi⟩ : Mapped)
        = strip r2 ∧ m.state.mapOut = table m.idLine2 := by
    intro he
    have hv := (Bool.and_eq_true_iff.mp he).1
    exact ⟨by rw [h2 hv, strip_next], hout hv⟩
  refine ⟨ct.trans htable, fun _ => by rw [← htable]; exact cr, ?_,
    looked ++ slot (m.state.stage3Enable i) r2,
    (if m.state.stage1Enable i then i.ik2map else r1),
    (if m.state.stage2Enable i then r1 else r2), ?_, ?_, ?_, ?_, ?_⟩
  · intro hv
    refine co.trans (hram ?_)
    change (clock rdwrMode m.state i).stage2Vld = true at hv
    rw [v2, State.stage2Enable] at hv
    revert hv
    cases m.state.stage1Vld <;> cases m.state.stage2Vld <;> simp
  · change m.accepted ++ slot _ _ = _ ++ slot (clock rdwrMode m.state i).stage2Vld _
      ++ slot (clock rdwrMode m.state i).stage1Vld _
    rw [hacc, v1, v2, List.append_assoc, slot_transfer (fun h => e1 h), ← List.append_assoc]
    change looked ++ _ ++ slot (m.state.stage2Enable i) r1 ++ _ = _
    rw [List.append_assoc looked, slot_transfer (fun h => e2 h), ← List.append_assoc]
    rfl
  · intro hv
    change (clock rdwrMode m.state i).stage1Vld = true at hv
    change (clock rdwrMode m.state i).stage1 = _
    rw [v1] at hv
    rw [c1]
    split_ifs with he
    · rfl
    · rw [Bool.not_eq_true] at he
      rw [he, Bool.false_or, Bool.and_eq_true] at hv
      exact h1 hv.1
  · intro hv
    change (clock rdwrMode m.state i).stage2Vld = true at hv
    change (clock rdwrMode m.state i).stage2 = _
    rw [v2] at hv
    rw [c2]
    split_ifs with he
    · exact hin2 he
    · rw [Bool.not_eq_true] at he
      rw [he, Bool.false_or, Bool.and_eq_true] at hv
      exact h2 hv.1
  · change _ = (m.lookups ++ _).length
    rw [List.length_append, List.length_append, length_slot, length_slot, hlen]
  · change List.zipWith _ _ (m.lookups ++ slot _ _) = m.delivered ++ slot _ _ ++
      slot (clock rdwrMode m.state i).stage4Vld _ ++ slot (clock rdwrMode m.state i).stage3Vld _
    change _ = _ ++ slot _ (clock rdwrMode m.state i).stage4 ++ slot _
      ⟨mapPage (clock rdwrMode m.state i).stage3.addr (clock rdwrMode m.state i).stage3Map,
        (clock rdwrMode m.state i).stage3.axi⟩
    have hx3 : (⟨mapPage (clock rdwrMode m.state i).stage3.addr
        (clock rdwrMode m.state i).stage3Map, (clock rdwrMode m.state i).stage3.axi⟩ : Mapped)
        = if m.state.stage3Enable i then translateWith table r2 m.idLine2
          else ⟨mapPage m.state.stage3.addr m.state.stage3Map, m.state.stage3.axi⟩ := by
      rw [c3, cm]
      split_ifs with he
      · rw [(hin3 he).1, (hin3 he).2, mapPage_strip]
      · rfl
    rw [zipWith_append_slot _ hlen, hzip, hx3, c4, v3, v4, List.append_assoc,
      slot_transfer (fun h => e3 h), ← List.append_assoc]
    change m.delivered ++ _ ++ slot (m.state.stage4Enable i) _ ++ _ = _
    rw [List.append_assoc m.delivered, slot_transfer (fun h => e4 h), ← List.append_assoc]

/-! ### Whole runs -/

theorem pipelineInv_run {rdwrMode : Bool} {s : State} (h : s.occupancy = 0) {ins : List Inputs}
    (hq : Along (clock rdwrMode) (Quiet rdwrMode) s ins) :
    PipelineInv s.table (run (watch rdwrMode) (Monitor.start s) ins) :=
  run_induction (C := fun m i => Quiet rdwrMode m.state i)
    (fun _ _ hq hm => pipelineInv_watch hq hm) ins _ (along_watch ins (Monitor.start s) hq)
    (pipelineInv_start s h)

/-- Nothing is lost or duplicated: what was accepted was handed on or is in the pipeline. -/
theorem PipelineInv.length_accepted {table : BitVec 10 → BitVec 32} {m : Monitor}
    (h : PipelineInv table m) :
    m.accepted.length = m.delivered.length + m.state.occupancy := by
  obtain ⟨looked, r1, r2, hacc, -, -, hlen, hzip⟩ := h.pending
  have hz := congrArg List.length hzip
  rw [List.length_zipWith, ← hlen, min_self] at hz
  rw [hacc, State.occupancy]
  simp only [List.length_append, length_slot] at hz ⊢
  omega

/-- **What is handed to the DDR**: the `k`-th accepted request mapped through the `k`-th lookup. -/
theorem PipelineInv.delivered_eq_zipWith {table : BitVec 10 → BitVec 32} {m : Monitor}
    (h : PipelineInv table m) :
    m.delivered.length ≤ m.lookups.length ∧
    m.delivered = List.zipWith (translateWith table) (m.accepted.take m.delivered.length)
      (m.lookups.take m.delivered.length) := by
  obtain ⟨looked, r1, r2, hacc, -, -, hlen, hzip⟩ := h.pending
  have hle : m.delivered.length ≤ looked.length := by
    have hz := congrArg List.length hzip
    rw [List.length_zipWith, ← hlen, min_self] at hz
    simp only [List.length_append] at hz
    omega
  refine ⟨hlen ▸ hle, ?_⟩
  have htake : m.accepted.take m.delivered.length = looked.take m.delivered.length := by
    rw [hacc, List.append_assoc, List.take_append_of_le_length hle]
  rw [htake, ← List.take_zipWith, hzip, List.append_assoc, List.take_left]

/-- The bits of an entry that take part in the mapping. -/
def pageOf (table : BitVec 10 → BitVec 32) (e : BitVec 10) : BitVec 19 :=
  (table e).extractLsb' 0 19

/-- The record is faithful exactly when every request handed to the DDR was looked up with an entry
that agrees with its own one. -/
theorem PipelineInv.faithful_iff {table : BitVec 10 → BitVec 32} {m : Monitor}
    (h : PipelineInv table m) :
    Faithful table m ↔
      (m.lookups.take m.delivered.length).map (pageOf table)
        = (m.accepted.take m.delivered.length).map (fun r => pageOf table r.ikernelId) := by
  obtain ⟨hle, hdel⟩ := h.delivered_eq_zipWith
  have hacc := h.length_accepted
  have hlen : (m.accepted.take m.delivered.length).length
      = (m.lookups.take m.delivered.length).length := by
    rw [List.length_take, List.length_take]
    omega
  have hiff := zipWith_eq_map_iff (v := pageOf table) (g := Request.ikernelId)
    (translateWith_inj table) hlen
  rw [← hdel] at hiff
  constructor
  · rintro ⟨-, hmap⟩
    exact hiff.mp hmap
  · intro hpages
    exact ⟨hacc, hiff.mpr hpages⟩

/-! ### Runs in which no stall reaches stage 2 -/

/-- The lookups so far are those of the requests themselves, and the ids that were on the lines
one and two clocks ago are those of the requests in stages 1 and 2. -/
def InStep (m : Monitor) : Prop :=
  ∃ looked r1 r2, m.accepted = looked ++ slot m.state.stage2Vld r2 ++ slot m.state.stage1Vld r1 ∧
    m.lookups = looked.map Request.ikernelId ∧
    (m.state.stage1Vld = true → m.idLine1 = r1.ikernelId) ∧
    (m.state.stage2Vld = true → m.idLine2 = r2.ikernelId)

theorem inStep_watch {rdwrMode : Bool} {m : Monitor} {i : Inputs}
    (hq : Quiet rdwrMode m.state i)
    (hstall : m.state.stage2Vld = true → m.state.stage3Rdy i = true) (h : InStep m) :
    InStep (watch rdwrMode m i) := by
  obtain ⟨looked, r1, r2, hacc, hlook, hid1, hid2⟩ := h
  obtain ⟨-, -, -, -, v1, -, v2, -⟩ :=
    clock_pipeline rdwrMode (s := m.state) (i := i) hq.1 hq.2.1
  have hrdy2 : m.state.stage2Rdy i = true := by
    unfold State.stage2Rdy
    cases hv : m.state.stage2Vld with
    | false => rfl
    | true => rw [hstall hv]; rfl
  have he3 : m.state.stage3Enable i = m.state.stage2Vld := by
    unfold State.stage3Enable
    cases hv : m.state.stage2Vld with
    | false => rfl
    | true => rw [hstall hv]; rfl
  have hv1 : (clock rdwrMode m.state i).stage1Vld = m.state.stage1Enable i := by
    rw [v1, hrdy2, Bool.not_true, Bool.and_false, Bool.or_false]
  have hv2 : (clock rdwrMode m.state i).stage2Vld = m.state.stage1Vld := by
    rw [v2, State.stage2Enable, hrdy2, Bool.and_true]
    cases hv : m.state.stage2Vld with
    | false => rw [Bool.false_and, Bool.or_false]
    | true => rw [hstall hv, Bool.not_true, Bool.and_false, Bool.or_false]
  refine ⟨looked ++ slot m.state.stage2Vld r2, i.ik2map, r1, ?_, ?_, ?_, ?_⟩
  · change m.accepted ++ _ = _ ++ slot (clock rdwrMode m.state i).stage2Vld _
      ++ slot (clock rdwrMode m.state i).stage1Vld _
    rw [hv1, hv2, hacc]
  · change m.lookups ++ slot (m.state.stage3Enable i) m.idLine2 = _
    rw [he3, hlook, List.map_append]
    congr 1
    cases hv : m.state.stage2Vld with
    | false => rfl
    | true => rw [hid2 hv]; rfl
  · intro _
    exact mapAddr_of_quiet hq
  · change (clock rdwrMode m.state i).stage2Vld = true → m.idLine1 = _
    rw [hv2]
    exact hid1

/-- As long as a request in stage 2 always finds stage 3 ready, every lookup is that of the
request itself, so the mapping is right. -/
theorem faithful_of_no_stall (rdwrMode : Bool) (s : State) (hs : s.occupancy = 0)
    (ins : List Inputs)
    (hq : Along (clock rdwrMode) (fun s i => Quiet rdwrMode s i ∧
      (s.stage2Vld = true → s.stage3Rdy i = true)) s ins) :
    Faithful s.table (run (watch rdwrMode) (Monitor.start s) ins) := by
  have hquiet := Along.mono (fun _ _ h => h.1) ins s hq
  have hinv := pipelineInv_run hs hquiet
  have hstep : InStep (run (watch rdwrMode) (Monitor.start s) ins) := by
    refine run_induction (fun _ _ hC hm => inStep_watch hC.1 hC.2 hm) ins _
      (along_watch ins (Monitor.start s) hq) ?_
    obtain ⟨h1, h2, -⟩ := vld_of_occupancy_eq_zero hs
    let r : Request := ⟨0, 0, 0, 0, 0, 0, 0, 0, 0, 0⟩
    exact ⟨[], r, r, by simp [Monitor.start, h1, h2]⟩
  rw [hinv.faithful_iff]
  obtain ⟨looked, r1, r2, hacc, hlook, -⟩ := hstep
  have hle := hinv.delivered_eq_zipWith.1
  rw [hlook, List.length_map] at hle
  rw [hacc, hlook, List.append_assoc, List.take_append_of_le_length hle, ← List.map_take,
    List.map_map]
  rfl

/-! ### The mapping under backpressure -/

/-- **When the mapping is right.**  In every run from an empty pipeline, out of reset, with the
table not being written and the test mode off, the requests handed to the DDR are the accepted
ones, in order and mapped through their own entries, exactly when for each of them the id that was
on the `ik2map` lines two clocks before it moved from stage 2 to stage 3 selects the same 19-bit
entry as its own id. -/
theorem faithful_iff_lookups (rdwrMode : Bool) (s : State) (hs : s.occupancy = 0)
    (ins : List Inputs) (hq : Along (clock rdwrMode) (Quiet rdwrMode) s ins) :
    Faithful s.table (run (watch rdwrMode) (Monitor.start s) ins) ↔
      let m := run (watch rdwrMode) (Monitor.start s) ins
      (m.lookups.take m.delivered.length).map (pageOf s.table)
        = (m.accepted.take m.delivered.length).map (fun r => pageOf s.table r.ikernelId) :=
  (pipelineInv_run hs hq).faithful_iff

/-- The registers after reset, with the table loaded. -/
def afterReset (table : BitVec 10 → BitVec 32) : State :=
  let none : Mapped := ⟨0, 0, 0, 0, 0, 0, 0, 0, 0, 0⟩
  ⟨.wrIdle, 0, false, 0, 0, 0, 0, 0, 0, false, false, false, false, false, false, none, none, none,
    none, 0, table, 0, 0⟩

/-- Two tenants: id 0 is mapped to page 0, id 1 to page 256, every other id to page 0. -/
def twoTenants : BitVec 10 → BitVec 32 :=
  fun id => if id = 1 then 256 else 0

/-- A clock that offers the request for byte `offset` of ikernel `id`, or none, and stalls the DDR
side or not. -/
def offer (vld : Bool) (id offset : Nat) (rdy : Bool) : Inputs :=
  ⟨false, 0, false, 0, false, false, vld,
    ⟨BitVec.ofNat 64 (id * 2 ^ 31 + offset), 1, 0, 0, 0, 0, 0, 0, 0, 3⟩, rdy⟩

/-- Three requests of tenant 0 with one of tenant 1 behind them, handed on without a stall. -/
theorem faithful_iff_lookups_without_stall :
    Faithful twoTenants (run (watch false) (Monitor.start (afterReset twoTenants))
      [offer true 0 0 true, offer true 0 64 true, offer true 1 128 true, offer true 0 192 true,
        offer false 0 0 true, offer false 0 0 true, offer false 0 0 true, offer false 0 0 true]) :=
  (faithful_iff_lookups false (afterReset twoTenants) rfl _ (by decide)).mpr (by decide)

/-- Four requests of tenant 0 fill the pipeline while the DDR is not ready; a request of tenant 1
waits on the lines.  When the DDR becomes ready, the third request of tenant 0 takes the entry of
tenant 1: byte 128 of tenant 0 goes to byte 128 of page 256. -/
theorem not_faithful_under_stall :
    ¬ ∀ (rdwrMode : Bool) (s : State) (ins : List Inputs), s.occupancy = 0 →
      Along (clock rdwrMode) (Quiet rdwrMode) s ins →
      Faithful s.table (run (watch rdwrMode) (Monitor.start s) ins) := by
  intro h
  have hf := h false (afterReset twoTenants)
    [offer true 0 0 false, offer true 0 64 false, offer true 0 128 false, offer true 0 192 false,
      offer true 1 0 false, offer true 1 0 false, offer true 1 0 false, offer true 1 0 true,
      offer true 1 0 true, offer true 1 0 true] rfl (by decide)
  revert hf
  unfold Faithful
  decide

end Nica.Verilog.DdrAddressMapping
