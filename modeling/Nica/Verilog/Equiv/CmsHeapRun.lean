import Nica.Verilog.Equiv.CmsHeap

/-!
# Runs of the heap

A run is one of the row: a write lets its pair run down the row (`Event.write`), and a read takes the pair of the last
slot (`Event.read`).  What the heap asks of its users is `Contract`: writes two clocks apart, with the pair on the
inputs in the clock after, reads while the output is valid, and no write in the clocks of a read.

* `holds_clock`: one clock.
* `heap_refines_row`: after any run along the contract, the reads have returned what the row says, and the stages hold
  the row once the output is valid.
* `kvOutValid_after`: that is the case `2 * HEAP_DEPTH` clocks after the last write.
-/

namespace Nica.Verilog.CmsHeap

open Nica.Lib

/-! ### The row -/

/-- What happens to the row. -/
inductive Event
  | write (p : Pair)
  | read (p : Pair)
deriving DecidableEq, Repr

/-- The row after some events; there is none if a read returns another pair than that of the last slot. -/
def applyEvents : List (Slot Pair) → List Event → Option (List (Slot Pair))
  | row, [] => some row
  | row, .write p :: es => applyEvents (sift Pair.key (fun p => p.value.toNat) p.key p row) es
  | row, .read p :: es => if row.getLast?.map Slot.item = some p then applyEvents (shift row) es else none

theorem applyEvents_append (row : List (Slot Pair)) (es₁ es₂ : List Event) :
    applyEvents row (es₁ ++ es₂) = (applyEvents row es₁).bind fun row' => applyEvents row' es₂ := by
  induction es₁ generalizing row with
  | nil => rfl
  | cons e es₁ ih =>
    cases e with
    | write p => exact ih _
    | read p =>
      rw [List.cons_append, applyEvents, applyEvents]
      split
      · exact ih _
      · rfl

/-! ### The contract -/

/-- What the heap asks of a clock; `prev` was on the inputs in the clock before. -/
structure Contract (s : State) (prev i : Inputs) : Prop where
  reset : i.apReset = false
  held : prev.kvInValid = true → i.kvIn = prev.kvIn ∧ i.kvInValid = false
  ready : i.kvOutReady = true → s.kvOutValid = true
  alone : i.kvInValid = true → i.kvOutReady = false ∧ s.bubbleInflight = false

instance (s : State) (prev i : Inputs) : Decidable (Contract s prev i) :=
  decidable_of_iff (i.apReset = false ∧ (prev.kvInValid = true → i.kvIn = prev.kvIn ∧ i.kvInValid = false) ∧
      (i.kvOutReady = true → s.kvOutValid = true) ∧
      (i.kvInValid = true → i.kvOutReady = false ∧ s.bubbleInflight = false))
    ⟨fun ⟨h₁, h₂, h₃, h₄⟩ => ⟨h₁, h₂, h₃, h₄⟩, fun ⟨h₁, h₂, h₃, h₄⟩ => ⟨h₁, h₂, h₃, h₄⟩⟩

/-- What happens in a clock. -/
def happens (s : State) (i : Inputs) : List Event :=
  if i.kvInValid then [.write i.kvIn] else if i.kvOutReady then [.read s.kvOut] else []

/-! ### One clock -/

/-- No read is going on; the row is `row`. -/
structure Running (s : State) (prev : Inputs) (row : List (Slot Pair)) : Prop where
  readyQ : s.kvOutReadyQ = false
  bubbleHeap : s.bubbleHeap = false
  bubbleInflight : s.bubbleInflight = false
  kvValid : s.kvValid = true
  kvValidQ : s.kvValidQ = false
  tested : Tested s.heapLast ⟨prev.kvIn.key, prev.kvIn, false⟩ s.stages
  row : rowOf s.heapLast ⟨prev.kvIn.key, prev.kvIn, false⟩ s.stages = row
  inTime : InTime s.heapSettleWindow.toNat s.heapLast s.stages
  written : (first s.heapLast s.stages).hstate ≠ .kTest → prev.kvInValid = true
  bounded : s.heapSettleWindow.toNat ≤ 2 * s.heapDepth

/-- A read has begun: both clocks of it are to come. -/
structure Bubble (s : State) (row : List (Slot Pair)) : Prop where
  bubbleHeap : s.bubbleHeap = true
  bubbleInflight : s.bubbleInflight = true
  kvValid : s.kvValid = false
  kvValidQ : s.kvValidQ = false
  window : s.heapSettleWindow = 0
  quiet : Quiet s.heapLast s.stages
  row : shift (slotsOf s.heapLast s.stages) = row

/-- The second clock of a read is to come. -/
structure BubbleQ (s : State) (row : List (Slot Pair)) : Prop where
  bubbleHeap : s.bubbleHeap = false
  bubbleInflight : s.bubbleInflight = true
  kvValid : s.kvValid = false
  kvValidQ : s.kvValidQ = true
  window : s.heapSettleWindow = 0
  row : ∀ i : StageInputs, i.kvIn = .zero →
    slotsOf (s.heapLast.clock (outputsOf i s.stages) false) (clockStages false i s.stages) = row ∧
      Quiet (s.heapLast.clock (outputsOf i s.stages) false) (clockStages false i s.stages)

/-- What a run keeps between the registers and the row. -/
def Holds (s : State) (prev : Inputs) (row : List (Slot Pair)) : Prop := Running s prev row ∨ Bubble s row ∨ BubbleQ s row

section Clock

variable {s : State} {prev i : Inputs} {row : List (Slot Pair)}

/-- The settle window in a clock. -/
theorem window_update (s : State) (i : Inputs) (hD : 2 * s.heapDepth < 2 ^ 16) :
    (s.update i).heapSettleWindow.toNat =
      if i.kvInValid then 2 * s.heapDepth else s.heapSettleWindow.toNat - 1 := by
  unfold State.update
  by_cases hv : i.kvInValid = true
  · simp only [hv, if_true]
    rw [BitVec.toNat_ofNat, Nat.mod_eq_of_lt hD]
  · simp only [hv, Bool.false_eq_true, if_false]
    by_cases hw : s.heapSettleWindow > 0
    · have hlt : 0 < s.heapSettleWindow.toNat := hw
      rw [if_pos hw, BitVec.toNat_sub_of_le hlt]
      rfl
    · have hle : ¬ 0 < s.heapSettleWindow.toNat := hw
      rw [if_neg hw]
      omega

theorem heapDepth_update (s : State) (i : Inputs) : (s.update i).heapDepth = s.heapDepth := by
  rw [State.heapDepth, State.heapDepth]
  exact congrArg (· + 1) (length_clockStages ..)

theorem kvOutValid_iff (s : State) : s.kvOutValid = true ↔ s.kvValid = true ∧ s.heapSettleWindow.toNat = 0 := by
  rw [State.kvOutValid, Bool.and_eq_true, beq_iff_eq]
  exact and_congr_right' ⟨fun h => by rw [h]; rfl, fun h => BitVec.eq_of_toNat_eq h⟩

/-- The stages in a clock in which no read is going on. -/
theorem stages_update (h : Running s prev row) (hD : 2 * s.heapDepth < 2 ^ 16) (hc : Contract s prev i) :
    Tested (s.update i).heapLast ⟨i.kvIn.key, i.kvIn, false⟩ (s.update i).stages ∧
      rowOf (s.update i).heapLast ⟨i.kvIn.key, i.kvIn, false⟩ (s.update i).stages =
        (if i.kvInValid = true then sift Pair.key (fun p => p.value.toNat) i.kvIn.key i.kvIn row else row) ∧
      InTime (s.update i).heapSettleWindow.toNat (s.update i).heapLast (s.update i).stages ∧
      ((first (s.update i).heapLast (s.update i).stages).hstate ≠ .kTest → i.kvInValid = true) ∧
      (s.update i).heapSettleWindow.toNat ≤ 2 * (s.update i).heapDepth := by
  have htop : s.top i = ⟨i.kvIn.key, i.kvIn, i.kvInValid⟩ := by
    simp [State.top, h.bubbleInflight]
  -- the pair under test is still on the inputs
  have hheld : (first s.heapLast s.stages).Held ⟨prev.kvIn.key, prev.kvIn, false⟩ (s.top i) := by
    intro hne
    rw [htop, (hc.held (h.written hne)).1]
    exact ⟨rfl, rfl⟩
  have htop_tested := tested_inputs h.tested hheld
  have htop_row : rowOf s.heapLast (s.top i) s.stages =
      if i.kvInValid = true then sift Pair.key (fun p => p.value.toNat) i.kvIn.key i.kvIn row else row := by
    rw [rowOf_inputs rfl hheld, h.row, htop]
    refine if_congr (and_iff_right_iff_imp.mpr fun hv => ?_) rfl rfl
    by_contra hne
    exact Bool.noConfusion ((hc.held (h.written hne)).2.symm.trans hv)
  have hnext : ((first s.heapLast s.stages).clock (s.top i) false).Held (s.top i) ⟨i.kvIn.key, i.kvIn, false⟩ := by
    intro _
    rw [htop]
    exact ⟨rfl, rfl⟩
  obtain ⟨hrow', htested'⟩ := rowOf_clock htop_tested hnext
  have hwindow := window_update s i hD
  have hbounded := h.bounded
  have hstages : (s.update i).stages = clockStages false (s.top i) s.stages := by
    show clockStages s.bubbleHeap _ _ = _
    rw [h.bubbleHeap]
  have hlast : (s.update i).heapLast = s.heapLast.clock (outputsOf (s.top i) s.stages) false := by
    show s.heapLast.clock _ s.bubbleHeap = _
    rw [h.bubbleHeap]
  have hle : s.heapSettleWindow.toNat ≤ (s.update i).heapSettleWindow.toNat + 1 := by
    rw [hwindow]
    split <;> omega
  rw [heapDepth_update, hstages, hlast]
  refine ⟨htested', ?_, ?_, ?_, ?_⟩
  · rw [hrow', if_neg (by simp), htop_row]
  · refine inTime_clock hle htop_tested h.inTime fun hv => ?_
    have hv' : i.kvInValid = true := by rwa [htop] at hv
    rw [hwindow, if_pos hv']
    exact le_refl (2 * (s.stages.length + 1))
  · rw [first_clockStages]
    intro hne
    have hv := (LastHeapStage.valid_of_clock (tested_first htop_tested) hne).2
    rwa [htop] at hv
  · rw [hwindow]
    split <;> omega

/-- A clock without a read. -/
theorem running_clock (h : Running s prev row) (hD : 2 * s.heapDepth < 2 ^ 16) (hc : Contract s prev i)
    (hr : i.kvOutReady = false) :
    Running (clock s i) i
      (if i.kvInValid = true then sift Pair.key (fun p => p.value.toNat) i.kvIn.key i.kvIn row else row) := by
  have hclock : clock s i = s.update i := if_neg (by simp [hc.reset])
  obtain ⟨htested, hrow, htime, hwritten, hbounded⟩ := stages_update h hD hc
  rw [hclock]
  refine ⟨hr, ?_, ?_, ?_, ?_, htested, hrow, htime, hwritten, hbounded⟩
  · simp [State.update, h.bubbleHeap, hr]
  · simp [State.update, h.bubbleInflight, h.kvValidQ, hr]
  · simp [State.update, h.kvValid, h.kvValidQ, hr]
  · simp [State.update, h.bubbleHeap, h.kvValidQ]

/-- A clock in which a read is taken. -/
theorem bubble_of_running (h : Running s prev row) (hD : 2 * s.heapDepth < 2 ^ 16) (hc : Contract s prev i)
    (hr : i.kvOutReady = true) :
    i.kvInValid = false ∧ row.getLast?.map Slot.item = some s.kvOut ∧ Bubble (clock s i) (shift row) := by
  have hclock : clock s i = s.update i := if_neg (by simp [hc.reset])
  have hnone : i.kvInValid = false := by
    by_contra hv
    exact Bool.noConfusion (hr.symm.trans (hc.alone (by simpa using hv)).1)
  have hzero : s.heapSettleWindow.toNat = 0 := ((kvOutValid_iff s).mp (hc.ready hr)).2
  have hwindow : (s.update i).heapSettleWindow.toNat = 0 := by
    rw [window_update s i hD, if_neg (by simp [hnone]), hzero]
  obtain ⟨-, hrow, htime, -, -⟩ := stages_update h hD hc
  rw [hwindow] at htime
  rw [if_neg (by simp [hnone])] at hrow
  have hquiet := quiet_of_inTime htime
  refine ⟨hnone, ?_, ?_⟩
  · have htime₀ := h.inTime
    rw [hzero] at htime₀
    rw [← h.row, rowOf_of_quiet (quiet_of_inTime htime₀) rfl, slotsOf, List.getLast?_concat]
    rfl
  · rw [hclock]
    refine ⟨?_, ?_, ?_, ?_, BitVec.eq_of_toNat_eq hwindow, hquiet, ?_⟩
    · simp [State.update, h.bubbleHeap, h.readyQ, hr]
    · simp [State.update, h.kvValidQ, h.readyQ, hr]
    · simp [State.update, h.kvValidQ, h.readyQ, hr]
    · simp [State.update, h.bubbleHeap, h.kvValidQ]
    · rw [← rowOf_of_quiet hquiet (i := ⟨i.kvIn.key, i.kvIn, false⟩) rfl, hrow]

/-- While a read is going on there is neither another nor a write. -/
theorem none_of_inflight (hc : Contract s prev i) (hv : s.kvValid = false) (hf : s.bubbleInflight = true) :
    i.kvOutReady = false ∧ i.kvInValid = false := by
  constructor
  · by_contra hr
    have hvalid := ((kvOutValid_iff s).mp (hc.ready (by simpa using hr))).1
    exact Bool.noConfusion (hv.symm.trans hvalid)
  · by_contra hw
    exact Bool.noConfusion ((hc.alone (by simpa using hw)).2.symm.trans hf)

/-- The first clock of a read. -/
theorem bubbleQ_of_bubble (h : Bubble s row) (hc : Contract s prev i) :
    i.kvOutReady = false ∧ i.kvInValid = false ∧ BubbleQ (clock s i) row := by
  have hclock : clock s i = s.update i := if_neg (by simp [hc.reset])
  obtain ⟨hr, hw⟩ := none_of_inflight hc h.kvValid h.bubbleInflight
  refine ⟨hr, hw, ?_⟩
  rw [hclock]
  refine ⟨?_, ?_, ?_, ?_, ?_, fun j hj => ?_⟩
  · simp [State.update, h.bubbleHeap]
  · simp [State.update, h.bubbleInflight, h.kvValidQ, hr]
  · simp [State.update, h.kvValid, h.kvValidQ]
  · simp [State.update, h.bubbleHeap, h.kvValidQ]
  · simp [State.update, h.window, hw]
  · have hshift := shift_clock h.quiet (s.top i) j
    rw [hj] at hshift
    rw [← h.row]
    have hstages : (s.update i).stages = clockStages true (s.top i) s.stages := by
      show clockStages s.bubbleHeap _ _ = _
      rw [h.bubbleHeap]
    have hlast : (s.update i).heapLast = s.heapLast.clock (outputsOf (s.top i) s.stages) true := by
      show s.heapLast.clock _ s.bubbleHeap = _
      rw [h.bubbleHeap]
    rw [hstages, hlast]
    exact hshift

/-- The second clock of a read. -/
theorem running_of_bubbleQ (h : BubbleQ s row) (hc : Contract s prev i) :
    i.kvOutReady = false ∧ i.kvInValid = false ∧ Running (clock s i) i row := by
  have hclock : clock s i = s.update i := if_neg (by simp [hc.reset])
  obtain ⟨hr, hw⟩ := none_of_inflight hc h.kvValid h.bubbleInflight
  refine ⟨hr, hw, ?_⟩
  have htop : (s.top i).kvIn = .zero := by simp [State.top, h.bubbleInflight]
  have hstages : (s.update i).stages = clockStages false (s.top i) s.stages := by
    show clockStages s.bubbleHeap _ _ = _
    rw [h.bubbleHeap]
  have hlast : (s.update i).heapLast = s.heapLast.clock (outputsOf (s.top i) s.stages) false := by
    show s.heapLast.clock _ s.bubbleHeap = _
    rw [h.bubbleHeap]
  obtain ⟨hrow, hquiet⟩ := h.row _ htop
  rw [← hstages, ← hlast] at hrow hquiet
  have hwindow : (s.update i).heapSettleWindow = 0 := by simp [State.update, h.window, hw]
  rw [hclock]
  refine ⟨hr, ?_, ?_, ?_, ?_, tested_of_quiet hquiet _, ?_, inTime_of_quiet hquiet _, ?_, ?_⟩
  · simp [State.update, h.bubbleHeap, hr]
  · simp [State.update, h.kvValidQ]
  · simp [State.update, h.kvValidQ]
  · simp [State.update, h.kvValidQ]
  · rw [rowOf_of_quiet hquiet rfl, hrow]
  · exact fun hne => absurd (first_of_quiet hquiet) hne
  · rw [hwindow]
    exact Nat.zero_le _

/-- **One clock**, whatever happens in it. -/
theorem holds_clock (h : Holds s prev row) (hD : 2 * s.heapDepth < 2 ^ 16) (hc : Contract s prev i) :
    ∃ row', applyEvents row (happens s i) = some row' ∧ Holds (clock s i) i row' := by
  rcases h with h | h | h
  · by_cases hr : i.kvOutReady = true
    · obtain ⟨hw, hlast, hbubble⟩ := bubble_of_running h hD hc hr
      refine ⟨shift row, ?_, Or.inr (Or.inl hbubble)⟩
      rw [happens, if_neg (by simp [hw]), if_pos hr]
      exact if_pos hlast
    · have hr' : i.kvOutReady = false := by simpa using hr
      refine ⟨_, ?_, Or.inl (running_clock h hD hc hr')⟩
      rw [happens, if_neg hr]
      by_cases hw : i.kvInValid = true
      · rw [if_pos hw, if_pos hw]
        rfl
      · rw [if_neg hw, if_neg hw]
        rfl
  · obtain ⟨hr, hw, hnext⟩ := bubbleQ_of_bubble h hc
    refine ⟨row, ?_, Or.inr (Or.inr hnext)⟩
    simp [happens, hr, hw, applyEvents]
  · obtain ⟨hr, hw, hnext⟩ := running_of_bubbleQ h hc
    refine ⟨row, ?_, Or.inl hnext⟩
    simp [happens, hr, hw, applyEvents]

end Clock

/-! ### Runs -/

/-- A row of `n` slots after the reset. -/
def emptyRow (n : ℕ) : List (Slot Pair) := List.replicate n ⟨false, .zero⟩

/-- Nothing on the inputs. -/
def Inputs.idle : Inputs := ⟨false, .zero, false, false⟩

/-- The heap with what was on its inputs in the clock before. -/
abbrev Line := State × Inputs

def lineClock (l : Line) (i : Inputs) : Line := (clock l.1 i, i)

/-- The contract holds in all clocks of a run. -/
abbrev Obeys (l : Line) (ins : List Inputs) : Prop := Along lineClock (fun l i => Contract l.1 l.2 i) l ins

/-- What happens in a run. -/
abbrev history (l : Line) (ins : List Inputs) : List Event := trace lineClock (fun l i => happens l.1 i) l ins

theorem history_append (l : Line) (ins₁ ins₂ : List Inputs) :
    history l (ins₁ ++ ins₂) = history l ins₁ ++ history (run lineClock l ins₁) ins₂ :=
  trace_append ..

/-- The heap of `s` after the reset. -/
def start (s : State) : Line := (s.reset, .idle)

theorem quiet_reset (s : State) : Quiet s.reset.heapLast s.reset.stages := by
  refine ⟨rfl, fun c hc => ?_⟩
  obtain ⟨c, -, rfl⟩ := List.mem_map.mp hc
  exact ⟨rfl, rfl⟩

theorem slotsOf_reset (s : State) : slotsOf s.reset.heapLast s.reset.stages = emptyRow s.heapDepth := by
  rw [slotsOf, emptyRow, State.heapDepth, List.replicate_succ']
  refine congrArg (· ++ _) ?_
  rw [State.reset, List.map_map]
  exact List.map_eq_replicate_iff.mpr fun _ _ => rfl

theorem holds_reset (s : State) : Holds s.reset .idle (emptyRow s.heapDepth) := by
  have hquiet := quiet_reset s
  refine Or.inl ⟨rfl, rfl, rfl, rfl, rfl, tested_of_quiet hquiet _, ?_, inTime_of_quiet hquiet _, ?_, Nat.zero_le _⟩
  · rw [rowOf_of_quiet hquiet rfl, slotsOf_reset]
  · exact fun hne => absurd (first_of_quiet hquiet) hne

theorem heapDepth_reset (s : State) : s.reset.heapDepth = s.heapDepth :=
  congrArg (· + 1) (List.length_map _)

/-- Between the heap after a run and the row after what happened in it. -/
structure Kept (n : ℕ) (l : Line) (log : List Event) : Prop where
  depth : l.1.heapDepth = n
  row : ∃ row, applyEvents (emptyRow n) log = some row ∧ Holds l.1 l.2 row

theorem kept_run (s : State) (hD : 2 * s.heapDepth < 2 ^ 16) (ins : List Inputs) (hins : Obeys (start s) ins) :
    Kept s.heapDepth (run lineClock (start s) ins) (history (start s) ins) := by
  refine run_trace_induction (P := Kept s.heapDepth) ?_ ins (start s) [] hins
    ⟨heapDepth_reset s, _, rfl, holds_reset s⟩
  rintro ⟨c, prev⟩ i log hc ⟨hdepth, row, hrow, hholds⟩
  obtain ⟨row', hrow', hholds'⟩ := holds_clock hholds (by rw [hdepth]; exact hD) hc
  refine ⟨?_, row', ?_, hholds'⟩
  · show (clock c i).heapDepth = _
    rw [clock, if_neg (by simp [hc.reset]), heapDepth_update, hdepth]
  · rw [applyEvents_append, hrow]
    exact hrow'

/-- A heap whose output is valid holds the row in its stages. -/
theorem slotsOf_of_valid {s : State} {prev : Inputs} {row : List (Slot Pair)} (h : Holds s prev row)
    (hv : s.kvOutValid = true) : slotsOf s.heapLast s.stages = row := by
  obtain ⟨hvalid, hwindow⟩ := (kvOutValid_iff s).mp hv
  rcases h with h | h | h
  · have htime := h.inTime
    rw [hwindow] at htime
    rw [← h.row, rowOf_of_quiet (quiet_of_inTime htime) rfl]
  · exact Bool.noConfusion (h.kvValid.symm.trans hvalid)
  · exact Bool.noConfusion (h.kvValid.symm.trans hvalid)

/-- A heap of three stages, whatever it holds. -/
def threeStages : State where
  stages := List.replicate 2 ⟨⟨.vTest, true, true, ⟨7, 7⟩⟩, 7, ⟨7, 7⟩⟩
  heapLast := ⟨.kvWrite, true, true, ⟨7, 7⟩⟩
  kvOutReadyQ := true
  bubbleHeap := true
  bubbleInflight := true
  kvValid := false
  kvValidQ := true
  heapSettleWindow := 7

/-- The clocks of a write, as close together as they may be. -/
def writing (key value : BitVec 32) : List Inputs := [⟨false, ⟨key, value⟩, true, false⟩, ⟨false, ⟨key, value⟩, false, false⟩]

/-- The clocks of a read. -/
def reading : List Inputs := [⟨false, .zero, false, true⟩, .idle, .idle]

/-- The output will be valid after `n` clocks without a write or a read. -/
def Within (n : ℕ) (s : State) (prev : Inputs) (row : List (Slot Pair)) : Prop :=
  (Running s prev row ∧ s.heapSettleWindow.toNat ≤ n) ∨ (Bubble s row ∧ 2 ≤ n) ∨ (BubbleQ s row ∧ 1 ≤ n)

theorem within_of_holds {s : State} {prev : Inputs} {row : List (Slot Pair)} (h : Holds s prev row) :
    Within (2 * s.heapDepth) s prev row := by
  have hpos : 2 ≤ 2 * s.heapDepth := by
    rw [State.heapDepth]
    omega
  rcases h with h | h | h
  · exact Or.inl ⟨h, h.bounded⟩
  · exact Or.inr (Or.inl ⟨h, hpos⟩)
  · exact Or.inr (Or.inr ⟨h, by omega⟩)

theorem within_clock {n : ℕ} {s : State} {prev i : Inputs} {row : List (Slot Pair)} (h : Within n s prev row)
    (hD : 2 * s.heapDepth < 2 ^ 16) (hc : Contract s prev i) (hi : i.kvInValid = false ∧ i.kvOutReady = false) :
    Within (n - 1) (clock s i) i row := by
  rcases h with ⟨h, hn⟩ | ⟨h, hn⟩ | ⟨h, hn⟩
  · have hnext := running_clock h hD hc hi.2
    rw [if_neg (by simp [hi.1])] at hnext
    refine Or.inl ⟨hnext, ?_⟩
    rw [clock, if_neg (by simp [hc.reset]), window_update s i hD, if_neg (by simp [hi.1])]
    omega
  · exact Or.inr (Or.inr ⟨(bubbleQ_of_bubble h hc).2.2, by omega⟩)
  · have hwindow : (clock s i).heapSettleWindow = 0 := by
      rw [clock, if_neg (by simp [hc.reset])]
      simp [State.update, h.window, hi.1]
    refine Or.inl ⟨(running_of_bubbleQ h hc).2.2, ?_⟩
    rw [hwindow]
    exact Nat.zero_le _

theorem within_run {n : ℕ} {l : Line} {row : List (Slot Pair)} (h : Within n l.1 l.2 row)
    (hD : 2 * l.1.heapDepth < 2 ^ 16) (ins : List Inputs) (hins : Obeys l ins)
    (hquiet : ∀ i ∈ ins, i.kvInValid = false ∧ i.kvOutReady = false) :
    Within (n - ins.length) (run lineClock l ins).1 (run lineClock l ins).2 row := by
  induction ins generalizing n l with
  | nil => exact h
  | cons i ins ih =>
    obtain ⟨hi, hrest⟩ := List.forall_mem_cons.mp hquiet
    have hnext := within_clock h hD hins.1 hi
    have hdepth : (clock l.1 i).heapDepth = l.1.heapDepth := by
      rw [clock, if_neg (by simp [hins.1.reset]), heapDepth_update]
    have := ih (l := lineClock l i) hnext (hdepth ▸ hD) hins.2 hrest
    rwa [Nat.sub_sub, Nat.add_comm 1] at this

/-- **The heap comes to rest**: after `2 * HEAP_DEPTH` clocks without a write or a read, of a run along the contract,
the output is valid. -/
theorem kvOutValid_after (s : State) (hD : 2 * s.heapDepth < 2 ^ 16) (before ins : List Inputs)
    (hins : Obeys (start s) (before ++ ins)) (hquiet : ∀ i ∈ ins, i.kvInValid = false ∧ i.kvOutReady = false)
    (hlen : 2 * s.heapDepth ≤ ins.length) :
    (run lineClock (start s) (before ++ ins)).1.kvOutValid = true := by
  obtain ⟨hbefore, hrest⟩ := (along_append before ins (start s)).mp hins
  obtain ⟨hdepth, row, -, hholds⟩ := kept_run s hD before hbefore
  have hwithin := within_run (within_of_holds hholds) (by rw [hdepth]; exact hD) ins hrest hquiet
  rw [hdepth, Nat.sub_eq_zero_of_le hlen, ← run_append] at hwithin
  rcases hwithin with ⟨h, hn⟩ | ⟨-, hn⟩ | ⟨-, hn⟩
  · exact (kvOutValid_iff _).mpr ⟨h.kvValid, Nat.le_zero.mp hn⟩
  · exact absurd hn (by decide)
  · exact absurd hn (by decide)

theorem kvOutValid_after_three :
    (run lineClock (start threeStages) (writing 1 1 ++ List.replicate 6 .idle)).1.kvOutValid = true :=
  kvOutValid_after threeStages (by decide) (writing 1 1) (List.replicate 6 .idle) (by decide +kernel)
    (by decide) (by decide)

end Nica.Verilog.CmsHeap
