import Nica.Verilog.DdrAddressMapping

/-!
# The AXI-lite crossbar (`nica/verilog/exp_hls.v`)

The part that leads to the two address mapping units: which addresses select them, and the thirteen
address bits that they get.  Both units take every write, so one of them stands for the other.
-/

namespace Nica.Verilog.ExpHls

open DdrAddressMapping

/-- `waddr >= AXILITE_BASE9 && waddr < AXILITE_BASE10`. -/
def ddrTableSelected (waddr : BitVec 32) : Bool := 0x9000 ≤ waddr ∧ waddr < 0xa000

/-- `waddr2ikernels`, without its nineteen zero bits. -/
def waddr2ikernels (waddr : BitVec 32) : BitVec 13 :=
  (waddr.extractLsb' 15 1 ||| waddr.extractLsb' 14 1 ||| waddr.extractLsb' 13 1 |||
    waddr.extractLsb' 12 1) ++ waddr.extractLsb' 0 12

/-- The unit is between two writes. -/
def WriteIdle (s : State) : Prop := s.axiWstate = .wrIdle ∧ s.ddrAdrsTableWr = false

/-- The three clocks of one write: address, data, and the clock in which the block RAM is written. -/
structure Write where
  waddr : BitVec 32
  wdata : BitVec 32
  first : Inputs
  second : Inputs
  third : Inputs
  running : first.reset = false ∧ second.reset = false ∧ third.reset = false
  address : first.axiAwvalid = true ∧ first.axiAwaddr = waddr2ikernels waddr
  data : second.axiWvalid = true ∧ second.axiWdata = wdata

/-- The unit after a write. -/
def Write.apply (w : Write) (rdwrMode : Bool) (s : State) : State :=
  clock rdwrMode (clock rdwrMode (clock rdwrMode s w.first) w.second) w.third

/-- The entry of the table that a write address selects, if any. -/
def tableEntry (waddr : BitVec 32) : Option (BitVec 10) :=
  if ddrAddrMapStart ≤ waddr2ikernels waddr ∧ waddr2ikernels waddr < ddrAddrMapEnd then
    some (((waddr2ikernels waddr).extractLsb' 2 8).setWidth 10)
  else none

/-- A write changes the entry that its address selects, and no other. -/
theorem table_apply (w : Write) (rdwrMode : Bool) (s : State) (h : WriteIdle s) :
    (w.apply rdwrMode s).table =
      match tableEntry w.waddr with
      | some e => Function.update s.table e w.wdata
      | none => s.table := by
  obtain ⟨waddr, wdata, i₁, i₂, i₃, ⟨hr₁, hr₂, hr₃⟩, ⟨haw, haddr⟩, ⟨hw, hdata⟩⟩ := w
  obtain ⟨hidle, hwr⟩ := h
  show (clock rdwrMode (clock rdwrMode (clock rdwrMode s i₁) i₂) i₃).table =
    match tableEntry waddr with
    | some e => Function.update s.table e wdata
    | none => s.table
  -- after the address: the state machine waits for the data
  have h₁ : (clock rdwrMode s i₁).axiWstate = .wrData ∧
      (clock rdwrMode s i₁).axiWaddr = waddr2ikernels waddr ∧
      (clock rdwrMode s i₁).ddrAdrsTableWr = false ∧ (clock rdwrMode s i₁).table = s.table := by
    refine ⟨?_, ?_, ?_, ?_⟩ <;>
      simp [clock, ramEdge, axiLiteEdge, pipelineEdge, State.axiWnext, State.axiAwHs, State.tableHit,
        State.axiWHs, hr₁, haw, haddr, hidle, hwr]
  generalize clock rdwrMode s i₁ = s₁ at h₁
  obtain ⟨hst₁, hwaddr₁, hwr₁, htab₁⟩ := h₁
  -- after the data: the write to the block RAM is armed if the address is in the window
  have h₂ : (clock rdwrMode s₁ i₂).axiWaddr = waddr2ikernels waddr ∧
      (clock rdwrMode s₁ i₂).table = s.table ∧
      (clock rdwrMode s₁ i₂).ddrAdrsTableWr =
        (decide (ddrAddrMapStart ≤ waddr2ikernels waddr) &&
          decide (waddr2ikernels waddr < ddrAddrMapEnd)) ∧
      ((clock rdwrMode s₁ i₂).ddrAdrsTableWr = true →
        (clock rdwrMode s₁ i₂).ddrAdrsTableDatain = wdata) := by
    refine ⟨?_, ?_, ?_, ?_⟩
    · simp [clock, ramEdge, axiLiteEdge, pipelineEdge, State.axiAwHs, hr₂, hst₁, hwaddr₁]
    · simp [clock, ramEdge, axiLiteEdge, pipelineEdge, hr₂, hwr₁, htab₁]
    · simp [clock, ramEdge, axiLiteEdge, pipelineEdge, State.tableHit, State.axiWHs, hr₂, hst₁, hw, hwaddr₁]
    · intro harm
      simp [clock, ramEdge, axiLiteEdge, pipelineEdge, State.tableHit, State.axiWHs, hr₂, hst₁, hw,
        hwaddr₁] at harm
      simp [clock, ramEdge, axiLiteEdge, pipelineEdge, State.tableHit, State.axiWHs, hr₂, hst₁, hw,
        hwaddr₁, harm, hdata]
  generalize clock rdwrMode s₁ i₂ = s₂ at h₂
  obtain ⟨hwaddr₂, htab₂, hwr₂, hin₂⟩ := h₂
  have htable : (clock rdwrMode s₂ i₃).table =
      if s₂.ddrAdrsTableWr then Function.update s₂.table s₂.addra s₂.ddrAdrsTableDatain
      else s₂.table := rfl
  rw [htable]
  unfold tableEntry
  by_cases hwin : ddrAddrMapStart ≤ waddr2ikernels waddr ∧ waddr2ikernels waddr < ddrAddrMapEnd
  · have harm : s₂.ddrAdrsTableWr = true := by
      rw [hwr₂]
      simp [hwin]
    rw [if_pos hwin, if_pos harm, htab₂, hin₂ harm]
    unfold State.addra
    rw [hwaddr₂]
  · have harm : ¬ s₂.ddrAdrsTableWr = true := by
      rw [hwr₂]
      simpa using hwin
    rw [if_neg hwin, if_neg harm, htab₂]

end Nica.Verilog.ExpHls
