import Nica.Lib.Run

/-!
# The DDR address mapping unit (`nica/verilog/ddr_address_mapping.v`)

One instance of `ddr_address_mapping` sits on the write-address (`rdwr_mode = 0`) or the
read-address channel (`rdwr_mode = 1`) between the ikernel and the DDR controller.  A request walks
through a four stage elastic pipeline; beside it the `ddr_adrs_mapping` block RAM is addressed by
bits 40:31 of whatever is on the `ik2map` lines in each clock, enabled or not, and returns the
entry on port B two clocks later.  Stage 3 latches that entry, stage 4 adds it to the page number.

`clock` is one rising edge: every register on the right-hand side is the value before the edge.
The AXI-lite side (write state machine, table write, test mode registers) is modelled as well.
The block RAM is generated; its configuration has port B always enabled with the output register
of the memory primitive, hence the two registers `ramReg` and `mapOut`.
-/

namespace Nica.Verilog.DdrAddressMapping

/-- The AXI4 fields that travel with an address unchanged. -/
structure Axi where
  burst : BitVec 2
  cache : BitVec 4
  id : BitVec 3
  len : BitVec 8
  lock : BitVec 2
  prot : BitVec 3
  qos : BitVec 4
  region : BitVec 4
  size : BitVec 3
deriving DecidableEq, Repr

/-- A request on the `ik2map` side: a 64-bit address whose bits 40:31 are the ikernel id. -/
structure Request where
  addr : BitVec 64
  axi : Axi
deriving DecidableEq, Repr

/-- The ikernel id of a request, bits 40:31 of its address. -/
def Request.ikernelId (r : Request) : BitVec 10 :=
  r.addr.extractLsb' 31 10

/-- A request on the `map2ddr` side, or in a pipeline stage. -/
structure Mapped where
  addr : BitVec 32
  axi : Axi
deriving DecidableEq, Repr

/-- The states of the AXI-lite write state machine. -/
inductive Wstate
  | wrIdle
  | wrData
  | wrResp
deriving DecidableEq, Repr

/-- The input wires in one clock. -/
structure Inputs where
  reset : Bool
  axiAwaddr : BitVec 13
  axiAwvalid : Bool
  axiWdata : BitVec 32
  axiWvalid : Bool
  axiBready : Bool
  ik2mapVld : Bool
  ik2map : Request
  map2ddrRdy : Bool
deriving DecidableEq, Repr

/-- The registers and the block RAM.  `stage1`, …, `stage4` hold the address and the AXI4 fields
of a stage; they are meaningful when the stage's `Vld` register is set. -/
structure State where
  axiWstate : Wstate
  axiWaddr : BitVec 13
  ddrAdrsTableWr : Bool
  ddrAdrsTableDatain : BitVec 32
  ddrAdrsMapCtrl : BitVec 32
  ddrAdrsMapWrbase0 : BitVec 32
  ddrAdrsMapWrbase1 : BitVec 32
  ddrAdrsMapRdbase0 : BitVec 32
  ddrAdrsMapRdbase1 : BitVec 32
  ddrAdrsMapWrToggle : Bool
  ddrAdrsMapRdToggle : Bool
  stage1Vld : Bool
  stage2Vld : Bool
  stage3Vld : Bool
  stage4Vld : Bool
  stage1 : Mapped
  stage2 : Mapped
  stage3 : Mapped
  stage4 : Mapped
  stage3Map : BitVec 32
  table : BitVec 10 → BitVec 32
  ramReg : BitVec 32
  mapOut : BitVec 32

/-! ### Register addresses -/

def ddrAddrMapStart : BitVec 13 := 0x1000
def ddrAddrMapEnd : BitVec 13 := 0x1400
def ddrAddrMapCtrl : BitVec 13 := 0x1800
def ddrAddrMapWrbase0 : BitVec 13 := 0x1810
def ddrAddrMapWrbase1 : BitVec 13 := 0x1814
def ddrAddrMapRdbase0 : BitVec 13 := 0x1818
def ddrAddrMapRdbase1 : BitVec 13 := 0x181c

/-! ### Combinational signals -/

namespace State

variable (s : State) (i : Inputs)

def stage4Rdy : Bool := !s.stage4Vld || i.map2ddrRdy
def stage3Rdy : Bool := !s.stage3Vld || s.stage4Rdy i
def stage2Rdy : Bool := !s.stage2Vld || s.stage3Rdy i
def stage1Rdy : Bool := !s.stage1Vld || s.stage2Rdy i

def ik2mapRdy : Bool := s.stage1Rdy i

def stage1Enable : Bool := i.ik2mapVld && s.ik2mapRdy i
def stage2Enable : Bool := s.stage1Vld && s.stage2Rdy i
def stage3Enable : Bool := s.stage2Vld && s.stage3Rdy i
def stage4Enable : Bool := s.stage3Vld && s.stage4Rdy i

def axiAwHs : Bool := i.axiAwvalid && s.axiWstate == .wrIdle
def axiWHs : Bool := i.axiWvalid && s.axiWstate == .wrData

def mapWraddrTestMode : BitVec 32 :=
  if s.ddrAdrsMapWrToggle then s.ddrAdrsMapWrbase1 else s.ddrAdrsMapWrbase0

def mapRdaddrTestMode : BitVec 32 :=
  if s.ddrAdrsMapRdToggle then s.ddrAdrsMapRdbase1 else s.ddrAdrsMapRdbase0

def mapWraddr : BitVec 32 :=
  if s.ddrAdrsMapCtrl.getLsbD 0 then s.mapWraddrTestMode else i.ik2map.ikernelId.setWidth 32

def mapRdaddr : BitVec 32 :=
  if s.ddrAdrsMapCtrl.getLsbD 16 then s.mapRdaddrTestMode else i.ik2map.ikernelId.setWidth 32

/-- The address on port B of the table in this clock. -/
def mapAddr (rdwrMode : Bool) : BitVec 10 :=
  if !rdwrMode then (s.mapWraddr i).setWidth 10 else (s.mapRdaddr i).setWidth 10

def axiWnext : Wstate :=
  match s.axiWstate with
  | .wrIdle => if i.axiAwvalid then .wrData else .wrIdle
  | .wrData => if i.axiWvalid then .wrResp else .wrData
  | .wrResp => if i.axiBready then .wrIdle else .wrResp

/-- The AXI-lite write of this clock hits the table. -/
def tableHit : Bool :=
  s.axiWHs i && decide (ddrAddrMapStart ≤ s.axiWaddr) && decide (s.axiWaddr < ddrAddrMapEnd)

/-- The AXI-lite write of this clock hits the register at `addr`. -/
def regHit (addr : BitVec 13) : Bool :=
  s.axiWHs i && s.axiWaddr == addr

end State

/-- `{1'b0, page + map[18:0], offset}`: the sum is 19 bits wide. -/
def mapPage (addr map : BitVec 32) : BitVec 32 :=
  0#1 ++ (addr.extractLsb' 12 19 + map.extractLsb' 0 19) ++ addr.extractLsb' 0 12

/-! ### The clock edge -/

/-- The `axi4mm signals pipeline` block.  `{1'b0, addr[30:0]}` is a truncation to 31 bits and a zero
extension to the 32 bits of the register. -/
def pipelineEdge (s : State) (i : Inputs) (s' : State) : State :=
  if i.reset then
    { s' with stage1Vld := false, stage2Vld := false, stage3Vld := false, stage4Vld := false }
  else
    { s' with
      stage1 := if s.stage1Enable i
        then ⟨(i.ik2map.addr.extractLsb' 0 31).setWidth 32, i.ik2map.axi⟩ else s.stage1
      stage1Vld := s.stage1Enable i || (s.stage1Vld && !s.stage2Rdy i)
      stage2 := if s.stage2Enable i
        then ⟨(s.stage1.addr.extractLsb' 0 31).setWidth 32, s.stage1.axi⟩ else s.stage2
      stage2Vld := s.stage2Enable i || (s.stage2Vld && !s.stage3Rdy i)
      stage3 := if s.stage3Enable i
        then ⟨(s.stage2.addr.extractLsb' 0 31).setWidth 32, s.stage2.axi⟩ else s.stage3
      stage3Map := if s.stage3Enable i then s.mapOut else s.stage3Map
      stage3Vld := s.stage3Enable i || (s.stage3Vld && !s.stage4Rdy i)
      stage4 := if s.stage4Enable i then ⟨mapPage s.stage3.addr s.stage3Map, s.stage3.axi⟩
        else s.stage4
      stage4Vld := s.stage4Enable i || (s.stage4Vld && !i.map2ddrRdy) }

/-- The AXI-lite write blocks and the test mode toggles. -/
def axiLiteEdge (rdwrMode : Bool) (s : State) (i : Inputs) (s' : State) : State :=
  let s' := { s' with axiWaddr := if s.axiAwHs i then i.axiAwaddr else s.axiWaddr }
  if i.reset then
    { s' with
      axiWstate := .wrIdle
      ddrAdrsTableWr := false
      ddrAdrsMapCtrl := 0
      ddrAdrsMapWrbase0 := 0
      ddrAdrsMapWrbase1 := 0
      ddrAdrsMapRdbase0 := 0
      ddrAdrsMapRdbase1 := 0
      ddrAdrsMapWrToggle := false
      ddrAdrsMapRdToggle := false }
  else
    { s' with
      axiWstate := s.axiWnext i
      ddrAdrsTableWr := s.tableHit i
      ddrAdrsTableDatain := if s.tableHit i then i.axiWdata else s.ddrAdrsTableDatain
      ddrAdrsMapCtrl := if s.regHit i ddrAddrMapCtrl then i.axiWdata else s.ddrAdrsMapCtrl
      ddrAdrsMapWrbase0 :=
        if s.regHit i ddrAddrMapWrbase0 then i.axiWdata else s.ddrAdrsMapWrbase0
      ddrAdrsMapWrbase1 :=
        if s.regHit i ddrAddrMapWrbase1 then i.axiWdata else s.ddrAdrsMapWrbase1
      ddrAdrsMapRdbase0 :=
        if s.regHit i ddrAddrMapRdbase0 then i.axiWdata else s.ddrAdrsMapRdbase0
      ddrAdrsMapRdbase1 :=
        if s.regHit i ddrAddrMapRdbase1 then i.axiWdata else s.ddrAdrsMapRdbase1
      ddrAdrsMapWrToggle := (i.ik2mapVld && s.ik2mapRdy i && !rdwrMode) ^^ s.ddrAdrsMapWrToggle
      ddrAdrsMapRdToggle := (i.ik2mapVld && s.ik2mapRdy i && rdwrMode) ^^ s.ddrAdrsMapRdToggle }

/-- The index port A of the table is written at: `{2'b0, axi_waddr[9:2]}`. -/
def State.addra (s : State) : BitVec 10 :=
  (s.axiWaddr.extractLsb' 2 8).setWidth 10

/-- The block RAM: port A writes, port B reads through its two registers. -/
def ramEdge (rdwrMode : Bool) (s : State) (i : Inputs) (s' : State) : State :=
  { s' with
    table := if s.ddrAdrsTableWr then Function.update s.table s.addra s.ddrAdrsTableDatain
      else s.table
    ramReg := s.table (s.mapAddr i rdwrMode)
    mapOut := s.ramReg }

/-- One rising edge of `clk`. -/
def clock (rdwrMode : Bool) (s : State) (i : Inputs) : State :=
  ramEdge rdwrMode s i (axiLiteEdge rdwrMode s i (pipelineEdge s i s))

end Nica.Verilog.DdrAddressMapping
