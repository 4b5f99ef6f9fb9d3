import Nica.Hls.FlowTable
import Nica.Manager.Netdev

/-!
# Steering (`manager/nica.py`, `manager/nica_manager.py` and `nica/hls/flow_table.cpp`)

`FlowTable` of `nica.py` programs a flow table through its gateway, register by register.
`NetdevHardware.attach` and `detach` keep the flow tables of both directions, in which the remote address and
port are zero and masked out.  The hardware looks up the header of every packet in the table of its direction.

A call of the manager is one step here: the registers that it writes are those of the gateway, and a lookup
does not read them.
-/

namespace Nica.Device.Steering

open Nica.Lib Nica.Hls Nica.Hls.FlowTable
open Nica.Manager (Dict Ip Direction)

/-! ### `class FlowTable` -/

/-- `Gateway.write`: the command has the flag `cmd_write`; `cmd_go` is bit 31, which the gateway takes off. -/
def write (t : Table) (i : Index) (address value : BitVec 32) : Table :=
  (t.gateway i (address.setWidth 31 ||| 1 <<< 30) value).1

/-- `Gateway.read`. -/
def read (t : Table) (i : Index) (address : BitVec 32) : Table × BitVec 32 :=
  t.gateway i (address.setWidth 31) 0

/-- `set_flow_table_mask`. -/
def setFlowTableMask (t : Table) (i : Index) (daddr dport saddr sport : Bool) : Table :=
  let mask : BitVec 32 := (if saddr then 1 else 0) ||| (if daddr then 2 else 0) ||| (if sport then 4 else 0) |||
    (if dport then 8 else 0)
  if mask ≠ 0 then write t i 0x0 mask else t

/-- `enter_flow_in_gateway`. -/
def enterFlowInGateway (t : Table) (i : Index) (saddr : Ip) (sport : BitVec 16) (daddr : Ip)
    (dport : BitVec 16) : Table :=
  let t := write t i 0x12 (sport.setWidth 32)
  let t := write t i 0x13 (dport.setWidth 32)
  let t := write t i 0x10 saddr
  write t i 0x11 daddr

/-- `set_flow`. -/
def setFlow (t : Table) (i : Index) (saddr : Ip) (sport : BitVec 16) (daddr : Ip) (dport : BitVec 16)
    (action ikernel ikernelId : ℕ) : Table × BitVec 32 :=
  let t := enterFlowInGateway t i saddr sport daddr dport
  let t := write t i 0x18 (BitVec.ofNat 32 action)
  let t := write t i 0x19 (BitVec.ofNat 32 ikernel)
  let t := write t i 0x1a (BitVec.ofNat 32 ikernelId)
  read t i 0x1

/-- `del_flow`. -/
def delFlow (t : Table) (i : Index) (saddr : Ip) (sport : BitVec 16) (daddr : Ip) (dport : BitVec 16) :
    Table × BitVec 32 :=
  read (enterFlowInGateway t i saddr sport daddr dport) i 0x2

/-! ### The device -/

/-- An ikernel: its index in the list of UUIDs, which has one element, and an id that the hardware can
represent. -/
structure Ikernel where
  ikernelIndex : ℕ
  ikernelId : ℕ
  index_lt : ikernelIndex < 2
  id_lt : ikernelId < 64

/-- A call of `attach` or `detach` that succeeded. -/
inductive Call
  | attach (flow : Manager.Flow) (ikernel : Ikernel)
  | detach (flow : Manager.Flow)

/-- `NetdevHardware` with the flow tables of both directions.  `history` and `answered` are ghost state: the
calls that succeeded, and for every lookup that was answered those that had succeeded then. -/
structure State where
  flows : Dict Manager.Flow Ikernel
  h2n : FlowUnit
  n2h : FlowUnit
  history : List Call
  answered : Direction → List (List Call)

namespace State

def unit (s : State) : Direction → FlowUnit
  | .h2n => s.h2n
  | .n2h => s.n2h

def setUnit (s : State) (u : FlowUnit) : Direction → State
  | .h2n => { s with h2n := u }
  | .n2h => { s with n2h := u }

/-- `NetdevHardware.attach`, and whether it returns; an exception leaves what was written before it. -/
def attach (s : State) (flow : Manager.Flow) (ikernel : Ikernel) (i j : Index) : State × Bool :=
  if flow ∈ s.flows then (s, false)
  else
    let (t, h2nFlowId) :=
      setFlow s.h2n.table i flow.ip flow.port 0 0 2 ikernel.ikernelIndex ikernel.ikernelId
    let s := { s with h2n := { s.h2n with table := t } }
    if h2nFlowId = 0xffffffff ∨ h2nFlowId = 0 then (s, false)
    else
      let (t, n2hFlowId) :=
        setFlow s.n2h.table j 0 0 flow.ip flow.port 2 ikernel.ikernelIndex ikernel.ikernelId
      let s := { s with n2h := { s.n2h with table := t } }
      if n2hFlowId = 0xffffffff ∨ n2hFlowId = 0 then (s, false)
      else ({ s with flows := s.flows.insert flow ikernel }, true)

/-- `NetdevHardware.detach`, and whether it returns. -/
def detach (s : State) (flow : Manager.Flow) (i j : Index) : State × Bool :=
  if flow ∉ s.flows then (s, false)
  else
    let (t, h2nRet) := delFlow s.h2n.table i flow.ip flow.port 0 0
    let (t', n2hRet) := delFlow s.n2h.table j 0 0 flow.ip flow.port
    ({ s with
      h2n := { s.h2n with table := t }
      n2h := { s.n2h with table := t' }
      flows := s.flows.erase flow }, h2nRet ≠ 0xffffffff ∧ n2hRet ≠ 0xffffffff)

/-- The outcome of a call is recorded if it succeeds. -/
def record (c : Call) : State × Bool → State
  | (s, true) => { s with history := s.history ++ [c] }
  | (s, false) => s

end State

/-- What happens next: a call of the manager, a header that arrives, or a step of a unit. -/
inductive Action
  | attach (flow : Manager.Flow) (ikernel : Ikernel) (i j : Index)
  | detach (flow : Manager.Flow) (i j : Index)
  | header (d : Direction) (buf : HeaderBuffer)
  | ftWrapper (d : Direction) (lookupsFull resultFull : Bool)
  | hashTable (d : Direction) (resultsFull : Bool)

def step (s : State) : Action → State
  | .attach flow ikernel i j => .record (.attach flow ikernel) (s.attach flow ikernel i j)
  | .detach flow i j => .record (.detach flow) (s.detach flow i j)
  | .header d buf => s.setUnit { s.unit d with header := (s.unit d).header.write buf } d
  | .ftWrapper d lookupsFull resultFull => s.setUnit ((s.unit d).ftWrapper lookupsFull resultFull) d
  | .hashTable d resultsFull =>
    let word := if resultsFull then none else (s.unit d).lookups.head
    { s.setUnit ((s.unit d).hashTable resultsFull) d with
      answered := Function.update s.answered d (s.answered d ++ (word.map fun _ => s.history).toList) }

/-- The device after `NetdevHardware.__init__`. -/
def init (i j : Index) : State where
  flows := ∅
  h2n := { FlowUnit.init with table := setFlowTableMask .init i false false true true }
  n2h := { FlowUnit.init with table := setFlowTableMask .init j true true false false }
  history := []
  answered _ := []

end Nica.Device.Steering
