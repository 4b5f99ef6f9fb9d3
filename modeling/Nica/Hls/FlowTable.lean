import Nica.Hls.Udp
import Mathlib.Data.List.AList

/-!
# The flow table (`nica/hls/flow_table.cpp`)

Each direction has a `flow_table`: the registers that the gateway writes, a hash table from flows to values, and
`ft_wrapper`, which masks the flow of every packet header and looks it up.

The hash table of `ntl` is a finite map from packed flows to packed values that has room for every flow: a flow
that is not there gets an index, which the environment chooses and which is not 0; a flow that is there is not
added again.  The debug commands `FT_SET_ENTRY` and `FT_READ_ENTRY`, which address the slots of the hash table,
are left out, and so are the status codes of the gateway.
-/

namespace Nica.Hls.FlowTable

open Nica.Lib

/-! ### Flows and values -/

/-- `flow`; `LOG_NUM_VMS` is 6. -/
structure Flow where
  sourcePort : BitVec 16
  destPort : BitVec 16
  saddr : BitVec 32
  daddr : BitVec 32
  vmId : BitVec 6
deriving DecidableEq, Repr

namespace Flow

/-- `flow::from_header`. -/
def fromHeader (hdr : HeaderParser) : Flow := ⟨hdr.udp.source, hdr.udp.dest, hdr.ip.saddr, hdr.ip.daddr, 0⟩

/-- `flow_table_fields`. -/
def fieldSrcIp : BitVec 32 := 1
def fieldDstIp : BitVec 32 := 2
def fieldSrcPort : BitVec 32 := 4
def fieldDstPort : BitVec 32 := 8
def fieldVmId : BitVec 32 := 16

/-- `flow::mask`. -/
def mask (fields : BitVec 32) : Flow where
  sourcePort := if fields &&& fieldSrcPort ≠ 0 then 0xffff else 0
  destPort := if fields &&& fieldDstPort ≠ 0 then 0xffff else 0
  saddr := if fields &&& fieldSrcIp ≠ 0 then 0xffffffff else 0
  daddr := if fields &&& fieldDstIp ≠ 0 then 0xffffffff else 0
  vmId := if fields &&& fieldVmId ≠ 0 then 0x3f else 0

/-- `flow::operator&`, which leaves the VM out. -/
def and (f mask : Flow) : Flow :=
  ⟨f.sourcePort &&& mask.sourcePort, f.destPort &&& mask.destPort, f.saddr &&& mask.saddr,
    f.daddr &&& mask.daddr, 0⟩

/-- `ntl::pack<flow>::to_int`. -/
def toInt (f : Flow) : BitVec 102 := f.sourcePort ++ f.destPort ++ f.saddr ++ f.daddr ++ f.vmId

/-- `ntl::pack<flow>::from_int`. -/
def ofInt (d : BitVec 102) : Flow :=
  ⟨d.extractLsb' 86 16, d.extractLsb' 70 16, d.extractLsb' 38 32, d.extractLsb' 6 32, d.extractLsb' 0 6⟩

end Flow

/-- The value of a `flow_table_action`. -/
def actionBits : FlowTableAction → BitVec 2
  | .passthrough => 0
  | .drop => 1
  | .ikernel => 2

/-- `flow_table_action(value)`; nothing writes a value beyond the three. -/
def actionOf (value : ℕ) : FlowTableAction :=
  if value = 2 then .ikernel else if value = 1 then .drop else .passthrough

/-- `ntl::pack<flow_table_value>::to_int`. -/
def valueToInt (v : FlowTableValue) : BitVec 9 := actionBits v.action ++ v.engineId ++ v.ikernelId

/-- `ntl::pack<flow_table_value>::from_int`. -/
def valueOfInt (d : BitVec 9) : FlowTableValue :=
  ⟨actionOf (d.extractLsb' 7 2).toNat, d.extractLsb' 6 1, d.extractLsb' 0 6⟩

/-! ### The registers -/

/-- What the hash table gives to a flow that it adds: the index of its slot plus one. -/
abbrev Index := { i : BitVec 11 // i ≠ 0 }

/-- `class flow_table`, with the hash table as a map. -/
structure Table where
  fields : BitVec 32
  gatewayFlow : Flow
  gatewayResult : FlowTableValue
  gatewayValid : Bool
  hashFlowTable : AList (fun _ : BitVec 102 => BitVec 11 × BitVec 9)

namespace Table

/-- `flow_table::reset`, with an empty hash table. -/
def init : Table := ⟨0, ⟨0, 0, 0, 0, 0⟩, ⟨.passthrough, 0, 0⟩, false, ∅⟩

/-- `flow_table::reg_write`; a port is the low half of the word, and so on. -/
def regWrite (t : Table) (address value : BitVec 32) : Table :=
  if address = 0x0 then { t with fields := value }
  else if address = 0x10 then { t with gatewayFlow := { t.gatewayFlow with saddr := value } }
  else if address = 0x11 then { t with gatewayFlow := { t.gatewayFlow with daddr := value } }
  else if address = 0x12 then
    { t with gatewayFlow := { t.gatewayFlow with sourcePort := value.setWidth 16 } }
  else if address = 0x13 then
    { t with gatewayFlow := { t.gatewayFlow with destPort := value.setWidth 16 } }
  else if address = 0x18 then
    { t with gatewayResult := { t.gatewayResult with action := actionOf value.toNat } }
  else if address = 0x19 then
    { t with gatewayResult := { t.gatewayResult with engineId := value.setWidth 1 } }
  else if address = 0x1a then
    { t with gatewayResult := { t.gatewayResult with ikernelId := value.setWidth 6 } }
  else if address = 0x20 then { t with gatewayValid := value ≠ 0 }
  else t

/-- `gateway_add_entry`: 0 for a flow that is there. -/
def addEntry (t : Table) (index : Index) : Table × BitVec 32 :=
  if t.gatewayFlow.toInt ∈ t.hashFlowTable then (t, 0)
  else
    ({ t with
      hashFlowTable := t.hashFlowTable.insert t.gatewayFlow.toInt (index.1, valueToInt t.gatewayResult) },
      index.1.setWidth 32)

/-- `gateway_delete_entry`: whether the flow was there. -/
def deleteEntry (t : Table) : Table × BitVec 32 :=
  ({ t with hashFlowTable := t.hashFlowTable.erase t.gatewayFlow.toInt },
    if t.gatewayFlow.toInt ∈ t.hashFlowTable then 1 else 0)

/-- `flow_table::reg_read`. -/
def regRead (t : Table) (index : Index) (address : BitVec 32) : Table × BitVec 32 :=
  if address = 0x0 then (t, t.fields)
  else if address = 0x10 then (t, t.gatewayFlow.saddr)
  else if address = 0x11 then (t, t.gatewayFlow.daddr)
  else if address = 0x12 then (t, t.gatewayFlow.sourcePort.setWidth 32)
  else if address = 0x13 then (t, t.gatewayFlow.destPort.setWidth 32)
  else if address = 0x18 then (t, (actionBits t.gatewayResult.action).setWidth 32)
  else if address = 0x19 then (t, t.gatewayResult.engineId.setWidth 32)
  else if address = 0x1a then (t, t.gatewayResult.ikernelId.setWidth 32)
  else if address = 0x20 then (t, if t.gatewayValid then 1 else 0)
  else if address = 0x1 then t.addEntry index
  else if address = 0x2 then t.deleteEntry
  else (t, 0xffffffff)

/-- `GW_WRITE`. -/
def gwWrite : BitVec 31 := 1 <<< 30

/-- The function that `ft_wrapper` gives to the gateway. -/
def gateway (t : Table) (index : Index) (addr : BitVec 31) (data : BitVec 32) : Table × BitVec 32 :=
  if addr &&& gwWrite ≠ 0 then (t.regWrite ((addr &&& ~~~gwWrite).setWidth 32) data, data)
  else t.regRead index ((addr &&& ~~~gwWrite).setWidth 32)

end Table

/-! ### Lookups -/

/-- The flow that `ft_wrapper` looks up for a header. -/
def lookupOf (t : Table) (buf : HeaderBuffer) : Flow := (Flow.fromHeader buf.parse).and (Flow.mask t.fields)

/-- What the hash table answers. -/
def answer (t : Table) (f : Flow) : Option (BitVec 11 × FlowTableValue) :=
  (t.hashFlowTable.lookup f.toInt).map fun e => (e.1, valueOfInt e.2)

/-- What `ft_wrapper` makes of an answer. -/
def resultOf : Option (BitVec 11 × FlowTableValue) → FlowTableResult
  | some (flowId, v) => ⟨v, flowId⟩
  | none => ⟨⟨.passthrough, 0, 0⟩, 0⟩

/-- The result for a header, if it is looked up now. -/
def result (t : Table) (buf : HeaderBuffer) : FlowTableResult := resultOf (answer t (lookupOf t buf))

/-- A flow table with its streams. -/
structure FlowUnit where
  table : Table
  header : Fifo HeaderBuffer
  lookups : Fifo Flow
  results : Fifo (Option (BitVec 11 × FlowTableValue))
  out : Fifo FlowTableResult

namespace FlowUnit

def init : FlowUnit := ⟨.init, .nil, .nil, .nil, .nil⟩

/-- The lookup in `ft_wrapper`. -/
def writeLookup (u : FlowUnit) (lookupsFull : Bool) : FlowUnit :=
  let word := if lookupsFull then none else u.header.head
  { u with
    header := u.header.readIf word.isSome
    lookups := u.lookups.put (word.map (lookupOf u.table)) }

/-- The result in `ft_wrapper`. -/
def writeResult (u : FlowUnit) (resultFull : Bool) : FlowUnit :=
  let word := if resultFull then none else u.results.head
  { u with
    results := u.results.readIf word.isSome
    out := u.out.put (word.map resultOf) }

/-- `ft_wrapper`, apart from the gateway. -/
def ftWrapper (u : FlowUnit) (lookupsFull resultFull : Bool) : FlowUnit :=
  (u.writeLookup lookupsFull).writeResult resultFull

/-- `hash_table`: the next lookup is answered. -/
def hashTable (u : FlowUnit) (resultsFull : Bool) : FlowUnit :=
  let word := if resultsFull then none else u.lookups.head
  { u with
    lookups := u.lookups.readIf word.isSome
    results := u.results.put (word.map (answer u.table)) }

end FlowUnit

end Nica.Hls.FlowTable
