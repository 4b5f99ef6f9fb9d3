import Mathlib.Data.List.AList
import Nica.Lib.Prog
import Nica.Lib.IntervalSet
import Nica.Manager.IdPool

/-!
# The manager's device (`manager/nica_manager.py`, `manager/nica.py`)

`Netdev` and `NetdevHardware` with the `Ikernel` objects they hand out, as programs over one `State` that
raise Python's exceptions.  A class is a record and a method a program; an object is a reference into
`heap`, and its two sets are kept per reference in `flowsOf` and `customRingsOf`.

A command to the hardware is one `access`: the environment has fixed in `outcomes` what each command
returns, or that it raises, and then whether it took effect first.

The fields from `caller` on are ghost state: they are written and never read by the programs.  They record
through which connection an ikernel, a flow or a ring was created and how often it was released.
-/

namespace Nica.Manager

open Nica.Lib

/-- A Python dictionary. -/
abbrev Dict (K V : Type) := AList (fun _ : K => V)

/-- The values of `errno` that the manager itself uses, and those that a device file can return. -/
inductive Errno
  | EPERM | ENOENT | EINTR | EIO | ENXIO | EBADF | EAGAIN | ENOMEM | EFAULT | ENODEV | EINVAL | ENOSYS
  | ENOTSOCK | EADDRINUSE | ETIMEDOUT
deriving DecidableEq

/-- The exceptions that reach a handler.  `OSError(errno.ENOSPC)` of the ID pool has no errno, since its
only argument is the message. -/
inductive Exn
  | osError (errno : Option Errno)
  | timeoutError | keyError | indexError | attributeError | typeError | assertionError | structError
  | unicodeDecodeError
deriving DecidableEq

/-- `exception(errno_code)`. -/
def exception (errno : Errno) : Exn := .osError (some errno)

/-- How a command to the hardware fails: a gateway that stays busy, or the device file. -/
inductive Fault
  | timeout
  | io (errno : Errno)
deriving DecidableEq

def Fault.exn : Fault → Exn
  | .timeout => .timeoutError
  | .io errno => exception errno

/-- What a command to the hardware comes to: the value that it returns, or a fault before or after it
took effect. -/
inductive Outcome
  | value (v : BitVec 32)
  | failed (fault : Fault) (done : Bool)
deriving DecidableEq

abbrev Ip := BitVec 32
abbrev Uuid := BitVec 128

/-- A flow `(ip, port)`. -/
structure Flow where
  ip : Ip
  port : BitVec 16
deriving DecidableEq

/-- A MAC address argument: the text that `set_mac` splits at the colons, or the `bytes(6)` of a VM that
has not configured one. -/
inductive Mac
  | text (mac : BitVec 48)
  | bytes
deriving DecidableEq

/-- A reference to an `Ikernel` object. -/
abbrev Ref := ℕ

/-- `class Ikernel`, without its sets.  The last three are ghost: the connection, whether `destroy` was
called on the object and returned, and how often its id and region were given back. -/
structure Ikernel where
  ikernelIndex : ℕ
  ikernelId : ℤ
  base : ℕ
  logDramSize : ℕ
  owner : ℕ
  destroyed : Bool
  released : ℕ
deriving DecidableEq

/-- A value of `NetdevHardware.flows`; `serial` (ghost) is its place in `flowLog`. -/
structure FlowEntry where
  ikernel : Ref
  h2nFlowId : BitVec 32
  n2hFlowId : BitVec 32
  serial : ℕ
deriving DecidableEq

/-- The result part of a hardware flow table entry. -/
structure FlowTarget where
  ikernelIndex : ℕ
  ikernelId : ℤ
deriving DecidableEq

/-- A custom ring context of the hardware. -/
structure RingContext where
  mac : BitVec 48
  dstIp : Ip
  qpn : BitVec 32
deriving DecidableEq

/-- A register access through the gateway of an ikernel; a read has no value. -/
structure Access where
  ikernel : Ref
  ikernelId : ℤ
  address : BitVec 32
  value : Option ℤ
deriving DecidableEq

/-- A write to the credit register, with the record that the ring had then (ghost). -/
structure CreditWrite where
  ring : ℤ
  maxMsn : ℕ
  reset : Bool
  serial : Option ℕ
deriving DecidableEq

/-- One flow that was attached: through which connection, and how often it was released. -/
structure FlowRecord where
  flow : Flow
  creator : ℕ
  released : ℕ
deriving DecidableEq

/-- One custom ring that was created: through which connection and for which ikernel, and how often it
was released. -/
structure RingRecord where
  ring : ℤ
  creator : ℕ
  ikernel : Ref
  released : ℕ
deriving DecidableEq

/-- The elements of `self.ikernels` of a connection: objects for a client, ids for a VM. -/
inductive Held
  | object (r : Ref)
  | id (i : ℤ)
deriving DecidableEq

/-- `NICAManagerProtocol`, or `NICAManagerHypervisorProtocol` with the traffic class of its VM. -/
inductive Kind
  | client
  | hypervisor (trafficClass : Option (Fin 3))
deriving DecidableEq

/-- A protocol object. -/
structure Conn where
  kind : Kind
  isOpen : Bool
  ikernels : List Held
  customRingIkernels : Dict ℤ Ref
  customRingMac : Mac
  customRingIp : Option Ip
deriving DecidableEq

/-- The hardware, as far as the manager writes it; the writes to the address mapping, to the ikernels'
registers and to the credit register are kept in order. -/
structure Hardware where
  h2n : Dict Flow FlowTarget
  n2h : Dict Flow FlowTarget
  ringContexts : Dict ℤ RingContext
  mmu : List (ℤ × ℕ)
  gateway : List Access
  credits : List CreditWrite
  outcomes : List Outcome

/-- The manager with its hardware. -/
structure State where
  -- `Netdev` and `NetdevHardware`
  ifname : List (BitVec 8)
  ipAddr : Ip
  customRingMac : BitVec 48
  uuids : List Uuid
  ikernelIds : IDPool
  customRingIds : IDPool
  ikernels : Dict ℤ Ref
  flows : Dict Flow FlowEntry
  freeList : IntervalSet
  -- the `Ikernel` objects made so far, and their attributes
  objects : ℕ
  heap : Ref → Ikernel
  flowsOf : Ref → List Flow
  customRingsOf : Ref → List ℤ
  hw : Hardware
  -- the protocol objects made so far; the event loop runs
  connections : ℕ
  conns : ℕ → Conn
  running : Bool
  -- ghost
  caller : ℕ
  flowCount : ℕ
  flowLog : ℕ → FlowRecord
  rings : Dict ℤ ℕ
  ringCount : ℕ
  ringLog : ℕ → RingRecord

/-- Programs of the manager. -/
abbrev Mgr := Prog State Exn

/-! ### The hardware -/

/-- One command to the hardware.  With no outcome left in the list it succeeds with the value 1. -/
def access (effect : BitVec 32 → Hardware → Hardware) : Mgr (BitVec 32) := do
  match (← get).hw.outcomes with
  | [] =>
    modify (fun s => { s with hw := effect 1 s.hw })
    return 1
  | .value v :: os =>
    modify (fun s => { s with hw := effect v { s.hw with outcomes := os } })
    return v
  | .failed fault done :: os =>
    modify (fun s =>
      { s with hw := if done then effect 1 { s.hw with outcomes := os } else { s.hw with outcomes := os } })
    throw fault.exn

/-- The two directions have a flow table each. -/
inductive Direction
  | h2n | n2h
deriving DecidableEq

def Hardware.table (hw : Hardware) : Direction → Dict Flow FlowTarget
  | .h2n => hw.h2n
  | .n2h => hw.n2h

def Hardware.setTable (hw : Hardware) (t : Dict Flow FlowTarget) : Direction → Hardware
  | .h2n => { hw with h2n := t }
  | .n2h => { hw with n2h := t }

/-- A returned flow id that `attach` takes for an error. -/
def refusedAdd (v : BitVec 32) : Bool := v = 0xffffffff ∨ v = 0

/-- A returned value that `detach` takes for an error. -/
def refusedDelete (v : BitVec 32) : Bool := v = 0xffffffff

/-- `FlowTable.set_flow` with the action `FT_IKERNEL`; the direction fixes which half of the key is the
flow. -/
def setFlow (d : Direction) (flow : Flow) (target : FlowTarget) : Mgr (BitVec 32) :=
  access (fun v hw => if refusedAdd v then hw else hw.setTable ((hw.table d).insert flow target) d)

/-- `FlowTable.del_flow`. -/
def delFlow (d : Direction) (flow : Flow) : Mgr (BitVec 32) :=
  access (fun v hw => if refusedDelete v then hw else hw.setTable ((hw.table d).erase flow) d)

/-- `MMU.set_mapping`: a page-aligned address, written as a page number. -/
def setMapping (ikernelId : ℤ) (ddrAddress : ℕ) : Mgr Unit := do
  if ddrAddress % 2 ^ 12 ≠ 0 then throw .assertionError
  let _ ← access (fun _ hw => { hw with mmu := hw.mmu ++ [(0x9000 + 4 * ikernelId, ddrAddress >>> 12)] })

/-- `Gateway.write` of an ikernel's gateway; a value that is no 32-bit number cannot be packed. -/
def gatewayWrite (r : Ref) (ikernelId : ℤ) (address : BitVec 32) (value : ℤ) : Mgr Unit := do
  if value < 0 ∨ 2 ^ 32 ≤ value then throw .structError
  let _ ← access (fun _ hw => { hw with gateway := hw.gateway ++ [⟨r, ikernelId, address, some value⟩] })

/-- `Gateway.read` of an ikernel's gateway. -/
def gatewayRead (r : Ref) (ikernelId : ℤ) (address : BitVec 32) : Mgr (BitVec 32) :=
  access (fun _ hw => { hw with gateway := hw.gateway ++ [⟨r, ikernelId, address, none⟩] })

/-- `CustomRing.set_custom_ring`. -/
def setCustomRing (ring : ℤ) (mac : Mac) (dstIp : Ip) (qpn : BitVec 32) : Mgr Unit :=
  match mac with
  | .bytes => throw .typeError
  | .text mac => do
    let _ ← access (fun _ hw =>
      { hw with ringContexts := hw.ringContexts.insert ring ⟨mac, dstIp, qpn⟩ })

/-- `NICA.update_credits`: ring, message number and reset flag packed into one word. -/
def updateCredits (ring : ℤ) (maxMsn : ℕ) (reset : Bool) : Mgr Unit := do
  if 2 ^ 32 ≤ (ring.toNat ||| maxMsn <<< 7 ||| reset.toNat <<< 23) then throw .structError
  let serial := (← get).rings.lookup ring
  let _ ← access (fun _ hw => { hw with credits := hw.credits ++ [⟨ring, maxMsn, reset, serial⟩] })

/-! ### DRAM -/

/-- The first component of at least the requested size. -/
def firstFit (reqSize : ℕ) (freeList : IntervalSet) : Option (ℕ × ℕ) :=
  freeList.find? (fun p => reqSize ≤ p.2 - p.1)

/-- `NetdevHardware.allocate_dram`. -/
def allocateDram (logSize : ℕ) : Mgr (ℕ × ℕ) := do
  if logSize = 0 then return (0, 0)
  let logSize := if logSize < 12 then 12 else logSize
  match firstFit (2 ^ logSize) (← get).freeList with
  | some (base, _) =>
    modify (fun s => { s with freeList := s.freeList.cut base (base + 2 ^ logSize) })
    return (base, logSize)
  | none => throw (exception .ENOMEM)

/-- `NetdevHardware.deallocate_dram`. -/
def deallocateDram (base logSize : ℕ) : Mgr Unit :=
  if logSize = 0 then return ()
  else modify (fun s => { s with freeList := s.freeList.insert base (base + 2 ^ logSize) })

/-! ### Ikernels -/

/-- The UUID that `UUIDS` calls memcached. -/
def memcachedUuid : Uuid := 0xd68adb304d194f3e8542fc184db75bf7#128

/-- The condition of `allocate_ikernel` on the ids of a traffic class. -/
def tcCondition (trafficClass : Option (Fin 3)) (id : ℤ) : Bool :=
  match trafficClass with
  | none => true
  | some tc => if tc = 0 then id % 4 = 0 ∨ id % 4 = 3 else id % 4 = (tc : ℕ)

/-- `self.ikernel_ids.get_id(condition)`.  One of any four ids in a row meets the condition. -/
def getIkernelId (trafficClass : Option (Fin 3)) : Mgr ℤ := do
  let (id, pool) := (← get).ikernelIds.getId 3 (tcCondition trafficClass)
  modify (fun s => { s with ikernelIds := pool })
  match id with
  | some id => return id
  | none => throw (.osError none)

/-- `NetdevHardware.allocate_ikernel` for the new object `r`; no id or region is given back when a later
step raises. -/
def allocateIkernel (r : Ref) (uuid : Uuid) (logDramSize : ℕ) (trafficClass : Option (Fin 3)) :
    Mgr Ikernel := do
  match (← get).uuids.findIdx? (fun u => u = uuid) with
  | none => throw (exception .ENOENT)
  | some index =>
    let id ← getIkernelId trafficClass
    let (base, logSize) ← allocateDram logDramSize
    setMapping id base
    if uuid = memcachedUuid then gatewayWrite r id 0 ((logDramSize : ℤ) - 6)
    return ⟨index, id, base, logSize, (← get).caller, false, 0⟩

/-- The new object `r` is made and registered under its id. -/
def State.addIkernel (s : State) (r : Ref) (ikernel : Ikernel) : State :=
  { s with
    objects := s.objects + 1
    heap := Function.update s.heap r ikernel
    flowsOf := Function.update s.flowsOf r []
    customRingsOf := Function.update s.customRingsOf r []
    ikernels := s.ikernels.insert ikernel.ikernelId r }

/-- `Netdev.ik_create`. -/
def ikCreate (uuid : Uuid) (logDramSize : ℕ) (trafficClass : Option (Fin 3)) : Mgr Ref := do
  let r := (← get).objects
  let ikernel ← allocateIkernel r uuid logDramSize trafficClass
  modify (fun s => s.addIkernel r ikernel)
  return r

/-- `Netdev.get_ikernel`. -/
def getIkernel (ikernelId : ℤ) : Mgr Ref := do
  match (← get).ikernels.lookup ikernelId with
  | some r => return r
  | none => throw (exception .ENOENT)

/-- The release of the object `r` is recorded. -/
def State.countRelease (s : State) (r : Ref) : State :=
  { s with
    heap := Function.update s.heap r { s.heap r with released := (s.heap r).released + 1 } }

/-- `NetdevHardware.deallocate_ikernel`: the region that is given back is the one of the object that is
registered under the id now. -/
def deallocateIkernel (ikernelId : ℤ) : Mgr Unit := do
  let r ← getIkernel ikernelId
  modify (fun s => { s with ikernelIds := s.ikernelIds.releaseId ikernelId })
  let k := (← get).heap r
  deallocateDram k.base k.logDramSize
  modify (fun s => s.countRelease r)

/-! ### Flows -/

/-- `self.flows[flow] = (ikernel, h2n_flow_id, n2h_flow_id)`. -/
def State.registerFlow (s : State) (flow : Flow) (r : Ref) (h2nFlowId n2hFlowId : BitVec 32) : State :=
  { s with
    flows := s.flows.insert flow ⟨r, h2nFlowId, n2hFlowId, s.flowCount⟩
    flowLog := Function.update s.flowLog s.flowCount ⟨flow, s.caller, 0⟩
    flowCount := s.flowCount + 1 }

/-- `del self.flows[flow]`. -/
def State.unregisterFlow (s : State) (flow : Flow) : State :=
  match s.flows.lookup flow with
  | some e =>
    { s with
      flows := s.flows.erase flow
      flowLog := Function.update s.flowLog e.serial
        { s.flowLog e.serial with released := (s.flowLog e.serial).released + 1 } }
  | none => s

/-- `NetdevHardware.attach`. -/
def attach (flow : Flow) (r : Ref) : Mgr (BitVec 32 × BitVec 32) := do
  let s ← get
  if flow ∈ s.flows then throw (exception .EADDRINUSE)
  let target : FlowTarget := ⟨(s.heap r).ikernelIndex, (s.heap r).ikernelId⟩
  let h2nFlowId ← setFlow .h2n flow target
  if refusedAdd h2nFlowId then throw (exception .EINVAL)
  let n2hFlowId ← setFlow .n2h flow target
  -- the entry in the first table stays
  if refusedAdd n2hFlowId then throw (exception .EINVAL)
  modify (fun s => s.registerFlow flow r h2nFlowId n2hFlowId)
  return (h2nFlowId, n2hFlowId)

/-- `NetdevHardware.detach`. -/
def detach (flow : Flow) : Mgr Unit := do
  if flow ∉ (← get).flows then throw (exception .ENOENT)
  let h2nRet ← delFlow .h2n flow
  let n2hRet ← delFlow .n2h flow
  modify (fun s => s.unregisterFlow flow)
  if refusedDelete h2nRet ∨ refusedDelete n2hRet then throw (exception .ENOENT)

/-- `Ikernel.attach`. -/
def ikernelAttach (r : Ref) (flow : Flow) : Mgr (BitVec 32 × BitVec 32) := do
  let flowIds ← attach flow r
  modify (fun s => { s with flowsOf := Function.update s.flowsOf r ((s.flowsOf r).insert flow) })
  return flowIds

/-- `Ikernel.detach`. -/
def ikernelDetach (r : Ref) (flow : Flow) : Mgr Unit := do
  if flow ∉ (← get).flowsOf r then throw (exception .ENOENT)
  detach flow
  modify (fun s => { s with flowsOf := Function.update s.flowsOf r (remove (s.flowsOf r) flow) })

/-- `Netdev.bind_local`. -/
def State.bindLocal (s : State) (flow : Flow) : Flow :=
  if flow.ip = 0 then ⟨s.ipAddr, flow.port⟩ else flow

/-- `Netdev.ik_attach`. -/
def ikAttach (ikernelId : ℤ) (flow : Flow) : Mgr (BitVec 32 × BitVec 32) := do
  let flow := (← get).bindLocal flow
  ikernelAttach (← getIkernel ikernelId) flow

/-- `Netdev.ik_detach`. -/
def ikDetach (ikernelId : ℤ) (flow : Flow) : Mgr Unit := do
  let flow := (← get).bindLocal flow
  ikernelDetach (← getIkernel ikernelId) flow

/-! ### Custom rings -/

/-- `self.custom_ring_ids.get_id()`. -/
def getRingId : Mgr ℤ := do
  let (id, pool) := (← get).customRingIds.getId 0 (fun _ => true)
  modify (fun s => { s with customRingIds := pool })
  match id with
  | some id => return id
  | none => throw (.osError none)

/-- The new ring is recorded. -/
def State.registerRing (s : State) (ring : ℤ) (r : Ref) : State :=
  { s with
    rings := s.rings.insert ring s.ringCount
    ringLog := Function.update s.ringLog s.ringCount ⟨ring, s.caller, r, 0⟩
    ringCount := s.ringCount + 1 }

/-- `self.custom_ring_ids.release_id(ring_id)`, with the record of the ring that has the id. -/
def State.releaseRing (s : State) (ring : ℤ) : State :=
  if ring ∈ s.customRingIds.idsInUse then
    match s.rings.lookup ring with
    | some n =>
      { s with
        customRingIds := s.customRingIds.releaseId ring
        rings := s.rings.erase ring
        ringLog := Function.update s.ringLog n
          { s.ringLog n with released := (s.ringLog n).released + 1 } }
    | none => { s with customRingIds := s.customRingIds.releaseId ring }
  else s

/-- `NetdevHardware.cr_create`; of its ikernel it keeps nothing but the record. -/
def crCreate (r : Ref) (qpn : BitVec 32) (mac : Option Mac) (dstIp : Option Ip) : Mgr ℤ := do
  let ring ← getRingId
  let s ← get
  setCustomRing ring (mac.getD (.text s.customRingMac)) (dstIp.getD s.ipAddr) qpn
  updateCredits ring 0 true
  modify (fun s => s.registerRing ring r)
  return ring

/-- `NetdevHardware.cr_destroy`. -/
def crDestroy (ring : ℤ) : Mgr Unit := do
  setCustomRing ring (.text 0) 0 0
  modify (fun s => s.releaseRing ring)

/-- `Ikernel.cr_create`. -/
def ikernelCrCreate (r : Ref) (qpn : BitVec 32) : Mgr ℤ := do
  let ring ← crCreate r qpn none none
  modify (fun s =>
    { s with customRingsOf := Function.update s.customRingsOf r ((s.customRingsOf r).insert ring) })
  return ring

/-- `Ikernel.cr_destroy`. -/
def ikernelCrDestroy (r : Ref) (ring : ℤ) : Mgr Unit := do
  crDestroy ring
  if ring ∉ (← get).customRingsOf r then throw .keyError
  modify (fun s =>
    { s with customRingsOf := Function.update s.customRingsOf r (remove (s.customRingsOf r) ring) })

/-! ### Destroying and using an ikernel -/

/-- The object `r` is destroyed. -/
def State.markDestroyed (s : State) (r : Ref) : State :=
  { s with heap := Function.update s.heap r { s.heap r with destroyed := true } }

/-- `Ikernel.destroy`. -/
def destroy (r : Ref) : Mgr Unit := do
  Prog.drain (fun s => s.flowsOf r) (ikernelDetach r) ((← get).flowsOf r).length
  Prog.drain (fun s => s.customRingsOf r) (ikernelCrDestroy r) ((← get).customRingsOf r).length
  deallocateIkernel ((← get).heap r).ikernelId
  modify (fun s => s.markDestroyed r)

/-- `Netdev.ik_destroy`: no exception of an unknown id leaves it. -/
def ikDestroy (ikernelId : ℤ) : Mgr (Option Errno) := do
  tryCatch
    (do
      match (← get).ikernels.lookup ikernelId with
      | none => throw .keyError
      | some r =>
        destroy r
        modify (fun s => { s with ikernels := s.ikernels.erase ikernelId })
        return none)
    (fun e => if e = .keyError then return some .ENOENT else throw e)

/-- `NetdevHardware.invoke_ikernel_rpc`; the hardware has one ikernel. -/
def invokeIkernelRpc (r : Ref) (address value : BitVec 32) (write : Bool) : Mgr (BitVec 32) := do
  let k := (← get).heap r
  if k.ikernelIndex ≠ 0 then throw .indexError
  if write then
    gatewayWrite r k.ikernelId address value.toNat
    return value
  else gatewayRead r k.ikernelId address

/-- `Netdev.ik_rpc`. -/
def ikRpc (ikernelId : ℤ) (address value : BitVec 32) (write : Bool) : Mgr (BitVec 32) := do
  invokeIkernelRpc (← getIkernel ikernelId) address value write

/-- `NetdevHardware.shutdown`. -/
def shutdown : Mgr Unit := do
  ((← get).ikernels.entries.map Sigma.snd).forM destroy
  let _ ← access (fun _ hw => hw)
  let _ ← access (fun _ hw => hw)

end Nica.Manager
