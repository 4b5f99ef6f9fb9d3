import Nica.Lib.Run
import Nica.Hls.Scheduler
import Nica.Hls.Types

/-!
# The packet generator (`ikernels/hls/pktgen.cpp`, `ikernels/hls/pktgen-impl.hpp`)

`data_plane` forwards a packet from the host, keeps its beats in the buffer of its ikernel and sends an update of
the ikernel's context.  `sched_wrapper` applies the updates, asks the scheduler for an ikernel and queues a command
with a copy of its context.  `data_plane` executes a command by sending copies of the packet in the buffer for as
long as the quota lasts, and sends the context back as an update.

`schedWrapper` and `dataPlane` are one call of these units.  The buffers of all ikernels are one memory, as the array
`data` is.  The scheduler (`Scheduler`) and the result of `can_transmit` are not modelled further, and of
`ntl::context_manager` there is the table and the commands that its `update` applies.
-/

namespace Nica.Hls.Pktgen

open Nica.Lib

/-- `pktgen_context`. -/
structure Context where
  curPacket : BitVec 32
  burstSize : BitVec 32
  dataLength : BitVec 32
  metadata : Metadata
deriving DecidableEq, Repr

/-- The ikernel of a context. -/
def Context.id (c : Context) : BitVec 6 := c.metadata.ikernelId

/-- `data_size`. -/
def dataSize : ℕ := 2048 / 32

/-- Where `data[id][offset]` is. -/
def address (id : BitVec 6) (offset : ℕ) : ℕ := dataSize * id.toNat + offset

inductive DataState
  | idle
  | inputPacket
  | duplicate
deriving DecidableEq, Repr

inductive SchedulerState
  | findNextIkernel
  | transmitCommand
deriving DecidableEq, Repr

/-- A command of the gateway to the context table (`pktgen_contexts::rpc`). -/
inductive GatewayCmd
  | read
  | burstSize (id : BitVec 6) (value : BitVec 32)
  | curPacket (id : BitVec 6) (value : BitVec 32)
deriving DecidableEq, Repr

def GatewayCmd.apply (contexts : BitVec 6 → Context) : GatewayCmd → BitVec 6 → Context
  | .read => contexts
  | .burstSize id value => Function.update contexts id { contexts id with burstSize := value }
  | .curPacket id value => Function.update contexts id { contexts id with curPacket := value }

variable {S : Scheduler (BitVec 6)}

/-- The registers and streams of the ikernel, with all that was written to the outputs. -/
structure State (S : Scheduler (BitVec 6)) where
  metadataInput : Fifo Metadata
  dataInput : Fifo AxiData
  sched : S.State
  state : DataState
  metadata : Metadata
  context : Context
  contextUpdates : Fifo Context
  transmitCommands : Fifo (Context × BitVec 32)
  dataOffset : ℕ
  quota : BitVec 32
  data : ℕ → AxiData
  contexts : BitVec 6 → Context
  schedulerState : SchedulerState
  schedIkernelId : BitVec 6
  quotaFromSched : BitVec 32
  metadataOutput : List Metadata
  dataOutput : List AxiData

def Metadata.init : Metadata := ⟨0, 0, 0, .inl ⟨0, 0, 0, 0, 0, 0⟩, 0, 0, 0⟩

/-- After reset, with the bursts programmed; `dataLength` is not set by the constructor. -/
def State.init (S : Scheduler (BitVec 6)) (burst dataLength : BitVec 6 → BitVec 32) : State S where
  metadataInput := .nil
  dataInput := .nil
  sched := S.start
  state := .idle
  metadata := Metadata.init
  context := ⟨0, 0, 0, Metadata.init⟩
  contextUpdates := .nil
  transmitCommands := .nil
  dataOffset := 0
  quota := 0
  data := fun _ => ⟨0, 0, false⟩
  contexts := fun id => ⟨0, burst id, dataLength id, Metadata.init⟩
  schedulerState := .findNextIkernel
  schedIkernelId := 0
  quotaFromSched := 0
  metadataOutput := []
  dataOutput := []

/-! ### `pktgen::sched_wrapper` -/

/-- `std::min`. -/
def stdMin (a b : BitVec 32) : BitVec 32 := if b < a then b else a

/-- An update of a context takes effect. -/
def applyUpdate (c : Context) (s : State S) : State S :=
  let cur := stdMin c.curPacket (s.contexts c.id).burstSize
  { s with
    contexts := Function.update s.contexts c.id
      { s.contexts c.id with dataLength := c.dataLength, curPacket := cur, metadata := c.metadata }
    sched := if cur ≠ 0 then S.schedule s.sched c.id else s.sched }

/-- The case `FIND_NEXT_IKERNEL` with an ikernel to serve. -/
def select (id : BitVec 6) (quota : BitVec 32) (sched : S.State) (s : State S) : State S :=
  { s with sched, schedIkernelId := id, quotaFromSched := quota, schedulerState := .transmitCommand }

/-- The case `TRANSMIT_COMMAND`. -/
def transmitCommand (full : Bool) (s : State S) : State S :=
  if full then s
  else
    { s with
      transmitCommands := s.transmitCommands.write (s.contexts s.schedIkernelId, s.quotaFromSched)
      schedulerState := .findNextIkernel }

/-- The unit behind the commands of the gateway and of the scheduler. -/
def serve (full : Bool) (s : State S) : State S :=
  match s.contextUpdates.head with
  | some c => applyUpdate c { s with contextUpdates := s.contextUpdates.readIf true }
  | none =>
    match s.schedulerState with
    | .findNextIkernel =>
      match S.nextFlow s.sched with
      | none => s
      | some (id, quota, sched) => transmitCommand full (select id quota sched s)  -- the case falls through
    | .transmitCommand => transmitCommand full s

/-- `sched_wrapper`: the command that `contexts.update` applies, if any, and whether the commands are full. -/
def schedWrapper (gateway : Option GatewayCmd) (full : Bool) (s : State S) : State S :=
  match gateway with
  | some cmd => { s with contexts := cmd.apply s.contexts }
  | none =>
    let (busy, sched) := S.update s.sched
    if busy then { s with sched } else serve full { s with sched }

/-! ### `pktgen::data_plane` -/

/-- `check_quantum_complete`. -/
def checkQuantumComplete (canTransmit : Bool) (s : State S) : State S :=
  if s.context.dataLength ≤ s.quota ∧ s.context.curPacket ≠ 0 ∧ canTransmit = true then
    { s with dataOffset := 0, state := .duplicate }
  else
    { s with
      contextUpdates := s.contextUpdates.write s.context
      sched := S.updateFlow s.sched s.context.id (s.context.curPacket ≠ 0) s.quota
      state := .idle }

/-- The metadata of a packet is forwarded. -/
def takeMetadata (m : Metadata) (s : State S) : State S :=
  { s with
    metadataInput := s.metadataInput.readIf true
    metadata := m
    metadataOutput := s.metadataOutput ++ [m]
    state := .inputPacket
    dataOffset := 0 }

/-- The case `INPUT_PACKET`. -/
def inputPacket (s : State S) : State S :=
  match s.dataInput.head with
  | none => s
  | some d =>
    let offset := s.dataOffset + 1
    { s with
      dataInput := s.dataInput.readIf true
      data := Function.update s.data (address s.metadata.ikernelId s.dataOffset) d
      dataOffset := offset
      dataOutput := s.dataOutput ++ [d]
      contextUpdates :=
        if d.last then s.contextUpdates.write ⟨-1, 0, BitVec.ofNat 32 offset, s.metadata⟩ else s.contextUpdates
      state := if d.last then .idle else .inputPacket }

/-- A command is taken up. -/
def takeCommand (context : Context) (quota : BitVec 32) (s : State S) : State S :=
  { s with transmitCommands := s.transmitCommands.readIf true, context, quota }

/-- The metadata of a copy, and the count of those to come. -/
def startCopy (s : State S) : State S :=
  { s with
    metadataOutput := s.metadataOutput ++
      [{ s.context.metadata with ipIdentification := s.context.curPacket.setWidth 16 }]
    context := { s.context with curPacket := s.context.curPacket - 1 } }

/-- At the start of a copy, its metadata goes first. -/
def beginCopy (s : State S) : State S := if s.dataOffset = 0 then startCopy s else s

/-- A beat of a copy. -/
def sendBeat (s : State S) : State S :=
  { s with
    dataOutput := s.dataOutput ++ [s.data (address s.context.id s.dataOffset)]
    dataOffset := s.dataOffset + 1 }

/-- The end of a copy. -/
def chargeQuota (s : State S) : State S := { s with quota := s.quota - s.context.dataLength }

/-- The case `DUPLICATE`. -/
def duplicate (canTransmit : Bool) (s : State S) : State S :=
  let s := sendBeat (beginCopy s)
  if s.context.dataLength.toNat ≤ s.dataOffset then checkQuantumComplete canTransmit (chargeQuota s) else s

/-- `data_plane`, with the result of `can_transmit` if it is asked. -/
def dataPlane (canTransmit : Bool) (s : State S) : State S :=
  match s.state with
  | .idle =>
    match s.metadataInput.head with
    | some m => inputPacket (takeMetadata m s)  -- the case falls through
    | none =>
      match s.transmitCommands.head with
      | none => s
      | some (context, quota) => checkQuantumComplete canTransmit (takeCommand context quota s)
  | .inputPacket => inputPacket s
  | .duplicate => duplicate canTransmit s

/-! ### Runs -/

/-- One step: an arrival from the host, or a call of one of the units. -/
inductive Act
  | arriveMetadata (m : Metadata)
  | arriveData (d : AxiData)
  | schedWrapper (gateway : Option GatewayCmd) (full : Bool)
  | dataPlane (canTransmit : Bool)
deriving DecidableEq, Repr

def step (s : State S) : Act → State S
  | .arriveMetadata m => { s with metadataInput := s.metadataInput.write m }
  | .arriveData d => { s with dataInput := s.dataInput.write d }
  | .schedWrapper gateway full => Pktgen.schedWrapper gateway full s
  | .dataPlane canTransmit => Pktgen.dataPlane canTransmit s

end Nica.Hls.Pktgen
