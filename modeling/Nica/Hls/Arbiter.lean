import Nica.Lib.Fifo
import Nica.Lib.Run
import Nica.Hls.Types

/-!
# The transmit arbiter (`nica/hls/arbiter-impl.hpp`)

Each traffic class has a metadata and a data stream.  `schedulePorts` asks the scheduler for the
ports that have a metadata in their peek register; `pickNextPacket` passes these requests to the
scheduler and queues its decisions; `txMeta` serves one decision at a time, forwarding metadata
as long as the granted quantum lasts; `txData` follows it packet by packet through the stream of
port indices `metaToData`.

The units are called in any order.  Everything the environment decides about one call is an
argument of it: which of the streams it writes are full, and the gateway command.  The output
streams hold everything ever written to them.

`ntl::scheduler` and the macro `ALIGN` come from the `ntl` submodule, which is not part of the
sources: `Ntl` is their interface, and the assumptions on them are stated where they are used.
-/

namespace Nica.Hls.Arbiter

open Nica.Lib

/-- A gateway access: the register address, the value and whether it is a read. -/
structure GatewayCmd where
  address : Int
  value : Int
  read : Bool
deriving DecidableEq, Repr

/-- The interface of `ntl` the arbiter uses, for `n` flows: the state of the scheduler, which flows
are active in it, its methods, and the macro `ALIGN`. -/
structure Ntl (n : Nat) where
  Sched : Type
  active : Sched → Fin n → Prop
  update : Sched → Bool × Sched
  schedule : Sched → Fin n → Sched
  updateFlow : Sched → Fin n → Bool → BitVec 32 → Sched
  nextFlow : Sched → Option (Fin n × BitVec 32 × Sched)
  rpc : Sched → Int → Int → Int → Bool → Sched
  align : Nat → Nat → Nat

/-- A decision of the scheduler: a port and the quantum granted to it, in flits of 32 bytes. -/
structure SchedulerCmd (n : Nat) where
  port : Fin n
  quantum : BitVec 32
deriving DecidableEq, Repr

inductive MetaState
  | metaIdle
  | newPacket
deriving DecidableEq, Repr

inductive DataState
  | dataIdle
  | dataStream
deriving DecidableEq, Repr

/-- `arbiter_tx_per_port_stats`. -/
structure TxStats where
  words : BitVec 64
  packets : BitVec 64
deriving DecidableEq, Repr

/-- The registers of the arbiter and the streams of its ports.  `metadataOut` and `out` are all
that was written to the output streams. -/
structure State (n : Nat) (N : Ntl n) where
  sched : N.Sched
  peekMetadata : Fin n → Option Metadata
  txRequests : List (Fin n)
  schedulePortsLast : Fin n
  interruptSent : Fin n → Bool
  schedulerDecision : List (SchedulerCmd n)
  metaState : MetaState
  metaSelectedPort : Fin n
  quota : BitVec 32
  metaToData : List (Fin n)
  dataState : DataState
  dataSelectedPort : Fin n
  txPort : Fin n → TxStats
  events : Fin 4 → Bool
  tcMeta : Fin n → Fifo Metadata
  tcData : Fin n → Fifo AxiData
  metadataOut : List Metadata
  out : List AxiData

variable {n : Nat} {N : Ntl n}

/-- The arbiter after construction. -/
def State.init [NeZero n] (sched : N.Sched) : State n N where
  sched := sched
  peekMetadata _ := none
  txRequests := []
  schedulePortsLast := 0
  interruptSent _ := false
  schedulerDecision := []
  metaState := .metaIdle
  metaSelectedPort := 0
  quota := 0
  metaToData := []
  dataState := .dataIdle
  dataSelectedPort := 0
  txPort _ := ⟨0, 0⟩
  events _ := false
  tcMeta _ := .nil
  tcData _ := .nil
  metadataOut := []
  out := []

/-! ### The gateway -/

def arbiterScheduler : Int := 0x10

/-- `decode_gateway_address`: the flow and the scheduler register of an address. -/
def decodeGatewayAddress (address : Int) : Option (Int × Int) :=
  if arbiterScheduler ≤ address then
    let offset := address - arbiterScheduler
    some (offset / 2, offset % 2)
  else none

/-- `reg_write` and `reg_read`, as far as they change the scheduler. -/
def regAccess (s : State n N) (c : GatewayCmd) : State n N :=
  match decodeGatewayAddress c.address with
  | some (flowId, cmd) => { s with sched := N.rpc s.sched cmd c.value flowId c.read }
  | none => s

/-! ### Scheduling -/

/-- The gateway call at the start of `pick_next_packet`. -/
def serveGateway (gateway : Option GatewayCmd) (s : State n N) : State n N :=
  match gateway with
  | some c => regAccess s c
  | none => s

/-- Pass one request of `tx_requests` to the scheduler. -/
def passRequest (s : State n N) : State n N :=
  match s.txRequests with
  | [] => s
  | req :: rest => { s with txRequests := rest, sched := N.schedule s.sched req }

/-- Queue one decision of the scheduler. -/
def queueDecision (schedulerDecisionFull : Bool) (s : State n N) : State n N :=
  if schedulerDecisionFull then s
  else match N.nextFlow s.sched with
    | none => s
    | some (selectedStream, quota, sched) =>
      { s with
        sched
        schedulerDecision := s.schedulerDecision ++ [⟨selectedStream, quota⟩] }

/-- `pick_next_packet`. -/
def pickNextPacket (gateway : Option GatewayCmd) (schedulerDecisionFull : Bool) (s : State n N) :
    State n N :=
  let s := serveGateway gateway s
  let s' := { s with sched := (N.update s.sched).2 }
  if (N.update s.sched).1 then s'
  else queueDecision schedulerDecisionFull (passRequest s')

/-- `empty_metadata`. -/
def emptyMetadata (s : State n N) (port : Fin n) : Bool :=
  (s.peekMetadata port).isNone

/-- `schedule_ports`: look at one port and request it if it has a packet and no request is
outstanding. -/
def schedulePorts [NeZero n] (txRequestsFull : Bool) (s : State n N) : State n N :=
  if txRequestsFull then s
  else
    let p := s.schedulePortsLast
    let s :=
      if !emptyMetadata s p && !s.interruptSent p then
        { s with
          txRequests := s.txRequests ++ [p]
          interruptSent := Function.update s.interruptSent p true }
      else s
    { s with schedulePortsLast := p + 1 }

/-- `update_peek`: refill the empty peek registers, each from its own port. -/
def updatePeek (s : State n N) : State n N :=
  { s with
    peekMetadata := fun p => match s.peekMetadata p with
      | some m => some m
      | none => (s.tcMeta p).queue.head?
    tcMeta := fun p => match s.peekMetadata p with
      | some _ => s.tcMeta p
      | none => (s.tcMeta p).pop }

/-- `peek_stream_packet_length`: the length of a metadata in flits, `ALIGN(m.length, 32) >> 5`. -/
def flits (N : Ntl n) (m : Metadata) : BitVec 32 :=
  BitVec.ofNat 32 (N.align m.length.toNat 32) >>> 5

/-! ### Transmission -/

/-- What one call of the `tx_meta` state machine does to the outside: nothing, start to serve a
decision, forward a metadata, or stop serving and report the rest of the quantum. -/
inductive MetaEvent (n : Nat)
  | stalled
  | granted (cmd : SchedulerCmd n)
  | forwarded (m : Metadata)
  | evicted (port : Fin n) (nonEmpty : Bool) (quota : BitVec 32)
deriving DecidableEq, Repr

/-- The state machine of `tx_meta`.  Traffic classes 0 to 2 have a trace event each, and event 3
marks an eviction. -/
def txMetaMachine (metadataOutFull metaToDataFull : Bool) (s : State n N) :
    State n N × MetaEvent n :=
  match s.metaState with
  | .metaIdle =>
    match s.schedulerDecision with
    | [] => (s, .stalled)
    | decision :: rest =>
      ({ s with
        schedulerDecision := rest
        metaSelectedPort := decision.port
        quota := decision.quantum
        events := fun e => if e.val = decision.port.val ∧ e.val < 3 then true else s.events e
        metaState := .newPacket }, .granted decision)
  | .newPacket =>
    if metadataOutFull || metaToDataFull then (s, .stalled)
    else
      let p := s.metaSelectedPort
      match s.peekMetadata p with
      | some m =>
        if flits N m ≤ s.quota then
          ({ s with
            quota := s.quota - flits N m
            peekMetadata := Function.update s.peekMetadata p none
            metaToData := if m.emptyPacket then s.metaToData else s.metaToData ++ [p]
            metadataOut := s.metadataOut ++ [m] }, .forwarded m)
        else evict s p true
      | none => evict s p false
where
  /-- Give the port up: it may be requested again, and the scheduler gets the rest of the
  quantum back. -/
  evict (s : State n N) (p : Fin n) (nonEmpty : Bool) : State n N × MetaEvent n :=
    ({ s with
      events := fun e => if e.val = 3 then true else s.events e
      metaState := .metaIdle
      interruptSent := Function.update s.interruptSent p false
      sched := N.updateFlow s.sched p nonEmpty s.quota }, .evicted p nonEmpty s.quota)

/-- The streams a call of `tx_meta` finds full. -/
structure TxMetaStalls where
  txRequestsFull : Bool
  metadataOutFull : Bool
  metaToDataFull : Bool
deriving DecidableEq, Repr

/-- `tx_meta`. -/
def txMeta [NeZero n] (st : TxMetaStalls) (s : State n N) : State n N × MetaEvent n :=
  let s := { s with events := fun _ => false }
  let s := schedulePorts st.txRequestsFull s
  let s := updatePeek s
  txMetaMachine st.metadataOutFull st.metaToDataFull s

/-- `tx_data`: follow `tx_meta` through the port indices and copy one beat at a time. -/
def txData (outFull : Bool) (s : State n N) : State n N :=
  match s.dataState with
  | .dataIdle =>
    match s.metaToData with
    | [] => s
    | p :: rest => { s with metaToData := rest, dataSelectedPort := p, dataState := .dataStream }
  | .dataStream =>
    if outFull then s
    else
      let p := s.dataSelectedPort
      match (s.tcData p).queue with
      | [] => s
      | word :: _ =>
        { s with
          tcData := Function.update s.tcData p (s.tcData p).pop
          out := s.out ++ [word]
          txPort := Function.update s.txPort p
            ⟨(s.txPort p).words + 1,
              if word.last then (s.txPort p).packets + 1 else (s.txPort p).packets⟩
          dataState := if word.last then .dataIdle else .dataStream }

/-! ### Runs -/

/-- One step of the system: a call of a unit, or an arrival on the streams of a port. -/
inductive Act (n : Nat)
  | pickNextPacket (gateway : Option GatewayCmd) (schedulerDecisionFull : Bool)
  | schedulePorts (txRequestsFull : Bool)
  | updatePeek
  | txMeta (st : TxMetaStalls)
  | txData (outFull : Bool)
  | arriveMeta (p : Fin n) (m : Metadata)
  | arriveData (p : Fin n) (word : AxiData)
deriving DecidableEq, Repr

/-- One step. -/
def step [NeZero n] (s : State n N) : Act n → State n N
  | .pickNextPacket gateway full => Arbiter.pickNextPacket gateway full s
  | .schedulePorts full => Arbiter.schedulePorts full s
  | .updatePeek => Arbiter.updatePeek s
  | .txMeta st => (Arbiter.txMeta st s).1
  | .txData full => Arbiter.txData full s
  | .arriveMeta p m => { s with tcMeta := Function.update s.tcMeta p ((s.tcMeta p).write m) }
  | .arriveData p word =>
    { s with tcData := Function.update s.tcData p ((s.tcData p).write word) }

/-- The simplest scheduler with the interface of `ntl`'s, to run the arbiter on concrete inputs:
the active flows wait in line and each grant is the same. -/
def roundRobin (n : Nat) (quantum : BitVec 32) : Ntl n where
  Sched := List (Fin n)
  active line p := p ∈ line
  update line := (false, line)
  schedule line p := if p ∈ line then line else line ++ [p]
  updateFlow line p nonEmpty _ := if nonEmpty && !line.contains p then line ++ [p] else line
  nextFlow
    | [] => none
    | p :: line => some (p, quantum, line)
  rpc line _ _ _ _ := line
  align x a := (x + a - 1) / a * a

/-- The smallest arbiter that has something to decide. -/
theorem neZero_two : NeZero 2 := ⟨by decide⟩

end Nica.Hls.Arbiter
