import Nica.Hls.Memcached

/-!
# The echo ikernel (`ikernels/hls/echo.cpp`)

`echo_pipeline` reads a metadata from the network and then the beats of its packet, which it sends back; the first one
says whether there is to be an answer and gets the client bit cleared, if the ikernel is set up for `sockperf`.  The
packets from the host are discarded and left out here.  What `can_transmit` answers is an input.
-/

namespace Nica.Hls.Echo

open Nica.Lib

inductive EchoState
  | metadata
  | data
deriving DecidableEq, Repr

/-- The registers and streams of the ikernel, with all that was written to the host port. -/
structure State where
  netMetadata : Fifo Metadata
  netData : Fifo AxiData
  state : EchoState
  first : Bool
  respond : Bool
  metadata : Metadata
  respondToSockperf : Bool
  respondToSockperfUpdate : Fifo Bool
  hostMetadata : List Metadata
  hostData : List AxiData

/-- The state before anything has moved, with the two streams of the network port. -/
def State.init (metadata : List Metadata) (data : List AxiData) : State where
  netMetadata := ⟨[], metadata⟩
  netData := ⟨[], data⟩
  state := .metadata
  first := false
  respond := false
  metadata := Memcached.noMetadata
  respondToSockperf := false
  respondToSockperfUpdate := .nil
  hostMetadata := []
  hostData := []

/-- The flags of a `sockperf` message. -/
def flags (d : AxiData) : BitVec 16 := d.data.extractLsb' 176 16

def setFlags (d : AxiData) (flags : BitVec 16) : AxiData :=
  { d with data := d.data.extractLsb' 192 64 ++ flags ++ d.data.extractLsb' 0 176 }

/-- What is done with the first beat of a packet. -/
def firstBeat (canTransmit : Bool) (d : AxiData) (s : State) : AxiData × State :=
  let respond := if s.respondToSockperf then flags d &&& 2 ≠ 0 else true
  (if s.respondToSockperf then setFlags d (flags d &&& ~~~1) else d,
    { s with
      first := false
      respond
      hostMetadata :=
        if respond && canTransmit then
          s.hostMetadata ++ [Memcached.replyMetadata s.metadata s.metadata.length.toNat]
        else s.hostMetadata })

/-- A beat is sent back, if there is to be an answer. -/
def sendBack (d : AxiData) (s : State) : State :=
  { s with
    netData := s.netData.readIf true
    hostData := if s.respond then s.hostData ++ [d] else s.hostData
    state := if d.last then .metadata else .data }

/-- The `switch` of `echo_pipeline`. -/
def packet (canTransmit : Bool) (s : State) : State :=
  match s.state with
  | .metadata =>
    match s.netMetadata.head with
    | none => s
    | some m => { s with netMetadata := s.netMetadata.readIf true, metadata := m, state := .data, first := true }
  | .data =>
    match s.netData.head with
    | none => s
    | some d =>
      if s.first then sendBack (firstBeat canTransmit d s).1 (firstBeat canTransmit d s).2 else sendBack d s

/-- `echo_pipeline`: an update from the gateway is taken up first. -/
def pipeline (canTransmit : Bool) (s : State) : State :=
  packet canTransmit
    { s with
      respondToSockperf := s.respondToSockperfUpdate.head.getD s.respondToSockperf
      respondToSockperfUpdate := s.respondToSockperfUpdate.readIf true }

/-- A call of `echo_pipeline`, or of `reg_write` with a value for `ECHO_RESPOND_TO_SOCKPERF`. -/
inductive Act
  | pipeline (canTransmit : Bool)
  | regWrite (full value : Bool)
deriving DecidableEq, Repr

def step (s : State) : Act → State
  | .pipeline canTransmit => Echo.pipeline canTransmit s
  | .regWrite full value =>
    if full then s else { s with respondToSockperfUpdate := s.respondToSockperfUpdate.write value }

end Nica.Hls.Echo
