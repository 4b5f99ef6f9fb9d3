import Nica.Hls.DropOrPass
import Nica.Hls.Threshold

/-!
# The passthrough ikernel (`ikernels/hls/passthrough.cpp`)

`intercept_in` forwards the metadata of the packets from the network, for the custom ring of their ikernel if it has
one, and decides whether a packet is dropped because the host is not ready; `drop_or_pass` applies the decisions to the
data.  The packets from the host are copied by `pass_packets`, metadata and data each by itself, which is left out here.
What `can_transmit` answers, and whether `update` had work, are inputs.
-/

namespace Nica.Hls.Passthrough

open Nica.Lib

/-- `passthrough_context`. -/
structure Context where
  ringId : RingId
  ignoreCredits : Bool
deriving DecidableEq, Repr

/-- The registers and streams of the ikernel, with all that was written to the network port. -/
structure State where
  netMetadata : Fifo Metadata
  netData : Fifo AxiData
  contexts : IkernelId → Context
  decisions : Fifo Bool
  dropper : DropOrPass
  metadataOutput : List Metadata
  dataOutput : List AxiData

/-- The state before anything has moved, with the two streams of the network port. -/
def State.init (metadata : List Metadata) (data : List AxiData) : State where
  netMetadata := ⟨[], metadata⟩
  netData := ⟨[], data⟩
  contexts := fun _ => ⟨0, false⟩
  decisions := .nil
  dropper := .init
  metadataOutput := []
  dataOutput := []

/-- What the environment decides in a call of `intercept_in`: the entry that `contexts.update` writes, whether it or
`update` had work, what `can_transmit` answers, and whether the decisions are full. -/
structure InterceptIn where
  write : Option (IkernelId × Context)
  busy : Bool
  canTransmit : Bool
  decisionsFull : Bool
deriving DecidableEq, Repr

/-- The metadata for a custom ring. -/
def ringMetadata (m : Metadata) (ring : RingId) : Metadata := { m with ringId := ring, var := .inr ⟨1⟩ }

/-- `intercept_in`. -/
def interceptIn (i : InterceptIn) (s : State) : State :=
  match i.write with
  | some (id, c) => { s with contexts := Function.update s.contexts id c }
  | none =>
    match s.netMetadata.head with
    | none => s
    | some m =>
      if i.busy || i.decisionsFull then s
      else
        let c := s.contexts m.ikernelId
        let backpressure := c.ringId ≠ 0 && !c.ignoreCredits && !i.canTransmit
        { s with
          netMetadata := s.netMetadata.readIf true
          metadataOutput :=
            if backpressure then s.metadataOutput
            else s.metadataOutput ++ [if c.ringId ≠ 0 then ringMetadata m c.ringId else m]
          decisions := s.decisions.write (!backpressure) }

/-- `dropper.filter`. -/
def filter (s : State) : State :=
  let (u, io) := s.dropper.filter s.decisions.head s.netData.head
  { s with
    dropper := u
    decisions := s.decisions.readIf io.readDecision
    netData := s.netData.readIf io.readData
    dataOutput := s.dataOutput ++ io.data.toList }

/-- Which unit is called. -/
inductive Act
  | interceptIn (i : InterceptIn)
  | filter
deriving DecidableEq, Repr

def step (s : State) : Act → State
  | .interceptIn i => Passthrough.interceptIn i s
  | .filter => Passthrough.filter s

end Nica.Hls.Passthrough
