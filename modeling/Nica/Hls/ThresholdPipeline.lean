import Nica.Hls.DropOrPass
import Nica.Hls.Threshold

/-!
# The pipeline of the threshold ikernel (`ikernels/hls/threshold.cpp`)

The data from the network is duplicated: `parser` takes the value out of the first beat of every packet, and `egress`
holds the other copy until `net_ingress` has looked at the value.  For an ikernel with a custom ring `egress` sends the
value in the place of the packet.  `drop_or_pass` leaves out what is below the threshold.
-/

namespace Nica.Hls.Threshold

open Nica.Lib

inductive ParserState
  | first
  | rest
deriving DecidableEq, Repr

inductive EgressState
  | idle
  | stream
deriving DecidableEq, Repr

/-- `decision_t`. -/
structure Decision where
  v : BitVec 32
  ringId : RingId
deriving DecidableEq, Repr

/-- The registers and streams of the ikernel, with all that was written to the network port. -/
structure State (N : ContextManager ThresholdContext) where
  netMetadata : Fifo Metadata
  netData : Fifo AxiData
  contexts : N.Table
  credits : Credits
  dataDupToParser : Fifo AxiData
  dataDupToEgress : Fifo AxiData
  parserState : ParserState
  parsed : Fifo (BitVec 32)
  decisions : Fifo Decision
  decisionPass : Fifo Bool
  egressState : EgressState
  egressLastDecision : Decision
  dataEgressToFilter : Fifo AxiData
  dropper : DropOrPass
  metadataOutput : List Metadata
  dataOutput : List AxiData

variable {N : ContextManager ThresholdContext}

/-- The state before anything has moved, with the two streams of the network port. -/
def State.init (contexts : N.Table) (metadata : List Metadata) (data : List AxiData) : State N where
  netMetadata := ⟨[], metadata⟩
  netData := ⟨[], data⟩
  contexts := contexts
  credits := .init
  dataDupToParser := .nil
  dataDupToEgress := .nil
  parserState := .first
  parsed := .nil
  decisions := .nil
  decisionPass := .nil
  egressState := .idle
  egressLastDecision := ⟨0, 0⟩
  dataEgressToFilter := .nil
  dropper := .init
  metadataOutput := []
  dataOutput := []

/-- The value in the first beat of a packet. -/
def value (d : AxiData) : BitVec 32 := d.data.extractLsb' 112 32

/-- `parser`, with `parsed.full()`. -/
def parser (parsedFull : Bool) (s : State N) : State N :=
  match s.dataDupToParser.head with
  | none => s
  | some d =>
    match s.parserState with
    | .first =>
      if parsedFull then s
      else
        { s with
          dataDupToParser := s.dataDupToParser.readIf true
          parsed := s.parsed.write (value d)
          parserState := if d.last then .first else .rest }
    | .rest =>
      { s with
        dataDupToParser := s.dataDupToParser.readIf true
        parserState := if d.last then .first else .rest }

/-- A call of `net_ingress` on a packet. -/
def ingress (tc : TcPipelineDataCounts) (m : Metadata) (v : BitVec 32) (s : State N) : State N :=
  let r := netIngress N s.contexts s.credits tc m v
  { s with
    netMetadata := s.netMetadata.readIf true
    parsed := s.parsed.readIf true
    contexts := r.contexts
    credits := r.credits
    metadataOutput := if r.pass then s.metadataOutput ++ [r.metadata] else s.metadataOutput
    decisions := s.decisions.write ⟨v, r.ringId⟩
    decisionPass := s.decisionPass.write r.pass }

/-- A command of the gateway: `threshold_contexts::rpc`. -/
structure GatewayCmd where
  address : ℕ
  v : BitVec 32
  id : IkernelId
  read : Bool
deriving DecidableEq, Repr

/-- `net_ingress`, with the command that `contexts.update` carries out, if there is one, and whether one of the streams
for the decision is full. -/
def netIngressCall (cmd : Option GatewayCmd) (tc : TcPipelineDataCounts) (full : Bool) (s : State N) : State N :=
  match cmd with
  | some c => { s with contexts := (rpc N s.contexts c.address c.v c.id c.read).2.2 }
  | none =>
    let (busy, credits) := s.credits.update
    if busy then { s with credits }
    else
      match s.netMetadata.head, s.parsed.head with
      | some m, some v => if full then s else ingress tc m v s
      | _, _ => s

/-- The beat with the value. -/
def valueBeat (v : BitVec 32) : AxiData := ⟨v ++ 0#224, 0xf0000000, true⟩

/-- `egress`, with `_data_egress_to_filter.full()`. -/
def egress (full : Bool) (s : State N) : State N :=
  if full then s
  else
    match s.egressState with
    | .idle =>
      match s.decisions.head with
      | none => s
      | some d =>
        { s with
          decisions := s.decisions.readIf true
          egressLastDecision := d
          egressState := .stream
          dataEgressToFilter :=
            if d.ringId ≠ 0 then s.dataEgressToFilter.write (valueBeat d.v) else s.dataEgressToFilter }
    | .stream =>
      match s.dataDupToEgress.head with
      | none => s
      | some d =>
        { s with
          dataDupToEgress := s.dataDupToEgress.readIf true
          dataEgressToFilter :=
            if s.egressLastDecision.ringId = 0 then s.dataEgressToFilter.write d else s.dataEgressToFilter
          egressState := if d.last then .idle else .stream }

/-- `_dropper.filter`. -/
def filter (s : State N) : State N :=
  let (u, io) := s.dropper.filter s.decisionPass.head s.dataEgressToFilter.head
  { s with
    dropper := u
    decisionPass := s.decisionPass.readIf io.readDecision
    dataEgressToFilter := s.dataEgressToFilter.readIf io.readData
    dataOutput := s.dataOutput ++ io.data.toList }

/-- Which unit is called, and what the environment decides in the call; `hostCreditsUpdate` is the register beside the
ikernel. -/
inductive Act
  | dup (anyFull : Bool)
  | parser (parsedFull : Bool)
  | netIngress (cmd : Option GatewayCmd) (tc : TcPipelineDataCounts) (full : Bool)
  | egress (full : Bool)
  | filter
  | hostCreditsUpdate (full : Bool) (regs : CreditUpdateRegisters)

def step (s : State N) : Act → State N
  | .dup anyFull =>
    let word := Hls.dup anyFull s.netData.head
    { s with
      netData := s.netData.readIf word.isSome
      dataDupToParser := s.dataDupToParser.put word
      dataDupToEgress := s.dataDupToEgress.put word }
  | .parser parsedFull => Threshold.parser parsedFull s
  | .netIngress cmd tc full => netIngressCall cmd tc full s
  | .egress full => Threshold.egress full s
  | .filter => Threshold.filter s
  | .hostCreditsUpdate full regs => { s with credits := s.credits.hostCreditsUpdate full regs }

end Nica.Hls.Threshold
