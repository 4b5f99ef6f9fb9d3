import Nica.Hls.Types
import Nica.Lib.Lanes
import Nica.Lib.Run

/-!
# The transmit demultiplexer (`nica/hls/demux.hpp`)

Between the ikernels and the arbiter: `dup` copies every metadata, `portSelector` makes the port of its traffic
class and whether it has data, a second `dup` copies the port, `demuxMeta` writes the metadata to its port, and
`demuxData` copies the data packet of every metadata that has one to the same port.

`NUM_TC` is a parameter.  The width of a port index is made by `ntl::log2`, which is not part of the sources: it
is a parameter too.  A port that is not there takes nothing, as the `switch` over the ports has no case for it.
-/

namespace Nica.Hls.Demux

open Nica.Lib

/-- The parameters of the build: `NUM_TC`, and `ntl::log2`. -/
structure Config where
  numTc : ℕ
  log2 : ℕ → ℕ

namespace Config

variable (cfg : Config)

/-- `num_ports`; the last port is that of the passthrough traffic. -/
def numPorts : ℕ := cfg.numTc - 1

/-- `num_streams_width`. -/
def numStreamsWidth : ℕ := if cfg.log2 cfg.numPorts ≠ 0 then cfg.log2 cfg.numPorts else 1

/-- `select_port`, as an `index_t`. -/
def selectPort (m : Metadata) : ℕ :=
  let ikId := m.ikernelId.toNat &&& (cfg.numTc - 1)
  (if cfg.numPorts ≤ ikId then ikId - cfg.numPorts else ikId) % 2 ^ cfg.numStreamsWidth

/-- The traffic class whose occupancy `ikernel::can_transmit` looks at. -/
def trafficClass (id : BitVec 6) : ℕ :=
  let trafficClass := id.toNat &&& (cfg.numTc - 1)
  if trafficClass = cfg.numTc - 1 then 0 else trafficClass

/-- The part of `ikernel::can_transmit` that is about the traffic classes. -/
def tcHasRoom (metaCounts dataCounts : ℕ → BitVec 10) (id : BitVec 6) (len : BitVec 11) : Bool :=
  !((metaCounts (cfg.trafficClass id)).toNat > 256 - 1 ∨
    ((dataCounts (cfg.trafficClass id)).toNat : ℤ) > 256 - (len.toNat >>> 5 : ℕ))

end Config

inductive MetaState
  | metaIdle
  | writeMetadata
deriving DecidableEq, Repr

inductive DataState
  | idle
  | stream
deriving DecidableEq, Repr

/-- `class demultiplexor` with the streams before and behind it. -/
structure State where
  metadataIn : Fifo Metadata
  dataIn : Fifo AxiData
  metaToSelectPort : Fifo Metadata
  metaToOutput : Fifo Metadata
  selectedPorts : Fifo ℕ
  emptyStream : Fifo Bool
  portToMetaOutput : Fifo ℕ
  portToDataOutput : Fifo ℕ
  metaState : MetaState
  metaPort : ℕ
  state : DataState
  dataPort : ℕ
  tcMeta : ℕ → Fifo Metadata
  tcData : ℕ → Fifo AxiData

/-- The demultiplexer after reset. -/
def State.init : State where
  metadataIn := .nil
  dataIn := .nil
  metaToSelectPort := .nil
  metaToOutput := .nil
  selectedPorts := .nil
  emptyStream := .nil
  portToMetaOutput := .nil
  portToDataOutput := .nil
  metaState := .metaIdle
  metaPort := 0
  state := .idle
  dataPort := 0
  tcMeta _ := .nil
  tcData _ := .nil

variable (cfg : Config)

/-- `dup` of the metadata. -/
def dupMeta (anyFull : Bool) (s : State) : State :=
  let word := dup anyFull s.metadataIn.head
  { s with
    metadataIn := s.metadataIn.readIf word.isSome
    metaToSelectPort := s.metaToSelectPort.put word
    metaToOutput := s.metaToOutput.put word }

/-- `port_selector`. -/
def portSelector (anyFull : Bool) (s : State) : State :=
  let word := dup anyFull s.metaToSelectPort.head
  { s with
    metaToSelectPort := s.metaToSelectPort.readIf word.isSome
    selectedPorts := s.selectedPorts.put (word.map cfg.selectPort)
    emptyStream := s.emptyStream.put (word.map Metadata.emptyPacket) }

/-- `dup` of the ports. -/
def dupPorts (anyFull : Bool) (s : State) : State :=
  let word := dup anyFull s.selectedPorts.head
  { s with
    selectedPorts := s.selectedPorts.readIf word.isSome
    portToMetaOutput := s.portToMetaOutput.put word
    portToDataOutput := s.portToDataOutput.put word }

/-- Write to a port, if it is there. -/
def putPort {α : Type} (f : ℕ → Fifo α) (port : ℕ) (x : Option α) : ℕ → Fifo α :=
  if port < cfg.numPorts then putLane f port x else f

/-- `demux_meta`. -/
def demuxMeta (portFull : Bool) (s : State) : State :=
  match s.metaState with
  | .metaIdle =>
    match s.portToMetaOutput.head with
    | none => s
    | some port =>
      { s with
        portToMetaOutput := s.portToMetaOutput.readIf true
        metaPort := port
        metaState := .writeMetadata }
  | .writeMetadata =>
    match s.metaToOutput.head with
    | none => s
    | some m =>
      if portFull then s
      else
        { s with
          metaToOutput := s.metaToOutput.readIf true
          tcMeta := putPort cfg s.tcMeta s.metaPort (some m)
          metaState := .metaIdle }

/-- `demux_data`. -/
def demuxData (portFull : Bool) (s : State) : State :=
  match s.state with
  | .idle =>
    match s.emptyStream.head, s.portToDataOutput.head with
    | some empty, some port =>
      { s with
        emptyStream := s.emptyStream.readIf true
        portToDataOutput := s.portToDataOutput.readIf true
        dataPort := port
        state := if empty then .idle else .stream }
    | _, _ => s
  | .stream =>
    match s.dataIn.head with
    | none => s
    | some flit =>
      if portFull then s
      else
        { s with
          dataIn := s.dataIn.readIf true
          tcData := putPort cfg s.tcData s.dataPort (some flit)
          state := if flit.last then .idle else .stream }

/-- One step: a call of a unit with the streams that it finds full, or an arrival. -/
inductive Act
  | dupMeta (anyFull : Bool)
  | portSelector (anyFull : Bool)
  | dupPorts (anyFull : Bool)
  | demuxMeta (portFull : Bool)
  | demuxData (portFull : Bool)
  | arriveMeta (m : Metadata)
  | arriveData (b : AxiData)
deriving DecidableEq, Repr

def step (s : State) : Act → State
  | .dupMeta full => Demux.dupMeta full s
  | .portSelector full => Demux.portSelector cfg full s
  | .dupPorts full => Demux.dupPorts full s
  | .demuxMeta full => Demux.demuxMeta cfg full s
  | .demuxData full => Demux.demuxData cfg full s
  | .arriveMeta m => { s with metadataIn := s.metadataIn.write m }
  | .arriveData b => { s with dataIn := s.dataIn.write b }

end Nica.Hls.Demux
