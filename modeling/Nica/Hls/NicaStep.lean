import Nica.Hls.Demux
import Nica.Hls.IkernelWrapper
import Nica.Hls.Steering

/-!
# One direction of the NIC (`nica/hls/nica.cpp`)

`nica_state::nica_step` with one ikernel: the steering, the wrapper of the ikernel with its links, the demultiplexer,
and behind the ports of the traffic classes the arbiter, the builder and the padding.  The ikernel copies its packets:
it calls `pass_packets`, as most of the ikernels do for the packets from the host, for which there is no custom ring.

`ikernel_wrapper::wrapper` gives the ikernel a copy of its ports, and `link_ports` has a `link_with_reg` for each of
their streams.  `tc_out` and `tc_in` are connected outside; here a link copies each port but the last, which
`passthrough_wrapper` writes.  A blocking write to a full stream is a call that does nothing yet.
-/

namespace Nica.Hls.NicaStep

open Nica.Lib

/-! ### The streams of the ikernel -/

/-- A stream from the wrapper through the ikernel: `bufInput` is the port of the wrapper, `held` what `pass_packets` has
read and not yet written, and the two registers are those of the links. -/
structure Lane (α : Type) where
  bufInput : Fifo α
  linkInput : Option α
  input : Fifo α
  held : Option α
  output : Fifo α
  linkOutput : Option α
deriving DecidableEq, Repr

namespace Lane

variable {α : Type}

def init : Lane α := ⟨.nil, none, .nil, none, .nil, none⟩

/-- `link_with_reg::link` in front of the ikernel. -/
def callLinkInput (outFull : Bool) (l : Lane α) : Lane α :=
  if l.linkInput.isSome && outFull then l
  else
    { l with
      input := l.input.put l.linkInput
      linkInput := l.bufInput.head
      bufInput := l.bufInput.readIf l.bufInput.head.isSome }

/-- Its half of `pass_packets`, and whether the call is through with it. -/
def copy (outFull : Bool) (l : Lane α) : Lane α × Bool :=
  match l.held with
  | none =>
    ({ l with input := l.input.readIf l.input.head.isSome, held := l.input.head }, l.input.head.isNone)
  | some x => if outFull then (l, false) else ({ l with output := l.output.write x, held := none }, true)

/-- `link_with_reg::link` behind the ikernel, and what it writes to the port of the wrapper. -/
def callLinkOutput (outFull : Bool) (l : Lane α) : Lane α × Option α :=
  if l.linkOutput.isSome && outFull then (l, none)
  else
    ({ l with
      linkOutput := l.output.head
      output := l.output.readIf l.output.head.isSome }, l.linkOutput)

end Lane

/-! ### The state -/

variable {k : ℕ} {E : Steering.EnumFirst} {N : Arbiter.Ntl (k + 1)} {M : Merger AxiData}

/-- The number of the ikernel. -/
def ikernel : Fin 1 := ⟨0, Nat.zero_lt_one⟩

/-- The units with the streams between them, for `NUM_TC = k + 1`.  A call of `pass_packets` copies a metadata first and
then a beat; `atData` says that the metadata is done.  The arbiter, the builder and the padding are part of `steering`,
behind `passthrough_wrapper`. -/
structure State (k : ℕ) (E : Steering.EnumFirst) (N : Arbiter.Ntl (k + 1)) (M : Merger AxiData) where
  steering : Steering.State 1 k E N M
  dataUdpToIkernel : Fifo AxiData
  metadata : Lane Metadata
  data : Lane AxiData
  atData : Bool
  wrapper : IkernelWrapper.State 1
  demux : Demux.State
  tcMeta : Fin k → Fifo Metadata
  tcData : Fin k → Fifo AxiData

/-- Everything after reset. -/
def State.init (E : Steering.EnumFirst) (M : Merger AxiData) (sched : N.Sched) : State k E N M where
  steering := .init 1 E M sched
  dataUdpToIkernel := .nil
  metadata := .init
  data := .init
  atData := false
  wrapper := .init
  demux := .init
  tcMeta _ := .nil
  tcData _ := .nil

/-! ### The steps -/

/-- One step: a step of the steering with the units behind the traffic classes, or a call of one of the others. -/
inductive Act (k : ℕ)
  | steering (a : Steering.Act 1 k)
  | linkAxiStream (outFull : Bool)
  | linkMetadataInput (outFull : Bool)
  | linkDataInput (outFull : Bool)
  | passPackets (outFull : Bool)
  | linkMetadataOutput (outFull : Bool)
  | linkDataOutput (outFull : Bool)
  | count (headerFull : Bool)
  | linkFifo (outFull : Bool)
  | demux (a : Demux.Act)
  | tcMeta (p : Fin k) (outFull : Bool)
  | tcData (p : Fin k) (outFull : Bool)
deriving DecidableEq, Repr

/-- The arrivals at the ports of the arbiter, which only the links to them make. -/
def isTcArrival : Steering.Act 1 k → Bool
  | .wrapper (.egress (.arbiter (.arriveMeta _ _))) => true
  | .wrapper (.egress (.arbiter (.arriveData _ _))) => true
  | _ => false

/-- The arrivals at the demultiplexer, which only the wrapper makes. -/
def isDemuxArrival : Demux.Act → Bool
  | .arriveMeta _ => true
  | .arriveData _ => true
  | _ => false

/-- A step of the steering: what `split_udp_hdr_stream` and the crossbar have written stands at the ikernel. -/
def steeringStep (keepBytes : ℕ → BitVec 32) (table : FlowTable.Table) (s : State k E N M) (a : Steering.Act 1 k) :
    State k E N M :=
  let t := Steering.step keepBytes table s.steering a
  { s with
    steering := t
    metadata := { s.metadata with
      bufInput := run Fifo.write s.metadata.bufInput
        ((t.udp.metadataOut ikernel).drop (s.steering.udp.metadataOut ikernel).length) }
    dataUdpToIkernel := run Fifo.write s.dataUdpToIkernel
      ((t.udp.dataOut ikernel).drop (s.steering.udp.dataOut ikernel).length) }

/-- `hls_helpers::link_axi_stream` of the data for the ikernel. -/
def linkAxiStream (outFull : Bool) (s : State k E N M) : State k E N M :=
  let word := dup outFull s.dataUdpToIkernel.head
  { s with
    dataUdpToIkernel := s.dataUdpToIkernel.readIf word.isSome
    data := { s.data with bufInput := s.data.bufInput.put word } }

/-- The next piece of a call of `pass_packets`. -/
def passPackets (outFull : Bool) (s : State k E N M) : State k E N M :=
  if s.atData then
    let (data, through) := s.data.copy outFull
    { s with data, atData := !through }
  else
    let (metadata, through) := s.metadata.copy outFull
    { s with metadata, atData := through }

/-- The link of the metadata behind the ikernel. -/
def linkMetadataOutput (outFull : Bool) (s : State k E N M) : State k E N M :=
  let (metadata, word) := s.metadata.callLinkOutput outFull
  { s with
    metadata
    wrapper := run IkernelWrapper.step s.wrapper (word.toList.map (.writeMetadata ikernel)) }

/-- The link of the data behind the ikernel. -/
def linkDataOutput (outFull : Bool) (s : State k E N M) : State k E N M :=
  let (data, word) := s.data.callLinkOutput outFull
  { s with
    data
    wrapper := run IkernelWrapper.step s.wrapper (word.toList.map (.writeData ikernel)) }

/-- `packet_counter::count`; what it writes stands at the demultiplexer. -/
def count (cfg : Demux.Config) (headerFull : Bool) (s : State k E N M) : State k E N M :=
  let word := dup headerFull (s.wrapper.metadataOutput ikernel).head
  { s with
    wrapper := IkernelWrapper.count ikernel headerFull s.wrapper
    demux := run (Demux.step cfg) s.demux (word.toList.map .arriveMeta) }

/-- `hls_helpers::link_fifo` of the data of the ikernel. -/
def linkFifo (cfg : Demux.Config) (outFull : Bool) (s : State k E N M) : State k E N M :=
  let word := dup outFull (s.wrapper.dataOutput ikernel).head
  { s with
    wrapper := IkernelWrapper.linkFifo ikernel outFull s.wrapper
    demux := run (Demux.step cfg) s.demux (word.toList.map .arriveData) }

/-- A step of the demultiplexer: what it has written stands at the links of the traffic classes. -/
def demuxStep (cfg : Demux.Config) (s : State k E N M) (a : Demux.Act) : State k E N M :=
  let t := Demux.step cfg s.demux a
  { s with
    demux := t
    tcMeta := fun p => run Fifo.write (s.tcMeta p) ((t.tcMeta p).sent.drop (s.demux.tcMeta p).sent.length)
    tcData := fun p => run Fifo.write (s.tcData p) ((t.tcData p).sent.drop (s.demux.tcData p).sent.length) }

/-- The link of the metadata of a traffic class. -/
def linkTcMeta (keepBytes : ℕ → BitVec 32) (table : FlowTable.Table) (p : Fin k) (outFull : Bool) (s : State k E N M) :
    State k E N M :=
  let word := dup outFull (s.tcMeta p).head
  { s with
    tcMeta := readLane s.tcMeta p word.isSome
    steering := run (Steering.step keepBytes table) s.steering
      (word.toList.map fun m => .wrapper (.egress (.arbiter (.arriveMeta p.castSucc m)))) }

/-- The link of the data of a traffic class. -/
def linkTcData (keepBytes : ℕ → BitVec 32) (table : FlowTable.Table) (p : Fin k) (outFull : Bool) (s : State k E N M) :
    State k E N M :=
  let word := dup outFull (s.tcData p).head
  { s with
    tcData := readLane s.tcData p word.isSome
    steering := run (Steering.step keepBytes table) s.steering
      (word.toList.map fun b => .wrapper (.egress (.arbiter (.arriveData p.castSucc b)))) }

def step (cfg : Demux.Config) (keepBytes : ℕ → BitVec 32) (table : FlowTable.Table) (s : State k E N M) :
    Act k → State k E N M
  | .steering a => if isTcArrival a then s else steeringStep keepBytes table s a
  | .linkAxiStream full => linkAxiStream full s
  | .linkMetadataInput full => { s with metadata := s.metadata.callLinkInput full }
  | .linkDataInput full => { s with data := s.data.callLinkInput full }
  | .passPackets full => passPackets full s
  | .linkMetadataOutput full => linkMetadataOutput full s
  | .linkDataOutput full => linkDataOutput full s
  | .count full => count cfg full s
  | .linkFifo full => linkFifo cfg full s
  | .demux a => if isDemuxArrival a then s else demuxStep cfg s a
  | .tcMeta p full => linkTcMeta keepBytes table p full s
  | .tcData p full => linkTcData keepBytes table p full s

end Nica.Hls.NicaStep
