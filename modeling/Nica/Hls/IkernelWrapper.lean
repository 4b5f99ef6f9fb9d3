import Nica.Hls.Types
import Nica.Lib.Lanes
import Nica.Lib.Run

/-!
# The wrappers of the ikernels (`nica/hls/nica.cpp`)

`nica_step` calls one wrapper for each of the `NUM_IKERNELS` ikernels.  On the way out a wrapper has two units:
`packet_counter::count` copies a metadata from its ikernel to `hdr_ik_to_demux` and counts it, and `link_fifo` copies a
beat to `data_ik_to_demux`.  All wrappers write to the same two streams.

The elements of the shared streams are kept with the number of the wrapper that wrote them (ghost).
-/

namespace Nica.Hls.IkernelWrapper

open Nica.Lib

variable {n : ℕ}

/-- The output ports of the ikernels, the counters and the shared streams. -/
structure State (n : ℕ) where
  metadataOutput : Fin n → Fifo Metadata
  dataOutput : Fin n → Fifo AxiData
  stats : Fin n → BitVec 32
  ikStats : Fin n → BitVec 32
  hdrIkToDemux : Fifo (Fin n × Metadata)
  dataIkToDemux : Fifo (Fin n × AxiData)

def State.init : State n := ⟨fun _ => .nil, fun _ => .nil, fun _ => 0, fun _ => 0, .nil, .nil⟩

/-- `packet_counter::count` of the wrapper of ikernel `i`. -/
def count (i : Fin n) (headerFull : Bool) (s : State n) : State n :=
  let s := { s with ikStats := Function.update s.ikStats i (s.stats i) }
  match (s.metadataOutput i).head with
  | none => s
  | some m =>
    if headerFull then s
    else
      { s with
        metadataOutput := readLane s.metadataOutput i true
        hdrIkToDemux := s.hdrIkToDemux.write (i, m)
        stats := Function.update s.stats i (s.stats i + 1) }

/-- `link_fifo` of the data of ikernel `i`. -/
def linkFifo (i : Fin n) (outFull : Bool) (s : State n) : State n :=
  match (s.dataOutput i).head with
  | none => s
  | some flit =>
    if outFull then s
    else
      { s with
        dataOutput := readLane s.dataOutput i true
        dataIkToDemux := s.dataIkToDemux.write (i, flit) }

/-- One step: a call of one of the units of a wrapper, an output of an ikernel, or a read by the demultiplexer. -/
inductive Act (n : ℕ)
  | count (i : Fin n) (headerFull : Bool)
  | linkFifo (i : Fin n) (outFull : Bool)
  | writeMetadata (i : Fin n) (m : Metadata)
  | writeData (i : Fin n) (b : AxiData)
  | readHdr
  | readData

def step (s : State n) : Act n → State n
  | .count i full => IkernelWrapper.count i full s
  | .linkFifo i full => IkernelWrapper.linkFifo i full s
  | .writeMetadata i m => { s with metadataOutput := putLane s.metadataOutput i (some m) }
  | .writeData i b => { s with dataOutput := putLane s.dataOutput i (some b) }
  | .readHdr => { s with hdrIkToDemux := s.hdrIkToDemux.readIf true }
  | .readData => { s with dataIkToDemux := s.dataIkToDemux.readIf true }

end Nica.Hls.IkernelWrapper
