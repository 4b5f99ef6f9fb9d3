import Nica.Hls.CustomRxRing
import Nica.Hls.NicaStep

/-!
# From an ikernel to the host (`nica/hls/nica.cpp`)

`ikernel_wrapper<&ports::net>` has the custom ring behind the ikernel: what `common.wrapper` writes to
`hdr_ik_to_custom_ring` and `data_ik_to_custom_ring` arrives at it, and it writes to the demultiplexer.  The rest of
`nica_step` is that of the other direction: the ports of the traffic classes, the arbiter, the builder and the padding.

`tc_out` and `tc_in` are connected outside; here a link copies each port but the last, which `passthrough_wrapper`
writes.
-/

namespace Nica.Hls.HostPath

open Nica.Lib
open Nica.Hls.NicaStep (isDemuxArrival)

variable {k : ℕ} {B : Merger AxiData} {C : Merger (BitVec 32)} {N : Arbiter.Ntl (k + 1)} {M : Merger AxiData}

/-- The units with the streams between them, for `NUM_TC = k + 1`.  The arbiter, the builder and the padding are part of
`wrapper`, behind `passthrough_wrapper`. -/
structure State (k : ℕ) (B : Merger AxiData) (C : Merger (BitVec 32)) (N : Arbiter.Ntl (k + 1)) (M : Merger AxiData) where
  ring : CustomRxRing.State B C
  demux : Demux.State
  tcMeta : Fin k → Fifo Metadata
  tcData : Fin k → Fifo AxiData
  wrapper : PassthroughWrapper.State k N M

/-- Everything after reset, with the contexts of the rings in their table. -/
def State.init (B : Merger AxiData) (C : Merger (BitVec 32)) (M : Merger AxiData) (contexts : ℤ → RingContext)
    (sched : N.Sched) : State k B C N M where
  ring := .init B C contexts
  demux := .init
  tcMeta _ := .nil
  tcData _ := .nil
  wrapper := .init M sched

/-- One step: a step of the custom ring, arrivals from the ikernel included, or of one of the units behind it. -/
inductive Act (k : ℕ)
  | ring (a : CustomRxRing.Act)
  | demux (a : Demux.Act)
  | tcMeta (p : Fin k) (outFull : Bool)
  | tcData (p : Fin k) (outFull : Bool)
  | wrapper (a : PassthroughWrapper.Act k)
deriving DecidableEq, Repr

/-- The arrivals at the ports of the arbiter, which only the links to them make. -/
def isTcArrival : PassthroughWrapper.Act k → Bool
  | .egress (.arbiter (.arriveMeta _ _)) => true
  | .egress (.arbiter (.arriveData _ _)) => true
  | _ => false

/-- A step of the custom ring: what it has written stands at the demultiplexer. -/
def ringStep (cfg : Demux.Config) (keepBytes : ℕ → BitVec 32) (s : State k B C N M) (a : CustomRxRing.Act) :
    State k B C N M :=
  let t := CustomRxRing.step keepBytes s.ring a
  { s with
    ring := t
    demux := run (Demux.step cfg) s.demux
      (((t.hdrOut.sent.drop s.ring.hdrOut.sent.length).map .arriveMeta) ++
        (t.dataOut.sent.drop s.ring.dataOut.sent.length).map .arriveData) }

/-- A step of the demultiplexer: what it has written stands at the links of the traffic classes. -/
def demuxStep (cfg : Demux.Config) (s : State k B C N M) (a : Demux.Act) : State k B C N M :=
  let t := Demux.step cfg s.demux a
  { s with
    demux := t
    tcMeta := fun p => run Fifo.write (s.tcMeta p) ((t.tcMeta p).sent.drop (s.demux.tcMeta p).sent.length)
    tcData := fun p => run Fifo.write (s.tcData p) ((t.tcData p).sent.drop (s.demux.tcData p).sent.length) }

/-- The link of the metadata of a traffic class. -/
def linkTcMeta (keepBytes : ℕ → BitVec 32) (p : Fin k) (outFull : Bool) (s : State k B C N M) : State k B C N M :=
  let word := dup outFull (s.tcMeta p).head
  { s with
    tcMeta := readLane s.tcMeta p word.isSome
    wrapper := run (PassthroughWrapper.step keepBytes) s.wrapper
      (word.toList.map fun m => .egress (.arbiter (.arriveMeta p.castSucc m))) }

/-- The link of the data of a traffic class. -/
def linkTcData (keepBytes : ℕ → BitVec 32) (p : Fin k) (outFull : Bool) (s : State k B C N M) : State k B C N M :=
  let word := dup outFull (s.tcData p).head
  { s with
    tcData := readLane s.tcData p word.isSome
    wrapper := run (PassthroughWrapper.step keepBytes) s.wrapper
      (word.toList.map fun b => .egress (.arbiter (.arriveData p.castSucc b))) }

def step (cfg : Demux.Config) (keepBytes : ℕ → BitVec 32) (s : State k B C N M) : Act k → State k B C N M
  | .ring a => ringStep cfg keepBytes s a
  | .demux a => if isDemuxArrival a then s else demuxStep cfg s a
  | .tcMeta p full => linkTcMeta keepBytes p full s
  | .tcData p full => linkTcData keepBytes p full s
  | .wrapper a => if isTcArrival a then s else { s with wrapper := PassthroughWrapper.step keepBytes s.wrapper a }

end Nica.Hls.HostPath
