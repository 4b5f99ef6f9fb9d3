import Nica.Hls.Egress

/-!
# Raw passthrough (`nica/hls/nica-impl.hpp`)

`passthrough_wrapper` gets every beat of the network port and, for every frame, whether the frame passes raw.  It
writes the beats of such a frame to the last traffic class and, at its end, a raw metadata; the other traffic
classes are those of the ikernels.
-/

namespace Nica.Hls.PassthroughWrapper

open Nica.Lib

/-- `raw_to_data`. -/
def rawToData (w : Axi4s) : AxiData := ⟨w.data, w.keep, w.last⟩

/-- `generate_metadata`; the fields that are not set are those of an empty `metadata`. -/
def rawMetadata (length : BitVec 16) : Metadata :=
  ⟨Builder.pktTypeRaw, 0, 0, .inl ⟨0, 0, 0, 0, 0, 0⟩, 0, 0, length <<< 5⟩

inductive WrapperState
  | idle
  | stream
deriving DecidableEq, Repr

variable {k : ℕ} {N : Arbiter.Ntl (k + 1)} {M : Merger AxiData}

/-- The registers and the streams of the wrapper, and the units behind it, for `NUM_TC = k + 1`. -/
structure State (k : ℕ) (N : Arbiter.Ntl (k + 1)) (M : Merger AxiData) where
  rawIn : Fifo Axi4s
  passStream : Fifo Bool
  drop : Bool
  state : WrapperState
  length : BitVec 16
  mlxMetadata : MlxMetadata
  egress : Egress.State (k + 1) N M

/-- Everything after reset. -/
def State.init (M : Merger AxiData) (sched : N.Sched) : State k N M where
  rawIn := .nil
  passStream := .nil
  drop := false
  state := .idle
  length := 0
  mlxMetadata := ⟨0, 0⟩
  egress := .init M sched

/-- Write to the streams of the last traffic class. -/
def writeTc (keepBytes : ℕ → BitVec 32) (data : Option AxiData) (meta_ : Option Metadata)
    (e : Egress.State (k + 1) N M) : Egress.State (k + 1) N M :=
  run (Egress.step keepBytes) e
    ((data.toList.map fun b => .arbiter (.arriveData (Fin.last k) b)) ++
      meta_.toList.map fun m => .arbiter (.arriveMeta (Fin.last k) m))

/-- `passthrough_wrapper::step`. -/
def wrapperStep (keepBytes : ℕ → BitVec 32) (outFull : Bool) (s : State k N M) : State k N M :=
  match s.state with
  | .idle =>
    match s.passStream.head, s.rawIn.head with
    | some pass, some word =>
      if outFull then s
      else
        { s with
          passStream := s.passStream.readIf true
          rawIn := s.rawIn.readIf true
          drop := !pass
          state := if word.last then .idle else .stream
          length := if pass then 1 else s.length
          mlxMetadata := if pass then ⟨word.user, word.id⟩ else s.mlxMetadata
          egress := writeTc keepBytes (if pass then some (rawToData word) else none)
            (if pass && word.last then some (rawMetadata 1) else none) s.egress }
    | _, _ => s
  | .stream =>
    match s.rawIn.head with
    | some word =>
      if outFull then s
      else
        { s with
          rawIn := s.rawIn.readIf true
          state := if word.last then .idle else .stream
          length := s.length + 1
          egress := writeTc keepBytes (if s.drop then none else some (rawToData word))
            (if !s.drop && word.last then some (rawMetadata (s.length + 1)) else none) s.egress }
    | none => s

/-- One step: an arrival at the wrapper, a call of it, or a step of the units behind it. -/
inductive Act (k : ℕ)
  | arriveRaw (w : Axi4s)
  | arrivePass (pass : Bool)
  | wrapperStep (outFull : Bool)
  | egress (a : Egress.Act (k + 1))
deriving DecidableEq, Repr

/-- Whether a step is an arrival at the last traffic class, which only the wrapper makes. -/
def ownArrival : Egress.Act (k + 1) → Bool
  | .arbiter (.arriveMeta p _) => p = Fin.last k
  | .arbiter (.arriveData p _) => p = Fin.last k
  | _ => false

def step (keepBytes : ℕ → BitVec 32) (s : State k N M) : Act k → State k N M
  | .arriveRaw w => { s with rawIn := s.rawIn.write w }
  | .arrivePass pass => { s with passStream := s.passStream.write pass }
  | .wrapperStep full => PassthroughWrapper.wrapperStep keepBytes full s
  | .egress a => if ownArrival a then s else { s with egress := Egress.step keepBytes s.egress a }

end Nica.Hls.PassthroughWrapper
