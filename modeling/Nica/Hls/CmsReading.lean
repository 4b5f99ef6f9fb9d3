import Nica.Hls.Cms

/-!
# Reading the heap of the Count-Min sketch ikernel (`ikernels/hls/cms-ikernel.cpp`)

A write to the register `READ_TOP_K` asks for the pairs of the heap.  `readHeap` takes `k_value` of them for each
request and puts them on a stream, from which the host takes them through the register `TOPK_READ_NEXT_VALUE`, the
entity first and then the frequency.  These calls share no state with the sketch.

The gateway (`ntl`) calls `reg_read` again as long as it answers `GW_BUSY`.
-/

namespace Nica.Hls.CmsReading

open Nica.Lib
open Nica.Hls.Cms (ValueAndFrequency)

/-- `INITIAL`, `ENTITY`, `FREQUENCY`. -/
inductive ReadState
  | initial
  | entity
  | frequency
deriving DecidableEq, Repr

/-- The members of `cms` that these calls use; `heapOut` is the stream from the heap. -/
structure State where
  heapOut : Fifo ValueAndFrequency
  topKReadRequest : Fifo Bool
  topKValues : Fifo ValueAndFrequency
  readState : ReadState
  readingHeap : Bool
  readingIndex : BitVec 32
  k : BitVec 32
  nextTopKPair : ValueAndFrequency
deriving DecidableEq, Repr

/-- Static members are zero. -/
def State.init : State := ⟨.nil, .nil, .nil, .initial, false, 0, 0, ⟨0, 0⟩⟩

/-- What a call from the gateway returns. -/
inductive Status
  | done
  | fail
  | busy
deriving DecidableEq, Repr

/-- `READ_TOP_K`. -/
def readTopK : ℤ := 0

/-- `TOPK_READ_NEXT_VALUE`. -/
def topKReadNextValue : ℤ := 1

/-- `READ_K_VALUE`. -/
def readKValue : ℤ := 2

/-- The part of `cms::reg_write` that is about reading. -/
def regWrite (address : ℤ) (s : State) : State :=
  if address = readTopK then { s with topKReadRequest := s.topKReadRequest.write true } else s

/-- `cms::reg_read`: the value and the result; a call that is busy leaves the value as it is. -/
def regRead (address : ℤ) (s : State) : State × Option (BitVec 32) × Status :=
  if address = readKValue then (s, some s.k, .done)
  else if address ≠ topKReadNextValue then (s, some (-1), .fail)
  else
    match s.readState with
    | .initial =>
      match s.topKValues.head with
      | none => (s, none, .busy)
      | some kv =>
        ({ s with topKValues := s.topKValues.readIf true, nextTopKPair := kv, readState := .frequency },
          some kv.entity, .done)
    | .entity => ({ s with readState := .frequency }, some s.nextTopKPair.entity, .done)
    | .frequency => ({ s with readState := .initial }, some s.nextTopKPair.frequency, .done)

/-- The first part of `cms::read_heap`: between two readings, `_k` follows the input. -/
def sampleK (kValue : BitVec 32) (s : State) : State := if s.readingHeap then s else { s with k := kValue }

/-- The second part: a request is taken up. -/
def takeRequest (s : State) : State :=
  if !s.topKReadRequest.empty && !s.readingHeap then
    { s with topKReadRequest := s.topKReadRequest.readIf true, readingHeap := true, readingIndex := 0 }
  else s

/-- The third part: the reading ends, or a pair is moved. -/
def movePair (kValue : BitVec 32) (valuesFull : Bool) (s : State) : State :=
  if s.readingIndex = kValue then { s with readingHeap := false }
  else
    match s.heapOut.head with
    | none => s
    | some kv =>
      if s.readingHeap && !valuesFull then
        { s with
          heapOut := s.heapOut.readIf true
          topKValues := s.topKValues.write kv
          readingIndex := s.readingIndex + 1 }
      else s

/-- `cms::read_heap`. -/
def readHeap (kValue : BitVec 32) (valuesFull : Bool) (s : State) : State :=
  movePair kValue valuesFull (takeRequest (sampleK kValue s))

/-- One step: a call, or a pair that the heap offers. -/
inductive Act
  | readHeap (valuesFull : Bool)
  | regWrite (address : ℤ)
  | regRead (address : ℤ)
  | arrive (kv : ValueAndFrequency)
deriving DecidableEq, Repr

def step (kValue : BitVec 32) (s : State) : Act → State
  | .readHeap valuesFull => readHeap kValue valuesFull s
  | .regWrite address => regWrite address s
  | .regRead address => (regRead address s).1
  | .arrive kv => { s with heapOut := s.heapOut.write kv }

/-- What the host gets from `TOPK_READ_NEXT_VALUE`. -/
def answer (s : State) : Act → List (BitVec 32)
  | .regRead address =>
    if address = topKReadNextValue ∧ (regRead address s).2.2 = .done then (regRead address s).2.1.toList else []
  | _ => []

end Nica.Hls.CmsReading
