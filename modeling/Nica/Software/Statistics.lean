import Nica.Lib.Run
import Mathlib.Logic.Function.Basic

/-!
# The statistics server on a custom ring (`software/StatisticsUdpServer.cpp`)

The server posts receive work requests for the slots of a ring of buffers, polls their completions and processes
the messages.  The adapter fills the buffer of the oldest work request that waits for a message and completes it;
`System` is the server with the adapter.  `posted` are the work requests that wait, `completions` those that have a
message and were not polled yet.

The adapter accepts every work request: `custom_ring_post_recv` ends the program when it does not.  What it returns
is whether the update of the credits succeeded.
-/

namespace Nica.Software.Statistics

open Nica.Lib

/-- `NUM_RECEIVE_WR`. -/
def numReceiveWr : ℕ := 1024

/-- The slot of a work request in the ring. -/
def slot (wrId : BitVec 32) : ℕ := wrId.toNat % numReceiveWr

/-- `StatisticsUdpServer` with `use_custom_ring`. -/
structure Server where
  max : BitVec 32
  min : BitVec 32
  sum : BitVec 32
  count : BitVec 32
  thresholdCount : BitVec 32
  threshold : BitVec 32
  receiveBuffer : ℕ → BitVec 64
  consumerIndex : BitVec 32
  producerIndex : BitVec 32
  postedReceiveBuffers : BitVec 32
  outstandingRecvWrs : BitVec 32

namespace Server

/-- The value that `read_uint` returns. -/
def value (s : Server) : BitVec 32 := (s.receiveBuffer (slot s.consumerIndex)).setWidth 32

/-- `process`. -/
def process (s : Server) : Server :=
  let newData := s.value
  { s with
    consumerIndex := s.consumerIndex + 1
    count := s.count + 1
    sum := s.sum + newData
    max := if s.max < newData then newData else s.max
    min := if newData < s.min then newData else s.min
    thresholdCount := if s.threshold ≤ newData then s.thresholdCount + 1 else s.thresholdCount }

/-- The constructor. -/
def init (threshold : BitVec 32) : Server := ⟨0, 0, 0, 0, 0, threshold, fun _ => 0, 0, 0, 0, 0⟩

end Server

/-- The server with the adapter.  The messages that arrived with their work requests, the number of completions that
were polled and the values that were processed are ghosts. -/
structure System where
  server : Server
  posted : List (BitVec 32)
  completions : List (BitVec 32)
  arrived : List (BitVec 32 × BitVec 64)
  polled : ℕ
  processed : List (BitVec 32)

namespace System

/-- `post_recv`; `credited`: the update of the credits succeeded. -/
def postRecv (numEntries : ℕ) (credited : Bool) (s : System) : System :=
  { s with
    posted := s.posted ++
      (List.range numEntries).map fun i => s.server.postedReceiveBuffers + BitVec.ofNat 32 i
    server :=
      { s.server with
        postedReceiveBuffers := s.server.postedReceiveBuffers + BitVec.ofNat 32 numEntries
        outstandingRecvWrs :=
          if credited then s.server.outstandingRecvWrs + BitVec.ofNat 32 numEntries
          else s.server.outstandingRecvWrs } }

/-- After the constructor, which posts a work request for every slot. -/
def init (threshold : BitVec 32) : System := postRecv numReceiveWr true ⟨.init threshold, [], [], [], 0, []⟩

/-- A message arrives: it goes to the buffer of the oldest work request, if one waits. -/
def arrive (message : BitVec 64) (s : System) : System :=
  match s.posted with
  | [] => s
  | wr :: posted =>
    { s with
      posted
      completions := s.completions ++ [wr]
      server := { s.server with receiveBuffer := Function.update s.server.receiveBuffer (slot wr) message }
      arrived := s.arrived ++ [(wr, message)] }

/-- The poll of `do_receive`, for up to 16 completions of which `n` are returned if there are as many. -/
def poll (n : ℕ) (s : System) : System :=
  let wc := s.completions.take (min n 16)
  { s with
    completions := s.completions.drop (min n 16)
    server :=
      { s.server with
        outstandingRecvWrs := s.server.outstandingRecvWrs - BitVec.ofNat 32 wc.length
        producerIndex := wc.getLast?.getD s.server.producerIndex }
    polled := s.polled + wc.length }

/-- `process(4)`. -/
def process (s : System) : System :=
  { s with server := s.server.process, processed := s.processed ++ [s.server.value] }

/-- The loop `while (producer_index != consumer_index)`; it ends after as many rounds as the two are apart. -/
def processAll (s : System) : System :=
  process^[(s.server.producerIndex - s.server.consumerIndex).toNat] s

/-- The end of `do_receive`: half of the ring is posted again when less than half of it is outstanding. -/
def repost (credited : Bool) (s : System) : System :=
  if s.server.outstandingRecvWrs < BitVec.ofNat 32 (numReceiveWr / 2) then
    postRecv (numReceiveWr / 2) credited s
  else s

/-- `do_receive`. -/
def doReceive (n : ℕ) (credited : Bool) (s : System) : System :=
  repost credited (processAll (poll n s))

end System

/-- One step: a message arrives, or the server polls. -/
inductive Act
  | arrive (message : BitVec 64)
  | doReceive (n : ℕ) (credited : Bool)
deriving DecidableEq, Repr

def step (s : System) : Act → System
  | .arrive message => s.arrive message
  | .doReceive n credited => s.doReceive n credited

end Nica.Software.Statistics
