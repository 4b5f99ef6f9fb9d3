import Nica.Hls.Coap
import Nica.Hls.Scheduler

/-!
# The CoAP ikernel with its scheduler

`read_key` wakes the traffic class of every parsed packet, asks the scheduler for a class to serve, and hands the
class back when its queue is empty or its quota is used up.  `Scheduled` puts the scheduler beside the units of the
ikernel: the answers that `readKey` takes as inputs are now those of the scheduler.
-/

namespace Nica.Hls.Coap

open Nica.Lib

variable {logNumTc : Nat}

/-- The state before anything has moved, with packets of any length waiting on the network ports. -/
def State.ofDatagrams (config : Config) (packets : List Datagram) : State logNumTc :=
  { State.init config [] with
    netMetadata := ⟨[], packets.map Datagram.metadata⟩
    netData := ⟨[], packets.flatMap Datagram.beats⟩ }

/-- The ikernel and its scheduler. -/
structure Scheduled (S : Scheduler (BitVec logNumTc)) where
  unit : State logNumTc
  sched : S.State

variable {S : Scheduler (BitVec logNumTc)}

/-- The class of the oldest packet whose wake-up was not read yet is scheduled. -/
def wake (S : Scheduler (BitVec logNumTc)) (sched : S.State) (tc : Option (BitVec logNumTc)) : S.State :=
  match tc with
  | none => sched
  | some tc => S.schedule sched tc

/-- A call of `read_key` with the scheduler; `i` has what else the environment decides. -/
def scheduledReadKey (hash : List (List Byte) → List Byte) (setData : List Byte → AxiData) (i : ReadKeyIn logNumTc)
    (s : Scheduled S) : Scheduled S :=
  let (schedUpdate, sched) := S.update s.sched
  let i := { i with schedUpdate, nextFlow := none }
  let call (i : ReadKeyIn logNumTc) := step hash setData s.unit (.readKey i)
  if i.busy then ⟨call i, sched⟩
  else
    let sched := wake S sched s.unit.parsedPacketTc.head
    match s.unit.readKey.state with
    | .findNextIkernel =>
      match S.nextFlow sched with
      | none => ⟨call i, sched⟩
      | some (tc, quota, sched) => ⟨call { i with nextFlow := some (tc, quota) }, sched⟩
    | .passRequests => ⟨call i, sched⟩
    | .updateQuota =>
      let u := s.unit.readKey
      ⟨call i, S.updateFlow sched u.currTc u.tcEmpty u.quota⟩

/-- One call of one unit. -/
def scheduledStep (hash : List (List Byte) → List Byte) (setData : List Byte → AxiData) (s : Scheduled S) :
    Act logNumTc → Scheduled S
  | .readKey i => scheduledReadKey hash setData i s
  | a => { s with unit := step hash setData s.unit a }

def Scheduled.init (S : Scheduler (BitVec logNumTc)) (config : Config) (packets : List Datagram) : Scheduled S :=
  ⟨.ofDatagrams config packets, S.start⟩

end Nica.Hls.Coap
