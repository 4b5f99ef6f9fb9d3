import Nica.Hls.Credits
import Nica.Hls.Types

/-!
# The threshold ikernel (`ikernels/hls/threshold.cpp`)

The contexts with their registers, and `net_ingress`, which looks up the ring of the packet's ikernel and
decides whether the packet is passed on.  At the end, `ring_hdrs` of the custom ring unit
(`nica/hls/custom_rx_ring.cpp`), which finds the context of that ring.

`ntl::context_manager` comes from the `ntl` submodule, which is not part of the sources:
`ContextManager` is its interface.
-/

namespace Nica.Hls

open Nica.Lib

/-- `ikernel_id_t`. -/
abbrev IkernelId := BitVec 6

/-- `ntl::context_manager`: a table with an entry for every ikernel id.  An entry is changed in place or by
a command of the gateway. -/
structure ContextManager (C : Type) where
  Table : Type
  get : Table → IkernelId → C
  modify : Table → IkernelId → (C → C) → Table

/-- What the ikernels rely on: a change of one entry is seen there and nowhere else. -/
def ContextManager.Lawful {C : Type} (N : ContextManager C) : Prop :=
  ∀ t i j f, N.get (N.modify t i f) j = if j = i then f (N.get t j) else N.get t j

/-- The table as a function. -/
def ContextManager.plain (C : Type) : ContextManager C :=
  ⟨IkernelId → C, fun t i => t i, fun t i f => Function.update t i (f (t i))⟩

theorem ContextManager.lawful_plain (C : Type) : (ContextManager.plain C).Lawful := by
  intro t i j f
  by_cases h : j = i
  · subst h
    exact (Function.update_self ..).trans (if_pos rfl).symm
  · exact (Function.update_of_ne h ..).trans (if_neg h).symm

/-- `threshold_context`. -/
structure ThresholdContext where
  thresholdValue : BitVec 32
  min : BitVec 32
  max : BitVec 32
  count : BitVec 32
  dropped : BitVec 32
  droppedBackpressure : BitVec 32
  sum : BitVec 64
  ringId : RingId
deriving DecidableEq, Repr

namespace ThresholdContext

def init : ThresholdContext := ⟨0, -1, 0, 0, 0, 0, 0, 0⟩

/-- The registers of a context. -/
inductive Register
  | thresholdMin | thresholdMax | thresholdCount | thresholdSumLo | thresholdSumHi | thresholdValue
  | thresholdDropped | thresholdDroppedBackpressure | thresholdRingId
deriving DecidableEq, Repr

/-- The addresses in `threshold.hpp`. -/
def Register.ofAddress : ℕ → Option Register
  | 0x10 => some .thresholdMin
  | 0x14 => some .thresholdMax
  | 0x18 => some .thresholdCount
  | 0x1c => some .thresholdSumLo
  | 0x20 => some .thresholdSumHi
  | 0x24 => some .thresholdValue
  | 0x28 => some .thresholdDropped
  | 0x29 => some .thresholdDroppedBackpressure
  | 0x2c => some .thresholdRingId
  | _ => none

/-- What a read returns. -/
def read (c : ThresholdContext) : Register → BitVec 32
  | .thresholdMin => c.min
  | .thresholdMax => c.max
  | .thresholdCount => c.count
  | .thresholdSumLo => c.sum.extractLsb' 0 32
  | .thresholdSumHi => c.sum.extractLsb' 32 32
  | .thresholdValue => c.thresholdValue
  | .thresholdDropped => c.dropped
  | .thresholdDroppedBackpressure => c.droppedBackpressure
  | .thresholdRingId => c.ringId.setWidth 32

/-- What a write does; the ring id keeps the low bits of the value. -/
def write (c : ThresholdContext) (v : BitVec 32) : Register → ThresholdContext
  | .thresholdMin => { c with min := v }
  | .thresholdMax => { c with max := v }
  | .thresholdCount => { c with count := v }
  | .thresholdSumLo => { c with sum := c.sum.extractLsb' 32 32 ++ v }
  | .thresholdSumHi => { c with sum := v ++ c.sum.extractLsb' 0 32 }
  | .thresholdValue => { c with thresholdValue := v }
  | .thresholdDropped => { c with dropped := v }
  | .thresholdDroppedBackpressure => { c with droppedBackpressure := v }
  | .thresholdRingId => { c with ringId := v.setWidth 7 }

/-- `threshold::update_stats`. -/
def updateStats (c : ThresholdContext) (v : BitVec 32) (drop backpressure : Bool) : ThresholdContext :=
  { c with
    min := if v < c.min then v else c.min
    max := if c.max < v then v else c.max
    sum := c.sum + v.setWidth 64
    count := c.count + 1
    dropped := if drop && !backpressure then c.dropped + 1 else c.dropped
    droppedBackpressure := if backpressure then c.droppedBackpressure + 1 else c.droppedBackpressure }

end ThresholdContext

namespace Threshold

/-- `GW_DONE` and `GW_FAIL`. -/
inductive GwStatus
  | done | fail
deriving DecidableEq, Repr

variable (N : ContextManager ThresholdContext)

/-- `threshold_contexts::rpc`: the status, the value and the table. -/
def rpc (t : N.Table) (address : ℕ) (v : BitVec 32) (id : IkernelId) (read : Bool) :
    GwStatus × BitVec 32 × N.Table :=
  match ThresholdContext.Register.ofAddress address with
  | some r =>
    if read then (.done, (N.get t id).read r, t)
    else (.done, v, N.modify t id (fun c => c.write v r))
  | none => (.fail, if read then -1 else v, t)

/-- What `net_ingress` does with one packet. -/
structure Ingress where
  contexts : N.Table
  credits : Credits
  ringId : RingId
  pass : Bool
  metadata : Metadata

/-- `threshold::net_ingress` for a packet with its parsed value, when neither `update` had work. -/
def netIngress (contexts : N.Table) (credits : Credits) (tc : TcPipelineDataCounts) (m : Metadata)
    (v : BitVec 32) : Ingress N :=
  let ringId := (N.get contexts m.ikernelId).ringId
  let backpressure := !credits.canTransmit tc m.ikernelId.toNat ringId 4 .HOST
  let drop := v < (N.get contexts m.ikernelId).thresholdValue || backpressure
  let custom := !drop && ringId ≠ 0
  { contexts := N.modify contexts m.ikernelId (fun c => c.updateStats v drop backpressure)
    credits := if custom then credits.newMessage ringId .HOST else credits
    ringId := ringId
    pass := !drop
    metadata := if custom then { m with ringId := ringId, var := .inr ⟨1⟩, length := 4 } else m }

end Threshold

/-! ### The custom ring unit -/

/-- `ring_context`. -/
structure RingContext where
  ethDst : BitVec 48
  ipDst : BitVec 32
  destQpn : BitVec 24
  psn : BitVec 24
deriving DecidableEq, Repr

/-- `ring_context_manager::next_packet`; the table is indexed with `ring_id - 1` and not checked. -/
def nextPacket (contexts : ℤ → RingContext) (ring : RingId) : RingContext × (ℤ → RingContext) :=
  let c := contexts (ringIndex ring)
  (c, Function.update contexts (ringIndex ring) { c with psn := c.psn + 1 })

/-! ### A ring id on its way from the client to the tables -/

/-- The functions that index a table with a ring id. -/
inductive RingUse
  | canTransmit | newMessage | nextPacket
deriving DecidableEq, Repr

/-- A ring id passed to one of them on behalf of an ikernel, and the ikernel to which `cr_create` had
allocated the ring at that moment. -/
structure RingCall where
  use : RingUse
  ikernelId : IkernelId
  ring : RingId
  owner : Option IkernelId
deriving DecidableEq, Repr

/-- The manager's allocation of the rings, the threshold ikernel, the packets between it and the custom ring
unit, and the ring contexts there.  `calls` is ghost state. -/
structure RingPath (N : ContextManager ThresholdContext) where
  owner : RingId → Option IkernelId
  contexts : N.Table
  credits : Credits
  inFlight : List Metadata
  ringContexts : ℤ → RingContext
  calls : List RingCall

inductive RingPathAction
  | crCreate (id : IkernelId) (ring : RingId)
  | crDestroy (ring : RingId)
  | ikRpc (id : IkernelId) (address : ℕ) (value : BitVec 32) (read : Bool)
  | hostCreditsUpdate (full : Bool) (regs : CreditUpdateRegisters)
  | update
  | netIngress (tc : TcPipelineDataCounts) (m : Metadata) (v : BitVec 32)
  | ringHdrs (i : ℕ)

namespace RingPath

variable {N : ContextManager ThresholdContext}

def init (contexts : N.Table) : RingPath N :=
  ⟨fun _ => none, contexts, .init, [], fun _ => ⟨0, 0, 0, 0⟩, []⟩

/-- The ring in the context of an ikernel: `threshold_contexts::find_ring`. -/
def findRing (s : RingPath N) (id : IkernelId) : RingId := (N.get s.contexts id).ringId

/-- A use of a ring id. -/
def call (s : RingPath N) (use : RingUse) (id : IkernelId) (ring : RingId) : RingCall :=
  ⟨use, id, ring, s.owner ring⟩

/-- `cr_create` hands out a ring that is not in use; the pool has 1 to 63. -/
def crCreate (s : RingPath N) (id : IkernelId) (ring : RingId) : RingPath N :=
  if ring ≠ 0 ∧ ring.toNat < 2 ^ 6 ∧ s.owner ring = none then
    { s with owner := Function.update s.owner ring (some id) }
  else s

/-- `cr_destroy`; nothing tells the ikernel. -/
def crDestroy (s : RingPath N) (ring : RingId) : RingPath N :=
  { s with owner := Function.update s.owner ring none }

/-- One packet of `net_ingress`, and its metadata on the way to the host. -/
def netIngress (s : RingPath N) (tc : TcPipelineDataCounts) (m : Metadata) (v : BitVec 32) : RingPath N :=
  let r := Threshold.netIngress N s.contexts s.credits tc m v
  { s with
    contexts := r.contexts
    credits := r.credits
    inFlight := if r.pass then s.inFlight ++ [r.metadata] else s.inFlight
    calls := s.calls ++ s.call .canTransmit m.ikernelId r.ringId ::
      if r.pass ∧ r.ringId ≠ 0 then [s.call .newMessage m.ikernelId r.ringId] else [] }

/-- `custom_rx_ring::ring_hdrs`; the queues of the traffic classes in between may change the order of the
packets. -/
def ringHdrs (s : RingPath N) (i : ℕ) : RingPath N :=
  match s.inFlight[i]? with
  | none => s
  | some m =>
    let s := { s with inFlight := s.inFlight.eraseIdx i }
    if m.ringId ≠ 0 then
      { s with
        ringContexts := (nextPacket s.ringContexts m.ringId).2
        calls := s.calls ++ [s.call .nextPacket m.ikernelId m.ringId] }
    else s

def step (s : RingPath N) : RingPathAction → RingPath N
  | .crCreate id ring => s.crCreate id ring
  | .crDestroy ring => s.crDestroy ring
  | .ikRpc id address value read =>
    { s with contexts := (Threshold.rpc N s.contexts address value id read).2.2 }
  | .hostCreditsUpdate full regs => { s with credits := s.credits.hostCreditsUpdate full regs }
  | .update => { s with credits := s.credits.update.2 }
  | .netIngress tc m v => s.netIngress tc m v
  | .ringHdrs i => s.ringHdrs i

end RingPath

end Nica.Hls
