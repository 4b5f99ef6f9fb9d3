import Nica.Hls.Credits
import Nica.Manager.IdPool

/-!
# Custom rings from the client to the ikernel

The parts that share the credits of a custom ring: the client's `custom_ring` object (`libnica/nica.cpp`),
the manager's `cr_create`, `cr_destroy` and `update_credits` (`manager/nica_manager.py`, `manager/nica.py`),
the credit register, and the ikernel that samples it and counts its messages.

Which id `cr_create` takes from the pool of rings is left open: any that is not in use.  `posted` and
`messages` are ghost state: the receive buffers posted on a ring and the messages sent on it since it was
created.
-/

namespace Nica.Libnica

open Nica.Lib Nica.Hls Nica.Manager

/-- The counters of `struct custom_ring`. -/
structure CustomRing where
  credits : BitVec 16
  msnDiff : BitVec 16
deriving DecidableEq, Repr

/-- A `custom_ring` as its constructor leaves it. -/
def CustomRing.new : CustomRing := ⟨0, 0⟩

/-- The word that `NICA.update_credits` writes. -/
def creditWord (ring : RingId) (maxMsn : BitVec 16) (reset : Bool) : BitVec 32 :=
  BitVec.ofNat 32 (ring.toNat ||| maxMsn.toNat <<< 7 ||| reset.toNat <<< 23)

/-- The fields that the hardware finds in the word. -/
def creditRegisters (word : BitVec 32) : CreditUpdateRegisters :=
  ⟨word.extractLsb' 0 7, word.extractLsb' 7 16, word.getLsbD 23⟩

structure RingSystem where
  customRingIds : List RingId
  client : RingId → CustomRing
  register : CreditUpdateRegisters
  credits : Credits
  posted : RingId → ℕ
  messages : RingId → ℕ

inductive RingAction
  | crCreate (ring : RingId)
  | crDestroy (ring : RingId)
  | postRecvAttr (ring : RingId) (numOfEntries : ℕ) (updateCredits : Bool)
  | hostCreditsUpdate
  | update
  | transmit (tc : TcPipelineDataCounts) (id : ℕ) (ring : RingId) (len : ℕ)

namespace RingSystem

def init : RingSystem := ⟨[], fun _ => .new, .init, .init, fun _ => 0, fun _ => 0⟩

/-- `NICA.update_credits`: the register holds the last word written. -/
def updateCredits (s : RingSystem) (ring : RingId) (maxMsn : BitVec 16) (reset : Bool) : RingSystem :=
  { s with register := creditRegisters (creditWord ring maxMsn reset) }

/-- `custom_ring_create` and `NetdevHardware.cr_create`. -/
def crCreate (s : RingSystem) (ring : RingId) : RingSystem :=
  if ring = 0 ∨ ring ∈ s.customRingIds then s
  else
    updateCredits
      { s with
        customRingIds := ring :: s.customRingIds
        client := Function.update s.client ring .new
        posted := Function.update s.posted ring 0
        messages := Function.update s.messages ring 0 }
      ring 0 true

/-- `NetdevHardware.cr_destroy`; the credits stay as they are. -/
def crDestroy (s : RingSystem) (ring : RingId) : RingSystem :=
  { s with customRingIds := remove s.customRingIds ring }

/-- `custom_ring_post_recv_attr`.  The manager does not know a ring that was destroyed, and answers the
update of its credits with `ENOENT`. -/
def postRecvAttr (s : RingSystem) (ring : RingId) (numOfEntries : ℕ) (updateCredits : Bool) : RingSystem :=
  let cr := s.client ring
  let cr : CustomRing := { cr with credits := cr.credits + BitVec.ofNat 16 numOfEntries }
  let cr : CustomRing := if updateCredits then ⟨cr.credits + cr.msnDiff, 0⟩ else cr
  let s :=
    { s with
      client := Function.update s.client ring cr
      posted := Function.update s.posted ring (s.posted ring + numOfEntries) }
  if updateCredits ∧ ring ∈ s.customRingIds then s.updateCredits ring cr.credits false else s

/-- An ikernel that sends a message on a custom ring when `can_transmit` lets it. -/
def transmit (s : RingSystem) (tc : TcPipelineDataCounts) (id : ℕ) (ring : RingId) (len : ℕ) : RingSystem :=
  if ring ≠ 0 ∧ s.credits.canTransmit tc id ring len .HOST then
    { s with
      credits := s.credits.newMessage ring .HOST
      messages := Function.update s.messages ring (s.messages ring + 1) }
  else s

/-- `credit_updates.full()` for a queue of the given depth. -/
def full (depth : ℕ) (s : RingSystem) : Bool := depth ≤ s.credits.creditUpdates.queue.length

def step (depth : ℕ) (s : RingSystem) : RingAction → RingSystem
  | .crCreate ring => s.crCreate ring
  | .crDestroy ring => s.crDestroy ring
  | .postRecvAttr ring numOfEntries updateCredits => s.postRecvAttr ring numOfEntries updateCredits
  | .hostCreditsUpdate => { s with credits := s.credits.hostCreditsUpdate (s.full depth) s.register }
  | .update => { s with credits := s.credits.update.2 }
  | .transmit tc id ring len => s.transmit tc id ring len

end RingSystem

end Nica.Libnica
