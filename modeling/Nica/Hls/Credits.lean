import Nica.Lib.Fifo
import Nica.Lib.Run

/-!
# The credits of the custom rings (`nica/hls/ikernel.cpp`, `nica/hls/ikernel.hpp`)

Every ikernel counts the messages it sends on a custom ring in `msn` and stops when it reaches `maxMsn`.
New bounds come in through one register: `hostCreditsUpdate` compares it with the value it saw last and
queues a value that differs, and `update` takes one from the queue.

`hostCredits` is an array of `1 << CUSTOM_RINGS_LOG_NUM` contexts that is indexed with `ring - 1` and
never checked; here it is a function of that integer, so that an index outside the array finds a cell of
its own.
-/

namespace Nica.Hls

open Nica.Lib

/-- `ring_id_t`. -/
abbrev RingId := BitVec 7

/-- `msn_t`. -/
abbrev Msn := BitVec 16

/-- `direction_t`. -/
inductive Dir
  | HOST | NET
deriving DecidableEq, Repr

/-- `credit_update_registers`. -/
structure CreditUpdateRegisters where
  ringId : RingId
  maxMsn : Msn
  reset : Bool
deriving DecidableEq, Repr

/-- The value after power-up. -/
def CreditUpdateRegisters.init : CreditUpdateRegisters := ⟨0, 0, false⟩

/-- A ring id that `host_credits_update` takes: 1 to 63. -/
def CreditUpdateRegisters.validRing (regs : CreditUpdateRegisters) : Prop :=
  regs.ringId ≠ 0 ∧ regs.ringId.toNat < 2 ^ 6

instance (regs : CreditUpdateRegisters) : Decidable regs.validRing :=
  inferInstanceAs (Decidable (_ ∧ _))

/-- `ikernel_ring_context`. -/
structure IkernelRingContext where
  msn : Msn
  maxMsn : Msn
deriving DecidableEq, Repr

namespace IkernelRingContext

def canTransmit (c : IkernelRingContext) : Bool := c.msn ≠ c.maxMsn

def incMsn (c : IkernelRingContext) : IkernelRingContext := { c with msn := c.msn + 1 }

/-- What `ikernel::update` does to the context of the ring. -/
def apply (c : IkernelRingContext) (regs : CreditUpdateRegisters) : IkernelRingContext :=
  ⟨if regs.reset then 0 else c.msn, regs.maxMsn⟩

end IkernelRingContext

/-- The occupancy of the transmit queues of the traffic classes. -/
structure TcPipelineDataCounts where
  tcMetaCounts : Fin 8 → BitVec 10
  tcDataCounts : Fin 8 → BitVec 10

/-- The traffic class of an ikernel: `NUM_TC` is 8 and class 7 is served as class 0. -/
def trafficClass (id : ℕ) : Fin 8 :=
  if id % 8 = 7 then 0 else ⟨id % 8, Nat.mod_lt _ (by decide)⟩

/-- The index of a ring in `host_credits`. -/
def ringIndex (ring : RingId) : ℤ := ring.toNat - 1

/-- The private members of `class ikernel`. -/
structure Credits where
  hostCredits : ℤ → IkernelRingContext
  creditUpdates : Fifo CreditUpdateRegisters
  lastHostCreditRegs : CreditUpdateRegisters

namespace Credits

def init : Credits := ⟨fun _ => ⟨0, 0⟩, .nil, .init⟩

/-- The context of a ring. -/
def context (k : Credits) (ring : RingId) : IkernelRingContext := k.hostCredits (ringIndex ring)

/-- Whether the traffic class of the ikernel has room for a packet.  The comparison with the data count
is one of integers, and the threshold may be negative. -/
def tcHasRoom (tc : TcPipelineDataCounts) (id len : ℕ) : Bool :=
  !((tc.tcMetaCounts (trafficClass id)).toNat > 256 - 1 ∨
    ((tc.tcDataCounts (trafficClass id)).toNat : ℤ) > 256 - (len >>> 5 : ℕ))

/-- `ikernel::can_transmit`. -/
def canTransmit (k : Credits) (tc : TcPipelineDataCounts) (id : ℕ) (ring : RingId) (len : ℕ) (dir : Dir) :
    Bool :=
  if dir = .HOST ∧ ring ≠ 0 ∧ (k.context ring).canTransmit = false then false
  else tcHasRoom tc id len

/-- `ikernel::update`. -/
def update (k : Credits) : Bool × Credits :=
  match k.creditUpdates.head with
  | none => (false, k)
  | some regs =>
    (true, { k with
      hostCredits := Function.update k.hostCredits (ringIndex regs.ringId) ((k.context regs.ringId).apply regs)
      creditUpdates := k.creditUpdates.pop })

/-- `ikernel::host_credits_update`. -/
def hostCreditsUpdate (full : Bool) (regs : CreditUpdateRegisters) (k : Credits) : Credits :=
  if full then k
  else if k.lastHostCreditRegs ≠ regs then
    if regs.ringId = 0 ∨ 2 ^ 6 ≤ regs.ringId.toNat then { k with lastHostCreditRegs := regs }
    else { k with creditUpdates := k.creditUpdates.write regs, lastHostCreditRegs := regs }
  else k

/-- `ikernel::new_message`. -/
def newMessage (k : Credits) (ring : RingId) (dir : Dir) : Credits :=
  if dir = .HOST then
    { k with hostCredits := Function.update k.hostCredits (ringIndex ring) (k.context ring).incMsn }
  else k

end Credits

/-! ### The register beside the ikernel -/

/-- The credit register and the ikernel that samples it.  The last four are ghost state: everything
written to the register, the updates at which `msn` was set to 0, and whether some call of
`host_credits_update`, and one that found room, was made since the last write. -/
structure CreditPort where
  register : CreditUpdateRegisters
  credits : Credits
  writes : List CreditUpdateRegisters
  zeroed : List CreditUpdateRegisters
  called : Bool
  seen : Bool

inductive CreditAction
  | write (regs : CreditUpdateRegisters)
  | hostCreditsUpdate
  | update
  | newMessage (ring : RingId) (dir : Dir)
deriving DecidableEq, Repr

namespace CreditPort

def init : CreditPort := ⟨.init, .init, [], [], true, true⟩

/-- `credit_updates.full()` for a queue of the given depth. -/
def full (depth : ℕ) (p : CreditPort) : Bool := depth ≤ p.credits.creditUpdates.queue.length

def step (depth : ℕ) (p : CreditPort) : CreditAction → CreditPort
  | .write regs => { p with register := regs, writes := p.writes ++ [regs], called := false, seen := false }
  | .hostCreditsUpdate =>
    { p with
      credits := p.credits.hostCreditsUpdate (p.full depth) p.register
      called := true
      seen := p.seen || !p.full depth }
  | .update =>
    { p with
      credits := p.credits.update.2
      zeroed := p.zeroed ++ p.credits.creditUpdates.head.toList.filter (·.reset) }
  | .newMessage ring dir => { p with credits := p.credits.newMessage ring dir }

end CreditPort

end Nica.Hls
