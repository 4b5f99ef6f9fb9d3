import Nica.Hls.Pktgen
import Nica.Hls.Threshold

/-!
# The registers of the packet generator (`ikernels/hls/pktgen.cpp`)

`reg_write` and `reg_read` are what the gateway calls.  An address above `PKTGEN_SCHEDULER` belongs to the scheduler,
the addresses of the burst to the table of contexts.  `value` is passed by reference: a read finds in it what the
gateway left there.

`ntl::scheduler` and `ntl::context_manager` come from the `ntl` submodule, which is not part of the sources:
`SchedulerRegisters` and `ContextManager` are their interfaces.
-/

namespace Nica.Hls

open Threshold (GwStatus)

/-- `ntl::scheduler` as its `rpc` shows it: registers for every ikernel, each at an offset. -/
structure SchedulerRegisters where
  State : Type
  get : State → ℤ → IkernelId → Option (BitVec 32)
  set : State → ℤ → IkernelId → BitVec 32 → State

namespace SchedulerRegisters

/-- A register holds what was written to it, and writing what it holds changes nothing. -/
structure Lawful (R : SchedulerRegisters) : Prop where
  get_set : ∀ s offset id v, (R.get s offset id).isSome → R.get (R.set s offset id v) offset id = some v
  set_get : ∀ s offset id v, R.get s offset id = some v → R.set s offset id v = s

/-- `scheduler::rpc`: the status, the value and the state.  It reads when `read` is true and writes otherwise. -/
def rpc (R : SchedulerRegisters) (s : R.State) (address : ℤ) (v : BitVec 32) (id : IkernelId) (read : Bool) :
    GwStatus × BitVec 32 × R.State :=
  match R.get s address id with
  | none => (.fail, -1, s)
  | some x => if read then (.done, x, s) else (.done, v, R.set s address id v)

/-- Registers at some offsets, as a function. -/
def plain (offsets : List ℤ) : SchedulerRegisters where
  State := ℤ → IkernelId → BitVec 32
  get s offset id := if offset ∈ offsets then some (s offset id) else none
  set s offset id v := Function.update s offset (Function.update (s offset) id v)

theorem update_register (s : ℤ → IkernelId → BitVec 32) (offset : ℤ) (id : IkernelId) (v : BitVec 32) :
    Function.update s offset (Function.update (s offset) id v) offset id = v ∧
      Function.update s offset (Function.update (s offset) id (s offset id)) = s := by
  constructor
  · rw [Function.update_self, Function.update_self]
  · rw [Function.update_eq_self, Function.update_eq_self]

theorem lawful_plain (offsets : List ℤ) : (plain offsets).Lawful := by
  constructor
  · intro s offset id v h
    have hmem : offset ∈ offsets := by
      by_contra hn
      rw [show (plain offsets).get s offset id = none from if_neg hn] at h
      cases h
    exact (if_pos hmem).trans (congrArg some (update_register s offset id v).1)
  · intro s offset id v h
    obtain rfl : s offset id = v := by
      by_cases hmem : offset ∈ offsets
      · exact Option.some.inj ((if_pos hmem).symm.trans h)
      · cases (if_neg hmem).symm.trans h
    exact (update_register s offset id 0).2

end SchedulerRegisters

namespace Pktgen

/-- `PKTGEN_BURST_SIZE`, `PKTGEN_CUR_PACKET` and `PKTGEN_SCHEDULER`. -/
def pktgenBurstSize : ℤ := 0x10
def pktgenCurPacket : ℤ := 0x11
def pktgenScheduler : ℤ := 0x20

variable (N : ContextManager Context) (R : SchedulerRegisters)

/-- `gateway_access_field`, for the field that `get` and `set` give access to. -/
def gatewayAccessField (get : Context → BitVec 32) (set : Context → BitVec 32 → Context) (t : N.Table)
    (id : IkernelId) (v : BitVec 32) (read : Bool) : GwStatus × BitVec 32 × N.Table :=
  if read then (.done, get (N.get t id), t) else (.done, v, N.modify t id (set · v))

/-- `pktgen_contexts::rpc`. -/
def contextsRpc (t : N.Table) (address : ℤ) (v : BitVec 32) (id : IkernelId) (read : Bool) :
    GwStatus × BitVec 32 × N.Table :=
  if address = pktgenBurstSize then
    gatewayAccessField N Context.burstSize (fun c v => { c with burstSize := v }) t id v read
  else if address = pktgenCurPacket then
    gatewayAccessField N Context.curPacket (fun c v => { c with curPacket := v }) t id v read
  else (.fail, -1, t)

/-- What the registers give access to. -/
structure Registers where
  contexts : N.Table
  sched : R.State

variable {N R}

/-- The status of an access, `value` and the registers after it. -/
structure Access (N : ContextManager Context) (R : SchedulerRegisters) where
  status : GwStatus
  value : BitVec 32
  registers : Registers N R

/-- An access that is left to the scheduler. -/
def schedAccess (s : Registers N R) (address : ℤ) (v : BitVec 32) (id : IkernelId) (read : Bool) : Access N R :=
  let r := R.rpc s.sched (address - pktgenScheduler) v id read
  ⟨r.1, r.2.1, { s with sched := r.2.2 }⟩

/-- An access that is left to the table of contexts. -/
def contextsAccess (s : Registers N R) (address : ℤ) (v : BitVec 32) (id : IkernelId) (read : Bool) : Access N R :=
  let r := contextsRpc N s.contexts address v id read
  ⟨r.1, r.2.1, { s with contexts := r.2.2 }⟩

/-- `pktgen::reg_write`. -/
def regWrite (s : Registers N R) (address : ℤ) (value : BitVec 32) (id : IkernelId) : Access N R :=
  if address > pktgenScheduler then schedAccess s address value id false
  else if address = pktgenBurstSize ∨ address = pktgenCurPacket then contextsAccess s address value id false
  else ⟨.fail, value, s⟩

/-- `pktgen::reg_read`; the scheduler is told to write. -/
def regRead (s : Registers N R) (address : ℤ) (value : BitVec 32) (id : IkernelId) : Access N R :=
  if address > pktgenScheduler then schedAccess s address value id false
  else if address = pktgenBurstSize ∨ address = pktgenCurPacket then contextsAccess s address value id true
  else ⟨.fail, value, s⟩

end Pktgen

end Nica.Hls
