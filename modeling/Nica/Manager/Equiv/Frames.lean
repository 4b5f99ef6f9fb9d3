import Nica.Manager.Protocol

/-!
# What the manager's programs leave alone

One lemma for each program: it keeps every part `f` of the state that its own assignments keep.  The
hypotheses name these assignments, so that for a concrete `f` each of them is `rfl`.
-/

namespace Nica.Manager

open Nica.Lib Nica.Lib.Prog

section Hardware

variable {β : Type} {f : State → β}

/-- A command to the hardware changes the hardware only. -/
theorem keeps_access (hhw : ∀ s hw, f { s with hw := hw } = f s)
    (effect : BitVec 32 → Hardware → Hardware) : Keeps f (access effect) := by
  unfold access
  refine .get_bind fun s => ?_
  split
  · exact (keeps_modify fun s => hhw s _).bind fun _ => keeps_pure _
  · exact (keeps_modify fun s => hhw s _).bind fun _ => keeps_pure _
  · exact (keeps_modify fun s => hhw s _).bind fun _ => keeps_throw _

/-- The effects that leave the flow tables alone. -/
def LeavesTables (effect : BitVec 32 → Hardware → Hardware) : Prop :=
  ∀ v hw, (effect v hw).h2n = hw.h2n ∧ (effect v hw).n2h = hw.n2h

variable (hhw : ∀ (s : State) (hw : Hardware),
  f { s with hw := { hw with h2n := s.hw.h2n, n2h := s.hw.n2h } } = f s)

include hhw

/-- A command that leaves the flow tables alone changes the rest of the hardware only. -/
theorem keeps_command {effect : BitVec 32 → Hardware → Hardware} (heffect : LeavesTables effect) :
    Keeps f (access effect) := by
  have hkeep : ∀ (s : State) (hw : Hardware), hw.h2n = s.hw.h2n → hw.n2h = s.hw.n2h → f { s with hw := hw } = f s := by
    intro s hw h₁ h₂
    rw [← hhw s hw, ← h₁, ← h₂]
  unfold access
  refine .get_bind fun s => ?_
  split
  · refine (keeps_modify fun s => ?_).bind fun _ => keeps_pure _
    exact hkeep s _ (heffect _ _).1 (heffect _ _).2
  · refine (keeps_modify fun s => ?_).bind fun _ => keeps_pure _
    exact hkeep s _ (heffect _ _).1 (heffect _ _).2
  · refine (keeps_modify fun s => ?_).bind fun _ => keeps_throw _
    split
    · exact hkeep s _ (heffect _ _).1 (heffect _ _).2
    · exact hkeep s _ rfl rfl

theorem keeps_setMapping (id : ℤ) (addr : ℕ) : Keeps f (setMapping id addr) := by
  unfold setMapping
  split
  · exact keeps_throw_bind _ _
  · exact Keeps.bind (keeps_command hhw fun _ _ => ⟨rfl, rfl⟩) fun _ => keeps_pure _

theorem keeps_gatewayWrite (r : Ref) (id : ℤ) (addr : BitVec 32) (value : ℤ) :
    Keeps f (gatewayWrite r id addr value) := by
  unfold gatewayWrite
  split
  · exact keeps_throw_bind _ _
  · exact Keeps.bind (keeps_command hhw fun _ _ => ⟨rfl, rfl⟩) fun _ => keeps_pure _

theorem keeps_setCustomRing (ring : ℤ) (mac : Mac) (ip : Ip) (qpn : BitVec 32) :
    Keeps f (setCustomRing ring mac ip qpn) := by
  unfold setCustomRing
  split
  · exact keeps_throw _
  · exact Keeps.bind (keeps_command hhw fun _ _ => ⟨rfl, rfl⟩) fun _ => keeps_pure _

theorem keeps_updateCredits (ring : ℤ) (maxMsn : ℕ) (reset : Bool) :
    Keeps f (updateCredits ring maxMsn reset) := by
  unfold updateCredits
  split
  · exact keeps_throw_bind _ _
  · exact .get_bind fun _ => Keeps.bind (keeps_command hhw fun _ _ => ⟨rfl, rfl⟩) fun _ => keeps_pure _

theorem keeps_ikRpc (id : ℤ) (addr value : BitVec 32) (write : Bool) :
    Keeps f (ikRpc id addr value write) := by
  unfold ikRpc getIkernel invokeIkernelRpc
  refine Keeps.bind (.get_bind fun s => ?_) fun r => .get_bind fun s => ?_
  · split
    · exact keeps_pure _
    · exact keeps_throw _
  · refine Keeps.ite (keeps_throw_bind _ _) (Keeps.ite ?_ ?_)
    · exact (keeps_gatewayWrite hhw _ _ _ _).bind fun _ => keeps_pure _
    · exact keeps_command hhw fun _ _ => ⟨rfl, rfl⟩

end Hardware

theorem keeps_getIkernel {β : Type} {f : State → β} (id : ℤ) : Keeps f (getIkernel id) := by
  unfold getIkernel
  refine .get_bind fun s => ?_
  split
  · exact keeps_pure _
  · exact keeps_throw _

section Flows

variable {β : Type} {f : State → β} (hhw : ∀ s hw, f { s with hw := hw } = f s)

include hhw

theorem keeps_attach (hreg : ∀ s flow r v w, f (s.registerFlow flow r v w) = f s) (flow : Flow)
    (r : Ref) : Keeps f (attach flow r) := by
  unfold attach
  refine .get_bind fun s => ?_
  split
  · exact keeps_throw_bind _ _
  · refine (keeps_access hhw _).bind fun v => ?_
    split
    · exact keeps_throw_bind _ _
    · refine (keeps_access hhw _).bind fun w => ?_
      split
      · exact keeps_throw_bind _ _
      · exact (keeps_modify fun s => hreg s _ _ _ _).bind fun _ => keeps_pure _

theorem keeps_detach (hreg : ∀ s flow, f (s.unregisterFlow flow) = f s) (flow : Flow) :
    Keeps f (detach flow) := by
  unfold detach
  refine .get_bind fun s => ?_
  split
  · exact keeps_throw_bind _ _
  · refine (keeps_access hhw _).bind fun v => (keeps_access hhw _).bind fun w =>
      (keeps_modify fun s => hreg s _).bind fun _ => ?_
    split
    · exact keeps_throw _
    · exact keeps_pure _

variable (hset : ∀ s g, f { s with flowsOf := g } = f s)

include hset

theorem keeps_ikAttach (hreg : ∀ s flow r v w, f (s.registerFlow flow r v w) = f s) (id : ℤ)
    (flow : Flow) : Keeps f (ikAttach id flow) := by
  unfold ikAttach ikernelAttach
  exact .get_bind fun s => (keeps_getIkernel id).bind fun r =>
    (keeps_attach hhw hreg _ _).bind fun _ => (keeps_modify fun s => hset s _).bind fun _ => keeps_pure _

theorem keeps_ikernelDetach (hreg : ∀ s flow, f (s.unregisterFlow flow) = f s) (r : Ref) (flow : Flow) :
    Keeps f (ikernelDetach r flow) := by
  unfold ikernelDetach
  refine .get_bind fun s => ?_
  split
  · exact keeps_throw_bind _ _
  · exact (keeps_detach hhw hreg flow).bind fun _ => keeps_modify fun s => hset s _

theorem keeps_ikDetach (hreg : ∀ s flow, f (s.unregisterFlow flow) = f s) (id : ℤ) (flow : Flow) :
    Keeps f (ikDetach id flow) := by
  unfold ikDetach
  exact .get_bind fun s => (keeps_getIkernel id).bind fun r => keeps_ikernelDetach hhw hset hreg r _

end Flows

section Rings

variable {β : Type} {f : State → β} (hhw : ∀ (s : State) (hw : Hardware),
  f { s with hw := { hw with h2n := s.hw.h2n, n2h := s.hw.n2h } } = f s)

include hhw

theorem keeps_crCreate (hpool : ∀ s p, f { s with customRingIds := p } = f s)
    (hreg : ∀ s ring r, f (s.registerRing ring r) = f s) (r : Ref) (qpn : BitVec 32) (mac : Option Mac)
    (dstIp : Option Ip) : Keeps f (crCreate r qpn mac dstIp) := by
  unfold crCreate getRingId
  refine Keeps.bind (.get_bind fun s => (keeps_modify fun s => hpool s _).bind fun _ => ?_)
    fun ring => .get_bind fun s => (keeps_setCustomRing hhw _ _ _ _).bind fun _ =>
      (keeps_updateCredits hhw _ _ _).bind fun _ => (keeps_modify fun s => hreg s _ _).bind fun _ =>
        keeps_pure _
  split
  · exact keeps_pure _
  · exact keeps_throw _

theorem keeps_crDestroy (hrel : ∀ s ring, f (s.releaseRing ring) = f s) (ring : ℤ) :
    Keeps f (crDestroy ring) := by
  unfold crDestroy
  exact (keeps_setCustomRing hhw _ _ _ _).bind fun _ => keeps_modify fun s => hrel s _

variable (hset : ∀ s g, f { s with customRingsOf := g } = f s)

include hset

theorem keeps_ikernelCrCreate (hpool : ∀ s p, f { s with customRingIds := p } = f s)
    (hreg : ∀ s ring r, f (s.registerRing ring r) = f s) (r : Ref) (qpn : BitVec 32) :
    Keeps f (ikernelCrCreate r qpn) := by
  unfold ikernelCrCreate
  exact (keeps_crCreate hhw hpool hreg _ _ _ _).bind fun _ =>
    (keeps_modify fun s => hset s _).bind fun _ => keeps_pure _

theorem keeps_ikernelCrDestroy (hrel : ∀ s ring, f (s.releaseRing ring) = f s) (r : Ref) (ring : ℤ) :
    Keeps f (ikernelCrDestroy r ring) := by
  unfold ikernelCrDestroy
  refine (keeps_crDestroy hhw hrel ring).bind fun _ => .get_bind fun s => ?_
  split
  · exact keeps_throw_bind _ _
  · exact keeps_modify fun s => hset s _

end Rings

/-! ### The protocol objects -/

section Conns

variable {β : Type} {f : State → β}

theorem keeps_self : Keeps f self := .get_bind fun _ => keeps_pure _

variable (hconn : ∀ s g, f (s.modifyConn g) = f s)

include hconn

theorem keeps_addHeld (x : Held) : Keeps f (addHeld x) := keeps_modify fun s => hconn s _

theorem keeps_removeHeld (x : Held) : Keeps f (removeHeld x) := by
  unfold removeHeld
  refine keeps_self.bind fun conn => ?_
  split
  · exact keeps_throw_bind _ _
  · exact keeps_modify fun s => hconn s _

theorem keeps_addRing (ring : ℤ) (r : Ref) : Keeps f (addRing ring r) := keeps_modify fun s => hconn s _

theorem keeps_delRing (ring : ℤ) : Keeps f (delRing ring) := by
  unfold delRing
  refine keeps_self.bind fun conn => ?_
  split
  · exact keeps_throw_bind _ _
  · exact keeps_modify fun s => hconn s _

end Conns

theorem keeps_receiveFlow {β : Type} {f : State → β} (fd : Descriptor) : Keeps f (Client.receiveFlow fd) := by
  cases fd
  · exact keeps_throw _
  · exact keeps_throw _
  · exact keeps_pure _

theorem keeps_checkIkernel {β : Type} {f : State → β} (id : ℤ) : Keeps f (Hypervisor.checkIkernel id) := by
  refine keeps_self.bind fun conn => ?_
  split
  · exact keeps_throw _
  · exact keeps_pure _

theorem keeps_checkRingId {β : Type} {f : State → β} (ring : ℤ) :
    Keeps f (Hypervisor.checkRingId ring) := by
  refine keeps_self.bind fun conn => ?_
  split
  · exact keeps_throw _
  · exact keeps_pure _

/-! ### The requests that concern rings and registers -/

/-- The part `f` of the state does not depend on the rings, on the protocol objects, nor on the hardware
beyond the flow tables. -/
structure Aside {β : Type} (f : State → β) : Prop where
  hw : ∀ (s : State) (hw : Hardware), f { s with hw := { hw with h2n := s.hw.h2n, n2h := s.hw.n2h } } = f s
  customRingIds : ∀ s p, f { s with customRingIds := p } = f s
  registerRing : ∀ s ring r, f (s.registerRing ring r) = f s
  releaseRing : ∀ s ring, f (s.releaseRing ring) = f s
  customRingsOf : ∀ s g, f { s with customRingsOf := g } = f s
  conns : ∀ s g, f (s.modifyConn g) = f s

/-- The requests of a client that neither create or destroy an ikernel nor attach or detach a flow. -/
def ClientRequest.isAside : ClientRequest → Bool
  | .ikRpc .. | .crCreate .. | .crDestroy .. | .crUpdateCredits .. => true
  | _ => false

/-- The same for a VM. -/
def VmRequest.isAside : VmRequest → Bool
  | .allocateIkernel .. | .deallocateIkernel .. | .attach .. | .detach .. => false
  | _ => true

section Aside

variable {β : Type} {f : State → β} (h : Aside f)

include h

theorem Aside.client {req : ClientRequest} (hreq : req.isAside) : Keeps f (Client.handler req) := by
  cases req with
  | ikCreate | ikDestroy | ikAttach | ikDetach | ikCreateAttrs => cases hreq
  | ikRpc id address value write => exact (keeps_ikRpc h.hw _ _ _ _).bind fun _ => keeps_pure _
  | crCreate id qpNum =>
    refine .get_bind fun s => ?_
    split
    · exact keeps_pure _
    · exact (keeps_ikernelCrCreate h.hw h.customRingsOf h.customRingIds h.registerRing _ _).bind fun _ =>
        (keeps_addRing h.conns _ _).bind fun _ => keeps_pure _
  | crDestroy ring =>
    refine keeps_self.bind fun conn => ?_
    split
    · exact keeps_pure _
    · exact (keeps_ikernelCrDestroy h.hw h.customRingsOf h.releaseRing _ _).bind fun _ =>
        (keeps_delRing h.conns _).bind fun _ => keeps_pure _
  | crUpdateCredits ring maxMsn =>
    refine keeps_self.bind fun conn => ?_
    split
    · exact keeps_pure _
    · exact (keeps_updateCredits h.hw _ _ _).bind fun _ => keeps_pure _

theorem Aside.vm {req : VmRequest} (hreq : req.isAside) : Keeps f (Hypervisor.handler req) := by
  have haccess : Keeps f (access fun _ hw => hw) := keeps_command h.hw fun _ _ => ⟨rfl, rfl⟩
  cases req with
  | allocateIkernel | deallocateIkernel | attach | detach => cases hreq
  | configureCustomRing mac ip => exact (keeps_modify fun s => h.conns s _).bind fun _ => keeps_pure _
  | numRings => exact haccess.bind fun _ => keeps_pure _
  | getUuids =>
    exact haccess.bind fun _ => haccess.bind fun _ => haccess.bind fun _ => haccess.bind fun _ => keeps_pure _
  | invokeIkernelRpc id address value write =>
    exact (keeps_checkIkernel _).bind fun _ => (keeps_ikRpc h.hw _ _ _ _).bind fun _ => keeps_pure _
  | crCreate id qpNum =>
    exact (keeps_checkIkernel _).bind fun _ => (keeps_getIkernel _).bind fun _ => keeps_self.bind fun _ =>
      (keeps_crCreate h.hw h.customRingIds h.registerRing _ _ _ _).bind fun _ =>
        (keeps_addRing h.conns _ _).bind fun _ => keeps_pure _
  | crDestroy ring =>
    exact (keeps_checkRingId _).bind fun _ => (keeps_crDestroy h.hw h.releaseRing _).bind fun _ =>
      (keeps_delRing h.conns _).bind fun _ => keeps_pure _
  | updateCredits ring msnMax =>
    exact (keeps_checkRingId _).bind fun _ => (keeps_updateCredits h.hw _ _ _).bind fun _ => keeps_pure _

end Aside

/-! ### Iteration orders -/

theorem reorder_perm {α : Type} [DecidableEq α] (new xs : List α) : (reorder new xs).Perm xs := by
  unfold reorder
  split
  · assumption
  · exact List.Perm.refl _

end Nica.Manager
