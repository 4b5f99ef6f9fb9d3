import Nica.Manager.Equiv.Creation

/-!
# Invariants that only creations can break

`Stable I`: the assignments of the manager's programs, one by one, keep `I`, the registration of a new
ikernel apart.  Then every program keeps it that does not create an ikernel (`post_client`,
`post_vm`), and a step keeps it if the creation in it does (`stable_step`).
-/

namespace Nica.Manager

open Nica.Lib Nica.Lib.Prog

/-- The assignments of the programs keep `I`. -/
structure Stable (I : State → Prop) : Prop where
  hw : ∀ s hw, I s → I { s with hw := hw }
  registerFlow : ∀ s flow r v w, I s → I (s.registerFlow flow r v w)
  unregisterFlow : ∀ s flow, I s → I (s.unregisterFlow flow)
  flowsOf : ∀ s g, I s → I { s with flowsOf := g }
  customRingIds : ∀ s p, I s → I { s with customRingIds := p }
  registerRing : ∀ s ring r, I s → I (s.registerRing ring r)
  releaseRing : ∀ s ring, I s → I (s.releaseRing ring)
  customRingsOf : ∀ s g, I s → I { s with customRingsOf := g }
  conns : ∀ s g, I s → I { s with conns := g }
  caller : ∀ s c, I s → I { s with caller := c }
  connections : ∀ s n, I s → I { s with connections := n }
  running : ∀ s b, I s → I { s with running := b }
  freeList : ∀ s l, I s → I { s with freeList := l }
  releaseId : ∀ s id, I s → I { s with ikernelIds := s.ikernelIds.releaseId id }
  countRelease : ∀ s r, I s → I (s.countRelease r)
  markDestroyed : ∀ s r, I s → I (s.markDestroyed r)
  erase : ∀ s id, I s → I { s with ikernels := s.ikernels.erase id }
  rehash : ∀ s order, I s → I (s.rehash order)

namespace Stable

variable {I : State → Prop} (h : Stable I)

include h

theorem access (effect : BitVec 32 → Hardware → Hardware) : Preserves I (access effect) := by
  unfold Manager.access
  refine .get_bind fun s => ?_
  split
  · exact (preserves_modify fun s => h.hw s _).bind fun _ => preserves_pure _
  · exact (preserves_modify fun s => h.hw s _).bind fun _ => preserves_pure _
  · exact (preserves_modify fun s => h.hw s _).bind fun _ => preserves_throw _

theorem setMapping (id : ℤ) (addr : ℕ) : Preserves I (setMapping id addr) := by
  unfold Manager.setMapping
  split
  · exact preserves_throw_bind _ _
  · exact (h.access _).bind fun _ => preserves_pure _

theorem gatewayWrite (r : Ref) (id : ℤ) (addr : BitVec 32) (value : ℤ) :
    Preserves I (gatewayWrite r id addr value) := by
  unfold Manager.gatewayWrite
  split
  · exact preserves_throw_bind _ _
  · exact (h.access _).bind fun _ => preserves_pure _

theorem setCustomRing (ring : ℤ) (mac : Mac) (ip : Ip) (qpn : BitVec 32) :
    Preserves I (setCustomRing ring mac ip qpn) := by
  unfold Manager.setCustomRing
  split
  · exact preserves_throw _
  · exact (h.access _).bind fun _ => preserves_pure _

theorem updateCredits (ring : ℤ) (maxMsn : ℕ) (reset : Bool) :
    Preserves I (updateCredits ring maxMsn reset) := by
  unfold Manager.updateCredits
  split
  · exact preserves_throw_bind _ _
  · exact .get_bind fun _ => (h.access _).bind fun _ => preserves_pure _

omit h in
theorem getIkernel (id : ℤ) : Preserves I (getIkernel id) := by
  unfold Manager.getIkernel
  refine .get_bind fun s => ?_
  split
  · exact preserves_pure _
  · exact preserves_throw _

theorem ikRpc (id : ℤ) (addr value : BitVec 32) (write : Bool) : Preserves I (ikRpc id addr value write) := by
  unfold Manager.ikRpc Manager.invokeIkernelRpc
  refine (Stable.getIkernel id).bind fun r => .get_bind fun s => ?_
  refine Preserves.ite (preserves_throw_bind _ _) (Preserves.ite ?_ (h.access _))
  exact (h.gatewayWrite _ _ _ _).bind fun _ => preserves_pure _

/-! ### Flows -/

theorem attach (flow : Flow) (r : Ref) : Preserves I (attach flow r) := by
  unfold Manager.attach
  refine .get_bind fun s => ?_
  split
  · exact preserves_throw_bind _ _
  · refine (h.access _).bind fun v => ?_
    split
    · exact preserves_throw_bind _ _
    · refine (h.access _).bind fun w => ?_
      split
      · exact preserves_throw_bind _ _
      · exact (preserves_modify fun s => h.registerFlow s _ _ _ _).bind fun _ => preserves_pure _

theorem detach (flow : Flow) : Preserves I (detach flow) := by
  unfold Manager.detach
  refine .get_bind fun s => ?_
  split
  · exact preserves_throw_bind _ _
  · refine (h.access _).bind fun v => (h.access _).bind fun w =>
      (preserves_modify fun s => h.unregisterFlow s _).bind fun _ => ?_
    split
    · exact preserves_throw _
    · exact preserves_pure _

theorem ikAttach (id : ℤ) (flow : Flow) : Preserves I (ikAttach id flow) := by
  unfold Manager.ikAttach ikernelAttach
  exact .get_bind fun s => (Stable.getIkernel id).bind fun r => (h.attach _ _).bind fun _ =>
    (preserves_modify fun s => h.flowsOf s _).bind fun _ => preserves_pure _

theorem ikernelDetach (r : Ref) (flow : Flow) : Preserves I (ikernelDetach r flow) := by
  unfold Manager.ikernelDetach
  refine .get_bind fun s => ?_
  split
  · exact preserves_throw_bind _ _
  · exact (h.detach flow).bind fun _ => preserves_modify fun s => h.flowsOf s _

theorem ikDetach (id : ℤ) (flow : Flow) : Preserves I (ikDetach id flow) := by
  unfold Manager.ikDetach
  exact .get_bind fun s => (Stable.getIkernel id).bind fun r => h.ikernelDetach r _

/-! ### Custom rings -/

theorem crCreate (r : Ref) (qpn : BitVec 32) (mac : Option Mac) (dstIp : Option Ip) :
    Preserves I (crCreate r qpn mac dstIp) := by
  unfold Manager.crCreate getRingId
  refine Preserves.bind (.get_bind fun s => (preserves_modify fun s => h.customRingIds s _).bind fun _ => ?_)
    fun ring => .get_bind fun s => (h.setCustomRing _ _ _ _).bind fun _ =>
      (h.updateCredits _ _ _).bind fun _ => (preserves_modify fun s => h.registerRing s _ _).bind fun _ =>
        preserves_pure _
  split
  · exact preserves_pure _
  · exact preserves_throw _

theorem crDestroy (ring : ℤ) : Preserves I (crDestroy ring) := by
  unfold Manager.crDestroy
  exact (h.setCustomRing _ _ _ _).bind fun _ => preserves_modify fun s => h.releaseRing s _

theorem ikernelCrCreate (r : Ref) (qpn : BitVec 32) : Preserves I (ikernelCrCreate r qpn) := by
  unfold Manager.ikernelCrCreate
  exact (h.crCreate _ _ _ _).bind fun _ =>
    (preserves_modify fun s => h.customRingsOf s _).bind fun _ => preserves_pure _

theorem ikernelCrDestroy (r : Ref) (ring : ℤ) : Preserves I (ikernelCrDestroy r ring) := by
  unfold Manager.ikernelCrDestroy
  refine (h.crDestroy ring).bind fun _ => .get_bind fun s => ?_
  split
  · exact preserves_throw_bind _ _
  · exact preserves_modify fun s => h.customRingsOf s _

/-! ### Destroying -/

theorem deallocateIkernel (id : ℤ) : Preserves I (deallocateIkernel id) := by
  unfold Manager.deallocateIkernel
  refine (Stable.getIkernel id).bind fun r => (preserves_modify fun s => h.releaseId s _).bind fun _ =>
    .get_bind fun s => Preserves.bind ?_ fun _ => preserves_modify fun s => h.countRelease s _
  unfold deallocateDram
  split
  · exact preserves_pure _
  · exact preserves_modify fun s => h.freeList s _

theorem destroy (r : Ref) : Preserves I (destroy r) := by
  unfold Manager.destroy
  exact .get_bind fun s => (Preserves.drain (h.ikernelDetach r) _).bind fun _ => .get_bind fun s =>
    (Preserves.drain (h.ikernelCrDestroy r) _).bind fun _ => .get_bind fun s =>
      (h.deallocateIkernel _).bind fun _ => preserves_modify fun s => h.markDestroyed s _

theorem ikDestroy (id : ℤ) : Preserves I (ikDestroy id) := by
  unfold Manager.ikDestroy
  refine Preserves.tryCatch (.get_bind fun s => ?_) fun e => Preserves.ite (preserves_pure _) (preserves_throw _)
  split
  · exact preserves_throw _
  · exact (h.destroy _).bind fun _ => (preserves_modify fun s => h.erase s _).bind fun _ => preserves_pure _

/-! ### The protocol objects -/

omit h in
theorem self : Preserves I self := .get_bind fun _ => preserves_pure _

theorem modifyConn (g : Conn → Conn) : Preserves I (modify fun s => s.modifyConn g : Mgr Unit) :=
  preserves_modify fun s => h.conns s _

theorem removeHeld (x : Held) : Preserves I (removeHeld x) := by
  unfold Manager.removeHeld
  refine Stable.self.bind fun conn => ?_
  split
  · exact preserves_throw_bind _ _
  · exact h.modifyConn _

theorem delRing (ring : ℤ) : Preserves I (delRing ring) := by
  unfold Manager.delRing
  refine Stable.self.bind fun conn => ?_
  split
  · exact preserves_throw_bind _ _
  · exact h.modifyConn _

omit h in
theorem receiveFlow (fd : Descriptor) : Preserves I (Client.receiveFlow fd) := by
  cases fd
  · exact preserves_throw _
  · exact preserves_throw _
  · exact preserves_pure _

omit h in
theorem checkIkernel (id : ℤ) : Preserves I (Hypervisor.checkIkernel id) := by
  refine Stable.self.bind fun conn => ?_
  split
  · exact preserves_throw _
  · exact preserves_pure _

omit h in
theorem checkRingId (ring : ℤ) : Preserves I (Hypervisor.checkRingId ring) := by
  refine Stable.self.bind fun conn => ?_
  split
  · exact preserves_throw _
  · exact preserves_pure _

end Stable

/-! ### Handlers -/

/-- A request of a client that creates an ikernel: the interface it names, the UUID and the size. -/
def ClientRequest.creates : ClientRequest → Option (List (BitVec 8) × Uuid × ℕ)
  | .ikCreate netdev uuid => some (netdev, uuid, 0)
  | .ikCreateAttrs _ netdev uuid log => some (netdev, uuid, log.toNat)
  | _ => none

/-- The name in a request, up to its first zero byte. -/
def interfaceName (netdev : List (BitVec 8)) : List (BitVec 8) := netdev.takeWhile (fun b => b ≠ 0)

/-- The part of a client's creation around `ik_create` only changes the connection. -/
theorem post_clientCreate {I : State → Prop} (hconns : ∀ s g, I s → I { s with conns := g }) {s : State}
    (hs : I s) {netdev : List (BitVec 8)} {uuid : Uuid} {log : ℕ} (header : List ℤ)
    (hcreate : interfaceName netdev = s.ifname →
      Post (ikCreate uuid log none) s (fun _ => I) (fun _ => I)) :
    Post (Client.create netdev uuid log header) s (fun _ => I) (fun _ => I) := by
  unfold Client.create
  split
  · exact hs
  rw [post_bind, post_get]
  split
  · exact hs
  · rename_i hname
    simp only [post_bind]
    refine (hcreate (not_not.mp hname)).imp ?_ (fun _ _ h => h)
    intro r s' hs'
    exact hconns s' _ hs'

/-- The same for a VM. -/
theorem post_vmAllocate {I : State → Prop} (hconns : ∀ s g, I s → I { s with conns := g }) {s : State}
    {uuid : Uuid} {log : ℕ}
    (hcreate : Post (ikCreate uuid log (Hypervisor.trafficClass (s.conns s.caller))) s
      (fun _ => I) (fun _ => I)) :
    Post (Hypervisor.allocateIkernel uuid log) s (fun _ => I) (fun _ => I) := by
  show Post (self >>= _) s _ _
  rw [post_bind]
  show Post (get >>= _) s _ _
  simp only [post_bind, post_get, post_pure]
  refine hcreate.imp ?_ (fun _ _ h => h)
  intro r s' hs'
  exact hconns s' _ hs'

section Handlers

variable {I : State → Prop} (h : Stable I)

include h

/-- A client's request keeps a stable invariant, provided that its creation does. -/
theorem post_client {s : State} (hs : I s) (req : ClientRequest)
    (hcreate : ∀ netdev uuid log, req.creates = some (netdev, uuid, log) → interfaceName netdev = s.ifname →
      Post (ikCreate uuid log none) s (fun _ => I) (fun _ => I)) :
    Post (Client.handler req) s (fun _ => I) (fun _ => I) := by
  cases req with
  | ikCreate netdev uuid => exact post_clientCreate h.conns hs _ (hcreate netdev uuid 0 rfl)
  | ikDestroy id =>
    refine Preserves.tryCatch (.get_bind fun s => ?_)
      (fun e => Preserves.ite (preserves_pure _) (preserves_throw _)) s hs
    split
    · exact preserves_throw _
    · exact (h.destroy _).bind fun _ => (preserves_modify fun s => h.erase s _).bind fun _ =>
        (h.removeHeld _).bind fun _ => preserves_pure _
  | ikRpc id address value write => exact ((h.ikRpc _ _ _ _).bind fun _ => preserves_pure _) s hs
  | ikAttach id fd =>
    exact ((Stable.receiveFlow fd).bind fun _ => (h.ikAttach _ _).bind fun _ => preserves_pure _) s hs
  | ikDetach id fd =>
    exact ((Stable.receiveFlow fd).bind fun _ => (h.ikDetach _ _).bind fun _ => preserves_pure _) s hs
  | crCreate id qpNum =>
    refine Preserves.get_bind (fun s => ?_) s hs
    split
    · exact preserves_pure _
    · exact (h.ikernelCrCreate _ _).bind fun _ => (h.modifyConn _).bind fun _ => preserves_pure _
  | crDestroy ring =>
    refine Stable.self.bind (fun conn => ?_) s hs
    split
    · exact preserves_pure _
    · exact (h.ikernelCrDestroy _ _).bind fun _ => (h.delRing _).bind fun _ => preserves_pure _
  | crUpdateCredits ring maxMsn =>
    refine Stable.self.bind (fun conn => ?_) s hs
    split
    · exact preserves_pure _
    · exact (h.updateCredits _ _ _).bind fun _ => preserves_pure _
  | ikCreateAttrs size netdev uuid log =>
    exact post_clientCreate h.conns hs _ (hcreate netdev uuid log.toNat rfl)

/-- A VM's request keeps a stable invariant, provided that its creation does. -/
theorem post_vm {s : State} (hs : I s) (req : VmRequest)
    (hcreate : ∀ uuid log, req = .allocateIkernel uuid log →
      Post (ikCreate uuid log.toNat (Hypervisor.trafficClass (s.conns s.caller))) s
        (fun _ => I) (fun _ => I)) :
    Post (Hypervisor.handler req) s (fun _ => I) (fun _ => I) := by
  cases req with
  | configureCustomRing mac ip => exact ((h.modifyConn _).bind fun _ => preserves_pure _) s hs
  | numRings => exact ((h.access _).bind fun _ => preserves_pure _) s hs
  | getUuids =>
    exact ((h.access _).bind fun _ => (h.access _).bind fun _ => (h.access _).bind fun _ =>
      (h.access _).bind fun _ => preserves_pure _) s hs
  | allocateIkernel uuid log => exact post_vmAllocate h.conns (hcreate uuid log rfl)
  | deallocateIkernel id =>
    refine Stable.self.bind (fun conn => ?_) s hs
    split
    · exact preserves_pure _
    · exact (h.ikDestroy _).bind fun _ => (h.removeHeld _).bind fun _ => preserves_pure _
  | attach ip port id =>
    refine (Stable.checkIkernel _).bind (fun _ => Stable.self.bind fun conn => ?_) s hs
    split
    · exact preserves_throw_bind _ _
    · exact (h.ikAttach _ _).bind fun _ => preserves_pure _
  | detach ip port id =>
    exact ((Stable.checkIkernel _).bind fun _ => (h.ikDetach _ _).bind fun _ => preserves_pure _) s hs
  | invokeIkernelRpc id address value write =>
    exact ((Stable.checkIkernel _).bind fun _ => (h.ikRpc _ _ _ _).bind fun _ => preserves_pure _) s hs
  | crCreate id qpNum =>
    exact ((Stable.checkIkernel _).bind fun _ => (Stable.getIkernel _).bind fun _ =>
      Stable.self.bind fun _ => (h.crCreate _ _ _ _).bind fun _ => (h.modifyConn _).bind fun _ =>
        preserves_pure _) s hs
  | crDestroy ring =>
    exact ((Stable.checkRingId _).bind fun _ => (h.crDestroy _).bind fun _ => (h.delRing _).bind fun _ =>
      preserves_pure _) s hs
  | updateCredits ring msnMax =>
    exact ((Stable.checkRingId _).bind fun _ => (h.updateCredits _ _ _).bind fun _ => preserves_pure _) s hs

/-- A step keeps a stable invariant, provided that the creation in it does. -/
theorem stable_step {s : State} (a : Action) (hs : I s)
    (hclient : ∀ c req hw netdev uuid log, a = .client c req hw → s.serves c true →
      req.creates = some (netdev, uuid, log) → interfaceName netdev = s.ifname →
      I (s.enter c hw) → Post (ikCreate uuid log none) (s.enter c hw) (fun _ => I) (fun _ => I))
    (hvm : ∀ c uuid log hw, a = .vm c (.allocateIkernel uuid log) hw → s.serves c false →
      I (s.enter c hw) →
      Post (ikCreate uuid log.toNat (Hypervisor.trafficClass (s.conns c))) (s.enter c hw)
        (fun _ => I) (fun _ => I)) : I (step s a) := by
  have henter : ∀ c hw, I (s.enter c hw) := fun c hw => h.hw _ _ (h.caller _ c hs)
  unfold step
  split
  swap
  · exact hs
  cases a with
  | connect kind =>
    have hconns := h.conns s (Function.update s.conns s.connections (newConn kind)) hs
    exact h.connections _ (s.connections + 1) hconns
  | client c req hw =>
    simp only
    split
    · rename_i hserves
      exact Post.state (post_client h (henter c hw) req fun netdev uuid log hreq hname =>
        hclient c req hw netdev uuid log rfl hserves hreq hname (henter c hw))
    · exact hs
  | vm c req hw =>
    simp only
    split
    · rename_i hserves
      refine Post.state (post_vm h (henter c hw) req ?_)
      rintro uuid log rfl
      exact hvm c uuid log hw rfl hserves (henter c hw)
    · exact hs
  | connectionLost c hw =>
    simp only
    split
    · refine h.conns _ _ (Post.state ?_)
      refine Stable.self.bind (fun conn => Preserves.forM (fun x => ?_) _) _ (henter c hw)
      cases x with
      | object r => exact h.destroy r
      | id i => exact preserves_throw _
    · exact hs
  | shutdown hw =>
    refine h.running _ _ (Post.state ?_)
    exact Preserves.get_bind (fun s => (Preserves.forM h.destroy _).bind fun _ => (h.access _).bind fun _ =>
      (h.access _).bind fun _ => preserves_pure _) _ (henter s.caller hw)
  | rehash order => exact h.rehash _ _ hs

end Handlers

end Nica.Manager
