import Nica.Manager.Equiv.Footprints

/-!
# The VMs are kept apart

With VMs alone on the manager, an ikernel belongs to the connection that holds its id, and a ring to the one that has it
among its rings (`Isolated`).  Whatever a VM asks for, and whatever the hardware answers, the request leaves the other
connections alone: their ikernels, flows and rings are as they were, in the manager and in the hardware, and no command
names them (`confines_crCreate` and its like, one lemma for each request).

Deletes that the hardware refuses are left out: `detach` then forgets the flow and `Ikernel.detach` does not, so that
the ikernel keeps a flow that another one may attach.
-/

namespace Nica.Manager

open Nica.Lib Nica.Lib.Prog

/-! ### Who has what -/

/-- What belongs to a connection: the ikernels whose ids it holds, with their flows, and its rings. -/
def State.assets (s : State) (d : ℕ) : Assets where
  ids := {i | .id i ∈ (s.conns d).ikernels}
  refs := {r | ∃ i, .id i ∈ (s.conns d).ikernels ∧ s.ikernels.lookup i = some r}
  flows := {f | ∃ i r, .id i ∈ (s.conns d).ikernels ∧ s.ikernels.lookup i = some r ∧ f ∈ s.flowsOf r}
  rings := {ring | ring ∈ (s.conns d).customRingIkernels}

/-- The element `x` is the id of an ikernel that was created through the connection. -/
def State.Holds (s : State) (c : ℕ) (x : Held) : Prop :=
  ∃ i r, x = .id i ∧ s.ikernels.lookup i = some r ∧ (s.heap r).owner = c

/-- No ikernel, flow or ring belongs to two connections. -/
structure Isolated (s : State) : Prop where
  noClient : ∀ c, (s.conns c).isOpen → (s.conns c).kind ≠ .client
  held : ∀ c, ∀ x ∈ (s.conns c).ikernels, s.Holds c x
  keyed : ∀ i r, s.ikernels.lookup i = some r →
    (s.heap r).ikernelId = i ∧ r < s.objects ∧ i ∈ s.ikernelIds.idsInUse
  ikernelIds : s.ikernelIds.WellFormed
  flows : ∀ r, ∀ f ∈ s.flowsOf r, ∃ e, s.flows.lookup f = some e ∧ e.ikernel = r
  rings : ∀ c, ∀ ring ∈ (s.conns c).customRingIkernels, ring ∈ s.customRingIds.idsInUse
  ringOwner : ∀ c d ring, ring ∈ (s.conns c).customRingIkernels → ring ∈ (s.conns d).customRingIkernels → c = d
  noRings : ∀ r, s.customRingsOf r = []
  customRingIds : s.customRingIds.WellFormed

/-- The same connection, whose set may be iterated in another order. -/
structure Conn.Same (conn conn' : Conn) : Prop where
  ikernels : conn'.ikernels.Perm conn.ikernels
  rest : { conn' with ikernels := conn.ikernels } = conn

/-- The connection is the same and so is what the manager and the hardware hold of it, and no command that was sent
concerns what belongs to it. -/
structure Untouched (d : ℕ) (s s' : State) : Prop where
  conn : (s.conns d).Same (s'.conns d)
  spares : Spares (s.assets d) s s'

/-- Of what a program of another connection leaves. -/
structure Confined (d : ℕ) (s s' : State) : Prop extends Untouched d s s' where
  isolated : Isolated s'
  caller : s'.caller = s.caller
  connections : s'.connections = s.connections

/-- The program of another connection leaves the connection `d` alone. -/
def Confines {α : Type} (d : ℕ) (x : Mgr α) (s : State) : Prop :=
  Post x s (fun _ => Confined d s) (fun _ => Confined d s)

variable {s s' s'' : State} {c d : ℕ} {i : ℤ} {r : Ref} {flow : Flow}

theorem Conn.Same.refl (conn : Conn) : conn.Same conn := ⟨.refl _, rfl⟩

theorem Conn.Same.trans {conn conn' conn'' : Conn} (h : conn.Same conn') (h' : conn'.Same conn'') :
    conn.Same conn'' := by
  refine ⟨h'.ikernels.trans h.ikernels, ?_⟩
  have hrest := congrArg (fun x : Conn => { x with ikernels := conn.ikernels }) h'.rest
  exact hrest.trans h.rest

theorem Conn.Same.customRingIkernels {conn conn' : Conn} (h : conn.Same conn') :
    conn'.customRingIkernels = conn.customRingIkernels := by
  have hrest := congrArg Conn.customRingIkernels h.rest
  exact hrest

theorem Untouched.refl (d : ℕ) (s : State) : Untouched d s s := ⟨.refl _, .refl _ s⟩

/-- What belongs to an untouched connection is what belonged to it. -/
theorem Untouched.assets_eq (h : Untouched d s s') : s'.assets d = s.assets d := by
  have hids : ∀ j, .id j ∈ (s'.conns d).ikernels ↔ .id j ∈ (s.conns d).ikernels := fun j => h.conn.ikernels.mem_iff
  have hlookup : ∀ j, .id j ∈ (s.conns d).ikernels → s'.ikernels.lookup j = s.ikernels.lookup j := h.spares.ikernels
  apply Assets.ext
  · ext j
    exact hids j
  · ext q
    constructor
    · rintro ⟨j, hj, hq⟩
      have hj' := (hids j).mp hj
      exact ⟨j, hj', (hlookup j hj').symm.trans hq⟩
    · rintro ⟨j, hj, hq⟩
      exact ⟨j, (hids j).mpr hj, (hlookup j hj).trans hq⟩
  · ext f
    constructor
    · rintro ⟨j, q, hj, hq, hf⟩
      have hj' := (hids j).mp hj
      have hq' := (hlookup j hj').symm.trans hq
      exact ⟨j, q, hj', hq', (h.spares.flowsOf q ⟨j, hj', hq'⟩).mem_iff.mp hf⟩
    · rintro ⟨j, q, hj, hq, hf⟩
      exact ⟨j, q, (hids j).mpr hj, (hlookup j hj).trans hq, (h.spares.flowsOf q ⟨j, hj, hq⟩).mem_iff.mpr hf⟩
  · ext ring
    show ring ∈ (s'.conns d).customRingIkernels ↔ _
    rw [h.conn.customRingIkernels]
    exact Iff.rfl

theorem Untouched.trans (h : Untouched d s s') (h' : Untouched d s' s'') : Untouched d s s'' := by
  refine ⟨h.conn.trans h'.conn, h.spares.trans ?_⟩
  rw [← h.assets_eq]
  exact h'.spares

theorem Confined.refl (h : Isolated s) : Confined d s s := ⟨.refl d s, h, rfl, rfl⟩

theorem Confined.trans (h : Confined d s s') (h' : Confined d s' s'') : Confined d s s'' :=
  ⟨h.toUntouched.trans h'.toUntouched, h'.isolated, h'.caller.trans h.caller, h'.connections.trans h.connections⟩

theorem Confines.bind {α β : Type} {x : Mgr α} {g : α → Mgr β} (hx : Confines d x s)
    (hg : ∀ v s', Confined d s s' → Confines d (g v) s') : Confines d (x >>= g) s := by
  unfold Confines
  rw [post_bind]
  refine hx.imp (fun v s' h => ?_) fun _ _ h => h
  exact (hg v s' h).imp (fun _ _ h' => h.trans h') fun _ _ h' => h.trans h'

theorem confines_pure {α : Type} (h : Isolated s) (v : α) : Confines d (pure v : Mgr α) s := .refl h

theorem confines_throw {α : Type} (h : Isolated s) (e : Exn) : Confines d (throw e : Mgr α) s := .refl h

/-! ### What belongs to another connection -/

section Others

variable (h : Isolated s)

include h

/-- An id is held by one connection. -/
theorem Isolated.holder (hi : .id i ∈ (s.conns c).ikernels) (hi' : .id i ∈ (s.conns d).ikernels) : c = d := by
  obtain ⟨_, r, ⟨⟩, hr, rfl⟩ := h.held c _ hi
  obtain ⟨_, r', ⟨⟩, hr', rfl⟩ := h.held d _ hi'
  obtain rfl : r = r' := Option.some.inj (hr.symm.trans hr')
  rfl

/-- The object of an id that the connection holds. -/
theorem Isolated.lookup (hi : .id i ∈ (s.conns c).ikernels) :
    ∃ r, s.ikernels.lookup i = some r ∧ (s.heap r).owner = c := by
  obtain ⟨_, r, ⟨⟩, hr, howner⟩ := h.held c _ hi
  exact ⟨r, hr, howner⟩

/-- A ring that a connection has is in use, and no other connection has it. -/
theorem Isolated.ownRing {ring : ℤ} (hring : ring ∈ (s.conns c).customRingIkernels) :
    ring ∈ s.customRingIds.idsInUse ∧ ∀ e ≠ c, ring ∉ (s.conns e).customRingIkernels :=
  ⟨h.rings c ring hring, fun e he hring' => he (h.ringOwner e c ring hring' hring)⟩

theorem Isolated.ring_notMem (hne : c ≠ d) {ring : ℤ} (hring : ring ∈ (s.conns c).customRingIkernels) :
    ring ∉ (s.assets d).rings := fun hring' => hne (h.ringOwner c d ring hring hring')

theorem Isolated.freeRing_notMem {ring : ℤ} (hring : ring ∉ s.customRingIds.idsInUse) (e : ℕ) :
    ring ∉ (s.conns e).customRingIkernels := fun hring' => hring (h.rings e ring hring')

theorem Isolated.freeId_notMem (hi : i ∉ s.ikernelIds.idsInUse) (e : ℕ) : .id i ∉ (s.conns e).ikernels := by
  intro hi'
  obtain ⟨r, hr, -⟩ := h.lookup hi'
  exact hi (h.keyed i r hr).2.2

theorem Isolated.freeFlow_notMem (hflow : flow ∉ s.flows) : flow ∉ (s.assets d).flows := by
  rintro ⟨j, q, -, -, hf⟩
  obtain ⟨e, he, -⟩ := h.flows q flow hf
  rw [AList.lookup_eq_none.mpr hflow] at he
  cases he

variable (hne : c ≠ d) (hi : .id i ∈ (s.conns c).ikernels)

include hne hi

theorem Isolated.id_notMem : i ∉ (s.assets d).ids := fun hi' => hne (h.holder hi hi')

variable (hr : s.ikernels.lookup i = some r)

include hr

theorem Isolated.ref_notMem : r ∉ (s.assets d).refs := by
  rintro ⟨j, hj, hr'⟩
  obtain rfl : i = j := (h.keyed i r hr).1.symm.trans (h.keyed j r hr').1
  exact hne (h.holder hi hj)

theorem Isolated.flow_notMem (hflow : flow ∈ s.flowsOf r) : flow ∉ (s.assets d).flows := by
  rintro ⟨j, q, hj, hq, hflow'⟩
  -- both objects would be the one that the flow is registered for
  obtain ⟨e, he, rfl⟩ := h.flows r flow hflow
  obtain ⟨e', he', rfl⟩ := h.flows q flow hflow'
  obtain rfl : e = e' := Option.some.inj (he.symm.trans he')
  exact h.ref_notMem hne hi hr ⟨j, hj, hq⟩

end Others

/-! ### Assignments -/

/-- The hardware alone has changed. -/
theorem Isolated.confined_hw (h : Isolated s) {hw : Hardware} (hspares : s.hw.Spares (s.assets d) hw) :
    Confined d s { s with hw := hw } :=
  ⟨⟨.refl _, spares_hw hspares⟩, { h with }, rfl, rfl⟩

theorem Isolated.confines_commands {α : Type} {x : Mgr α} (h : Isolated s) (hx : Commands (s.assets d) x) :
    Confines d x s := by
  refine (hx s).imp ?_ ?_
  · rintro _ _ ⟨hw, rfl, hspares, -⟩
    exact h.confined_hw hspares
  · rintro _ _ ⟨hw, rfl, hspares, -⟩
    exact h.confined_hw hspares

/-- The calling connection changes, and what it has is still its own. -/
theorem Isolated.modifyConn (h : Isolated s) {g : Conn → Conn}
    (hclient : (g (s.conns s.caller)).isOpen → (g (s.conns s.caller)).kind ≠ .client)
    (hheld : ∀ x ∈ (g (s.conns s.caller)).ikernels, s.Holds s.caller x)
    (hrings : ∀ ring ∈ (g (s.conns s.caller)).customRingIkernels, ring ∈ s.customRingIds.idsInUse ∧
      ∀ e ≠ s.caller, ring ∉ (s.conns e).customRingIkernels) : Isolated (s.modifyConn g) := by
  have hother : ∀ {e}, e ≠ s.caller → (s.modifyConn g).conns e = s.conns e := fun he => Function.update_of_ne he _ _
  have hself : (s.modifyConn g).conns s.caller = g (s.conns s.caller) := Function.update_self ..
  refine { h with noClient := fun e => ?_, held := fun e x => ?_, rings := fun e ring => ?_, ringOwner := ?_ }
  · by_cases he : e = s.caller
    · rw [he, hself]
      exact hclient
    · rw [hother he]
      exact h.noClient e
  · by_cases he : e = s.caller
    · rw [he, hself]
      exact hheld x
    · rw [hother he]
      exact h.held e x
  · by_cases he : e = s.caller
    · rw [he, hself]
      exact fun hring => (hrings ring hring).1
    · rw [hother he]
      exact h.rings e ring
  · intro e e' ring hring hring'
    by_contra hne
    by_cases he : e = s.caller
    · have he' : e' ≠ s.caller := fun h' => hne (he.trans h'.symm)
      rw [he, hself] at hring
      rw [hother he'] at hring'
      exact (hrings ring hring).2 e' he' hring'
    · rw [hother he] at hring
      by_cases he' : e' = s.caller
      · rw [he', hself] at hring'
        exact (hrings ring hring').2 e he hring
      · rw [hother he'] at hring'
        exact hne (h.ringOwner e e' ring hring hring')

theorem untouched_modifyConn (hne : s.caller ≠ d) (g : Conn → Conn) : Untouched d s (s.modifyConn g) := by
  refine ⟨?_, { Spares.refl (s.assets d) s with }⟩
  have hconn : (s.modifyConn g).conns d = s.conns d := Function.update_of_ne hne.symm _ _
  rw [hconn]
  exact .refl _

/-- The addresses of a connection are its own. -/
theorem Isolated.confined_modifyConn (h : Isolated s) (hne : s.caller ≠ d) {g : Conn → Conn}
    (hkind : (g (s.conns s.caller)).kind = (s.conns s.caller).kind)
    (hopen : (g (s.conns s.caller)).isOpen → (s.conns s.caller).isOpen)
    (hheld : ∀ x ∈ (g (s.conns s.caller)).ikernels, x ∈ (s.conns s.caller).ikernels)
    (hrings : ∀ ring ∈ (g (s.conns s.caller)).customRingIkernels, ring ∈ (s.conns s.caller).customRingIkernels) :
    Confined d s (s.modifyConn g) := by
  refine ⟨untouched_modifyConn hne g, h.modifyConn ?_ (fun x hx => h.held _ x (hheld x hx)) ?_, rfl, rfl⟩
  · rw [hkind]
    exact fun ho => h.noClient _ (hopen ho)
  · exact fun ring hring => h.ownRing (hrings ring hring)

/-! ### Rings -/

theorem post_checkRingId {ring : ℤ} {Q : Unit → State → Prop} {E : Exn → State → Prop} :
    Post (Hypervisor.checkRingId ring) s Q E ↔
      if ring ∈ (s.conns s.caller).customRingIkernels then Q () s else E (exception .ENOENT) s := by
  unfold Hypervisor.checkRingId
  rw [post_bind, post_self]
  by_cases hring : ring ∈ (s.conns s.caller).customRingIkernels
  · rw [if_neg (not_not.mpr hring), if_pos hring]
    exact Iff.rfl
  · rw [if_pos hring, if_neg hring]
    exact Iff.rfl

theorem State.releaseRing_releaseId (s : State) (ring : ℤ) :
    ∃ rings log, s.releaseRing ring =
      { s with customRingIds := s.customRingIds.releaseId ring, rings := rings, ringLog := log } := by
  unfold State.releaseRing
  split
  · split
    · exact ⟨_, _, rfl⟩
    · exact ⟨_, _, rfl⟩
  · rename_i hfree
    refine ⟨s.rings, s.ringLog, ?_⟩
    rw [IDPool.releaseId, if_neg hfree]

/-- The calling connection holds one more id. -/
theorem Isolated.confined_addHeld (h : Isolated s) (hne : s.caller ≠ d) {x : Held} (hx : s.Holds s.caller x) :
    Confined d s (s.modifyConn fun conn => { conn with ikernels := conn.ikernels.insert x }) := by
  refine ⟨untouched_modifyConn hne _, h.modifyConn (h.noClient _) (fun y hy => ?_) fun ring hring => ?_, rfl, rfl⟩
  · rcases List.mem_insert_iff.mp hy with rfl | hy
    · exact hx
    · exact h.held _ y hy
  · exact h.ownRing hring

/-- The calling connection gets a ring that is in use and belongs to nobody. -/
theorem Isolated.confined_addRing (h : Isolated s) (hne : s.caller ≠ d) {ring : ℤ}
    (hmem : ring ∈ s.customRingIds.idsInUse) (hnot : ∀ e, ring ∉ (s.conns e).customRingIkernels) (q : Ref) :
    Confined d s (s.modifyConn fun conn =>
      { conn with customRingIkernels := conn.customRingIkernels.insert ring q }) := by
  refine ⟨untouched_modifyConn hne _, h.modifyConn (h.noClient _) (h.held _) ?_, rfl, rfl⟩
  intro x hx
  rcases (AList.mem_insert _).mp hx with rfl | hx
  · exact ⟨hmem, fun e _ => hnot e⟩
  · exact h.ownRing hx

/-- A ring of the calling connection is released. -/
theorem Isolated.confined_dropRing (h : Isolated s) (hne : s.caller ≠ d) {ring : ℤ}
    (hring : ring ∈ (s.conns s.caller).customRingIkernels) :
    Confined d s ((s.releaseRing ring).modifyConn fun conn =>
      { conn with customRingIkernels := conn.customRingIkernels.erase ring }) := by
  obtain ⟨rings, log, hrelease⟩ := s.releaseRing_releaseId ring
  rw [hrelease]
  have herase : ∀ {x}, x ∈ (s.conns s.caller).customRingIkernels.erase ring →
      x ≠ ring ∧ x ∈ (s.conns s.caller).customRingIkernels := AList.mem_erase.mp
  refine ⟨⟨?_, { Spares.refl (s.assets d) s with }⟩, ?_, rfl, rfl⟩
  · exact (untouched_modifyConn (s := s) hne fun conn =>
      { conn with customRingIkernels := conn.customRingIkernels.erase ring }).conn
  -- without the ring the connection is isolated while the ring is in use, and then it can be released
  have hdrop : Isolated (s.modifyConn fun conn =>
      { conn with customRingIkernels := conn.customRingIkernels.erase ring }) := by
    refine h.modifyConn (h.noClient _) (h.held _) fun x hx => ?_
    exact h.ownRing (herase hx).2
  refine { hdrop with customRingIds := IDPool.wellFormed_releaseId h.customRingIds ring, rings := fun e x hx => ?_ }
  refine IDPool.mem_releaseId.mpr ⟨hdrop.rings e x hx, ?_⟩
  rintro rfl
  by_cases he : e = s.caller
  · subst he
    have hx' : x ∈ (Function.update s.conns s.caller _ s.caller).customRingIkernels := hx
    rw [Function.update_self] at hx'
    exact (herase hx').1 rfl
  · have hx' : x ∈ (Function.update s.conns s.caller _ e).customRingIkernels := hx
    rw [Function.update_of_ne he] at hx'
    exact he (h.ringOwner e _ x hx' hring)

/-- `get_ikernel` of an id that the connection holds. -/
theorem post_getIkernel (hr : s.ikernels.lookup i = some r) {Q : Ref → State → Prop} {E : Exn → State → Prop} :
    Post (getIkernel i) s Q E ↔ Q r s := by
  unfold getIkernel
  rw [post_bind, post_get, hr]
  exact Iff.rfl

section Requests

variable (h : Isolated s) (hne : s.caller ≠ d)

include h

/-- The ring that `cr_create` returns belongs to nobody yet. -/
theorem post_crCreate (q : Ref) (qpn : BitVec 32) (mac : Option Mac) (dstIp : Option Ip) :
    Post (crCreate q qpn mac dstIp) s
      (fun ring s' => Confined d s s' ∧ s'.conns = s.conns ∧ ring ∈ s'.customRingIds.idsInUse ∧
        ∀ e, ring ∉ (s.conns e).customRingIkernels)
      (fun _ => Confined d s) := by
  obtain ⟨hpool, hcases⟩ := IDPool.getId_cases (fun _ => true) 0 h.customRingIds
  unfold crCreate getRingId
  simp only [post_bind, post_get, post_modify]
  rcases hcases with ⟨hid, huse⟩ | ⟨ring, hid, hfree, huse⟩
  · -- the pool is exhausted
    rw [hid]
    refine ⟨⟨.refl _, { Spares.refl (s.assets d) s with }⟩, { h with customRingIds := hpool, rings := ?_ }, rfl, rfl⟩
    intro e ring hring
    rw [huse]
    exact h.rings e ring hring
  rw [hid, post_pure]
  have hnot := h.freeRing_notMem hfree
  have hnew : Confined d s { s with customRingIds := (s.customRingIds.getId 0 fun _ => true).2 } := by
    refine ⟨⟨.refl _, { Spares.refl (s.assets d) s with }⟩, { h with customRingIds := hpool, rings := ?_ }, rfl, rfl⟩
    intro e x hx
    rw [huse]
    exact List.mem_insert_of_mem (h.rings e x hx)
  have hmem : ring ∈ (s.customRingIds.getId 0 fun _ => true).2.idsInUse := by
    rw [huse]
    exact List.mem_insert_self
  refine (commands_setCustomRing (a := s.assets d) (hnot d) _ _ _ _).imp ?_ ?_
  swap
  · rintro _ _ ⟨hw, rfl, hspares, -⟩
    exact hnew.trans (hnew.isolated.confined_hw hspares)
  rintro _ _ ⟨hw, rfl, hspares, -⟩
  have hcontext := hnew.trans (hnew.isolated.confined_hw hspares)
  refine (commands_updateCredits (a := s.assets d) (hnot d) _ _ _).imp ?_ ?_
  swap
  · rintro _ _ ⟨hw', rfl, hspares', -⟩
    exact hcontext.trans (hcontext.isolated.confined_hw hspares')
  rintro _ _ ⟨hw', rfl, hspares', -⟩
  have hcredits := hcontext.trans (hcontext.isolated.confined_hw hspares')
  exact ⟨⟨⟨hcredits.conn, { hcredits.spares with }⟩, { hcredits.isolated with }, rfl, rfl⟩, rfl, hmem, hnot⟩

include hne

theorem confines_crCreate (id : ℤ) (qpn : BitVec 32) : Confines d (Hypervisor.crCreate id qpn) s := by
  show Post (Hypervisor.checkIkernel id >>= _) s _ _
  rw [post_bind, post_checkIkernel]
  split
  swap
  · exact .refl h
  rename_i hheld
  obtain ⟨q, hq, -⟩ := h.lookup hheld
  rw [post_bind, post_getIkernel hq, post_bind, post_self, post_bind]
  refine (post_crCreate h q qpn _ _).imp ?_ fun _ _ h => h
  rintro ring s' ⟨hs', hconns, hmem, hnot⟩
  refine hs'.trans (hs'.isolated.confined_addRing (hs'.caller.symm ▸ hne) hmem ?_ q)
  rw [hconns]
  exact hnot

theorem confines_crDestroy (ring : ℤ) : Confines d (Hypervisor.crDestroy ring) s := by
  show Post (Hypervisor.checkRingId ring >>= _) s _ _
  rw [post_bind, post_checkRingId]
  split
  swap
  · exact .refl h
  rename_i hring
  unfold crDestroy delRing
  simp only [post_bind, post_modify]
  refine (commands_setCustomRing (a := s.assets d) (h.ring_notMem hne hring) _ _ _ s).imp ?_ ?_
  swap
  · rintro _ _ ⟨hw, rfl, hspares, -⟩
    exact h.confined_hw hspares
  rintro _ _ ⟨hw, rfl, hspares, -⟩
  obtain ⟨rings, log, hrelease⟩ := State.releaseRing_releaseId { s with hw := hw } ring
  have hself : ¬ ring ∉ ((State.releaseRing { s with hw := hw } ring).conns
      (State.releaseRing { s with hw := hw } ring).caller).customRingIkernels := by
    rw [hrelease]
    exact not_not.mpr hring
  rw [post_self, if_neg hself]
  exact (h.confined_hw hspares).trans ((h.confined_hw hspares).isolated.confined_dropRing hne hring)

theorem confines_updateCredits (ring : ℤ) (msnMax : ℕ) : Confines d (Hypervisor.updateCredits ring msnMax) s := by
  show Post (Hypervisor.checkRingId ring >>= _) s _ _
  rw [post_bind, post_checkRingId]
  split
  · rename_i hring
    refine h.confines_commands ?_
    exact (commands_updateCredits (h.ring_notMem hne hring) _ _).bind fun _ => commands_pure _
  · exact .refl h

/-! ### Ikernels -/

theorem confines_invokeIkernelRpc (id : ℤ) (address value : BitVec 32) (write : Bool) :
    Confines d (Hypervisor.invokeIkernelRpc id address value write) s := by
  show Post (Hypervisor.checkIkernel id >>= _) s _ _
  rw [post_bind, post_checkIkernel]
  split
  swap
  · exact .refl h
  rename_i hheld
  obtain ⟨q, hq, -⟩ := h.lookup hheld
  have hid : (s.heap q).ikernelId ∉ (s.assets d).ids := by
    rw [(h.keyed id q hq).1]
    exact h.id_notMem hne hheld
  have hrpc : Confines d (ikRpc id address value write) s := by
    unfold Confines ikRpc invokeIkernelRpc
    rw [post_bind, post_getIkernel hq, post_bind, post_get]
    dsimp only
    split
    · exact .refl h
    refine h.confines_commands ?_
    split
    · exact (commands_gatewayWrite hid _ _ _).bind fun _ => commands_pure _
    · exact commands_gatewayRead hid _ _
  exact hrpc.bind fun ret s' hs' => confines_pure hs'.isolated _

/-! ### Flows -/

/-- The calling connection attaches a flow that nobody has to an ikernel of its own. -/
theorem confined_addFlow {i : ℤ} {q : Ref} (hheld : .id i ∈ (s.conns s.caller).ikernels)
    (hq : s.ikernels.lookup i = some q) {flow : Flow} (hfree : flow ∉ s.flows) (v w : BitVec 32) :
    Confined d s { s.registerFlow flow q v w with
      flowsOf := Function.update s.flowsOf q ((s.flowsOf q).insert flow) } := by
  have hnot : flow ∉ (s.assets d).flows := h.freeFlow_notMem hfree
  have href : q ∉ (s.assets d).refs := h.ref_notMem hne hheld hq
  have hnone : ∀ x, flow ∉ s.flowsOf x := by
    intro x hx
    obtain ⟨e, he, -⟩ := h.flows x flow hx
    rw [AList.lookup_eq_none.mpr hfree] at he
    cases he
  refine ⟨⟨.refl _, { Spares.refl (s.assets d) s with flowsOf := ?_, flows := ?_ }⟩, { h with flows := ?_ }, rfl, rfl⟩
  · intro x hx
    have hxq : x ≠ q := by
      rintro rfl
      exact href hx
    show (Function.update s.flowsOf q _ x).Perm _
    rw [Function.update_of_ne hxq]
  · intro f hf
    apply AList.lookup_insert_ne
    rintro rfl
    exact hnot hf
  · intro x f hf
    have hf' : f ∈ Function.update s.flowsOf q ((s.flowsOf q).insert flow) x := hf
    show ∃ e, (s.flows.insert flow _).lookup f = some e ∧ _
    by_cases hff : f = flow
    · -- only the object `q` has the new flow
      have hx : x = q := by
        by_contra hx
        rw [Function.update_of_ne hx, hff] at hf'
        exact hnone x hf'
      rw [hff, AList.lookup_insert]
      exact ⟨_, rfl, hx.symm⟩
    · rw [AList.lookup_insert_ne hff]
      by_cases hx : x = q
      · rw [hx, Function.update_self] at hf'
        rw [hx]
        exact h.flows q f ((List.mem_insert_iff.mp hf').resolve_left hff)
      · rw [Function.update_of_ne hx] at hf'
        exact h.flows x f hf'

/-- `attach` of a VM. -/
theorem confines_attach (flow : Flow) (id : ℤ) : Confines d (Hypervisor.attach flow id) s := by
  show Post (Hypervisor.checkIkernel id >>= _) s _ _
  rw [post_bind, post_checkIkernel]
  split
  swap
  · exact .refl h
  rename_i hheld
  obtain ⟨q, hq, -⟩ := h.lookup hheld
  rw [post_bind, post_self]
  split
  · exact .refl h
  unfold ikAttach ikernelAttach attach
  simp only [post_bind, post_get]
  rw [post_getIkernel hq]
  split
  · exact .refl h
  rename_i hfree
  have hnot : s.bindLocal flow ∉ (s.assets d).flows := h.freeFlow_notMem hfree
  rw [post_bind]
  refine (commands_setFlow (a := s.assets d) hnot _ _ s).imp ?_ ?_
  swap
  · rintro _ _ ⟨hw, rfl, hspares, -⟩
    exact h.confined_hw hspares
  rintro v _ ⟨hw, rfl, hspares, -⟩
  have hone := h.confined_hw hspares
  split
  · exact hone
  rw [post_bind]
  refine (commands_setFlow (a := s.assets d) hnot _ _ _).imp ?_ ?_
  swap
  · rintro _ _ ⟨hw', rfl, hspares', -⟩
    exact hone.trans (hone.isolated.confined_hw hspares')
  rintro w _ ⟨hw', rfl, hspares', -⟩
  have htwo := hone.trans (hone.isolated.confined_hw hspares')
  split
  · exact htwo
  · exact htwo.trans (confined_addFlow htwo.isolated hne hheld hq hfree v w)

/-- The calling connection detaches a flow from an ikernel of its own. -/
theorem confined_dropFlow {i : ℤ} {q : Ref} (hheld : .id i ∈ (s.conns s.caller).ikernels)
    (hq : s.ikernels.lookup i = some q) {flow : Flow} (hflow : flow ∈ s.flowsOf q) (log : ℕ → FlowRecord) :
    Confined d s { s with
      flows := s.flows.erase flow
      flowLog := log
      flowsOf := Function.update s.flowsOf q (remove (s.flowsOf q) flow) } := by
  have hnot : flow ∉ (s.assets d).flows := h.flow_notMem hne hheld hq hflow
  have href : q ∉ (s.assets d).refs := h.ref_notMem hne hheld hq
  refine ⟨⟨.refl _, { Spares.refl (s.assets d) s with flowsOf := ?_, flows := ?_ }⟩, { h with flows := ?_ }, rfl, rfl⟩
  · intro x hx
    have hxq : x ≠ q := by
      rintro rfl
      exact href hx
    show (Function.update s.flowsOf q _ x).Perm _
    rw [Function.update_of_ne hxq]
  · intro f hf
    apply AList.lookup_erase_ne
    rintro rfl
    exact hnot hf
  · intro x f hf
    have hf' : f ∈ Function.update s.flowsOf q (remove (s.flowsOf q) flow) x := hf
    show ∃ e, (s.flows.erase flow).lookup f = some e ∧ _
    by_cases hx : x = q
    · rw [hx, Function.update_self] at hf'
      obtain ⟨hmem, hff⟩ := mem_remove.mp hf'
      rw [AList.lookup_erase_ne hff, hx]
      exact h.flows q f hmem
    · rw [Function.update_of_ne hx] at hf'
      obtain ⟨e, he, hex⟩ := h.flows x f hf'
      have hff : f ≠ flow := by
        rintro rfl
        obtain ⟨e', he', rfl⟩ := h.flows q f hflow
        obtain rfl : e = e' := Option.some.inj (he.symm.trans he')
        exact hx hex.symm
      rw [AList.lookup_erase_ne hff]
      exact ⟨e, he, hex⟩

end Requests

/-- No delete is refused. -/
def Unrefused (hw : List Outcome) : Prop := ∀ o ∈ hw, o.refuses refusedDelete = false

/-- What a command returns is one of the outcomes. -/
theorem post_access_mem (effect : BitVec 32 → Hardware → Hardware) :
    Post (access effect) s (fun v _ => v = 1 ∨ .value v ∈ s.hw.outcomes) (fun _ _ => True) := by
  unfold access
  rw [post_bind, post_get]
  split
  · exact .inl rfl
  · rename_i v os hos
    refine .inr ?_
    rw [hos]
    exact List.mem_cons_self
  · trivial

theorem post_delFlow {a : Assets} (hflow : flow ∉ a.flows) (hclean : Unrefused s.hw.outcomes) (dir : Direction) :
    Post (delFlow dir flow) s
      (fun v s' => refusedDelete v = false ∧
        ∃ hw, s' = { s with hw := hw } ∧ s.hw.Spares a hw ∧ hw.outcomes ⊆ s.hw.outcomes)
      (fun _ s' => ∃ hw, s' = { s with hw := hw } ∧ s.hw.Spares a hw ∧ hw.outcomes ⊆ s.hw.outcomes) := by
  refine ((commands_delFlow hflow dir s).and (post_access_mem _)).imp ?_ fun _ _ h => h.1
  rintro v s' ⟨hs', rfl | hv⟩
  · exact ⟨by decide, hs'⟩
  · exact ⟨hclean _ hv, hs'⟩

/-- A detach that is not refused is whole, or nothing but the hardware has changed. -/
theorem post_ikernelDetach_unrefused {a : Assets} (hflow : flow ∈ s.flowsOf r → flow ∉ a.flows)
    (hclean : Unrefused s.hw.outcomes) :
    Post (ikernelDetach r flow) s
      (fun _ s' => ∃ hw log, flow ∈ s.flowsOf r ∧ s.hw.Spares a hw ∧ hw.outcomes ⊆ s.hw.outcomes ∧ s' = { s with
        hw := hw
        flows := s.flows.erase flow
        flowLog := log
        flowsOf := Function.update s.flowsOf r (remove (s.flowsOf r) flow) })
      (fun _ s' => ∃ hw, s.hw.Spares a hw ∧ s' = { s with hw := hw }) := by
  unfold ikernelDetach
  rw [post_bind, post_get]
  split
  · exact ⟨s.hw, .refl a s.hw, rfl⟩
  rename_i hmem
  have hmem' : flow ∈ s.flowsOf r := not_not.mp hmem
  unfold detach
  simp only [post_bind, post_get]
  split
  · exact ⟨s.hw, .refl a s.hw, rfl⟩
  rw [post_bind]
  refine (post_delFlow (hflow hmem') hclean .h2n).imp ?_ ?_
  swap
  · rintro _ _ ⟨hw, rfl, hspares, -⟩
    exact ⟨hw, hspares, rfl⟩
  rintro v _ ⟨hv, hw, rfl, hspares, hleft⟩
  have hclean' : Unrefused hw.outcomes := fun o ho => hclean o (hleft ho)
  rw [post_bind]
  refine (post_delFlow (s := { s with hw := hw }) (hflow hmem') hclean' .n2h).imp ?_ ?_
  swap
  · rintro _ _ ⟨hw', rfl, hspares', -⟩
    exact ⟨hw', hspares.trans hspares', rfl⟩
  rintro w _ ⟨hw', hw'', rfl, hspares', hleft'⟩
  obtain ⟨log, hunregister⟩ := State.unregisterFlow_eq { s with hw := hw'' } flow
  rw [post_bind, post_modify, hunregister, if_neg (by simp [hv, hw'])]
  exact ⟨hw'', log, hmem', hspares.trans hspares', List.Subset.trans hleft' hleft, rfl⟩

theorem State.countRelease_markDestroyed (s : State) (r : Ref) :
    (s.countRelease r).markDestroyed r = { s with
      heap := Function.update s.heap r { s.heap r with released := (s.heap r).released + 1, destroyed := true } } := by
  simp only [State.countRelease, State.markDestroyed, Function.update_self, Function.update_idem]

section Deletes

variable (h : Isolated s) (hne : s.caller ≠ d) (hclean : Unrefused s.hw.outcomes)

include h hne hclean

/-- A flow is detached from an ikernel of the calling connection. -/
theorem confines_ikernelDetach (hheld : .id i ∈ (s.conns s.caller).ikernels) (hr : s.ikernels.lookup i = some r)
    (flow : Flow) :
    Post (ikernelDetach r flow) s
      (fun _ s' => Confined d s s' ∧ Unrefused s'.hw.outcomes ∧ flow ∈ s.flowsOf r ∧
        ∃ hw flows log, s' = { s with
          hw := hw
          flows := flows
          flowLog := log
          flowsOf := Function.update s.flowsOf r (remove (s.flowsOf r) flow) })
      (fun _ => Confined d s) := by
  refine (post_ikernelDetach_unrefused (a := s.assets d) (h.flow_notMem hne hheld hr) hclean).imp ?_ ?_
  · rintro _ _ ⟨hw, log, hmem, hspares, hleft, rfl⟩
    have hhw := h.confined_hw hspares
    refine ⟨hhw.trans ?_, fun o ho => hclean o (hleft ho), hmem, hw, _, log, rfl⟩
    exact confined_dropFlow hhw.isolated hne hheld hr hmem log
  · rintro _ _ ⟨hw, hspares, rfl⟩
    exact h.confined_hw hspares

theorem confines_detach (flow : Flow) (id : ℤ) : Confines d (Hypervisor.detach flow id) s := by
  show Post (Hypervisor.checkIkernel id >>= _) s _ _
  rw [post_bind, post_checkIkernel]
  split
  swap
  · exact .refl h
  rename_i hheld
  obtain ⟨q, hq, -⟩ := h.lookup hheld
  unfold ikDetach
  simp only [post_bind, post_get]
  rw [post_getIkernel hq]
  exact (confines_ikernelDetach h hne hclean hheld hq _).imp (fun _ _ h' => h'.1) fun _ _ h' => h'

omit hclean in
/-- An ikernel of the calling connection is released. -/
theorem confined_release (hheld : .id i ∈ (s.conns s.caller).ikernels) (hr : s.ikernels.lookup i = some r) {k : Ikernel}
    (hid : k.ikernelId = (s.heap r).ikernelId) (howner : k.owner = (s.heap r).owner) (l : IntervalSet) :
    Confined d s (State.modifyConn { s with
        ikernelIds := s.ikernelIds.releaseId i
        freeList := l
        heap := Function.update s.heap r k
        ikernels := s.ikernels.erase i } fun conn => { conn with ikernels := remove conn.ikernels (.id i) }) := by
  have hnot : i ∉ (s.assets d).ids := h.id_notMem hne hheld
  have href : r ∉ (s.assets d).refs := h.ref_notMem hne hheld hr
  have hmem : ∀ {x}, x ∈ remove (s.conns s.caller).ikernels (.id i) → x ∈ (s.conns s.caller).ikernels := fun hx =>
    (mem_remove.mp hx).1
  -- first the connection gives up the id, and then nobody holds it
  have hdrop : Isolated (s.modifyConn fun conn => { conn with ikernels := remove conn.ikernels (.id i) }) := by
    refine h.modifyConn (h.noClient _) (fun x hx => h.held _ x (hmem hx)) fun ring hring => ?_
    exact h.ownRing hring
  have hfree : ∀ e, .id i ∉ ((s.modifyConn fun conn => { conn with ikernels := remove conn.ikernels (.id i) }).conns
      e).ikernels := by
    intro e hi
    by_cases he : e = s.caller
    · have hi' : .id i ∈ (Function.update s.conns s.caller _ e).ikernels := hi
      rw [he, Function.update_self] at hi'
      exact (mem_remove.mp hi').2 rfl
    · have hi' : .id i ∈ (Function.update s.conns s.caller _ e).ikernels := hi
      rw [Function.update_of_ne he] at hi'
      exact he (h.holder hi' hheld)
  have hsame : ∀ x, (Function.update s.heap r k x).ikernelId = (s.heap x).ikernelId ∧
      (Function.update s.heap r k x).owner = (s.heap x).owner := by
    intro x
    by_cases hx : x = r
    · rw [hx, Function.update_self]
      exact ⟨hid, howner⟩
    · rw [Function.update_of_ne hx]
      exact ⟨rfl, rfl⟩
  refine ⟨⟨?_, { Spares.refl (s.assets d) s with ikernels := ?_, heap := ?_ }⟩,
    { hdrop with held := ?_, keyed := ?_, ikernelIds := IDPool.wellFormed_releaseId h.ikernelIds i }, rfl, rfl⟩
  · exact (untouched_modifyConn (s := s) hne fun conn => { conn with ikernels := remove conn.ikernels (.id i) }).conn
  · intro j hj
    apply AList.lookup_erase_ne
    rintro rfl
    exact hnot hj
  · intro x hx
    apply Function.update_of_ne
    rintro rfl
    exact href hx
  · intro e x hx
    obtain ⟨j, q, rfl, hq, howner'⟩ := hdrop.held e x hx
    have hji : j ≠ i := by
      rintro rfl
      exact hfree e hx
    exact ⟨j, q, rfl, (AList.lookup_erase_ne hji).trans hq, (hsame q).2.trans howner'⟩
  · intro j q hq
    have hq' : (s.ikernels.erase i).lookup j = some q := hq
    have hji : j ≠ i := by
      rintro rfl
      rw [AList.lookup_erase] at hq'
      cases hq'
    rw [AList.lookup_erase_ne hji] at hq'
    obtain ⟨hkey, hlt, huse⟩ := h.keyed j q hq'
    exact ⟨(hsame q).1.trans hkey, hlt, IDPool.mem_releaseId.mpr ⟨huse, hji⟩⟩

/-- `destroy` of an ikernel of the calling connection; its id is not deregistered yet. -/
theorem confines_destroy (hheld : .id i ∈ (s.conns s.caller).ikernels) (hr : s.ikernels.lookup i = some r) :
    Post (destroy r) s
      (fun _ s' => ∃ t k l, Confined d s t ∧ t.conns = s.conns ∧ t.ikernels = s.ikernels ∧
        k.ikernelId = (t.heap r).ikernelId ∧ k.owner = (t.heap r).owner ∧
        s' = { t with
          ikernelIds := t.ikernelIds.releaseId i
          freeList := l
          heap := Function.update t.heap r k })
      (fun _ => Confined d s) := by
  -- what the rounds of the first loop keep
  let I : State → Prop := fun t => Confined d s t ∧ Unrefused t.hw.outcomes ∧
    ∃ hw flows log g, t = { s with hw := hw, flows := flows, flowLog := log, flowsOf := g }
  have hbody : ∀ t x rest, I t → t.flowsOf r = x :: rest → Post (ikernelDetach r x) t
      (fun _ t' => I t' ∧ (t'.flowsOf r).length ≤ rest.length) (fun _ => Confined d s) := by
    rintro t x rest ⟨hconfined, hleft, hw, flows, log, g, rfl⟩ hx
    refine (confines_ikernelDetach hconfined.isolated hne hleft hheld hr x).imp ?_ fun _ _ h' => hconfined.trans h'
    rintro _ _ ⟨hconfined', hleft', -, hw', flows', log', rfl⟩
    refine ⟨⟨hconfined.trans hconfined', hleft', hw', flows', log', _, rfl⟩, ?_⟩
    show (Function.update g r (remove (g r) x) r).length ≤ _
    rw [Function.update_self]
    have hcons : g r = x :: rest := hx
    rw [hcons]
    exact length_remove_cons x rest
  unfold destroy
  simp only [post_bind, post_get]
  refine (Post.drain hbody _ s ⟨.refl h, hclean, s.hw, s.flows, s.flowLog, s.flowsOf, rfl⟩ (Nat.le_refl _)).imp ?_
    fun _ _ h' => h'
  rintro _ t ⟨⟨hconfined, -, hw, flows, log, g, rfl⟩, -⟩
  -- a VM's ikernel has no rings of its own
  have hnone : s.customRingsOf r = [] := h.noRings r
  have hkey : (s.heap r).ikernelId = i := (h.keyed i r hr).1
  rw [hnone, List.length_nil, Prog.drain, post_pure, hkey]
  unfold deallocateIkernel
  rw [post_bind]
  refine (post_getIkernel (s := { s with hw := hw, flows := flows, flowLog := log, flowsOf := g }) hr).mpr ?_
  simp only [post_bind, post_modify, post_get, post_deallocateDram]
  rw [State.countRelease_markDestroyed]
  exact ⟨{ s with hw := hw, flows := flows, flowLog := log, flowsOf := g },
    { s.heap r with released := (s.heap r).released + 1, destroyed := true }, _, hconfined, rfl, rfl, rfl, rfl, rfl⟩

omit hclean in
theorem confines_removeHeld (x : Held) : Confines d (removeHeld x) s := by
  unfold Confines removeHeld
  rw [post_bind, post_self]
  split
  · exact .refl h
  · exact h.confined_modifyConn (g := fun conn => { conn with ikernels := remove conn.ikernels x }) hne rfl id
      (fun y hy => (mem_remove.mp hy).1) fun _ hring => hring

theorem confines_deallocateIkernel (id : ℤ) : Confines d (Hypervisor.deallocateIkernel id) s := by
  show Post (self >>= _) s _ _
  rw [post_bind, post_self]
  split
  · exact .refl h
  rename_i hheld
  have hheld' : .id id ∈ (s.conns s.caller).ikernels := not_not.mp hheld
  obtain ⟨q, hq, -⟩ := h.lookup hheld'
  unfold ikDestroy
  simp only [post_bind, post_tryCatch, post_get]
  rw [hq]
  simp only [post_bind, post_modify, post_pure]
  refine (confines_destroy h hne hclean hheld' hq).imp ?_ ?_
  · rintro _ _ ⟨t, k, l, hconfined, hconns, hikernels, hid, howner, rfl⟩
    have hheld'' : .id id ∈ (t.conns t.caller).ikernels := by
      rw [hconns, hconfined.caller]
      exact hheld'
    have hrelease := confined_release hconfined.isolated (hconfined.caller.symm ▸ hne) hheld''
      (hikernels.symm ▸ hq) hid howner l
    unfold removeHeld
    rw [post_bind, post_self, if_neg (not_not.mpr hheld'')]
    exact hconfined.trans hrelease
  · -- a `KeyError` is caught, and the id is given up all the same
    intro e t hconfined
    have hcaller : t.caller ≠ d := hconfined.caller.symm ▸ hne
    split
    · exact (confines_removeHeld hconfined.isolated hcaller _).imp (fun _ _ h' => hconfined.trans h')
        fun _ _ h' => hconfined.trans h'
    · exact hconfined

end Deletes

/-! ### Creating -/

section Creates

variable (h : Isolated s) (hne : s.caller ≠ d)

include h

theorem confined_attempts {uuid : Uuid} {log : ℕ} {tc : Option (Fin 3)} (hs' : Attempts s uuid log tc s') :
    Confined d s s' := by
  obtain rfl | ⟨-, l, os, mappings, accesses, -, rfl, hnone, hsome⟩ := hs'
  · exact .refl h
  obtain ⟨hpool, hcases⟩ := IDPool.getId_cases (tcCondition tc) 3 h.ikernelIds
  have huse : ∀ j ∈ s.ikernelIds.idsInUse, j ∈ (s.ikernelIds.getId 3 (tcCondition tc)).2.idsInUse := by
    intro j hj
    rcases hcases with ⟨-, heq⟩ | ⟨id, -, -, heq⟩
    · rwa [heq]
    · rw [heq]
      exact List.mem_insert_of_mem hj
  have hspares : s.hw.Spares (s.assets d) (s.hw.after os mappings accesses) := by
    rcases hcases with ⟨hid, -⟩ | ⟨id, hid, hfree, -⟩
    · obtain ⟨rfl, rfl⟩ := hnone hid
      exact { Hardware.Spares.refl _ s.hw with
        mmu := ⟨[], rfl, nofun⟩, gateway := ⟨[], rfl, nofun⟩ }
    · obtain ⟨hmappings, haccesses⟩ := hsome id hid
      exact spares_after (h.freeId_notMem hfree d) s.hw os hmappings haccesses
  refine ⟨⟨.refl _, { Spares.refl (s.assets d) s with hw := hspares }⟩,
    { h with keyed := fun j q hq => ?_, ikernelIds := hpool }, rfl, rfl⟩
  obtain ⟨hkey, hlt, hmem⟩ := h.keyed j q hq
  exact ⟨hkey, hlt, huse j hmem⟩

/-- Neither an id that was not in use nor the next object was known before. -/
theorem Isolated.known (hfree : i ∉ s.ikernelIds.idsInUse) {j : ℤ} {q : Ref} (hq : s.ikernels.lookup j = some q) :
    j ≠ i ∧ q ≠ s.objects := by
  obtain ⟨-, hlt, hmem⟩ := h.keyed j q hq
  refine ⟨?_, Nat.ne_of_lt hlt⟩
  rintro rfl
  exact hfree hmem

section AddIkernel

variable {p : IDPool} {l : IntervalSet} {hw : Hardware} {k : Ikernel} (hfree : k.ikernelId ∉ s.ikernelIds.idsInUse)

include hfree

/-- A new ikernel is none of another connection. -/
theorem spares_addIkernel (hspares : s.hw.Spares (s.assets d) hw) :
    Spares (s.assets d) s (State.addIkernel { s with ikernelIds := p, freeList := l, hw := hw } s.objects k) := by
  refine { Spares.refl (s.assets d) s with ikernels := ?_, heap := ?_, flowsOf := ?_, hw := hspares }
  · intro j hj
    obtain ⟨q, hq, -⟩ := h.lookup hj
    exact AList.lookup_insert_ne (h.known hfree hq).1
  · rintro x ⟨j, -, hx⟩
    exact Function.update_of_ne (h.known hfree hx).2 _ _
  · rintro x ⟨j, -, hx⟩
    show (Function.update s.flowsOf s.objects [] x).Perm _
    rw [Function.update_of_ne (h.known hfree hx).2]

/-- A new ikernel is registered. -/
theorem Isolated.addIkernel (hpool : p.WellFormed) (huse : p.idsInUse = s.ikernelIds.idsInUse.insert k.ikernelId) :
    Isolated (State.addIkernel { s with ikernelIds := p, freeList := l, hw := hw } s.objects k) := by
  set t := State.addIkernel { s with ikernelIds := p, freeList := l, hw := hw } s.objects k with ht
  have hlookup : ∀ {j}, j ≠ k.ikernelId → t.ikernels.lookup j = s.ikernels.lookup j := fun hj =>
    AList.lookup_insert_ne hj
  have hheap : ∀ {x}, x ≠ s.objects → t.heap x = s.heap x := fun hx => Function.update_of_ne hx _ _
  have hmem : ∀ {j}, j ∈ t.ikernelIds.idsInUse ↔ j = k.ikernelId ∨ j ∈ s.ikernelIds.idsInUse := by
    intro j
    show j ∈ p.idsInUse ↔ _
    rw [huse]
    exact List.mem_insert_iff
  refine { h with held := ?_, keyed := ?_, ikernelIds := hpool, flows := ?_, noRings := ?_ }
  · intro e x hx
    obtain ⟨j, q, rfl, hq, howner⟩ := h.held e x hx
    obtain ⟨hj, hx'⟩ := h.known hfree hq
    exact ⟨j, q, rfl, (hlookup hj).trans hq, by rw [hheap hx', howner]⟩
  · intro j q hq
    by_cases hj : j = k.ikernelId
    · subst hj
      obtain rfl : s.objects = q := Option.some.inj ((AList.lookup_insert _).symm.trans hq)
      have hself : t.heap s.objects = k := Function.update_self ..
      exact ⟨by rw [hself], Nat.lt_succ_self _, hmem.mpr (.inl rfl)⟩
    · rw [hlookup hj] at hq
      obtain ⟨hkey, hlt, huse'⟩ := h.keyed j q hq
      exact ⟨by rw [hheap (h.known hfree hq).2, hkey], Nat.lt_succ_of_lt hlt, hmem.mpr (.inr huse')⟩
  · intro x f hf
    have hf' : f ∈ Function.update s.flowsOf s.objects [] x := hf
    by_cases hx : x = s.objects
    · rw [hx, Function.update_self] at hf'
      cases hf'
    · rw [Function.update_of_ne hx] at hf'
      exact h.flows x f hf'
  · intro x
    show Function.update s.customRingsOf s.objects [] x = []
    by_cases hx : x = s.objects
    · rw [hx, Function.update_self]
    · rw [Function.update_of_ne hx]
      exact h.noRings x

end AddIkernel

include hne

/-- The calling connection gets an ikernel. -/
theorem confined_allocates {uuid : Uuid} {log : ℕ} {tc : Option (Fin 3)} {k : Ikernel}
    (hs' : Allocates s s.objects uuid log tc k s') :
    Confined d s ((s'.addIkernel s.objects k).modifyConn fun conn =>
      { conn with ikernels := conn.ikernels.insert (.id k.ikernelId) }) := by
  obtain ⟨l, os, -, rfl⟩ := hs'.state
  obtain ⟨hpool, hcases⟩ := IDPool.getId_cases (tcCondition tc) 3 h.ikernelIds
  obtain ⟨hfree, huse⟩ : k.ikernelId ∉ s.ikernelIds.idsInUse ∧
      (s.ikernelIds.getId 3 (tcCondition tc)).2.idsInUse = s.ikernelIds.idsInUse.insert k.ikernelId := by
    rcases hcases with ⟨hnone, -⟩ | ⟨id, hid, hfree, huse⟩
    · cases hnone.symm.trans hs'.id_eq
    · obtain rfl : id = k.ikernelId := Option.some.inj (hid.symm.trans hs'.id_eq)
      exact ⟨hfree, huse⟩
  have hspares : s.hw.Spares (s.assets d)
      (s.hw.after os [mappingOf k.ikernelId k.base] (sizeWrites s.objects uuid log k.ikernelId)) := by
    refine spares_after (h.freeId_notMem hfree d) s.hw os (by simp) ?_
    unfold sizeWrites
    split <;> simp
  have hnew : Confined d s (State.addIkernel
      { s with
        ikernelIds := (s.ikernelIds.getId 3 (tcCondition tc)).2
        freeList := l
        hw := s.hw.after os [mappingOf k.ikernelId k.base] (sizeWrites s.objects uuid log k.ikernelId) }
      s.objects k) :=
    ⟨⟨.refl _, spares_addIkernel h hfree hspares⟩, h.addIkernel hfree hpool huse, rfl, rfl⟩
  refine hnew.trans (hnew.isolated.confined_addHeld (hnew.caller.symm ▸ hne) ?_)
  refine ⟨k.ikernelId, s.objects, rfl, AList.lookup_insert _, ?_⟩
  have hself : (State.addIkernel s s.objects k).heap s.objects = k := Function.update_self ..
  exact (congrArg Ikernel.owner hself).trans hs'.owner_eq

theorem confines_allocateIkernel (uuid : Uuid) (log : ℕ) : Confines d (Hypervisor.allocateIkernel uuid log) s := by
  show Post (self >>= _) s _ _
  rw [post_bind, post_self]
  unfold ikCreate addHeld
  simp only [post_bind, post_get, post_modify, post_pure]
  refine (post_allocateIkernel s s.objects uuid log _).imp ?_ fun _ _ hs' => confined_attempts h hs'
  intro k s' hs'
  have hself : ((s'.addIkernel s.objects k).heap s.objects).ikernelId = k.ikernelId := by
    show (Function.update s'.heap s.objects k s.objects).ikernelId = _
    rw [Function.update_self]
  rw [hself]
  exact confined_allocates h hne hs'

end Creates

end Nica.Manager
