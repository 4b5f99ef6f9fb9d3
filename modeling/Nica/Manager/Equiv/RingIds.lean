import Nica.Manager.Equiv.Stable

/-!
# The custom rings of the connections

`RingIds m`: the pool of ring ids is bounded by `m`, and every ring that it has given out or got back, or that
a connection holds, lies between 0 and `m`, both left out.  Every step of the manager keeps this
(`ringIds_step`), so a ring that a request may name is a context of the hardware.
-/

namespace Nica.Manager

open Nica.Lib Nica.Lib.Prog

/-- The number of a context; 0 stands for no ring. -/
def IsContext (m id : ℤ) : Prop := 0 < id ∧ id < m

/-! ### The pool -/

namespace IDPool

variable {p : IDPool} {m id : ℤ}

/-- The ids of the pool are numbers of contexts. -/
structure Contexts (m : ℤ) (p : IDPool) : Prop where
  maxId : p.maxId = some m
  lastId : 0 ≤ p.lastId
  used : ∀ id ∈ p.idsInUse, IsContext m id
  free : ∀ id ∈ p.idsFree, IsContext m id

theorem contexts_init (m : ℤ) : Contexts m (init 0 (some m)) :=
  ⟨rfl, Int.le_refl 0, by simp [init], by simp [init]⟩

/-- A ring id that `get_id` returns is the number of a context. -/
theorem Contexts.getId (hp : p.Contexts m) (hm : m ≠ 0) :
    (p.getId 0 fun _ => true).2.Contexts m ∧
      ∀ id, (p.getId 0 fun _ => true).1 = some id → IsContext m id := by
  have hlast := hp.lastId
  unfold IDPool.getId
  rcases hfree : p.idsFree.filter (fun _ => true) with _ | ⟨id, rest⟩
  · simp only [newId]
    by_cases hroom : exhausted { p with lastId := p.lastId + 1 } (p.lastId + 1) = true
    · simp only [hroom, if_true]
      exact ⟨⟨hp.maxId, Int.le_add_one hlast, hp.used, hp.free⟩, by simp⟩
    · simp only [hroom]
      have hlt : p.lastId + 1 < m := by simpa [exhausted, hp.maxId, hm] using hroom
      have hctx : IsContext m (p.lastId + 1) := ⟨Int.lt_add_one_of_le hlast, hlt⟩
      refine ⟨⟨hp.maxId, Int.le_add_one hlast, ?_, hp.free⟩, ?_⟩
      · intro i hi
        rcases List.mem_insert_iff.mp hi with rfl | hi
        · exact hctx
        · exact hp.used i hi
      · rintro i ⟨⟩
        exact hctx
  · have hctx : IsContext m id :=
      hp.free id (List.mem_of_mem_filter (hfree ▸ List.mem_cons_self ..))
    refine ⟨⟨hp.maxId, hlast, ?_, ?_⟩, ?_⟩
    · intro i hi
      rcases List.mem_insert_iff.mp hi with rfl | hi
      · exact hctx
      · exact hp.used i hi
    · intro i hi
      exact hp.free i (mem_remove.mp hi).1
    · rintro i ⟨⟩
      exact hctx

theorem Contexts.releaseId (hp : p.Contexts m) (id : ℤ) : (p.releaseId id).Contexts m := by
  unfold IDPool.releaseId
  split
  · rename_i hin
    refine ⟨hp.maxId, hp.lastId, ?_, ?_⟩
    · intro i hi
      exact hp.used i (mem_remove.mp hi).1
    · intro i hi
      rcases List.mem_insert_iff.mp hi with rfl | hi
      · exact hp.used _ hin
      · exact hp.free i hi
  · exact hp

end IDPool

/-! ### The programs -/

/-- The pool of ring ids, and the rings that each connection holds. -/
def State.ringView (s : State) : IDPool × (ℕ → Dict ℤ Ref) :=
  (s.customRingIds, fun c => (s.conns c).customRingIkernels)

/-- The rings that the pool and the connections know are contexts. -/
structure RingIds (m : ℤ) (v : IDPool × (ℕ → Dict ℤ Ref)) : Prop where
  pool : v.1.Contexts m
  held : ∀ c, ∀ ring ∈ v.2 c, IsContext m ring

variable {m : ℤ} {s : State}

/-- The programs keep the rings in range. -/
abbrev KeepsRingIds {α : Type} (m : ℤ) (x : Mgr α) : Prop := Preserves (fun s => RingIds m s.ringView) x

theorem keepsRingIds_of_keeps {α : Type} {x : Mgr α} (h : Keeps State.ringView x) : KeepsRingIds m x :=
  h.preserves (RingIds m)

theorem ringView_unregisterFlow (s : State) (flow : Flow) : (s.unregisterFlow flow).ringView = s.ringView := by
  unfold State.unregisterFlow
  split <;> rfl

theorem RingIds.releaseRing (h : RingIds m s.ringView) (ring : ℤ) : RingIds m (s.releaseRing ring).ringView := by
  unfold State.releaseRing
  split
  · split
    · exact ⟨h.pool.releaseId ring, h.held⟩
    · exact ⟨h.pool.releaseId ring, h.held⟩
  · exact h

/-- A change of the calling connection that leaves its rings alone. -/
theorem ringView_modifyConn {g : Conn → Conn} (hg : ∀ conn, (g conn).customRingIkernels = conn.customRingIkernels)
    (s : State) : (s.modifyConn g).ringView = s.ringView := by
  simp only [State.ringView, State.modifyConn, Prod.mk.injEq, true_and]
  ext1 c
  by_cases hc : c = s.caller
  · subst hc
    rw [Function.update_self, hg]
  · rw [Function.update_of_ne hc]

/-- A change of the calling connection after which its rings are still contexts. -/
theorem RingIds.modifyConn (h : RingIds m s.ringView) {g : Conn → Conn}
    (hg : ∀ ring ∈ (g (s.conns s.caller)).customRingIkernels, IsContext m ring) :
    RingIds m (s.modifyConn g).ringView := by
  refine ⟨h.pool, ?_⟩
  intro c ring hring
  simp only [State.ringView, State.modifyConn] at hring
  by_cases hc : c = s.caller
  · subst hc
    rw [Function.update_self] at hring
    exact hg ring hring
  · rw [Function.update_of_ne hc] at hring
    exact h.held c ring hring

theorem ringIds_crDestroy (ring : ℤ) : KeepsRingIds m (crDestroy ring) := by
  unfold crDestroy
  exact (keepsRingIds_of_keeps (keeps_setCustomRing (fun _ _ => rfl) _ _ _ _)).bind fun _ =>
    preserves_modify fun s hs => hs.releaseRing ring

theorem ringIds_ikernelCrDestroy (r : Ref) (ring : ℤ) : KeepsRingIds m (ikernelCrDestroy r ring) := by
  unfold ikernelCrDestroy
  refine (ringIds_crDestroy ring).bind fun _ => .get_bind fun s => ?_
  split
  · exact preserves_throw_bind _ _
  · exact preserves_modify fun _ hs => hs

theorem ringIds_destroy (r : Ref) : KeepsRingIds m (destroy r) := by
  unfold destroy
  refine .get_bind fun s => (Preserves.drain (fun flow => keepsRingIds_of_keeps ?_) _).bind fun _ =>
    .get_bind fun s => (Preserves.drain (ringIds_ikernelCrDestroy r) _).bind fun _ =>
      .get_bind fun s => Preserves.bind (keepsRingIds_of_keeps ?_) fun _ => preserves_modify fun _ hs => hs
  · exact keeps_ikernelDetach (fun _ _ => rfl) (fun _ _ => rfl) ringView_unregisterFlow r flow
  · unfold deallocateIkernel deallocateDram
    exact (keeps_getIkernel _).bind fun r => Keeps.bind (keeps_modify fun _ => rfl) fun _ => .get_bind fun s =>
      Keeps.bind (Keeps.ite (keeps_pure _) (keeps_modify fun _ => rfl)) fun _ => keeps_modify fun _ => rfl

theorem ringIds_ikDestroy (id : ℤ) : KeepsRingIds m (ikDestroy id) := by
  unfold ikDestroy
  refine Preserves.tryCatch (.get_bind fun s => ?_)
    fun e => Preserves.ite (preserves_pure _) (preserves_throw _)
  split
  · exact preserves_throw _
  · refine (ringIds_destroy _).bind fun _ => Preserves.bind ?_ fun _ => preserves_pure _
    exact preserves_modify fun _ hs => hs

theorem ringIds_ikCreate (uuid : Uuid) (log : ℕ) (tc : Option (Fin 3)) :
    KeepsRingIds m (ikCreate uuid log tc) := by
  intro s hs
  unfold ikCreate
  simp only [post_bind, post_get, post_modify, post_pure]
  refine (post_allocateIkernel s _ uuid log tc).imp ?_ ?_
  · rintro k s' hk
    obtain ⟨l, os, -, rfl⟩ := hk.state
    exact hs
  · rintro _ s' (rfl | ⟨-, l, os, mappings, accesses, -, rfl, -⟩)
    · exact hs
    · exact hs

/-- `cr_create` keeps the rings in range, and the ring that it returns is a context. -/
theorem post_crCreate_ringIds (hm : m ≠ 0) (h : RingIds m s.ringView) (r : Ref) (qpn : BitVec 32)
    (mac : Option Mac) (dstIp : Option Ip) :
    Post (crCreate r qpn mac dstIp) s (fun ring s' => RingIds m s'.ringView ∧ IsContext m ring)
      (fun _ s' => RingIds m s'.ringView) := by
  obtain ⟨hpool, hctx⟩ := h.pool.getId hm
  unfold crCreate getRingId
  simp only [post_bind, post_get, post_modify]
  have hs : RingIds m { s with customRingIds := (s.customRingIds.getId 0 fun _ => true).2 }.ringView :=
    ⟨hpool, h.held⟩
  cases hid : (s.customRingIds.getId 0 fun _ => true).1 with
  | none => exact hs
  | some ring =>
    have hring := hctx ring hid
    rw [post_pure]
    refine (keepsRingIds_of_keeps (keeps_setCustomRing (fun _ _ => rfl) _ _ _ _) _ hs).imp ?_ fun _ _ h => h
    intro _ s₁ h₁
    refine (keepsRingIds_of_keeps (keeps_updateCredits (fun _ _ => rfl) _ _ _) _ h₁).imp ?_ fun _ _ h => h
    intro _ s₂ h₂
    exact ⟨h₂, hring⟩

theorem ringIds_addRing {ring : ℤ} (hring : IsContext m ring) (r : Ref) : KeepsRingIds m (addRing ring r) := by
  refine preserves_modify fun s hs => hs.modifyConn fun x hx => ?_
  rcases (AList.mem_insert _).mp hx with rfl | hx
  · exact hring
  · exact hs.held s.caller x hx

theorem ringIds_delRing (ring : ℤ) : KeepsRingIds m (delRing ring) := by
  unfold delRing
  refine (keepsRingIds_of_keeps keeps_self).bind fun conn => ?_
  split
  · exact preserves_throw_bind _ _
  · exact preserves_modify fun s hs => hs.modifyConn fun x hx =>
      hs.held s.caller x (AList.mem_erase.mp hx).2

theorem ringIds_removeHeld (x : Held) : KeepsRingIds m (removeHeld x) := by
  unfold removeHeld
  refine (keepsRingIds_of_keeps keeps_self).bind fun conn => ?_
  split
  · exact preserves_throw_bind _ _
  · exact keepsRingIds_of_keeps (keeps_modify (ringView_modifyConn fun _ => rfl))

theorem ringIds_addHeld (x : Held) : KeepsRingIds m (addHeld x) :=
  keepsRingIds_of_keeps (keeps_modify (ringView_modifyConn fun _ => rfl))

/-! ### The requests -/

theorem ringIds_clientCreate (netdev : List (BitVec 8)) (uuid : Uuid) (log : ℕ) (header : List ℤ) :
    KeepsRingIds m (Client.create netdev uuid log header) := by
  unfold Client.create
  refine Preserves.ite (preserves_throw_bind _ _) (.get_bind fun s => Preserves.ite (preserves_pure _) ?_)
  exact (ringIds_ikCreate _ _ _).bind fun _ => (ringIds_addHeld _).bind fun _ => .get_bind fun _ =>
    preserves_pure _

/-- The rings of a client are contexts after its request. -/
theorem ringIds_client (hm : m ≠ 0) (req : ClientRequest) : KeepsRingIds m (Client.handler req) := by
  cases req with
  | ikCreate netdev uuid => exact ringIds_clientCreate _ _ _ _
  | ikCreateAttrs size netdev uuid log => exact ringIds_clientCreate _ _ _ _
  | ikDestroy id =>
    refine Preserves.tryCatch (.get_bind fun s => ?_)
      fun e => Preserves.ite (preserves_pure _) (preserves_throw _)
    split
    · exact preserves_throw _
    · refine (ringIds_destroy _).bind fun _ => Preserves.bind ?_ fun _ =>
        (ringIds_removeHeld _).bind fun _ => preserves_pure _
      exact preserves_modify fun _ hs => hs
  | ikRpc id address value write =>
    exact (keepsRingIds_of_keeps (keeps_ikRpc (fun _ _ => rfl) _ _ _ _)).bind fun _ => preserves_pure _
  | ikAttach id fd =>
    have hattach : ∀ flow, Keeps State.ringView (ikAttach (handle id) flow) := fun flow =>
      keeps_ikAttach (fun _ _ => rfl) (fun _ _ => rfl) (fun _ _ _ _ _ => rfl) _ flow
    exact keepsRingIds_of_keeps ((keeps_receiveFlow fd).bind fun flow => (hattach flow).bind fun _ => keeps_pure _)
  | ikDetach id fd =>
    have hdetach : ∀ flow, Keeps State.ringView (ikDetach (handle id) flow) := fun flow =>
      keeps_ikDetach (fun _ _ => rfl) (fun _ _ => rfl) ringView_unregisterFlow _ flow
    exact keepsRingIds_of_keeps ((keeps_receiveFlow fd).bind fun flow => (hdetach flow).bind fun _ => keeps_pure _)
  | crCreate id qpNum =>
    intro s hs
    show Post (get >>= _) s _ _
    rw [post_bind, post_get]
    split
    · exact hs
    · unfold ikernelCrCreate
      simp only [post_bind, post_modify, post_pure]
      refine (post_crCreate_ringIds hm hs _ _ _ _).imp ?_ fun _ _ h => h
      rintro ring s' ⟨hs', hring⟩
      exact ringIds_addRing hring _ _ hs'
  | crDestroy ring =>
    refine (keepsRingIds_of_keeps keeps_self).bind fun conn => ?_
    split
    · exact preserves_pure _
    · exact (ringIds_ikernelCrDestroy _ _).bind fun _ => (ringIds_delRing _).bind fun _ => preserves_pure _
  | crUpdateCredits ring maxMsn =>
    refine (keepsRingIds_of_keeps keeps_self).bind fun conn => ?_
    split
    · exact preserves_pure _
    · exact keepsRingIds_of_keeps ((keeps_updateCredits (fun _ _ => rfl) _ _ _).bind fun _ => keeps_pure _)

/-- The rings of a VM are contexts after its request. -/
theorem ringIds_vm (hm : m ≠ 0) (req : VmRequest) : KeepsRingIds m (Hypervisor.handler req) := by
  have haccess : KeepsRingIds m (access fun _ hw => hw) := keepsRingIds_of_keeps (keeps_access (fun _ _ => rfl) _)
  cases req with
  | configureCustomRing mac ip =>
    refine Preserves.bind (keepsRingIds_of_keeps (keeps_modify fun s => ?_)) fun _ => preserves_pure _
    refine ringView_modifyConn ?_ s
    intro conn
    rfl
  | numRings => exact haccess.bind fun _ => preserves_pure _
  | getUuids =>
    exact haccess.bind fun _ => haccess.bind fun _ => haccess.bind fun _ => haccess.bind fun _ => preserves_pure _
  | allocateIkernel uuid log =>
    exact (keepsRingIds_of_keeps keeps_self).bind fun _ => (ringIds_ikCreate _ _ _).bind fun _ =>
      .get_bind fun _ => (ringIds_addHeld _).bind fun _ => preserves_pure _
  | deallocateIkernel id =>
    refine (keepsRingIds_of_keeps keeps_self).bind fun conn => ?_
    split
    · exact preserves_pure _
    · exact (ringIds_ikDestroy _).bind fun _ => (ringIds_removeHeld _).bind fun _ => preserves_pure _
  | attach ip port id =>
    refine (keepsRingIds_of_keeps (keeps_checkIkernel _)).bind fun _ =>
      (keepsRingIds_of_keeps keeps_self).bind fun conn => ?_
    split
    · exact preserves_throw_bind _ _
    · exact (keepsRingIds_of_keeps
        (keeps_ikAttach (fun _ _ => rfl) (fun _ _ => rfl) (fun _ _ _ _ _ => rfl) _ _)).bind fun _ =>
          preserves_pure _
  | detach ip port id =>
    exact (keepsRingIds_of_keeps (keeps_checkIkernel _)).bind fun _ => (keepsRingIds_of_keeps
      (keeps_ikDetach (fun _ _ => rfl) (fun _ _ => rfl) ringView_unregisterFlow _ _)).bind fun _ =>
        preserves_pure _
  | invokeIkernelRpc id address value write =>
    exact (keepsRingIds_of_keeps (keeps_checkIkernel _)).bind fun _ =>
      (keepsRingIds_of_keeps (keeps_ikRpc (fun _ _ => rfl) _ _ _ _)).bind fun _ => preserves_pure _
  | crCreate id qpNum =>
    refine (keepsRingIds_of_keeps (keeps_checkIkernel _)).bind fun _ =>
      (keepsRingIds_of_keeps (keeps_getIkernel _)).bind fun r =>
        (keepsRingIds_of_keeps keeps_self).bind fun conn => ?_
    intro s hs
    simp only [post_bind, post_pure]
    refine (post_crCreate_ringIds hm hs _ _ _ _).imp ?_ fun _ _ h => h
    rintro ring s' ⟨hs', hring⟩
    exact ringIds_addRing hring _ _ hs'
  | crDestroy ring =>
    exact (keepsRingIds_of_keeps (keeps_checkRingId _)).bind fun _ => (ringIds_crDestroy _).bind fun _ =>
      (ringIds_delRing _).bind fun _ => preserves_pure _
  | updateCredits ring msnMax =>
    exact (keepsRingIds_of_keeps (keeps_checkRingId _)).bind fun _ =>
      (keepsRingIds_of_keeps (keeps_updateCredits (fun _ _ => rfl) _ _ _)).bind fun _ => preserves_pure _

/-! ### Runs -/

theorem ringIds_shutdown : KeepsRingIds m shutdown := by
  have haccess : KeepsRingIds m (access fun _ hw => hw) := keepsRingIds_of_keeps (keeps_access (fun _ _ => rfl) _)
  exact Preserves.get_bind fun s => (Preserves.forM ringIds_destroy _).bind fun _ => haccess.bind fun _ =>
    haccess.bind fun _ => preserves_pure _

theorem ringIds_connectionLost : KeepsRingIds m connectionLost := by
  refine (keepsRingIds_of_keeps keeps_self).bind fun conn => Preserves.forM (fun x => ?_) _
  cases x with
  | object r => exact ringIds_destroy r
  | id i => exact preserves_throw _

/-- **Every step keeps the rings of the connections in range.** -/
theorem ringIds_step (hm : m ≠ 0) (a : Action) (h : RingIds m s.ringView) : RingIds m (step s a).ringView := by
  have henter : ∀ c hw, RingIds m (s.enter c hw).ringView := fun c hw => h
  unfold step
  split
  swap
  · exact h
  cases a with
  | connect kind =>
    refine ⟨h.pool, ?_⟩
    intro c ring hring
    simp only [State.ringView] at hring
    by_cases hc : c = s.connections
    · subst hc
      rw [Function.update_self] at hring
      exact absurd hring (AList.notMem_empty ring)
    · rw [Function.update_of_ne hc] at hring
      exact h.held c ring hring
  | client c req hw =>
    simp only
    split
    · exact Post.state (ringIds_client hm req _ (henter c hw))
    · exact h
  | vm c req hw =>
    simp only
    split
    · exact Post.state (ringIds_vm hm req _ (henter c hw))
    · exact h
  | connectionLost c hw =>
    simp only
    split
    · exact (Post.state (ringIds_connectionLost _ (henter c hw))).modifyConn fun x hx =>
        (Post.state (ringIds_connectionLost _ (henter c hw))).held _ x hx
    · exact h
  | shutdown hw => exact Post.state (ringIds_shutdown _ (henter s.caller hw))
  | rehash order =>
    refine ⟨⟨h.pool.maxId, h.pool.lastId, h.pool.used, ?_⟩, h.held⟩
    intro id hid
    exact h.pool.free id ((reorder_perm _ _).mem_iff.mp hid)

/-- A ring that a connection holds is one of the contexts that the hardware reports. -/
theorem held_isContext (cfg : Config) (hrings : cfg.numRings ≠ 0) (acts : List Action) {c : ℕ} {ring : ℤ}
    (hring : ring ∈ ((runFrom (init cfg) acts).conns c).customRingIkernels) :
    IsContext cfg.numRings.toNat ring := by
  have hm : (cfg.numRings.toNat : ℤ) ≠ 0 := by
    intro hzero
    exact hrings (BitVec.eq_of_toNat_eq (by simpa using hzero))
  have hinit : RingIds cfg.numRings.toNat (init cfg).ringView :=
    ⟨IDPool.contexts_init _, fun _ x hx => absurd hx (AList.notMem_empty x)⟩
  exact (run_invariant (P := fun s => RingIds cfg.numRings.toNat s.ringView)
    (fun _ a h => ringIds_step hm a h) acts (init cfg) hinit).held c ring hring

end Nica.Manager
