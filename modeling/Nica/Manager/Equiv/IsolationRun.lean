import Nica.Manager.Equiv.Isolation

/-!
# Runs of the VMs

`confines_vm`: a request of one VM leaves the others alone, whatever it is; `isolated_step`: a step does so.  Hence the
connections are kept apart in every run (`isolated_of_run`), and what belongs to a connection stays as it is until the
connection asks for something itself (`isolated_run`).
-/

namespace Nica.Manager

open Nica.Lib Nica.Lib.Prog

variable {s : State} {d : ℕ}

/-! ### Steps -/

/-- A request that deletes flows. -/
def VmRequest.deletes : VmRequest → Bool
  | .deallocateIkernel .. | .detach .. => true
  | _ => false

/-- The peers are VMs, and the hardware does not refuse to delete a flow. -/
def Action.Allowed : Action → Prop
  | .connect kind => kind ≠ .client
  | .vm _ req hw => req.deletes → Unrefused hw
  | _ => True

instance (hw : List Outcome) : Decidable (Unrefused hw) := inferInstanceAs (Decidable (∀ o ∈ hw, _))

instance (a : Action) : Decidable a.Allowed :=
  match a with
  | .connect kind => inferInstanceAs (Decidable (kind ≠ .client))
  | .vm _ req hw => inferInstanceAs (Decidable (req.deletes → Unrefused hw))
  | .client .. | .connectionLost .. | .shutdown _ | .rehash _ => isTrue trivial

/-- The action is one of the connection, or the shutdown. -/
def Action.Concerns (d : ℕ) : Action → Prop
  | .vm c .. | .client c .. | .connectionLost c _ => c = d
  | .shutdown _ => True
  | .connect _ | .rehash _ => False

instance (d : ℕ) (a : Action) : Decidable (a.Concerns d) :=
  match a with
  | .vm c .. | .client c .. | .connectionLost c _ => inferInstanceAs (Decidable (c = d))
  | .shutdown _ => isTrue trivial
  | .connect _ | .rehash _ => isFalse id

/-- **A VM's request** leaves every other connection alone. -/
theorem confines_vm (h : Isolated s) (hne : s.caller ≠ d) (req : VmRequest)
    (hclean : req.deletes → Unrefused s.hw.outcomes) : Confines d (Hypervisor.handler req) s := by
  have hnothing : Commands (s.assets d) (access fun _ hw => hw) := commands_nothing
  match req with
  | .configureCustomRing mac ip =>
    exact h.confined_modifyConn (g := fun conn => { conn with customRingMac := .text mac, customRingIp := some ip }) hne
      rfl id (fun _ hx => hx) fun _ hx => hx
  | .numRings => exact h.confines_commands (hnothing.bind fun _ => commands_pure _)
  | .getUuids =>
    exact h.confines_commands (hnothing.bind fun _ => hnothing.bind fun _ => hnothing.bind fun _ =>
      hnothing.bind fun _ => commands_pure _)
  | .allocateIkernel uuid log => exact confines_allocateIkernel h hne uuid _
  | .deallocateIkernel id => exact confines_deallocateIkernel h hne (hclean rfl) _
  | .attach ip port id => exact confines_attach h hne _ _
  | .detach ip port id => exact confines_detach h hne (hclean rfl) _ _
  | .invokeIkernelRpc id address value write => exact confines_invokeIkernelRpc h hne _ _ _ _
  | .crCreate id qpNum => exact confines_crCreate h hne _ _
  | .crDestroy ring => exact confines_crDestroy h hne _
  | .updateCredits ring msnMax => exact confines_updateCredits h hne _ _

/-- Nothing has happened but that a program was started. -/
theorem Isolated.enter (h : Isolated s) (c : ℕ) (hw : List Outcome) : Isolated (s.enter c hw) := { h with }

theorem untouched_enter (d : ℕ) (s : State) (c : ℕ) (hw : List Outcome) : Untouched d s (s.enter c hw) :=
  ⟨.refl _, { Spares.refl (s.assets d) s with hw := { Hardware.Spares.refl (s.assets d) s.hw with } }⟩

/-- The ids of a VM are no objects: the loss of its connection ends with the first of them. -/
theorem post_connectionLost_vm (h : Isolated s) :
    Post connectionLost s (fun _ s' => s' = s) (fun _ s' => s' = s) := by
  unfold connectionLost
  rw [post_bind, post_self]
  refine Post.forM (I := fun s' => s' = s) (fun x hx s' hs' => ?_) rfl
  obtain ⟨i, r, rfl, -, -⟩ := h.held _ x hx
  exact hs'

theorem Isolated.rehash (h : Isolated s) (order : Order) : Isolated (s.rehash order) := by
  have hheld : ∀ {e x}, x ∈ ((s.rehash order).conns e).ikernels → x ∈ (s.conns e).ikernels := fun hx =>
    (reorder_perm _ _).mem_iff.mp hx
  refine { h with held := ?_, keyed := ?_, ikernelIds := ?_, flows := ?_, noRings := ?_, customRingIds := ?_ }
  · intro e x hx
    obtain ⟨j, q, rfl, hq, howner⟩ := h.held e x (hheld hx)
    exact ⟨j, q, rfl, (lookup_rehash s order j).trans hq, howner⟩
  · intro j q hq
    exact h.keyed j q ((lookup_rehash s order j).symm.trans hq)
  · exact IDPool.wellFormed_perm h.ikernelIds (reorder_perm _ _)
  · intro x f hf
    exact h.flows x f ((reorder_perm _ _).mem_iff.mp hf)
  · intro x
    have hperm : (reorder (order.customRingsOf x) (s.customRingsOf x)).Perm [] := by
      rw [← h.noRings x]
      exact reorder_perm _ _
    exact hperm.eq_nil
  · exact IDPool.wellFormed_perm h.customRingIds (reorder_perm _ _)

theorem untouched_rehash (d : ℕ) (s : State) (order : Order) : Untouched d s (s.rehash order) where
  conn := ⟨reorder_perm _ _, rfl⟩
  spares := { Spares.refl (s.assets d) s with
    ikernels := fun j _ => lookup_rehash s order j
    flowsOf := fun _ _ => reorder_perm _ _ }

/-- A new connection has nothing. -/
theorem Isolated.connect (h : Isolated s) {kind : Kind} (hkind : kind ≠ .client) (n : ℕ) :
    Isolated { s with conns := Function.update s.conns n (newConn kind), connections := n + 1 } := by
  have hother : ∀ {e}, e ≠ n → Function.update s.conns n (newConn kind) e = s.conns e := fun he =>
    Function.update_of_ne he _ _
  have hself : Function.update s.conns n (newConn kind) n = newConn kind := Function.update_self ..
  have hring : ∀ {e ring}, ring ∈ (Function.update s.conns n (newConn kind) e).customRingIkernels →
      ring ∈ (s.conns e).customRingIkernels := by
    intro e ring hring
    by_cases he : e = n
    · rw [he, hself] at hring
      exact absurd hring (AList.notMem_empty ring)
    · rwa [hother he] at hring
  refine { h with noClient := fun e => ?_, held := fun e x hx => ?_, rings := ?_, ringOwner := ?_ }
  · show (Function.update s.conns n (newConn kind) e).isOpen → (Function.update s.conns n (newConn kind) e).kind ≠ _
    by_cases he : e = n
    · rw [he, hself]
      exact fun _ => hkind
    · rw [hother he]
      exact h.noClient e
  · have hx' : x ∈ (Function.update s.conns n (newConn kind) e).ikernels := hx
    by_cases he : e = n
    · rw [he, hself] at hx'
      cases hx'
    · rw [hother he] at hx'
      exact h.held e x hx'
  · exact fun e ring hr => h.rings e ring (hring hr)
  · exact fun e e' ring hr hr' => h.ringOwner e e' ring (hring hr) (hring hr')

/-- A step keeps the connections apart, until the shutdown, and it leaves those alone that it does not concern. -/
theorem isolated_step (h : s.running → Isolated s) (a : Action) (ha : a.Allowed) :
    ((step s a).running → s.running ∧ Isolated (step s a) ∧ s.connections ≤ (step s a).connections) ∧
      ((s.running → d < s.connections) → ¬ a.Concerns d → Untouched d s (step s a)) := by
  have hstays : ∀ {b : Prop}, (s.running → s.running ∧ Isolated s ∧ s.connections ≤ s.connections) ∧
      (b → ¬ a.Concerns d → Untouched d s s) := fun {b} =>
    ⟨fun hr => ⟨hr, h hr, Nat.le_refl _⟩, fun _ _ => .refl d s⟩
  unfold step
  split
  swap
  · exact hstays
  rename_i hrunning
  have hs := h hrunning
  match a with
  | .connect kind =>
    refine ⟨fun _ => ⟨hrunning, hs.connect ha s.connections, Nat.le_succ _⟩, fun hd _ =>
      ⟨?_, { Spares.refl (s.assets d) s with }⟩⟩
    have hconn : Function.update s.conns s.connections (newConn kind) d = s.conns d :=
      Function.update_of_ne (Nat.ne_of_lt (hd hrunning)) _ _
    show (s.conns d).Same (Function.update s.conns s.connections (newConn kind) d)
    rw [hconn]
    exact .refl _
  | .client c req hw =>
    -- there is no client
    have hserves : ¬ s.serves c true := by
      intro hserves
      obtain ⟨hopen, hkind⟩ : (s.conns c).isOpen ∧ ((s.conns c).kind = .client ↔ true) := by
        simpa [State.serves] using hserves
      exact hs.noClient c hopen (hkind.mpr rfl)
    dsimp only
    rw [if_neg hserves]
    exact hstays
  | .vm c req hw =>
    dsimp only
    split
    swap
    · exact hstays
    have hconfined : ∀ e, c ≠ e → Confined e (s.enter c hw) ((Hypervisor.handler req).exec (s.enter c hw)).2 :=
      fun e he => Post.state (confines_vm (hs.enter c hw) he req ha)
    have hnext := hconfined (c + 1) (Nat.ne_of_lt (Nat.lt_succ_self c))
    refine ⟨fun _ => ⟨hrunning, hnext.isolated, hnext.connections.ge⟩, fun _ hd => ?_⟩
    exact (untouched_enter d s c hw).trans (hconfined d hd).toUntouched
  | .connectionLost c hw =>
    dsimp only
    split
    swap
    · exact hstays
    have hlost : (connectionLost.exec (s.enter c hw)).2 = s.enter c hw :=
      Post.state (post_connectionLost_vm (hs.enter c hw))
    rw [hlost]
    have hclose : ∀ e, c ≠ e → Confined e (s.enter c hw)
        ((s.enter c hw).modifyConn fun conn => { conn with isOpen := false }) := fun e he =>
      (hs.enter c hw).confined_modifyConn (g := fun conn => { conn with isOpen := false }) he rfl nofun
        (fun _ hx => hx) fun _ hx => hx
    have hnext := hclose (c + 1) (Nat.ne_of_lt (Nat.lt_succ_self c))
    refine ⟨fun _ => ⟨hrunning, hnext.isolated, Nat.le_refl _⟩, fun _ hd => ?_⟩
    exact (untouched_enter d s c hw).trans (hclose d hd).toUntouched
  | .shutdown hw => exact ⟨nofun, fun _ hd => absurd trivial hd⟩
  | .rehash order =>
    exact ⟨fun _ => ⟨hrunning, hs.rehash order, Nat.le_refl _⟩, fun _ _ => untouched_rehash d s order⟩

theorem isolated_init (cfg : Config) : Isolated (init cfg) where
  noClient c hopen := by cases hopen
  held c x hx := by cases hx
  keyed i r hr := by cases hr
  ikernelIds := IDPool.wellFormed_init _ _
  flows r f hf := by cases hf
  rings c ring hring := absurd hring (AList.notMem_empty ring)
  ringOwner c d ring hring := absurd hring (AList.notMem_empty ring)
  noRings r := rfl
  customRingIds := IDPool.wellFormed_init _ _

/-- No ikernel, flow or ring belongs to two VMs. -/
theorem isolated_of_run (cfg : Config) (acts : List Action) (hallowed : ∀ a ∈ acts, a.Allowed)
    (hrunning : (runFrom (init cfg) acts).running) : Isolated (runFrom (init cfg) acts) := by
  refine run_induction (C := fun _ a => a.Allowed) (P := fun s => s.running → Isolated s) ?_ acts _
    (along_of_forall acts _ hallowed) (fun _ => isolated_init cfg) hrunning
  exact fun s a ha h hr => ((isolated_step (d := 0) h a ha).1 hr).2.1

/-- The actions that do not concern a connection leave it alone. -/
theorem untouched_run (acts : List Action) (h : s.running → Isolated s ∧ d < s.connections)
    (hacts : ∀ a ∈ acts, a.Allowed ∧ ¬ a.Concerns d) : Untouched d s (runFrom s acts) := by
  induction acts generalizing s with
  | nil => exact .refl d s
  | cons a acts ih =>
    obtain ⟨⟨ha, hd⟩, hrest⟩ := List.forall_mem_cons.mp hacts
    obtain ⟨hnext, huntouched⟩ := isolated_step (fun hr => (h hr).1) a ha
    refine (huntouched (fun hr => (h hr).2) hd).trans (ih (fun hr => ?_) hrest)
    obtain ⟨hr', hisolated, hle⟩ := hnext hr
    exact ⟨hisolated, Nat.lt_of_lt_of_le (h hr').2 hle⟩

/-- Two VMs connect, and the first gets an ikernel with a flow, and a ring. -/
def firstVm : List Action :=
  [.connect (.hypervisor none), .connect (.hypervisor (some ⟨1, Nat.le_of_ble_eq_true rfl⟩)),
    .vm 0 (.configureCustomRing 0x020000000001 0x0a000002) [],
    .vm 0 (.allocateIkernel exampleConfig.uuid 20) [],
    .vm 0 (.attach 0x0a000002 4000 0) [],
    .vm 0 (.crCreate 0 17) []]

/-- The second VM asks for what belongs to the first, and then for an ikernel of its own, with the same address. -/
def secondVm : List Action :=
  [.vm 1 (.detach 0x0a000002 4000 0) [], .vm 1 (.crDestroy 1) [], .vm 1 (.deallocateIkernel 0) [],
    .vm 1 (.configureCustomRing 0x020000000001 0x0a000002) [], .vm 1 (.allocateIkernel exampleConfig.uuid 20) [],
    .vm 1 (.attach 0x0a000002 4000 1) [], .vm 1 (.attach 0x0a000002 4001 1) [.value 7, .failed .timeout true],
    .vm 1 (.crCreate 1 18) [], .vm 1 (.updateCredits 1 100) [], .vm 1 (.deallocateIkernel 1) [], .connectionLost 1 []]

end Nica.Manager
