import Mathlib.Data.Rat.Floor
import Nica.Manager.Equiv.Dram
import Nica.Manager.Equiv.Stable
import Mathlib.Order.CompletePartialOrder

/-!
# The DRAM regions in every run of the manager
-/

namespace Nica.Manager

open Nica.Lib Nica.Lib.Prog

variable {s : State} {r : Ref}

/-! ### The programs -/

@[simp]
theorem alloc_unregisterFlow (s : State) (flow : Flow) : (s.unregisterFlow flow).alloc = s.alloc := by
  unfold State.unregisterFlow
  split <;> rfl

@[simp]
theorem alloc_releaseRing (s : State) (ring : ℤ) : (s.releaseRing ring).alloc = s.alloc := by
  unfold State.releaseRing
  split
  · split <;> rfl
  · rfl

theorem keeps_alloc_ikernelDetach (r : Ref) (flow : Flow) : Keeps State.alloc (ikernelDetach r flow) :=
  keeps_ikernelDetach (fun _ _ => rfl) (fun _ _ => rfl) alloc_unregisterFlow r flow

theorem keeps_alloc_ikernelCrDestroy (r : Ref) (ring : ℤ) :
    Keeps State.alloc (ikernelCrDestroy r ring) :=
  keeps_ikernelCrDestroy (fun _ _ => rfl) (fun _ _ => rfl) alloc_releaseRing r ring

/-- What `Ikernel.destroy` of the object `r` does to the allocator. -/
structure Alloc.Destroys (a : Alloc) (r : Ref) (a' : Alloc) : Prop where
  allocated : a'.Allocated
  releasable : ∀ i, a.Releasable i → a'.Releasable i
  dead : ¬ a'.Live r
  registry : a'.ikernels = a.ikernels

@[simp]
theorem post_deallocateDram {base logSize : ℕ} {Q : Unit → State → Prop} {E : Exn → State → Prop} :
    Post (deallocateDram base logSize) s Q E ↔
      Q () { s with
        freeList := if logSize = 0 then s.freeList else s.freeList.insert base (base + 2 ^ logSize) } := by
  unfold deallocateDram
  split <;> exact Iff.rfl

/-- `deallocate_ikernel` and the end of `destroy`. -/
theorem post_deallocate (h : s.alloc.Allocated) (hrel : s.alloc.Releasable r) :
    Post (do deallocateIkernel (s.heap r).ikernelId; modify (fun s => s.markDestroyed r)) s
      (fun _ s' => s.alloc.Destroys r s'.alloc) (fun _ s' => s'.alloc = s.alloc) := by
  unfold deallocateIkernel getIkernel
  simp only [post_bind, post_get]
  rcases hq : s.ikernels.lookup (s.heap r).ikernelId with _ | q
  · rfl
  · simp only [post_pure, post_modify, post_deallocateDram]
    refine ⟨h.release hq hrel, fun i => h.releasable_release, ?_, rfl⟩
    intro hlive
    exact ((Alloc.live_release s.alloc r q r).mp hlive).2 rfl

/-- Destroying an object gives its region back at most once, whatever the hardware does. -/
theorem post_destroy (h : s.alloc.Allocated) (hrel : s.alloc.Releasable r) :
    Post (destroy r) s (fun _ s' => s.alloc.Destroys r s'.alloc) (fun _ s' => s'.alloc = s.alloc) := by
  unfold destroy
  rw [post_bind, post_get, post_bind]
  refine ((Keeps.drain (keeps_alloc_ikernelDetach r) _).post s).imp ?_ (fun _ _ h => h)
  intro _ s₁ h₁
  rw [post_bind, post_get, post_bind]
  refine ((Keeps.drain (keeps_alloc_ikernelCrDestroy r) _).post s₁).imp ?_ (fun _ _ h₂ => h₂.trans h₁)
  intro _ s₂ h₂
  have heq : s₂.alloc = s.alloc := h₂.trans h₁
  rw [post_bind, post_get]
  rw [← heq] at h hrel ⊢
  exact post_deallocate h hrel

/-! ### Creation -/

/-- The command returned. -/
def Outcome.isValue : Outcome → Bool
  | .value _ => true
  | .failed _ _ => false

/-- Every command to the hardware returns. -/
def AllReturn (hw : List Outcome) : Prop := ∀ o ∈ hw, o.isValue

instance (hw : List Outcome) : Decidable (AllReturn hw) :=
  inferInstanceAs (Decidable (∀ o ∈ hw, o.isValue))

theorem post_access_of_allReturn {effect : BitVec 32 → Hardware → Hardware} (h : AllReturn s.hw.outcomes)
    (heffect : ∀ v hw, (effect v hw).outcomes = hw.outcomes) :
    Post (access effect) s (fun _ s' => ∃ hw, s' = { s with hw := hw } ∧ AllReturn hw.outcomes)
      (fun _ _ => False) := by
  unfold access
  rw [post_bind, post_get]
  split
  · rename_i hos
    refine ⟨_, rfl, ?_⟩
    rw [heffect]
    exact h
  · rename_i v os hos
    refine ⟨_, rfl, ?_⟩
    rw [heffect]
    intro o ho
    exact h o (hos ▸ List.mem_cons_of_mem _ ho)
  · rename_i fault done os hos
    have := h (.failed fault done) (hos ▸ List.mem_cons_self ..)
    cases this

theorem post_getIkernelId (h : s.ikernelIds.WellFormed) (tc : Option (Fin 3)) :
    Post (getIkernelId tc) s
      (fun id s' => ∃ p, s' = { s with ikernelIds := p } ∧ p.WellFormed ∧
        id ∉ s.ikernelIds.idsInUse ∧ p.idsInUse = s.ikernelIds.idsInUse.insert id)
      (fun _ s' => ∃ p, s' = { s with ikernelIds := p } ∧ p.WellFormed ∧
        p.idsInUse = s.ikernelIds.idsInUse) := by
  obtain ⟨hwf, hcases⟩ := IDPool.getId_cases (tcCondition tc) 3 h
  unfold getIkernelId
  simp only [post_bind, post_get, post_modify]
  rcases hcases with ⟨hnone, huse⟩ | ⟨id, hsome, hnot, huse⟩
  · rw [hnone]
    exact ⟨_, rfl, hwf, huse⟩
  · rw [hsome]
    exact ⟨_, rfl, hwf, hnot, huse⟩

/-- The component that `allocate_dram` finds holds the region, and the rest stays in order. -/
theorem Alloc.Allocated.firstFit {a : Alloc} (h : a.Allocated) {n base stop : ℕ} (hn : 12 ≤ n)
    (hfit : firstFit (2 ^ n) a.freeList = some (base, stop)) :
    4096 ∣ base ∧ base + 2 ^ n ≤ 2 ^ 31 ∧ Finset.Ico base (base + 2 ^ n) ⊆ a.freeList.cells ∧
      (a.freeList.cut base (base + 2 ^ n)).cells =
        a.freeList.cells \ Finset.Ico base (base + 2 ^ n) ∧
      IntervalSet.WellFormed (a.freeList.cut base (base + 2 ^ n)) ∧
      ∀ p ∈ a.freeList.cut base (base + 2 ^ n), 4096 ∣ p.1 ∧ 4096 ∣ p.2 := by
  have hmem : (base, stop) ∈ a.freeList := List.mem_of_find?_eq_some hfit
  have hsize : 2 ^ n ≤ stop - base := by
    have := List.find?_some hfit
    simpa using this
  have hpos : 0 < 2 ^ n := Nat.two_pow_pos n
  have hbase : 4096 ∣ base := (h.aligned _ hmem).1
  have hsub : Finset.Ico base (base + 2 ^ n) ⊆ a.freeList.cells := by
    refine Finset.Subset.trans ?_ (IntervalSet.Ico_subset_cells hmem)
    exact Finset.Ico_subset_Ico (Nat.le_refl _) (by simp only; omega)
  have hend : base + 2 ^ n ≤ 2 ^ 31 := by
    have hlast : base + 2 ^ n - 1 ∈ Finset.range (2 ^ 31) := by
      apply h.dram.free_subset
      apply hsub
      rw [Finset.mem_Ico]
      omega
    rw [Finset.mem_range] at hlast
    omega
  refine ⟨hbase, hend, hsub, ?_, IntervalSet.wellFormed_cut h.freeOk (by omega), ?_⟩
  · rw [IntervalSet.cells_cut]
    ext i
    simp only [Finset.mem_filter, Finset.mem_sdiff, Finset.mem_Ico, not_and, not_lt]
    constructor
    · rintro ⟨hi, hout⟩
      exact ⟨hi, fun hle => by omega⟩
    · rintro ⟨hi, hout⟩
      refine ⟨hi, ?_⟩
      by_cases hle : base ≤ i
      · exact .inr (hout hle)
      · exact .inl (by omega)
  · intro p hp
    obtain ⟨q, hq, h₁, h₂, -, -⟩ := IntervalSet.mem_cut hp
    have hstop : 4096 ∣ base + 2 ^ n := Nat.dvd_add hbase (pow_dvd_pow 2 hn)
    constructor
    · rcases h₁ with h₁ | h₁ <;> rw [h₁]
      · exact (h.aligned q hq).1
      · exact hstop
    · rcases h₂ with h₂ | h₂ <;> rw [h₂]
      · exact (h.aligned q hq).2
      · exact hbase

/-- No creation fails once it has its region: the hardware accepts the commands, and the size that a
memcached ikernel is told is not negative. -/
def CreatesCleanly (s : State) (uuid : Uuid) (logDramSize : ℕ) (hw : List Outcome) : Prop :=
  uuid ∈ s.uuids → logDramSize ≠ 0 → (firstFit (2 ^ requestedLog logDramSize) s.freeList).isSome →
    AllReturn hw ∧ (uuid = memcachedUuid → 6 ≤ logDramSize)

theorem post_setMapping_of_allReturn {id : ℤ} {base : ℕ} (h : AllReturn s.hw.outcomes)
    (hbase : 4096 ∣ base) :
    Post (setMapping id base) s (fun _ s' => ∃ hw, s' = { s with hw := hw } ∧ AllReturn hw.outcomes)
      (fun _ _ => False) := by
  have hmod : ¬ (base % 2 ^ 12 ≠ 0) := by
    have := Nat.mod_eq_zero_of_dvd hbase
    omega
  unfold setMapping
  rw [if_neg hmod]
  simp only [post_bind, post_pure]
  refine Post.imp (post_access_of_allReturn h ?_) (fun _ _ h => h) (fun _ _ h => h)
  intro _ _
  rfl

theorem post_gatewayWrite_of_allReturn {id value : ℤ} {address : BitVec 32} (h : AllReturn s.hw.outcomes)
    (hvalue : 0 ≤ value ∧ value < 2 ^ 32) :
    Post (gatewayWrite r id address value) s (fun _ s' => ∃ hw, s' = { s with hw := hw })
      (fun _ _ => False) := by
  have hrange : ¬ (value < 0 ∨ 2 ^ 32 ≤ value) := by omega
  unfold gatewayWrite
  rw [if_neg hrange]
  simp only [post_bind, post_pure]
  refine Post.imp (post_access_of_allReturn h ?_) ?_ (fun _ _ h => h)
  · intro _ _
    rfl
  · rintro _ _ ⟨hw, rfl, -⟩
    exact ⟨hw, rfl⟩

/-- `Netdev.ik_create` keeps the allocator in order, whether it returns or raises. -/
theorem post_ikCreate {uuid : Uuid} {logDramSize : ℕ} {tc : Option (Fin 3)} (h : s.alloc.Allocated)
    (hclean : CreatesCleanly s uuid logDramSize s.hw.outcomes) (hlog : logDramSize < 2 ^ 32) :
    Post (ikCreate uuid logDramSize tc) s (fun _ s' => s'.alloc.Allocated)
      (fun _ s' => s'.alloc.Allocated) := by
  unfold ikCreate allocateIkernel
  simp only [post_bind, post_get]
  rcases hidx : s.uuids.findIdx? (fun u => u = uuid) with _ | index
  · exact h
  have hmem := mem_of_findIdx? hidx
  simp only [post_bind]
  refine (post_getIkernelId h.pool tc).imp ?_ ?_
  swap
  · rintro _ _ ⟨p, rfl, hwf, huse⟩
    exact h.withPool hwf (fun id hid => huse ▸ hid)
  rintro id _ ⟨p, rfl, hwf, hnot, huse⟩
  have hsub : ∀ i ∈ s.ikernelIds.idsInUse, i ∈ p.idsInUse := fun i hi => by
    rw [huse]; exact List.mem_insert_of_mem hi
  have hin : id ∈ p.idsInUse := by rw [huse]; exact List.mem_insert_self
  have hpool := h.withPool hwf hsub
  refine (post_allocateDram logDramSize).imp ?_ ?_
  swap
  · rintro _ _ ⟨-, -, rfl⟩
    exact hpool
  rintro ⟨base, logSize⟩ _ (⟨hzero, hres, rfl⟩ | ⟨hne, base, stop, hfit, hres, rfl⟩)
  · -- no region: whatever the hardware says, the memory is as before
    cases hres
    have hnew : ∀ hw, State.alloc (State.addIkernel { s with ikernelIds := p, hw := hw } s.objects
        ⟨index, id, 0, 0, s.caller, false, 0⟩) |>.Allocated := fun hw =>
      h.create hwf hsub hin hnot rfl ⟨Nat.dvd_zero _, fun h => absurd rfl h⟩ (Finset.empty_subset _)
        Finset.sdiff_empty.symm h.freeOk h.aligned
    refine (post_of_keeps (fun _ _ hf => keeps_setMapping (fun s _ => hf s _) _ _) _).imp ?_ ?_
    swap
    · rintro _ _ ⟨hw, rfl⟩
      exact hpool
    rintro _ _ ⟨hw, rfl⟩
    split
    · rw [post_bind]
      refine (post_of_keeps (fun _ _ hf => keeps_gatewayWrite (fun s _ => hf s _) _ _ _ _) _).imp ?_ ?_
      · rintro _ _ ⟨hw', rfl⟩
        exact hnew hw'
      · rintro _ _ ⟨hw', rfl⟩
        exact hpool
    · exact hnew hw
  · cases hres
    obtain ⟨hret, hsix⟩ := hclean hmem hne (by rw [hfit]; rfl)
    obtain ⟨hbase, hend, hfree, hcells, hok, haligned⟩ := h.firstFit (le_requestedLog _) hfit
    have hlog0 : requestedLog logDramSize ≠ 0 := by
      have := le_requestedLog logDramSize
      omega
    have hregion : (⟨index, id, base, requestedLog logDramSize, s.caller, false, 0⟩ : Ikernel).region =
        Finset.Ico base (base + 2 ^ requestedLog logDramSize) := if_neg hlog0
    have hnew : ∀ hw, State.alloc (State.addIkernel { s with
          ikernelIds := p, freeList := s.freeList.cut base (base + 2 ^ requestedLog logDramSize), hw := hw }
        s.objects ⟨index, id, base, requestedLog logDramSize, s.caller, false, 0⟩) |>.Allocated := by
      intro hw
      refine h.create hwf hsub hin hnot rfl ⟨hbase, fun _ => ⟨le_requestedLog _, hend⟩⟩ ?_ ?_ hok haligned
      · rw [hregion]
        exact hfree
      · rw [hregion]
        exact hcells
    refine Post.imp (post_setMapping_of_allReturn ?_ hbase) ?_ (fun _ _ h => h.elim)
    · exact hret
    rintro _ _ ⟨hw, rfl, hret'⟩
    split
    · rename_i huuid
      have := hsix huuid
      rw [post_bind]
      refine Post.imp (post_gatewayWrite_of_allReturn ?_ (by omega)) ?_ (fun _ _ h => h.elim)
      · exact hret'
      rintro _ _ ⟨hw', rfl⟩
      exact hnew hw'
    · exact hnew hw

/-! ### Requests -/

/-- What is asked of an action: an object that is destroyed gives back its own region, and a creation that
has its region succeeds. -/
def Fresh (s : State) : Action → Prop
  | .client c (.ikDestroy h) _ =>
    s.serves c true → ∀ r, s.ikernels.lookup (handle h) = some r → s.alloc.Releasable r
  | .client c (.ikCreateAttrs _ _ uuid logDramSize) hw =>
    s.serves c true → CreatesCleanly s uuid logDramSize.toNat hw
  | .vm c (.allocateIkernel uuid logDramSize) hw =>
    s.serves c false → CreatesCleanly s uuid logDramSize.toNat hw
  | .vm c (.deallocateIkernel id) _ =>
    s.serves c false → .id (handle id) ∈ (s.conns c).ikernels →
      ∀ r, s.ikernels.lookup (handle id) = some r → s.alloc.Releasable r
  | .connectionLost c _ => ∀ r, .object r ∈ (s.conns c).ikernels → s.alloc.Releasable r
  | .shutdown _ => ∀ id r, s.ikernels.lookup id = some r → s.alloc.Releasable r
  | _ => True

/-- The registry loses an object that is not live. -/
theorem Alloc.Allocated.erase {a : Alloc} (h : a.Allocated) {id : ℤ} {r : Ref}
    (hr : a.ikernels.lookup id = some r) (hdead : ¬ a.Live r) :
    Alloc.Allocated { a with ikernels := a.ikernels.erase id } := by
  refine ⟨?_, ?_, h.inUse, h.pool, h.freeOk, h.aligned, h.regions, h.dram⟩
  · intro i hi
    have hreg := h.registered i hi
    show (a.ikernels.erase id).lookup _ = _
    rw [AList.lookup_erase_ne]
    · exact hreg
    · intro heq
      rw [heq, hr] at hreg
      cases hreg
      exact hdead hi
  · intro id' i hi
    refine h.keyed id' i ?_
    by_cases hid : id' = id
    · subst hid
      rw [AList.lookup_erase] at hi
      cases hi
    · rwa [AList.lookup_erase_ne hid] at hi

/-- A handler that keeps the allocator in order. -/
def Orderly {α : Type} (x : Mgr α) (s : State) : Prop :=
  Post x s (fun _ s' => s'.alloc.Allocated) (fun _ s' => s'.alloc.Allocated)

theorem orderly_of_keeps {α : Type} {x : Mgr α} (hx : Keeps State.alloc x) (h : s.alloc.Allocated) :
    Orderly x s :=
  (hx.post s).imp (fun _ _ heq => by rw [heq]; exact h) (fun _ _ heq => by rw [heq]; exact h)

/-- A program that is orderly, followed by one that does not touch the allocator. -/
theorem Orderly.bind {α β : Type} {x : Mgr α} {g : α → Mgr β} (hx : Orderly x s)
    (hg : ∀ a, Keeps State.alloc (g a)) : Orderly (x >>= g) s := by
  unfold Orderly
  rw [post_bind]
  exact hx.imp (fun a s' h => orderly_of_keeps (hg a) h) (fun _ _ h => h)

theorem orderly_ikDestroy {id : ℤ} (h : s.alloc.Allocated)
    (hrel : ∀ r, s.ikernels.lookup id = some r → s.alloc.Releasable r) : Orderly (ikDestroy id) s := by
  unfold Orderly ikDestroy
  rw [post_tryCatch, post_bind, post_get]
  have hcatch : ∀ (e : Exn) (s' : State), s'.alloc.Allocated →
      Orderly (if e = .keyError then pure (some .ENOENT) else throw e : Mgr (Option Errno)) s' := by
    intro e s' hs'
    split <;> exact hs'
  rcases hr : s.ikernels.lookup id with _ | r
  · exact hcatch .keyError s h
  · simp only [post_bind]
    refine (post_destroy h (hrel r hr)).imp ?_ ?_
    · intro _ s' hs'
      exact hs'.allocated.erase (by rw [hs'.registry]; exact hr) hs'.dead
    · intro e s' hs'
      exact hcatch e s' (by rw [hs']; exact h)

theorem keeps_alloc_removeHeld (x : Held) : Keeps State.alloc (removeHeld x) :=
  keeps_removeHeld (fun _ _ => rfl) x

theorem orderly_client_ikDestroy {id : ℤ} (h : s.alloc.Allocated)
    (hrel : ∀ r, s.ikernels.lookup id = some r → s.alloc.Releasable r) :
    Orderly (Client.ikDestroy id) s := by
  unfold Orderly Client.ikDestroy
  rw [post_tryCatch, post_bind, post_get]
  have hcatch : ∀ (e : Exn) (s' : State), s'.alloc.Allocated →
      Orderly (if e = .keyError then pure (.error .ENOENT) else throw e : Mgr Response) s' := by
    intro e s' hs'
    split <;> exact hs'
  rcases hr : s.ikernels.lookup id with _ | r
  · exact hcatch .keyError s h
  · simp only [post_bind]
    refine (post_destroy h (hrel r hr)).imp ?_ ?_
    · intro _ s' hs'
      have herase := hs'.allocated.erase (by rw [hs'.registry]; exact hr) hs'.dead
      refine ((keeps_alloc_removeHeld (.object r)).post _).imp ?_ ?_
      · intro _ s'' hs''
        rw [post_pure, hs'']
        exact herase
      · intro e s'' hs''
        refine hcatch e s'' ?_
        rw [hs'']
        exact herase
    · intro e s' hs'
      exact hcatch e s' (by rw [hs']; exact h)

theorem orderly_create {netdev : List (BitVec 8)} {uuid : Uuid} {logDramSize : ℕ} {header : List ℤ}
    (h : s.alloc.Allocated) (hclean : CreatesCleanly s uuid logDramSize s.hw.outcomes)
    (hlog : logDramSize < 2 ^ 32) : Orderly (Client.create netdev uuid logDramSize header) s := by
  unfold Client.create Orderly
  split
  · exact h
  show Post (get >>= _) s _ _
  rw [post_bind, post_get]
  split
  · exact h
  · exact Orderly.bind (post_ikCreate h hclean hlog) fun r =>
      (keeps_addHeld (fun _ _ => rfl) _).bind fun _ => .get_bind fun _ => keeps_pure _

theorem aside_alloc : Aside State.alloc :=
  ⟨fun _ _ => rfl, fun _ _ => rfl, fun _ _ _ => rfl, alloc_releaseRing, fun _ _ => rfl, fun _ _ => rfl⟩

theorem keeps_alloc_ikAttach (id : ℤ) (flow : Flow) : Keeps State.alloc (ikAttach id flow) :=
  keeps_ikAttach (fun _ _ => rfl) (fun _ _ => rfl) (fun _ _ _ _ _ => rfl) id flow

theorem keeps_alloc_ikDetach (id : ℤ) (flow : Flow) : Keeps State.alloc (ikDetach id flow) :=
  keeps_ikDetach (fun _ _ => rfl) (fun _ _ => rfl) alloc_unregisterFlow id flow

/-- The other requests of a client do not touch the allocator. -/
theorem orderly_client (h : s.alloc.Allocated) (req : ClientRequest)
    (hdestroy : ∀ id, req = .ikDestroy id →
      ∀ r, s.ikernels.lookup (handle id) = some r → s.alloc.Releasable r)
    (hcreate : ∀ size netdev uuid log, req = .ikCreateAttrs size netdev uuid log →
      CreatesCleanly s uuid log.toNat s.hw.outcomes) : Orderly (Client.handler req) s := by
  cases req with
  | ikCreate netdev uuid =>
    exact orderly_create h (fun _ hne => absurd rfl hne) (by decide)
  | ikCreateAttrs size netdev uuid log =>
    exact orderly_create h (hcreate size netdev uuid log rfl) log.isLt
  | ikDestroy id => exact orderly_client_ikDestroy h (hdestroy id rfl)
  | ikAttach id fd =>
    exact orderly_of_keeps ((keeps_receiveFlow fd).bind fun flow =>
      (keeps_alloc_ikAttach _ _).bind fun _ => keeps_pure _) h
  | ikDetach id fd =>
    exact orderly_of_keeps ((keeps_receiveFlow fd).bind fun flow =>
      (keeps_alloc_ikDetach _ _).bind fun _ => keeps_pure _) h
  | ikRpc | crCreate | crDestroy | crUpdateCredits => exact orderly_of_keeps (aside_alloc.client rfl) h

theorem orderly_vm (h : s.alloc.Allocated) (req : VmRequest)
    (hdestroy : ∀ id, req = .deallocateIkernel id →
      .id (handle id) ∈ (s.conns s.caller).ikernels →
      ∀ r, s.ikernels.lookup (handle id) = some r → s.alloc.Releasable r)
    (hcreate : ∀ uuid log, req = .allocateIkernel uuid log →
      CreatesCleanly s uuid log.toNat s.hw.outcomes) : Orderly (Hypervisor.handler req) s := by
  cases req with
  | allocateIkernel uuid log =>
    show Orderly (self >>= _) s
    unfold Orderly
    rw [post_bind]
    show Post (get >>= _) s _ _
    rw [post_bind, post_get, post_pure]
    exact Orderly.bind (post_ikCreate h (hcreate uuid log rfl) log.isLt) fun r =>
      .get_bind fun _ => (keeps_addHeld (fun _ _ => rfl) _).bind fun _ => keeps_pure _
  | deallocateIkernel id =>
    show Orderly (self >>= _) s
    unfold Orderly
    rw [post_bind]
    show Post (get >>= _) s _ _
    rw [post_bind, post_get, post_pure]
    split
    · exact h
    · rename_i hheld
      exact Orderly.bind (orderly_ikDestroy h (hdestroy id rfl (not_not.mp hheld))) fun _ =>
        (keeps_alloc_removeHeld _).bind fun _ => keeps_pure _
  | attach ip port id =>
    refine orderly_of_keeps ((keeps_checkIkernel _).bind fun _ => keeps_self.bind fun conn => ?_) h
    split
    · exact keeps_throw_bind _ _
    · exact (keeps_alloc_ikAttach _ _).bind fun _ => keeps_pure _
  | detach ip port id =>
    exact orderly_of_keeps ((keeps_checkIkernel _).bind fun _ =>
      (keeps_alloc_ikDetach _ _).bind fun _ => keeps_pure _) h
  | configureCustomRing | numRings | getUuids | invokeIkernelRpc | crCreate | crDestroy | updateCredits =>
    exact orderly_of_keeps (aside_alloc.vm rfl) h

/-- Several objects are destroyed in a row. -/
theorem post_destroyAll {α : Type} {xs : List α} {body : α → Mgr PUnit} (h : s.alloc.Allocated)
    (hbody : ∀ x ∈ xs, Keeps State.alloc (body x) ∨ ∃ r, body x = destroy r ∧ s.alloc.Releasable r) :
    Orderly (xs.forM body) s := by
  refine Post.imp (Post.forM (E := fun _ s' => s'.alloc.Allocated)
    (I := fun s' => s'.alloc.Allocated ∧ ∀ i, s.alloc.Releasable i → s'.alloc.Releasable i) ?_
    ⟨h, fun _ hi => hi⟩) (fun _ _ h => h.1) (fun _ _ h => h)
  rintro x hx s' ⟨hs', hrel'⟩
  rcases hbody x hx with hkeep | ⟨r, hr, hrel⟩
  · refine (hkeep.post s').imp ?_ ?_
    · intro _ s'' heq
      rw [heq]
      exact ⟨hs', hrel'⟩
    · intro _ s'' heq
      rw [heq]
      exact hs'
  · rw [hr]
    refine (post_destroy hs' (hrel' r hrel)).imp ?_ ?_
    · intro _ s'' hd
      exact ⟨hd.allocated, fun i hi => hd.releasable i (hrel' i hi)⟩
    · intro _ s'' heq
      rw [heq]
      exact hs'

/-! ### Runs -/

theorem allocated_init (cfg : Config) : (init cfg).alloc.Allocated := by
  refine ⟨?_, ?_, ?_, IDPool.wellFormed_init _ _, ?_, ?_, ?_, ?_⟩
  · rintro r ⟨hr, -⟩
    cases hr
  · intro id r hr
    cases hr
  · rintro r ⟨hr, -⟩
    cases hr
  · exact ⟨by simp [init, State.alloc], List.pairwise_singleton _ _⟩
  · intro p hp
    have : p = (0, 2 ^ 31) := List.mem_singleton.mp hp
    rw [this]
    decide
  · rintro r hr
    cases hr
  · have hcells : (init cfg).alloc.freeList.cells = Finset.range (2 ^ 31) := by
      ext n
      simp [init, State.alloc]
    have hlive : (init cfg).alloc.live = ∅ := rfl
    rw [hcells, hlive]
    exact Partition.start

theorem lookup_rehash (s : State) (order : Order) (id : ℤ) :
    (s.rehash order).ikernels.lookup id = s.ikernels.lookup id := by
  show (if order.ikernels.entries.Perm s.ikernels.entries then order.ikernels else s.ikernels).lookup id = _
  split
  · rename_i hperm
    exact AList.perm_lookup hperm
  · rfl

theorem allocated_rehash (h : s.alloc.Allocated) (order : Order) : (s.rehash order).alloc.Allocated := by
  refine ⟨?_, ?_, h.inUse, IDPool.wellFormed_perm h.pool (reorder_perm _ _), h.freeOk, h.aligned,
    h.regions, h.dram⟩
  · intro r hr
    exact (lookup_rehash s order _).trans (h.registered r hr)
  · intro id r hr
    exact h.keyed id r ((lookup_rehash s order id).symm.trans hr)

/-- Every action that meets the condition keeps the allocator in order. -/
theorem allocated_step (a : Action) (hfresh : Fresh s a) (h : s.alloc.Allocated) :
    (step s a).alloc.Allocated := by
  unfold step
  split
  swap
  · exact h
  cases a with
  | connect kind => exact h
  | client c req hw =>
    simp only
    split
    · rename_i hserves
      refine Post.state (orderly_client (s := s.enter c hw) h req ?_ ?_)
      · rintro id rfl
        exact hfresh hserves
      · rintro size netdev uuid log rfl
        exact hfresh hserves
    · exact h
  | vm c req hw =>
    simp only
    split
    · rename_i hserves
      refine Post.state (orderly_vm (s := s.enter c hw) h req ?_ ?_)
      · rintro id rfl
        exact hfresh hserves
      · rintro uuid log rfl
        exact hfresh hserves
    · exact h
  | connectionLost c hw =>
    simp only
    split
    · have hlost : Orderly connectionLost (s.enter c hw) := by
        unfold connectionLost Orderly
        rw [post_bind]
        show Post (get >>= _) _ _ _
        rw [post_bind, post_get, post_pure]
        refine post_destroyAll h ?_
        rintro (r | id) hx
        · exact .inr ⟨r, rfl, hfresh r hx⟩
        · exact .inl (keeps_throw _)
      exact Post.state hlost
    · exact h
  | shutdown hw =>
    have haccess : Keeps State.alloc (access fun _ hw => hw) := keeps_access (fun _ _ => rfl) _
    have hdown : Orderly shutdown (s.enter s.caller hw) := by
      unfold shutdown
      show Orderly (get >>= _) _
      unfold Orderly
      rw [post_bind, post_get]
      refine Orderly.bind (post_destroyAll h ?_) fun _ => haccess.bind fun _ => haccess.bind fun _ =>
        keeps_pure _
      intro r hr
      obtain ⟨⟨id, r'⟩, hmem, rfl⟩ := List.mem_map.mp hr
      exact .inr ⟨_, rfl, hfresh id r' (AList.mem_lookup_iff.mpr hmem)⟩
    exact Post.state hdown
  | rehash order => exact allocated_rehash h order

/-- **The DRAM allocator** in one state: the regions of live ikernels are pages of the memory, apart from
each other and from the interior of the free list, and together with it they add up to the memory. -/
structure DramSafe (s : State) : Prop where
  inside : ∀ r, s.alloc.Live r → (s.heap r).logDramSize ≠ 0 →
    4096 ∣ (s.heap r).base ∧ (s.heap r).base + 2 ^ (s.heap r).logDramSize ≤ 2 ^ 31
  disjoint : ∀ r r', s.alloc.Live r → s.alloc.Live r' → r ≠ r' →
    (s.heap r).logDramSize ≠ 0 → (s.heap r').logDramSize ≠ 0 →
    Disjoint (Finset.Ico (s.heap r).base ((s.heap r).base + 2 ^ (s.heap r).logDramSize))
      (Finset.Ico (s.heap r').base ((s.heap r').base + 2 ^ (s.heap r').logDramSize))
  notFree : ∀ r, s.alloc.Live r → (s.heap r).logDramSize ≠ 0 → ∀ p ∈ s.freeList,
    Disjoint (Set.Ioo (p.1 : ℚ) p.2)
      (Set.Ico ((s.heap r).base : ℚ) ((s.heap r).base + 2 ^ (s.heap r).logDramSize))
  total : s.freeList.size +
    ∑ r ∈ s.alloc.live.filter (fun r => (s.heap r).logDramSize ≠ 0), 2 ^ (s.heap r).logDramSize = 2 ^ 31

/-- Intervals without a common cell have no common point inside. -/
theorem disjoint_interior {a b c d : ℕ} (h : Disjoint (Finset.Ico a b) (Finset.Ico c d)) :
    Disjoint (Set.Ioo (a : ℚ) b) (Set.Ico (c : ℚ) d) := by
  rw [Set.disjoint_left]
  rintro x ⟨hax, hxb⟩ ⟨hcx, hxd⟩
  have hx : 0 ≤ x := le_trans (Nat.cast_nonneg a) hax.le
  have hin : ∀ m n : ℕ, (m : ℚ) ≤ x → x < n → ⌊x⌋₊ ∈ Finset.Ico m n := by
    intro m n hm hn
    rw [Finset.mem_Ico]
    exact ⟨Nat.le_floor hm, (Nat.floor_lt hx).mpr hn⟩
  exact Finset.disjoint_left.mp h (hin a b hax.le hxb) (hin c d hcx hxd)

theorem Alloc.Allocated.dramSafe (h : s.alloc.Allocated) : DramSafe s := by
  have hregion : ∀ r, (s.heap r).logDramSize ≠ 0 → (s.heap r).region =
      Finset.Ico (s.heap r).base ((s.heap r).base + 2 ^ (s.heap r).logDramSize) := fun r hr => if_neg hr
  refine ⟨?_, ?_, ?_, ?_⟩
  · intro r hr hlog
    obtain ⟨halign, hbig⟩ := h.regions r hr.1
    exact ⟨halign, (hbig hlog).2⟩
  · intro r r' hr hr' hne hlog hlog'
    rw [← hregion r hlog, ← hregion r' hlog']
    exact h.dram.pairwise r (Alloc.mem_live.mpr hr) r' (Alloc.mem_live.mpr hr') hne
  · intro r hr hlog p hp
    have hcells : Disjoint (Finset.Ico p.1 p.2) (s.heap r).region :=
      (h.dram.apart r (Alloc.mem_live.mpr hr)).symm.mono_left (IntervalSet.Ico_subset_cells hp)
    rw [hregion r hlog] at hcells
    have := disjoint_interior hcells
    push_cast at this
    exact this
  · have hcard := h.dram.card
    rw [IntervalSet.card_cells h.freeOk] at hcard
    refine Eq.trans ?_ hcard
    congr 1
    rw [Finset.sum_filter]
    refine Finset.sum_congr rfl fun r _ => ?_
    show _ = (s.heap r).region.card
    by_cases hlog : (s.heap r).logDramSize = 0
    · rw [if_neg (not_not.mpr hlog)]
      unfold Ikernel.region
      rw [if_pos hlog, Finset.card_empty]
    · rw [if_pos hlog, hregion r hlog, Nat.card_Ico, Nat.add_sub_cancel_left]

theorem allocated_run (cfg : Config) (acts : List Action) (h : Along step Fresh (init cfg) acts) :
    (runFrom (init cfg) acts).alloc.Allocated :=
  run_induction (P := fun s : State => s.alloc.Allocated) (fun _ a hf hs => allocated_step a hf hs) acts
    (init cfg) h (allocated_init cfg)

/-- In every run whose destructions give back the regions of their own ikernels and whose creations do
not fail half-way, the regions of the live ikernels are disjoint and nothing is lost. -/
theorem dramSafe_run (cfg : Config) (acts : List Action) (h : Along step Fresh (init cfg) acts) :
    DramSafe (runFrom (init cfg) acts) :=
  (allocated_run cfg acts h).dramSafe

/-- An interface called `e`, with a threshold ikernel. -/
def exampleConfig : Config :=
  ⟨[0x65], 0x0a000002, 0x02, 0x2b49fec3d30c464da6a1171f9e4443f1, 64⟩

/-- `ik_create_attrs` for a region of `2 ^ log` bytes. -/
def createRequest (log : BitVec 32) : ClientRequest :=
  .ikCreateAttrs 36 [0x65] 0x2b49fec3d30c464da6a1171f9e4443f1 log

/-- Two clients, of which the first destroys its ikernel before the second makes one. -/
def inTurnRun : List Action :=
  [.connect .client, .connect .client, .client 0 (createRequest 12) [], .client 0 (.ikDestroy 0) [],
    .client 1 (createRequest 13) []]

theorem dramSafe_run_inTurn :
    Along step Fresh (init exampleConfig) inTurnRun ∧
      DramSafe (runFrom (init exampleConfig) inTurnRun) := by
  have hcreate : ∀ s log, CreatesCleanly s 0x2b49fec3d30c464da6a1171f9e4443f1 log [] :=
    fun s log _ _ _ => ⟨by decide, fun heq => absurd heq (by decide)⟩
  have hfirst : Along step Fresh (init exampleConfig) (inTurnRun.take 3) :=
    ⟨trivial, trivial, fun _ => hcreate _ _, trivial⟩
  have hlive : (runFrom (init exampleConfig) (inTurnRun.take 3)).alloc.Live 0 := by decide +kernel
  have halong : Along step Fresh (init exampleConfig) inTurnRun := by
    refine ⟨trivial, trivial, fun _ => hcreate _ _, ?_, fun _ => hcreate _ _, trivial⟩
    intro _ r hr
    have hzero : (runFrom (init exampleConfig) (inTurnRun.take 3)).ikernels.lookup 0 = some 0 := by
      decide +kernel
    have hr0 : some 0 = some r := hzero.symm.trans hr
    cases hr0
    exact (allocated_run _ _ hfirst).releasable hlive
  exact ⟨halong, dramSafe_run _ _ halong⟩

/-- The second client destroys the ikernel of the first and makes one, which gets the same id and the same
region; then the first client disconnects. -/
def staleObjectRun : List Action :=
  [.connect .client, .connect .client, .client 0 (createRequest 12) [], .client 1 (.ikDestroy 0) [],
    .client 1 (createRequest 12) [], .connectionLost 0 []]

/-- The disconnection frees the region of the live ikernel of the second client. -/
theorem not_dramSafe_staleObject : ¬ DramSafe (runFrom (init exampleConfig) staleObjectRun) := by
  intro h
  have htotal := h.total
  revert htotal
  decide +kernel

end Nica.Manager
