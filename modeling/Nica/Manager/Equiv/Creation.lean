import Nica.Manager.Equiv.Frames

/-!
# What a creation does

`post_allocateIkernel` is the specification of `allocate_ikernel`: the id and the region that the new ikernel
gets, the mapping that is written for it and, for memcached, the size of its cache.  A creation that raises
may have taken an id and a region, and its commands may have reached the hardware; these are commands for the
id that it took.
-/

namespace Nica.Manager

open Nica.Lib Nica.Lib.Prog

variable {s : State}

/-! ### Commands -/

/-- A command has its effect, or it raises with or without it. -/
theorem post_access (effect : BitVec 32 → Hardware → Hardware) (s : State) :
    Post (access effect) s
      (fun v s' => ∃ os, s' = { s with hw := effect v { s.hw with outcomes := os } })
      (fun _ s' => ∃ os, s' = { s with hw := { s.hw with outcomes := os } } ∨
        s' = { s with hw := effect 1 { s.hw with outcomes := os } }) := by
  unfold access
  rw [post_bind, post_get]
  split
  · rename_i hos
    refine ⟨[], ?_⟩
    rw [← hos]
  · exact ⟨_, rfl⟩
  · rename_i fault done os hos
    cases done with
    | true => exact ⟨os, .inr rfl⟩
    | false => exact ⟨os, .inl rfl⟩

/-- The hardware after some writes to the mapping and to the registers of the ikernels. -/
def Hardware.after (hw : Hardware) (outcomes : List Outcome) (mappings : List (ℤ × ℕ))
    (accesses : List Access) : Hardware :=
  { hw with
    outcomes := outcomes
    mmu := hw.mmu ++ mappings
    gateway := hw.gateway ++ accesses }

/-- The mapping that `set_mapping` writes. -/
def mappingOf (id : ℤ) (base : ℕ) : ℤ × ℕ := (0x9000 + 4 * id, base >>> 12)

theorem post_setMapping (id : ℤ) (base : ℕ) (s : State) :
    Post (setMapping id base) s
      (fun _ s' => ∃ os, s' = { s with hw := s.hw.after os [mappingOf id base] [] })
      (fun _ s' => ∃ os mappings, s' = { s with hw := s.hw.after os mappings [] } ∧
        ∀ w ∈ mappings, w = mappingOf id base) := by
  have hnone : ∀ os, s.hw.after os [] [] = { s.hw with outcomes := os } := by
    intro os
    simp [Hardware.after]
  have hone : ∀ os, s.hw.after os [mappingOf id base] [] =
      { s.hw with outcomes := os, mmu := s.hw.mmu ++ [(0x9000 + 4 * id, base >>> 12)] } := by
    intro os
    simp [Hardware.after, mappingOf]
  unfold setMapping
  split
  · refine ⟨s.hw.outcomes, [], ?_, by simp⟩
    rw [hnone]
  · simp only [post_bind, post_pure]
    refine (post_access _ s).imp ?_ ?_
    · rintro _ _ ⟨os, rfl⟩
      exact ⟨os, by rw [hone]⟩
    · rintro _ _ ⟨os, rfl | rfl⟩
      · exact ⟨os, [], by rw [hnone], by simp⟩
      · exact ⟨os, [mappingOf id base], by rw [hone], by simp⟩

theorem post_gatewayWrite (r : Ref) (id : ℤ) (address : BitVec 32) (value : ℤ) (s : State) :
    Post (gatewayWrite r id address value) s
      (fun _ s' => 0 ≤ value ∧ ∃ os, s' = { s with hw := s.hw.after os [] [⟨r, id, address, some value⟩] })
      (fun _ s' => ∃ os accesses, s' = { s with hw := s.hw.after os [] accesses } ∧
        ∀ a ∈ accesses, a.ikernelId = id) := by
  have hnone : ∀ os, s.hw.after os [] [] = { s.hw with outcomes := os } := by
    intro os
    simp [Hardware.after]
  have hone : ∀ os, s.hw.after os [] [⟨r, id, address, some value⟩] =
      { s.hw with outcomes := os, gateway := s.hw.gateway ++ [⟨r, id, address, some value⟩] } := by
    intro os
    simp [Hardware.after]
  unfold gatewayWrite
  split
  · refine ⟨s.hw.outcomes, [], ?_, by simp⟩
    rw [hnone]
  · rename_i hrange
    simp only [post_bind, post_pure]
    refine (post_access _ s).imp ?_ ?_
    · rintro _ _ ⟨os, rfl⟩
      exact ⟨by omega, os, by rw [hone]⟩
    · rintro _ _ ⟨os, rfl | rfl⟩
      · exact ⟨os, [], by rw [hnone], by simp⟩
      · exact ⟨os, [⟨r, id, address, some value⟩], by rw [hone], by simp⟩

/-! ### The region -/

/-- The size that `allocate_dram` asks for. -/
def requestedLog (logSize : ℕ) : ℕ := if logSize < 12 then 12 else logSize

theorem le_requestedLog (logSize : ℕ) : 12 ≤ requestedLog logSize := by
  unfold requestedLog
  split <;> omega

theorem post_allocateDram (logSize : ℕ) :
    Post (allocateDram logSize) s
      (fun res s' => (logSize = 0 ∧ res = (0, 0) ∧ s' = s) ∨
        (logSize ≠ 0 ∧ ∃ base stop, firstFit (2 ^ requestedLog logSize) s.freeList = some (base, stop) ∧
          res = (base, requestedLog logSize) ∧
          s' = { s with freeList := s.freeList.cut base (base + 2 ^ requestedLog logSize) }))
      (fun _ s' => logSize ≠ 0 ∧ firstFit (2 ^ requestedLog logSize) s.freeList = none ∧ s' = s) := by
  unfold allocateDram
  by_cases hlog : logSize = 0
  · rw [if_pos hlog]
    exact .inl ⟨hlog, rfl, rfl⟩
  · rw [if_neg hlog]
    show Post (get >>= _) s _ _
    rw [post_bind, post_get]
    rcases hfit : firstFit (2 ^ requestedLog logSize) s.freeList with _ | ⟨base, stop⟩
    · have hfit' : firstFit (2 ^ (if logSize < 12 then 12 else logSize)) s.freeList = none := hfit
      simp only [hfit']
      exact ⟨hlog, trivial, rfl⟩
    · have hfit' : firstFit (2 ^ (if logSize < 12 then 12 else logSize)) s.freeList = some (base, stop) :=
        hfit
      simp only [hfit']
      exact .inr ⟨hlog, base, stop, rfl, rfl, rfl⟩

/-- The free list before and after a region of the requested size is taken, if one is. -/
def Takes (log : ℕ) (l l' : IntervalSet) (base logSize : ℕ) : Prop :=
  (log = 0 ∧ base = 0 ∧ logSize = 0 ∧ l' = l) ∨
    (log ≠ 0 ∧ logSize = requestedLog log ∧
      (∃ stop, firstFit (2 ^ requestedLog log) l = some (base, stop)) ∧
      l' = l.cut base (base + 2 ^ requestedLog log))

/-! ### The ikernel -/

theorem mem_of_findIdx? {uuids : List Uuid} {uuid : Uuid} {index : ℕ}
    (h : uuids.findIdx? (fun u => u = uuid) = some index) : uuid ∈ uuids := by
  obtain ⟨hlt, hp, -⟩ := List.findIdx?_eq_some_iff_getElem.mp h
  have heq : uuids[index] = uuid := by simpa using hp
  exact heq ▸ List.getElem_mem hlt

/-- The register writes of a creation: the size of the cache of a memcached ikernel. -/
def sizeWrites (r : Ref) (uuid : Uuid) (log : ℕ) (id : ℤ) : List Access :=
  if uuid = memcachedUuid then [⟨r, id, 0, some ((log : ℤ) - 6)⟩] else []

/-- What `allocate_ikernel` leaves when it returns. -/
structure Allocates (s : State) (r : Ref) (uuid : Uuid) (log : ℕ) (tc : Option (Fin 3)) (k : Ikernel)
    (s' : State) : Prop where
  uuid_mem : uuid ∈ s.uuids
  id_eq : (s.ikernelIds.getId 3 (tcCondition tc)).1 = some k.ikernelId
  owner_eq : k.owner = s.caller
  live : k.destroyed = false ∧ k.released = 0
  size : uuid = memcachedUuid → 6 ≤ log
  state : ∃ l os, Takes log s.freeList l k.base k.logDramSize ∧ s' = { s with
    ikernelIds := (s.ikernelIds.getId 3 (tcCondition tc)).2
    freeList := l
    hw := s.hw.after os [mappingOf k.ikernelId k.base] (sizeWrites r uuid log k.ikernelId) }

/-- What `allocate_ikernel` may leave when it raises: nothing, or an id, a region and commands for the id. -/
def Attempts (s : State) (uuid : Uuid) (log : ℕ) (tc : Option (Fin 3)) (s' : State) : Prop :=
  s' = s ∨ uuid ∈ s.uuids ∧ ∃ l os mappings accesses,
    (l = s.freeList ∨ ∃ base logSize, Takes log s.freeList l base logSize) ∧
    s' = { s with
      ikernelIds := (s.ikernelIds.getId 3 (tcCondition tc)).2
      freeList := l
      hw := s.hw.after os mappings accesses } ∧
    ((s.ikernelIds.getId 3 (tcCondition tc)).1 = none → mappings = [] ∧ accesses = []) ∧
    ∀ id, (s.ikernelIds.getId 3 (tcCondition tc)).1 = some id →
      (∀ w ∈ mappings, ∃ base, w = mappingOf id base) ∧ ∀ a ∈ accesses, a.ikernelId = id

theorem after_after (hw : Hardware) (os os' : List Outcome) (ms ms' : List (ℤ × ℕ)) (as as' : List Access) :
    (hw.after os ms as).after os' ms' as' = hw.after os' (ms ++ ms') (as ++ as') := by
  simp [Hardware.after, List.append_assoc]

/-- **The creation of an ikernel.** -/
theorem post_allocateIkernel (s : State) (r : Ref) (uuid : Uuid) (log : ℕ) (tc : Option (Fin 3)) :
    Post (allocateIkernel r uuid log tc) s (Allocates s r uuid log tc)
      (fun _ => Attempts s uuid log tc) := by
  unfold allocateIkernel getIkernelId
  simp only [post_bind, post_get]
  rcases hidx : s.uuids.findIdx? (fun u => u = uuid) with _ | index
  · exact .inl rfl
  have hmem := mem_of_findIdx? hidx
  simp only [post_bind, post_get, post_modify]
  have hhw : s.hw.after s.hw.outcomes [] [] = s.hw := by simp [Hardware.after]
  rcases hid : (s.ikernelIds.getId 3 (tcCondition tc)).1 with _ | id
  · refine .inr ⟨hmem, s.freeList, s.hw.outcomes, [], [], .inl rfl, ?_, fun _ => ⟨rfl, rfl⟩, ?_⟩
    · rw [hhw]
    · intro id hsome
      rw [hid] at hsome
      cases hsome
  rw [post_pure]
  -- whatever raises from here on leaves commands for `id` only
  have hraise : ∀ l os mappings accesses,
      (l = s.freeList ∨ ∃ base logSize, Takes log s.freeList l base logSize) →
      (∀ w ∈ mappings, ∃ base, w = mappingOf id base) → (∀ a ∈ accesses, a.ikernelId = id) →
      Attempts s uuid log tc { s with
        ikernelIds := (s.ikernelIds.getId 3 (tcCondition tc)).2
        freeList := l
        hw := s.hw.after os mappings accesses } := by
    intro l os mappings accesses hl hmappings haccesses
    refine .inr ⟨hmem, l, os, mappings, accesses, hl, rfl, ?_, ?_⟩
    · intro hnone
      rw [hid] at hnone
      cases hnone
    · intro id' hsome
      rw [hid] at hsome
      cases hsome
      exact ⟨hmappings, haccesses⟩
  refine (post_allocateDram log).imp ?_ ?_
  swap
  · rintro _ _ ⟨-, -, rfl⟩
    have := hraise s.freeList s.hw.outcomes [] [] (.inl rfl) (by simp) (by simp)
    rwa [hhw] at this
  intro res s₁ hregion
  obtain ⟨base, logSize⟩ := res
  obtain ⟨l, htakes, rfl⟩ : ∃ l, Takes log s.freeList l base logSize ∧
      s₁ = { s with ikernelIds := (s.ikernelIds.getId 3 (tcCondition tc)).2, freeList := l } := by
    rcases hregion with ⟨hzero, hres, rfl⟩ | ⟨hne, base, stop, hfit, hres, rfl⟩
    · cases hres
      exact ⟨s.freeList, .inl ⟨hzero, rfl, rfl, rfl⟩, rfl⟩
    · cases hres
      exact ⟨_, .inr ⟨hne, rfl, ⟨stop, hfit⟩, rfl⟩, rfl⟩
  refine (post_setMapping id base _).imp ?_ ?_
  swap
  · rintro _ _ ⟨os, mappings, rfl, hall⟩
    exact hraise l os mappings [] (.inr ⟨base, logSize, htakes⟩) (fun w hw => ⟨base, hall w hw⟩) (by simp)
  rintro _ _ ⟨os, rfl⟩
  split
  · rename_i huuid
    rw [post_bind]
    refine (post_gatewayWrite r id 0 _ _).imp ?_ ?_
    · rintro _ _ ⟨hsize, os', rfl⟩
      refine ⟨hmem, hid, rfl, ⟨rfl, rfl⟩, fun _ => by omega, l, os', htakes, ?_⟩
      rw [after_after, sizeWrites, if_pos huuid]
      rfl
    · rintro _ _ ⟨os', accesses, rfl, hall⟩
      rw [after_after]
      exact hraise l os' [mappingOf id base] accesses (.inr ⟨base, logSize, htakes⟩)
        (by simp) hall
  · rename_i huuid
    refine ⟨hmem, hid, rfl, ⟨rfl, rfl⟩, fun h => absurd h huuid, l, os, htakes, ?_⟩
    rw [sizeWrites, if_neg huuid]

/-- A program that keeps all but the hardware. -/
theorem post_of_keeps {α : Type} {x : Mgr α}
    (h : ∀ (β : Type) (f : State → β), (∀ s hw, f { s with hw := hw } = f s) → Keeps f x) (s : State) :
    Post x s (fun _ s' => ∃ hw, s' = { s with hw := hw }) (fun _ s' => ∃ hw, s' = { s with hw := hw }) := by
  have hkeep := (h State (fun t => { t with hw := s.hw }) (fun _ _ => rfl)).post s
  have hback : ∀ s' : State, ({ s' with hw := s.hw } : State) = { s with hw := s.hw } →
      ∃ hw, s' = { s with hw := hw } := by
    intro s' heq
    refine ⟨s'.hw, ?_⟩
    have := congrArg (fun t : State => ({ t with hw := s'.hw } : State)) heq
    exact this
  exact hkeep.imp (fun _ s' => hback s') (fun _ s' => hback s')

end Nica.Manager
