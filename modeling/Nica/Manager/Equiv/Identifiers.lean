import Nica.Verilog.ExpHls
import Nica.Manager.Equiv.Dram
import Nica.Manager.Equiv.Stable

/-!
# Ikernel ids across the manager and the hardware

The pool hands out ids below 1024.  The hardware has 64 ikernels: `ikernel_id_t` keeps six bits, and these
are what a request to the DRAM carries in bits 40:31.  The mapping unit decodes 256 entries from the
AXI-lite address.  All of this agrees for the ids below 64, and the pool stays below 64 as long as each
creation finds a free id of its traffic class, or a new one below 64 (`idsConsistent_run`).
-/

namespace Nica.Manager

open Nica.Lib Nica.Lib.Prog
open Nica.Verilog.ExpHls
open Nica.Verilog (DdrAddressMapping.State)

/-- `ikernel_id_t`. -/
def ikernelIdT (id : ℤ) : BitVec 6 := BitVec.ofInt 6 id

/-- The id in bits 40:31 of the requests of an ikernel. -/
def carriedId (id : ℤ) : BitVec 10 := (ikernelIdT id).setWidth 10

/-- The AXI-lite address that `MMU.set_mapping` writes. -/
def mmuAddress (id : ℤ) : BitVec 32 := BitVec.ofInt 32 (0x9000 + 4 * id)

/-- The mapping that is written for `id` ends in the entry that the requests of `id` look up. -/
def MappingLands (id : ℤ) : Prop :=
  ddrTableSelected (mmuAddress id) ∧
    ∀ (w : Write) (rdwrMode : Bool) (t : Nica.Verilog.DdrAddressMapping.State), WriteIdle t →
      w.waddr = mmuAddress id → (w.apply rdwrMode t).table (carriedId id) = w.wdata

/-- An id that was handed out and not released, or that a live ikernel has. -/
def LiveId (s : State) (id : ℤ) : Prop :=
  id ∈ s.ikernelIds.idsInUse ∨ ∃ r, s.alloc.Live r ∧ (s.heap r).ikernelId = id

/-- **Identifier consistency**: the ids in use stay apart in the hardware, and each has its own mapping. -/
structure IdsConsistent (s : State) : Prop where
  distinct : ∀ id id', LiveId s id → LiveId s id' → id ≠ id' → ikernelIdT id ≠ ikernelIdT id'
  mapped : ∀ id, LiveId s id → MappingLands id

/-! ### Ids below 64 -/

theorem toNat_ikernelIdT {id : ℤ} (h₀ : 0 ≤ id) (h : id < 64) : ((ikernelIdT id).toNat : ℤ) = id := by
  unfold ikernelIdT
  rw [BitVec.toNat_ofInt]
  omega

/-- The window of the mapping unit and the ids that requests carry agree. -/
theorem tableEntry_mmuAddress {id : ℤ} (h₀ : 0 ≤ id) (h : id < 64) :
    ddrTableSelected (mmuAddress id) ∧ tableEntry (mmuAddress id) = some (carriedId id) := by
  have hall : ∀ n : Fin 64, ddrTableSelected (mmuAddress (n : ℕ)) ∧
      tableEntry (mmuAddress (n : ℕ)) = some (carriedId (n : ℕ)) := by decide
  obtain ⟨n, rfl⟩ := Int.eq_ofNat_of_zero_le h₀
  exact hall ⟨n, by omega⟩

theorem mappingLands {id : ℤ} (h₀ : 0 ≤ id) (h : id < 64) : MappingLands id := by
  obtain ⟨hsel, hentry⟩ := tableEntry_mmuAddress h₀ h
  refine ⟨hsel, ?_⟩
  intro w rdwrMode t hidle hw
  rw [table_apply w rdwrMode t hidle, hw, hentry]
  exact Function.update_self _ _ _

/-! ### The pool stays below 64 -/

/-- Every id that was made is below 64. -/
structure SmallIds (s : State) : Prop where
  last : -1 ≤ s.ikernelIds.lastId ∧ s.ikernelIds.lastId < 64
  used : ∀ id ∈ s.ikernelIds.idsInUse, 0 ≤ id ∧ id < 64
  free : ∀ id ∈ s.ikernelIds.idsFree, 0 ≤ id ∧ id < 64
  objects : ∀ r < s.objects, 0 ≤ (s.heap r).ikernelId ∧ (s.heap r).ikernelId < 64

variable {s : State}

theorem SmallIds.consistent (h : SmallIds s) : IdsConsistent s := by
  have hsmall : ∀ id, LiveId s id → 0 ≤ id ∧ id < 64 := by
    rintro id (hid | ⟨r, hr, rfl⟩)
    · exact h.used id hid
    · exact h.objects r hr.1
  constructor
  · intro id id' hid hid' hne heq
    obtain ⟨h₀, h₁⟩ := hsmall id hid
    obtain ⟨h₀', h₁'⟩ := hsmall id' hid'
    apply hne
    rw [← toNat_ikernelIdT h₀ h₁, ← toNat_ikernelIdT h₀' h₁', heq]
  · intro id hid
    obtain ⟨h₀, h₁⟩ := hsmall id hid
    exact mappingLands h₀ h₁

theorem ikernelId_countRelease (s : State) (r i : Ref) :
    ((s.countRelease r).heap i).ikernelId = (s.heap i).ikernelId := by
  unfold State.countRelease
  by_cases hi : i = r
  · subst hi
    simp
  · simp [hi]

theorem ikernelId_markDestroyed (s : State) (r i : Ref) :
    ((s.markDestroyed r).heap i).ikernelId = (s.heap i).ikernelId := by
  unfold State.markDestroyed
  by_cases hi : i = r
  · subst hi
    simp
  · simp [hi]

theorem stable_smallIds : Stable SmallIds where
  hw _ _ h := ⟨h.last, h.used, h.free, h.objects⟩
  registerFlow _ _ _ _ _ h := ⟨h.last, h.used, h.free, h.objects⟩
  unregisterFlow s flow h := by
    unfold State.unregisterFlow
    split <;> exact ⟨h.last, h.used, h.free, h.objects⟩
  flowsOf _ _ h := ⟨h.last, h.used, h.free, h.objects⟩
  customRingIds _ _ h := ⟨h.last, h.used, h.free, h.objects⟩
  registerRing _ _ _ h := ⟨h.last, h.used, h.free, h.objects⟩
  releaseRing s ring h := by
    unfold State.releaseRing
    split
    · split <;> exact ⟨h.last, h.used, h.free, h.objects⟩
    · exact h
  customRingsOf _ _ h := ⟨h.last, h.used, h.free, h.objects⟩
  conns _ _ h := ⟨h.last, h.used, h.free, h.objects⟩
  caller _ _ h := ⟨h.last, h.used, h.free, h.objects⟩
  connections _ _ h := ⟨h.last, h.used, h.free, h.objects⟩
  running _ _ h := ⟨h.last, h.used, h.free, h.objects⟩
  freeList _ _ h := ⟨h.last, h.used, h.free, h.objects⟩
  releaseId s id h := by
    unfold IDPool.releaseId
    split
    · rename_i hin
      refine ⟨h.last, ?_, ?_, h.objects⟩
      · intro i hi
        exact h.used i (mem_remove.mp hi).1
      · intro i hi
        rcases List.mem_insert_iff.mp hi with rfl | hi
        · exact h.used i hin
        · exact h.free i hi
    · exact h
  countRelease s r h := by
    refine ⟨h.last, h.used, h.free, ?_⟩
    intro i hi
    rw [ikernelId_countRelease]
    exact h.objects i hi
  markDestroyed s r h := by
    refine ⟨h.last, h.used, h.free, ?_⟩
    intro i hi
    rw [ikernelId_markDestroyed]
    exact h.objects i hi
  erase _ _ h := ⟨h.last, h.used, h.free, h.objects⟩
  rehash s order h := by
    refine ⟨h.last, h.used, ?_, h.objects⟩
    intro i hi
    exact h.free i ((reorder_perm _ _).mem_iff.mp hi)

/-- The pool has an id for the traffic class below 64: a free one, or one to be made. -/
def FitsIds (s : State) (tc : Option (Fin 3)) : Prop :=
  (∃ id ∈ s.ikernelIds.idsFree, tcCondition tc id) ∨
    ∃ id, s.ikernelIds.lastId < id ∧ id < 64 ∧ tcCondition tc id

/-- `get_id` keeps the pool below 64, and what it returns. -/
theorem SmallIds.getId (h : SmallIds s) {tc : Option (Fin 3)} (hfit : FitsIds s tc) (l : IntervalSet)
    (hw : Hardware) :
    SmallIds { s with
        ikernelIds := (s.ikernelIds.getId 3 (tcCondition tc)).2, freeList := l, hw := hw } ∧
      ∀ id, (s.ikernelIds.getId 3 (tcCondition tc)).1 = some id → 0 ≤ id ∧ id < 64 := by
  unfold IDPool.getId
  rcases hfilter : s.ikernelIds.idsFree.filter (tcCondition tc) with _ | ⟨id, rest⟩
  · -- no free id fits, so that one below 64 is still to be made
    have hnew : ∃ id, s.ikernelIds.lastId < id ∧ id < 64 ∧ tcCondition tc id := by
      rcases hfit with ⟨id, hid, hc⟩ | hnew
      · have : id ∈ s.ikernelIds.idsFree.filter (tcCondition tc) := List.mem_filter.mpr ⟨hid, hc⟩
        rw [hfilter] at this
        cases this
      · exact hnew
    obtain ⟨bound, hlt, hbound, hc⟩ := hnew
    have hle := IDPool.newId_le 3 hlt hc
    obtain ⟨hgt, hlast, huse, hfree⟩ := IDPool.newId_free (tcCondition tc) 3 s.ikernelIds
    rcases hres : IDPool.newId (tcCondition tc) 3 s.ikernelIds with ⟨id, p⟩
    rw [hres] at hle hgt hlast huse hfree
    simp only at hle hgt hlast huse hfree ⊢
    have hrange : 0 ≤ id ∧ id < 64 := by
      have := h.last
      omega
    have hfree' : ∀ i ∈ p.idsFree, 0 ≤ i ∧ i < 64 := by
      intro i hi
      rcases hfree i hi with hi | ⟨h₁, h₂⟩
      · exact h.free i hi
      · have := h.last
        omega
    have hlast' : -1 ≤ p.lastId ∧ p.lastId < 64 := by
      rw [hlast]
      omega
    split
    · refine ⟨⟨hlast', ?_, hfree', h.objects⟩, fun _ hnone => by cases hnone⟩
      intro i hi
      exact h.used i (huse ▸ hi)
    · refine ⟨⟨hlast', ?_, hfree', h.objects⟩, ?_⟩
      · intro i hi
        rcases List.mem_insert_iff.mp hi with rfl | hi
        · exact hrange
        · exact h.used i (huse ▸ hi)
      · rintro _ ⟨⟩
        exact hrange
  · have hid : id ∈ s.ikernelIds.idsFree := List.mem_of_mem_filter (hfilter ▸ List.mem_cons_self ..)
    refine ⟨⟨h.last, ?_, ?_, h.objects⟩, ?_⟩
    · intro i hi
      rcases List.mem_insert_iff.mp hi with rfl | hi
      · exact h.free i hid
      · exact h.used i hi
    · intro i hi
      exact h.free i (mem_remove.mp hi).1
    · rintro _ ⟨⟩
      exact h.free id hid

section Create

variable {uuid : Uuid} {log : ℕ} {tc : Option (Fin 3)}

/-- A new ikernel has an id below 64. -/
theorem SmallIds.allocates (h : SmallIds s) (hfit : uuid ∈ s.uuids → FitsIds s tc) {k : Ikernel} {s' : State}
    (hk : Allocates s s.objects uuid log tc k s') :
    SmallIds (s'.addIkernel s.objects k) ∧ 0 ≤ k.ikernelId ∧ k.ikernelId < 64 := by
  obtain ⟨l, os, -, rfl⟩ := hk.state
  obtain ⟨hsmall, hrange⟩ := h.getId (hfit hk.uuid_mem) l
    (s.hw.after os [mappingOf k.ikernelId k.base] (sizeWrites s.objects uuid log k.ikernelId))
  refine ⟨⟨hsmall.last, hsmall.used, hsmall.free, ?_⟩, hrange _ hk.id_eq⟩
  intro r hr
  show 0 ≤ (Function.update s.heap s.objects k r).ikernelId ∧
    (Function.update s.heap s.objects k r).ikernelId < 64
  by_cases hne : r = s.objects
  · rw [hne, Function.update_self]
    exact hrange _ hk.id_eq
  · rw [Function.update_of_ne hne]
    exact h.objects r (Nat.lt_of_le_of_ne (Nat.lt_succ_iff.mp hr) hne)

theorem SmallIds.attempts (h : SmallIds s) (hfit : uuid ∈ s.uuids → FitsIds s tc) {s' : State}
    (hs' : Attempts s uuid log tc s') : SmallIds s' := by
  rcases hs' with rfl | ⟨hmem, l, os, mappings, accesses, -, rfl, -⟩
  · exact h
  · exact (h.getId (hfit hmem) l _).1

theorem smallIds_ikCreate (h : SmallIds s) (hfit : uuid ∈ s.uuids → FitsIds s tc) :
    Post (ikCreate uuid log tc) s (fun _ => SmallIds) (fun _ => SmallIds) := by
  unfold ikCreate
  simp only [post_bind, post_get]
  refine (post_allocateIkernel s s.objects uuid log tc).imp ?_ ?_
  · intro k s' hk
    exact (h.allocates hfit hk).1
  · intro _ s' hs'
    exact h.attempts hfit hs'

end Create

/-! ### Runs -/

/-- What is asked of an action: a creation that gets as far as the pool finds an id below 64. -/
def IdsFit (s : State) : Action → Prop
  | .client c req _ => s.serves c true → ∀ netdev uuid log, req.creates = some (netdev, uuid, log) →
      interfaceName netdev = s.ifname → uuid ∈ s.uuids → FitsIds s none
  | .vm c (.allocateIkernel uuid _) _ => s.serves c false → uuid ∈ s.uuids →
      FitsIds s (Hypervisor.trafficClass (s.conns c))
  | _ => True

theorem smallIds_step (a : Action) (hfit : IdsFit s a) (h : SmallIds s) : SmallIds (step s a) := by
  refine stable_step stable_smallIds a h ?_ ?_
  · rintro c req hw netdev uuid log rfl hserves hreq hname hs
    exact smallIds_ikCreate hs fun hmem => hfit hserves netdev uuid log hreq hname hmem
  · rintro c uuid log hw rfl hserves hs
    exact smallIds_ikCreate hs fun hmem => hfit hserves hmem

theorem smallIds_init (cfg : Config) : SmallIds (init cfg) := by
  refine ⟨⟨Int.le_refl _, by show (-1 : ℤ) < 64; decide⟩, ?_, ?_, ?_⟩
  · intro id hid
    cases hid
  · intro id hid
    cases hid
  · intro r hr
    cases hr

/-- In every run in which each creation finds an id below 64, the ids in use stay apart in the hardware
and their mappings land where their requests look. -/
theorem idsConsistent_run (cfg : Config) (acts : List Action) (h : Along step IdsFit (init cfg) acts) :
    IdsConsistent (runFrom (init cfg) acts) :=
  (run_induction (fun _ a hf hs => smallIds_step a hf hs) acts (init cfg) h (smallIds_init cfg)).consistent

/-- A threshold ikernel on the interface `e`, with 64 rings. -/
def thresholdConfig : Config :=
  ⟨[0x65], 0x0a000002, 0x02, 0x2b49fec3d30c464da6a1171f9e4443f1, 64⟩

/-- `ik_create`. -/
def plainCreate : Action := .client 0 (.ikCreate [0x65] 0x2b49fec3d30c464da6a1171f9e4443f1) []

theorem idsConsistent_run_two :
    Along step IdsFit (init thresholdConfig) [.connect .client, plainCreate, plainCreate] ∧
      IdsConsistent (runFrom (init thresholdConfig) [.connect .client, plainCreate, plainCreate]) := by
  have halong : Along step IdsFit (init thresholdConfig) [.connect .client, plainCreate, plainCreate] := by
    refine ⟨trivial, ?_, ?_, trivial⟩
    · intro _ _ _ _ _ _ _
      exact .inr ⟨63, by decide +kernel, by decide, rfl⟩
    · intro _ _ _ _ _ _ _
      exact .inr ⟨63, by decide +kernel, by decide, rfl⟩
  exact ⟨halong, idsConsistent_run _ _ halong⟩

/-- One client creates 65 ikernels; the first and the last have the same `ikernel_id_t`. -/
theorem not_idsConsistent_sixtyFive :
    ¬ IdsConsistent (runFrom (init thresholdConfig) (.connect .client :: List.replicate 65 plainCreate)) := by
  intro h
  have hzero : (0 : ℤ) ∈ (runFrom (init thresholdConfig)
      (.connect .client :: List.replicate 65 plainCreate)).ikernelIds.idsInUse := by decide +kernel
  have hlast : (64 : ℤ) ∈ (runFrom (init thresholdConfig)
      (.connect .client :: List.replicate 65 plainCreate)).ikernelIds.idsInUse := by decide +kernel
  exact h.distinct 0 64 (.inl hzero) (.inl hlast) (by decide) (by decide)

end Nica.Manager
