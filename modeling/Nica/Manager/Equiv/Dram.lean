import Nica.Lib.Partition
import Nica.Manager.Protocol
import Nica.Manager.Equiv.IdPool
import Nica.Manager.Equiv.Frames

/-!
# The DRAM regions of live ikernels are disjoint

The allocator refines the abstract store of `Nica.Lib.Partition`: the cells below `2 ^ 31` are divided
between the free list and the regions of the ikernels that are live (created and not destroyed).  The
invariant `Allocated` joins this to the registry and the ID pool, because `deallocate_ikernel` looks up by
id the object whose region it gives back.

The manager keeps it as long as no object is destroyed whose id now belongs to another live ikernel or
whose own region was handed out again (`Releasable`), and no creation fails after it took a region
(`CreatesCleanly`).
-/

namespace Nica.Manager

open Nica.Lib Nica.Lib.Prog

/-- The part of the state that the allocator works on. -/
structure Alloc where
  objects : ℕ
  heap : Ref → Ikernel
  ikernels : Dict ℤ Ref
  ikernelIds : IDPool
  freeList : IntervalSet

def State.alloc (s : State) : Alloc :=
  ⟨s.objects, s.heap, s.ikernels, s.ikernelIds, s.freeList⟩

/-- The cells of an ikernel's region. -/
def Ikernel.region (k : Ikernel) : Finset ℕ :=
  if k.logDramSize = 0 then ∅ else Finset.Ico k.base (k.base + 2 ^ k.logDramSize)

namespace Alloc

variable {a : Alloc} {r q i : Ref}

/-- Created and not destroyed. -/
def Live (a : Alloc) (r : Ref) : Prop := r < a.objects ∧ (a.heap r).destroyed = false

instance : DecidablePred a.Live := fun _ => inferInstanceAs (Decidable (_ ∧ _))

/-- The live objects. -/
def live (a : Alloc) : Finset Ref := (Finset.range a.objects).filter a.Live

@[simp]
theorem mem_live : r ∈ a.live ↔ a.Live r := by
  simp only [live, Finset.mem_filter, Finset.mem_range, and_iff_right_iff_imp]
  exact fun h => h.1

/-- A region is page-aligned and, unless it is empty, at least a page and inside the memory. -/
def RegionOk (k : Ikernel) : Prop :=
  4096 ∣ k.base ∧ (k.logDramSize ≠ 0 → 12 ≤ k.logDramSize ∧ k.base + 2 ^ k.logDramSize ≤ 2 ^ 31)

/-- Live objects are registered under their ids, and the memory is divided between them and the free
list. -/
structure Allocated (a : Alloc) : Prop where
  registered : ∀ r, a.Live r → a.ikernels.lookup (a.heap r).ikernelId = some r
  keyed : ∀ id r, a.ikernels.lookup id = some r → r < a.objects ∧ (a.heap r).ikernelId = id
  inUse : ∀ r, a.Live r → (a.heap r).ikernelId ∈ a.ikernelIds.idsInUse
  pool : a.ikernelIds.WellFormed
  freeOk : IntervalSet.WellFormed a.freeList
  aligned : ∀ p ∈ a.freeList, 4096 ∣ p.1 ∧ 4096 ∣ p.2
  regions : ∀ r < a.objects, RegionOk (a.heap r)
  dram : Partition (2 ^ 31) a.freeList.cells a.live (fun r => (a.heap r).region)

/-- Destroying `r` gives back its own region, or one that is free already. -/
def Releasable (a : Alloc) (r : Ref) : Prop :=
  ∀ q, a.ikernels.lookup (a.heap r).ikernelId = some q →
    (q = r ∧ a.Live r) ∨
      (¬ a.Live q ∧ ∀ l, a.Live l → Disjoint (a.heap q).region (a.heap l).region)

/-- A live object can be destroyed. -/
theorem Allocated.releasable (h : a.Allocated) (hr : a.Live r) : a.Releasable r := by
  intro q hq
  rw [h.registered r hr] at hq
  cases hq
  exact .inl ⟨rfl, hr⟩

/-! ### Taking and giving back -/

/-- The region of the object that is registered under the id is given back. -/
def release (a : Alloc) (r q : Ref) : Alloc :=
  { a with
    ikernelIds := a.ikernelIds.releaseId (a.heap r).ikernelId
    freeList := if (a.heap q).logDramSize = 0 then a.freeList
      else a.freeList.insert (a.heap q).base ((a.heap q).base + 2 ^ (a.heap q).logDramSize)
    heap := Function.update
      (Function.update a.heap q { a.heap q with released := (a.heap q).released + 1 }) r
      { Function.update a.heap q { a.heap q with released := (a.heap q).released + 1 } r with
        destroyed := true } }

/-- What `release` leaves of an object. -/
theorem release_heap (a : Alloc) (r q i : Ref) :
    ((a.release r q).heap i).region = (a.heap i).region ∧
      ((a.release r q).heap i).ikernelId = (a.heap i).ikernelId ∧
      ((a.release r q).heap i).base = (a.heap i).base ∧
      ((a.release r q).heap i).logDramSize = (a.heap i).logDramSize ∧
      ((a.release r q).heap i).destroyed = ((a.heap i).destroyed || decide (i = r)) := by
  unfold release
  by_cases hir : i = r <;> by_cases hiq : i = q <;> by_cases hrq : r = q <;>
    simp_all [Ikernel.region]

@[simp]
theorem live_release (a : Alloc) (r q i : Ref) : (a.release r q).Live i ↔ a.Live i ∧ i ≠ r := by
  unfold Live
  rw [(release_heap a r q i).2.2.2.2]
  show i < a.objects ∧ _ ↔ _
  simp [and_assoc]

/-- The free list after a release. -/
theorem Allocated.cells_release (h : a.Allocated) (hq : q < a.objects) :
    (a.release r q).freeList.cells = a.freeList.cells ∪ (a.heap q).region ∧
      IntervalSet.WellFormed (a.release r q).freeList ∧
      ∀ p ∈ (a.release r q).freeList, 4096 ∣ p.1 ∧ 4096 ∣ p.2 := by
  unfold release Ikernel.region
  by_cases hlog : (a.heap q).logDramSize = 0
  · simp only [hlog, if_true, Finset.union_empty, true_and]
    exact ⟨h.freeOk, h.aligned⟩
  · obtain ⟨halign, hbig⟩ := h.regions q hq
    have hle : (a.heap q).base ≤ (a.heap q).base + 2 ^ (a.heap q).logDramSize := Nat.le_add_right _ _
    have hend : 4096 ∣ (a.heap q).base + 2 ^ (a.heap q).logDramSize :=
      Nat.dvd_add halign (pow_dvd_pow 2 (hbig hlog).1)
    simp only [hlog, if_false]
    refine ⟨IntervalSet.cells_insert _ hle h.freeOk.1, IntervalSet.wellFormed_insert h.freeOk hle, ?_⟩
    intro p hp
    obtain ⟨h₁, h₂⟩ := IntervalSet.mem_insert hp
    constructor
    · rcases h₁ with h₁ | ⟨q', hq', h₁⟩ <;> rw [h₁]
      · exact halign
      · exact (h.aligned q' hq').1
    · rcases h₂ with h₂ | ⟨q', hq', h₂⟩ <;> rw [h₂]
      · exact hend
      · exact (h.aligned q' hq').2

/-- Two live objects have different ids. -/
theorem Allocated.id_ne (h : a.Allocated) (hi : a.Live i)
    (hq : a.ikernels.lookup (a.heap r).ikernelId = some q) (hne : i ≠ q) :
    (a.heap i).ikernelId ≠ (a.heap r).ikernelId := by
  intro heq
  have hreg := h.registered i hi
  rw [heq, hq] at hreg
  exact hne (Option.some.inj hreg).symm

theorem Allocated.region_subset (h : a.Allocated) (hq : q < a.objects) :
    (a.heap q).region ⊆ Finset.range (2 ^ 31) := by
  intro n hn
  unfold Ikernel.region at hn
  split at hn
  · cases Finset.notMem_empty n hn
  · rename_i hlog
    have := ((h.regions q hq).2 hlog).2
    rw [Finset.mem_Ico] at hn
    rw [Finset.mem_range]
    omega

/-- The memory stays divided when an object is destroyed. -/
theorem Allocated.dram_release (h : a.Allocated)
    (hq : a.ikernels.lookup (a.heap r).ikernelId = some q) (hrel : a.Releasable r) :
    Partition (2 ^ 31) (a.release r q).freeList.cells (a.release r q).live
      (fun i => ((a.release r q).heap i).region) := by
  rw [(h.cells_release (h.keyed _ q hq).1).1]
  refine Partition.congr (fun i => (a.heap i).region) _ ?_ (fun i _ => (release_heap a r q i).1)
  rcases hrel q hq with ⟨rfl, hr⟩ | ⟨hdead, hapart⟩
  · have hlive : (a.release q q).live = a.live.erase q := by
      ext i
      rw [mem_live, live_release, Finset.mem_erase, mem_live, and_comm]
    rw [hlive]
    exact h.dram.give (mem_live.mpr hr)
  · -- the region is free already, and `r` was not live, since a live object is registered itself
    have hr : ¬ a.Live r := by
      intro hr
      have hreg := h.registered r hr
      rw [hq] at hreg
      cases hreg
      exact hdead hr
    have hlive : (a.release r q).live = a.live := by
      ext i
      rw [mem_live, live_release, mem_live, and_iff_left_iff_imp]
      rintro hi rfl
      exact hr hi
    have hfree : (a.heap q).region ⊆ a.freeList.cells :=
      h.dram.subset_free (h.region_subset (h.keyed _ q hq).1)
        (fun l hl => hapart l (mem_live.mp hl))
    rw [hlive, Finset.union_eq_left.mpr hfree]
    exact h.dram

theorem Allocated.release (h : a.Allocated)
    (hq : a.ikernels.lookup (a.heap r).ikernelId = some q) (hrel : a.Releasable r) :
    (a.release r q).Allocated := by
  have hcells := h.cells_release (r := r) (h.keyed _ q hq).1
  refine ⟨?_, ?_, ?_, ?_, hcells.2.1, hcells.2.2, ?_, h.dram_release hq hrel⟩
  · intro i hi
    rw [(release_heap a r q i).2.1]
    exact h.registered i ((live_release a r q i).mp hi).1
  · intro id i hi
    rw [(release_heap a r q i).2.1]
    exact h.keyed id i hi
  · -- the id that is released is not the one of another live object
    intro i hi
    rw [(release_heap a r q i).2.1]
    obtain ⟨hlive, hne⟩ := (live_release a r q i).mp hi
    refine IDPool.mem_releaseId.mpr ⟨h.inUse i hlive, h.id_ne hlive hq ?_⟩
    rintro rfl
    rcases hrel i hq with ⟨hir, -⟩ | ⟨hdead, -⟩
    · exact hne hir
    · exact hdead hlive
  · exact IDPool.wellFormed_releaseId h.pool _
  · intro i hi
    obtain ⟨-, -, hbase, hlog, -⟩ := release_heap a r q i
    have := h.regions i hi
    unfold RegionOk at this ⊢
    rw [hbase, hlog]
    exact this

/-- What could be destroyed can still be destroyed. -/
theorem Allocated.releasable_release (h : a.Allocated) (hi : a.Releasable i) :
    (a.release r q).Releasable i := by
  intro p hp
  rw [(release_heap a r q i).2.1] at hp
  simp only [live_release, (release_heap a r q _).1]
  rcases hi p hp with ⟨rfl, hlive⟩ | ⟨hdead, hapart⟩
  · by_cases hpr : p = r
    · -- the object itself: from now on its region is apart from every live one
      right
      refine ⟨fun h => h.2 hpr, ?_⟩
      rintro l ⟨hl, hlr⟩
      exact h.dram.pairwise p (mem_live.mpr hlive) l (mem_live.mpr hl) (by rw [hpr]; exact hlr.symm)
    · exact .inl ⟨rfl, hlive, hpr⟩
  · right
    exact ⟨fun h => hdead h.1, fun l hl => hapart l hl.1⟩

/-- More ids in use do no harm. -/
theorem Allocated.withPool (h : a.Allocated) {p : IDPool} (hp : p.WellFormed)
    (hsub : ∀ id ∈ a.ikernelIds.idsInUse, id ∈ p.idsInUse) :
    Allocated { a with ikernelIds := p } :=
  ⟨h.registered, h.keyed, fun r hr => hsub _ (h.inUse r hr), hp, h.freeOk, h.aligned, h.regions, h.dram⟩

/-- The new object `k`, with its region cut out of the free list. -/
def create (a : Alloc) (p : IDPool) (free : IntervalSet) (k : Ikernel) : Alloc :=
  { objects := a.objects + 1, heap := Function.update a.heap a.objects k,
    ikernels := a.ikernels.insert k.ikernelId a.objects, ikernelIds := p, freeList := free }

theorem live_create {p : IDPool} {free : IntervalSet} {k : Ikernel} (hk : k.destroyed = false) :
    (a.create p free k).Live i ↔ a.Live i ∨ i = a.objects := by
  show i < a.objects + 1 ∧ (Function.update a.heap a.objects k i).destroyed = false ↔
    (i < a.objects ∧ (a.heap i).destroyed = false) ∨ i = a.objects
  by_cases hi : i = a.objects
  · subst hi
    simp [hk]
  · rw [Function.update_of_ne hi]
    simp only [hi, or_false]
    constructor
    · rintro ⟨hlt, hd⟩
      exact ⟨Nat.lt_of_le_of_ne (Nat.lt_succ_iff.mp hlt) hi, hd⟩
    · rintro ⟨hlt, hd⟩
      exact ⟨Nat.lt_succ_of_lt hlt, hd⟩

/-- A new object under an id that was not in use, with a region that was free. -/
theorem Allocated.create (h : a.Allocated) {p : IDPool} {free : IntervalSet} {k : Ikernel}
    (hp : p.WellFormed) (hsub : ∀ id ∈ a.ikernelIds.idsInUse, id ∈ p.idsInUse)
    (hid : k.ikernelId ∈ p.idsInUse) (hfresh : k.ikernelId ∉ a.ikernelIds.idsInUse)
    (hk : k.destroyed = false) (hregion : RegionOk k) (hfree : k.region ⊆ a.freeList.cells)
    (hcells : free.cells = a.freeList.cells \ k.region) (hok : IntervalSet.WellFormed free)
    (haligned : ∀ p ∈ free, 4096 ∣ p.1 ∧ 4096 ∣ p.2) : (a.create p free k).Allocated := by
  have hold : ∀ i, i < a.objects → Function.update a.heap a.objects k i = a.heap i :=
    fun i hi => Function.update_of_ne (Nat.ne_of_lt hi) _ _
  refine ⟨?_, ?_, ?_, hp, hok, haligned, ?_, ?_⟩
  · intro i hi
    rcases (live_create hk).mp hi with hi | rfl
    · show (a.ikernels.insert _ _).lookup (Function.update a.heap a.objects k i).ikernelId = _
      rw [hold i hi.1, AList.lookup_insert_ne]
      · exact h.registered i hi
      · intro heq
        exact hfresh (heq ▸ h.inUse i hi)
    · show (a.ikernels.insert _ _).lookup (Function.update a.heap a.objects k a.objects).ikernelId = _
      rw [Function.update_self, AList.lookup_insert]
  · intro id i hi
    show i < a.objects + 1 ∧ (Function.update a.heap a.objects k i).ikernelId = id
    by_cases hne : id = k.ikernelId
    · rw [hne] at hi ⊢
      have hi' : some a.objects = some i := (AList.lookup_insert _).symm.trans hi
      cases hi'
      rw [Function.update_self]
      exact ⟨Nat.lt_succ_self _, rfl⟩
    · have hi' : a.ikernels.lookup id = some i := (AList.lookup_insert_ne hne).symm.trans hi
      obtain ⟨hlt, hkey⟩ := h.keyed id i hi'
      rw [hold i hlt]
      exact ⟨Nat.lt_succ_of_lt hlt, hkey⟩
  · intro i hi
    show (Function.update a.heap a.objects k i).ikernelId ∈ p.idsInUse
    rcases (live_create hk).mp hi with hi | rfl
    · rw [hold i hi.1]
      exact hsub _ (h.inUse i hi)
    · rw [Function.update_self]
      exact hid
  · intro i hi
    show RegionOk (Function.update a.heap a.objects k i)
    by_cases hne : i = a.objects
    · rw [hne, Function.update_self]
      exact hregion
    · rw [Function.update_of_ne hne]
      exact h.regions i (Nat.lt_of_le_of_ne (Nat.lt_succ_iff.mp hi) hne)
  · have hlive : (a.create p free k).live = insert a.objects a.live := by
      ext i
      rw [mem_live, live_create hk, Finset.mem_insert, mem_live, or_comm]
    have hnot : a.objects ∉ a.live := fun hmem => Nat.lt_irrefl _ (mem_live.mp hmem).1
    have hpiece := Partition.congr _ (fun i => (Function.update a.heap a.objects k i).region) h.dram
      (fun i hi => by rw [hold i (mem_live.mp hi).1])
    rw [hlive]
    show Partition (2 ^ 31) free.cells _ _
    rw [hcells]
    exact hpiece.take hnot (by rw [Function.update_self]) hfree

end Alloc

end Nica.Manager
