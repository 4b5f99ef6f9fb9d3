import Nica.Device.DramPath

/-!
# A memcached ikernel accesses its own region

The manager tells a memcached ikernel `log_dram_size - 6`, so the hash stays below `2 ^ (log_dram_size - 6)`
entries, and rounds the region up to a page; the mapping unit adds the page of the region and does not
overflow, since the region is inside the memory (`entryAddress_eq`).  `Programmed` says that the contexts and
the table hold what the creation of each ikernel wrote.  Later creations write for other ids, and these stay
apart as long as they are below 64.
-/

namespace Nica.Device

open Nica.Lib Nica.Lib.Prog
open Nica.Hls.Memcached
open Nica.Manager
open Nica.Verilog.ExpHls
open Nica.Verilog (DdrAddressMapping.Axi DdrAddressMapping.Request DdrAddressMapping.translate
  DdrAddressMapping.translateWith DdrAddressMapping.Request.ikernelId)

/-! ### Addresses -/

/-- The hash of a key, below the id. -/
def hashOf {z : Sizes} (key : Key z) (n : ℕ) : BitVec 25 :=
  (hB (hA key) key &&& ((1#32 <<< n) - 1).signExtend 64).setWidth 25

theorem hashOf_lt {z : Sizes} (key : Key z) {n : ℕ} (hn : n ≤ 25) : (hashOf key n).toNat < 2 ^ n := by
  have hmask : (((1#32 <<< n) - 1).signExtend 64).toNat = 2 ^ n - 1 := by
    have hall : ∀ n ≤ 25, (((1#32 <<< n) - 1).signExtend 64).toNat = 2 ^ n - 1 := by decide
    exact hall n hn
  have hpos : 0 < 2 ^ n := Nat.two_pow_pos n
  have hand : (hB (hA key) key &&& ((1#32 <<< n) - 1).signExtend 64).toNat ≤ 2 ^ n - 1 := by
    rw [BitVec.toNat_and, hmask]
    exact Nat.and_le_right
  unfold hashOf
  rw [BitVec.toNat_setWidth]
  exact (Nat.mod_le _ _).trans_lt (by omega)

theorem toNat_h {z : Sizes} (key : Key z) (n : ℕ) (id : BitVec 6) :
    (h key n id.toNat).toNat = id.toNat * 2 ^ 25 + (hashOf key n).toNat := by
  have hid := id.isLt
  have hhash := (hashOf key n).isLt
  have hten : (BitVec.ofNat 10 id.toNat).toNat = id.toNat := by
    rw [BitVec.toNat_ofNat]
    omega
  show ((BitVec.ofNat 10 id.toNat ++ hashOf key n).setWidth 64).toNat = _
  rw [BitVec.toNat_setWidth, BitVec.toNat_append, hten, ← Nat.shiftLeft_add_eq_or_of_lt hhash,
    Nat.shiftLeft_eq]
  exact Nat.mod_eq_of_lt (by omega)

/-- The address on the bus: the id, and the offset of the entry in the window of the id. -/
theorem toNat_busAddress {z : Sizes} (key : Key z) (n : ℕ) (id : BitVec 6) :
    (busAddress (h key n id.toNat)).toNat = id.toNat * 2 ^ 31 + 64 * (hashOf key n).toNat := by
  have hid := id.isLt
  have hhash := (hashOf key n).isLt
  unfold busAddress
  rw [BitVec.toNat_shiftLeft, toNat_h, Nat.shiftLeft_eq]
  omega

/-- The request carries its id. -/
theorem ikernelId_busAddress {z : Sizes} (key : Key z) (n : ℕ) (id : BitVec 6) (axi : DdrAddressMapping.Axi) :
    DdrAddressMapping.Request.ikernelId ⟨busAddress (h key n id.toNat), axi⟩ = id.setWidth 10 := by
  have hid := id.isLt
  have hhash := (hashOf key n).isLt
  apply BitVec.eq_of_toNat_eq
  unfold DdrAddressMapping.Request.ikernelId
  rw [BitVec.extractLsb'_toNat, toNat_busAddress, BitVec.toNat_setWidth, Nat.shiftRight_eq_div_pow]
  omega

/-- **The mapping unit**: the entry of a key is where its hash says, from the base of the region on. -/
theorem entryAddress_eq {z : Sizes} {table : BitVec 10 → BitVec 32} {sizes : BitVec 6 → ℕ} {id : BitVec 6}
    (key : Key z) (axi : DdrAddressMapping.Axi) {base : ℕ} (hbase : 4096 ∣ base)
    (htable : table (id.setWidth 10) = BitVec.ofNat 32 (base >>> 12))
    (hin : base + 64 * (hashOf key (sizes id)).toNat < 2 ^ 31) :
    entryAddress table sizes id key axi = base + 64 * (hashOf key (sizes id)).toNat := by
  obtain ⟨page, rfl⟩ := hbase
  have hhash := (hashOf key (sizes id)).isLt
  have hid := id.isLt
  have hpage : (4096 * page) >>> 12 = page := by
    rw [Nat.shiftRight_eq_div_pow]
    omega
  unfold entryAddress DdrAddressMapping.translate DdrAddressMapping.translateWith
  rw [ikernelId_busAddress, htable, hpage]
  simp only [BitVec.toNat_append, BitVec.toNat_add, BitVec.extractLsb'_toNat, toNat_busAddress]
  have hlow : (id.toNat * 2 ^ 31 + 64 * (hashOf key (sizes id)).toNat) >>> 0 % 2 ^ 12 < 2 ^ 12 :=
    Nat.mod_lt _ (by decide)
  rw [← Nat.shiftLeft_add_eq_or_of_lt hlow]
  simp only [BitVec.toNat_ofNat, Nat.shiftRight_eq_div_pow, Nat.shiftLeft_eq]
  simp only [Nat.zero_mod, Nat.zero_mul, Nat.zero_or, Nat.pow_zero, Nat.div_one]
  omega

/-! ### What the manager writes -/

theorem mapTable_append (ws ws' : List (ℤ × ℕ)) : mapTable (ws ++ ws') = ws'.foldl mapWrite (mapTable ws) :=
  List.foldl_append

theorem cacheSizes_append (as as' : List Access) :
    cacheSizes (as ++ as') = as'.foldl sizeWrite (cacheSizes as) :=
  List.foldl_append

/-- The mapping of an id below 64 is written to its own entry. -/
theorem mapWrite_mappingOf {id : ℤ} (h₀ : 0 ≤ id) (h₁ : id < 64) (table : BitVec 10 → BitVec 32) (base : ℕ) :
    mapWrite table (mappingOf id base) =
      Function.update table (carriedId id) (BitVec.ofNat 32 (base >>> 12)) := by
  obtain ⟨hsel, hentry⟩ := tableEntry_mmuAddress h₀ h₁
  unfold mapWrite
  have haddr : BitVec.ofInt 32 (mappingOf id base).1 = mmuAddress id := rfl
  rw [haddr, if_pos hsel, hentry]
  rfl

/-- Mappings of one id leave the entries of the others alone. -/
theorem foldl_mapWrite_ne {id : ℤ} (h₀ : 0 ≤ id) (h₁ : id < 64) {e : BitVec 10} (he : e ≠ carriedId id) :
    ∀ (ws : List (ℤ × ℕ)) (table : BitVec 10 → BitVec 32), (∀ w ∈ ws, ∃ base, w = mappingOf id base) →
      ws.foldl mapWrite table e = table e := by
  intro ws
  induction ws with
  | nil =>
    intro table _
    rfl
  | cons w ws ih =>
    intro table hws
    obtain ⟨base, rfl⟩ := hws w (List.mem_cons_self ..)
    rw [List.foldl_cons, ih _ (fun w' hw' => hws w' (List.mem_cons_of_mem _ hw')), mapWrite_mappingOf h₀ h₁,
      Function.update_of_ne he]

/-- Accesses of one id leave the sizes of the others alone. -/
theorem foldl_sizeWrite_ne {id : ℤ} {e : BitVec 6} (he : e ≠ ikernelIdT id) :
    ∀ (as : List Access) (sizes : BitVec 6 → ℕ), (∀ a ∈ as, a.ikernelId = id) →
      as.foldl sizeWrite sizes e = sizes e := by
  intro as
  induction as with
  | nil =>
    intro sizes _
    rfl
  | cons a as ih =>
    intro sizes has
    have ha := has a (List.mem_cons_self ..)
    rw [List.foldl_cons, ih _ (fun a' ha' => has a' (List.mem_cons_of_mem _ ha'))]
    unfold sizeWrite
    cases a.value with
    | none => rfl
    | some v =>
      dsimp only
      split
      · rw [ha, Function.update_of_ne he]
      · rfl

/-- Ids below 64 stay apart in the hardware. -/
theorem ikernelIdT_ne {id id' : ℤ} (h₀ : 0 ≤ id) (h₁ : id < 64) (h₀' : 0 ≤ id') (h₁' : id' < 64)
    (hne : id ≠ id') : ikernelIdT id ≠ ikernelIdT id' ∧ carriedId id ≠ carriedId id' := by
  have hid := toNat_ikernelIdT h₀ h₁
  have hid' := toNat_ikernelIdT h₀' h₁'
  constructor
  · intro heq
    rw [heq] at hid
    omega
  · intro heq
    have hnat := congrArg BitVec.toNat heq
    unfold carriedId at hnat
    rw [BitVec.toNat_setWidth, BitVec.toNat_setWidth] at hnat
    omega

/-! ### Creations -/

/-- Every ikernel has its own id, a region of the memory, and the contexts and the table as its creation
programmed them. -/
structure Programmed (s : State) : Prop where
  uuids : ∀ uuid ∈ s.uuids, uuid = memcachedUuid
  small : SmallIds s
  pool : s.ikernelIds.WellFormed
  free : ∀ p ∈ s.freeList, 4096 ∣ p.1 ∧ 4096 ∣ p.2 ∧ p.2 ≤ 2 ^ 31
  used : ∀ r < s.objects, (s.heap r).ikernelId ∈ s.ikernelIds.idsInUse
  region : ∀ r < s.objects, 4096 ∣ (s.heap r).base ∧ (s.heap r).base + 2 ^ (s.heap r).logDramSize ≤ 2 ^ 31
  mapped : ∀ r < s.objects, mapTable s.hw.mmu (carriedId (s.heap r).ikernelId) =
    BitVec.ofNat 32 ((s.heap r).base >>> 12)
  sized : ∀ r < s.objects,
    cacheSizes s.hw.gateway (ikernelIdT (s.heap r).ikernelId) + 6 ≤ (s.heap r).logDramSize

variable {s : State}

theorem Programmed.contained (h : Programmed s) : Contained s := by
  intro r hr z key axi
  have hlt : r < s.objects := hr.1
  obtain ⟨halign, hend⟩ := h.region r hlt
  have hsize := h.sized r hlt
  have hlog : (s.heap r).logDramSize ≤ 31 := by
    by_contra hbig
    have hpow : 2 ^ 32 ≤ 2 ^ (s.heap r).logDramSize := Nat.pow_le_pow_right (by decide) (by omega)
    omega
  have hhash := hashOf_lt key
    (show cacheSizes s.hw.gateway (ikernelIdT (s.heap r).ikernelId) ≤ 25 by omega)
  -- the entries take 64 bytes each, up to the size of the region
  have hbytes : 64 * (hashOf key (cacheSizes s.hw.gateway (ikernelIdT (s.heap r).ikernelId))).toNat + 64 ≤
      2 ^ (s.heap r).logDramSize := by
    have hpow : 2 ^ (cacheSizes s.hw.gateway (ikernelIdT (s.heap r).ikernelId) + 6) ≤
        2 ^ (s.heap r).logDramSize := Nat.pow_le_pow_right (by decide) hsize
    rw [Nat.pow_add] at hpow
    omega
  have hin : (s.heap r).base +
      64 * (hashOf key (cacheSizes s.hw.gateway (ikernelIdT (s.heap r).ikernelId))).toNat < 2 ^ 31 := by omega
  have haddr := entryAddress_eq key axi halign (h.mapped r hlt) hin
  show _ ≤ entryAddress _ _ _ _ _ ∧ entryAddress _ _ _ _ _ + 64 ≤ _
  rw [haddr]
  omega

/-- What a creation takes leaves the free list in order. -/
theorem Programmed.takes (h : Programmed s) {log base logSize : ℕ} {l : IntervalSet}
    (htakes : Takes log s.freeList l base logSize) :
    (∀ p ∈ l, 4096 ∣ p.1 ∧ 4096 ∣ p.2 ∧ p.2 ≤ 2 ^ 31) ∧
      (log ≠ 0 → 4096 ∣ base ∧ base + 2 ^ logSize ≤ 2 ^ 31 ∧ log ≤ logSize) := by
  rcases htakes with ⟨hzero, -, -, rfl⟩ | ⟨-, rfl, ⟨stop, hfit⟩, rfl⟩
  · exact ⟨h.free, fun hne => absurd hzero hne⟩
  · have hmem : (base, stop) ∈ s.freeList := List.mem_of_find?_eq_some hfit
    obtain ⟨hbase, hstop, hend⟩ := h.free _ hmem
    have hsize : 2 ^ requestedLog log ≤ stop - base := by
      have := List.find?_some hfit
      simpa using this
    have hpos : 0 < 2 ^ requestedLog log := Nat.two_pow_pos _
    have hcut : 4096 ∣ base + 2 ^ requestedLog log :=
      Nat.dvd_add hbase (pow_dvd_pow 2 (le_requestedLog log))
    simp only at hstop hend hbase
    constructor
    · intro p hp
      obtain ⟨q, hq, h₁, h₂, -, hle⟩ := IntervalSet.mem_cut hp
      obtain ⟨hq₁, hq₂, hq₃⟩ := h.free q hq
      refine ⟨?_, ?_, hle.trans hq₃⟩
      · rcases h₁ with h₁ | h₁ <;> rw [h₁]
        · exact hq₁
        · exact hcut
      · rcases h₂ with h₂ | h₂ <;> rw [h₂]
        · exact hq₂
        · exact hbase
    · intro _
      refine ⟨hbase, by omega, ?_⟩
      unfold requestedLog
      split <;> omega

section Create

variable {uuid : Uuid} {log : ℕ} {tc : Option (Fin 3)}

/-- The commands for an id that was not in use leave every ikernel as it was programmed. -/
theorem Programmed.commands (h : Programmed s) {id : ℤ} (hid : 0 ≤ id ∧ id < 64)
    (hfresh : id ∉ s.ikernelIds.idsInUse) {mappings : List (ℤ × ℕ)} {accesses : List Access}
    (hmappings : ∀ w ∈ mappings, ∃ base, w = mappingOf id base) (haccesses : ∀ a ∈ accesses, a.ikernelId = id)
    {r : Ref} (hr : r < s.objects) :
    mapTable (s.hw.mmu ++ mappings) (carriedId (s.heap r).ikernelId) =
        BitVec.ofNat 32 ((s.heap r).base >>> 12) ∧
      cacheSizes (s.hw.gateway ++ accesses) (ikernelIdT (s.heap r).ikernelId) + 6 ≤
        (s.heap r).logDramSize := by
  obtain ⟨h₀, h₁⟩ := h.small.objects r hr
  have hne : (s.heap r).ikernelId ≠ id := by
    intro heq
    exact hfresh (heq ▸ h.used r hr)
  obtain ⟨hneT, hneC⟩ := ikernelIdT_ne h₀ h₁ hid.1 hid.2 hne
  rw [mapTable_append, foldl_mapWrite_ne hid.1 hid.2 hneC _ _ hmappings, cacheSizes_append,
    foldl_sizeWrite_ne hneT _ _ haccesses]
  exact ⟨h.mapped r hr, h.sized r hr⟩

theorem Programmed.allocates (h : Programmed s) (hfit : uuid ∈ s.uuids → FitsIds s tc) {k : Ikernel}
    {s' : State} (hk : Allocates s s.objects uuid log tc k s') : Programmed (s'.addIkernel s.objects k) := by
  obtain ⟨hsmall, hid⟩ := h.small.allocates hfit hk
  have hmemcached := h.uuids uuid hk.uuid_mem
  have hsix := hk.size hmemcached
  have hideq := hk.id_eq
  obtain ⟨l, os, htakes, rfl⟩ := hk.state
  obtain ⟨hwf, hcases⟩ := IDPool.getId_cases (tcCondition tc) 3 h.pool
  obtain ⟨hfresh, huse⟩ : k.ikernelId ∉ s.ikernelIds.idsInUse ∧
      (s.ikernelIds.getId 3 (tcCondition tc)).2.idsInUse = s.ikernelIds.idsInUse.insert k.ikernelId := by
    rcases hcases with ⟨hnone, -⟩ | ⟨id, hsome, hnot, huse⟩
    · rw [hideq] at hnone
      cases hnone
    · rw [hideq] at hsome
      cases hsome
      exact ⟨hnot, huse⟩
  obtain ⟨hfree, hregion⟩ := h.takes htakes
  obtain ⟨hbase, hend, hlog⟩ := hregion (by omega)
  have hsizes : ∀ a ∈ sizeWrites s.objects uuid log k.ikernelId, a.ikernelId = k.ikernelId := by
    intro a ha
    unfold sizeWrites at ha
    rw [if_pos hmemcached] at ha
    rw [List.mem_singleton.mp ha]
  have hold : ∀ {r}, r < s.objects → Function.update s.heap s.objects k r = s.heap r :=
    fun hr => Function.update_of_ne (Nat.ne_of_lt hr) _ _
  have hcases : ∀ {r}, r < s.objects + 1 → r < s.objects ∨ r = s.objects := by
    intro r hr
    omega
  refine ⟨h.uuids, hsmall, hwf, hfree, ?_, ?_, ?_, ?_⟩
  · intro r hr
    show (Function.update s.heap s.objects k r).ikernelId ∈ (s.ikernelIds.getId 3 (tcCondition tc)).2.idsInUse
    rw [huse]
    rcases hcases hr with hr | rfl
    · rw [hold hr]
      exact List.mem_insert_of_mem (h.used r hr)
    · rw [Function.update_self]
      exact List.mem_insert_self
  · intro r hr
    show 4096 ∣ (Function.update s.heap s.objects k r).base ∧ (Function.update s.heap s.objects k r).base +
      2 ^ (Function.update s.heap s.objects k r).logDramSize ≤ 2 ^ 31
    rcases hcases hr with hr | rfl
    · rw [hold hr]
      exact h.region r hr
    · rw [Function.update_self]
      exact ⟨hbase, hend⟩
  · intro r hr
    show mapTable (s.hw.mmu ++ [mappingOf k.ikernelId k.base])
      (carriedId (Function.update s.heap s.objects k r).ikernelId) =
      BitVec.ofNat 32 ((Function.update s.heap s.objects k r).base >>> 12)
    rcases hcases hr with hr | rfl
    · rw [hold hr]
      exact (h.commands hid hfresh (by simp) hsizes hr).1
    · rw [Function.update_self, mapTable_append]
      show mapWrite _ _ _ = _
      rw [mapWrite_mappingOf hid.1 hid.2, Function.update_self]
  · intro r hr
    show cacheSizes (s.hw.gateway ++ sizeWrites s.objects uuid log k.ikernelId)
      (ikernelIdT (Function.update s.heap s.objects k r).ikernelId) + 6 ≤
      (Function.update s.heap s.objects k r).logDramSize
    rcases hcases hr with hr | rfl
    · rw [hold hr]
      have hmappings : ∀ w ∈ ([] : List (ℤ × ℕ)), ∃ base, w = mappingOf k.ikernelId base := by simp
      exact (h.commands hid hfresh hmappings hsizes hr).2
    · rw [Function.update_self, cacheSizes_append, sizeWrites, if_pos hmemcached, List.foldl_cons,
        List.foldl_nil]
      simp only [sizeWrite, if_true, Function.update_self]
      omega

theorem Programmed.attempts (h : Programmed s) (hfit : uuid ∈ s.uuids → FitsIds s tc) {s' : State}
    (hs' : Attempts s uuid log tc s') : Programmed s' := by
  have hsmall := h.small.attempts hfit hs'
  rcases hs' with rfl | ⟨hmem, l, os, mappings, accesses, hl, rfl, hnone, hsome⟩
  · exact h
  obtain ⟨hwf, hcases⟩ := IDPool.getId_cases (tcCondition tc) 3 h.pool
  have hfree : ∀ p ∈ l, 4096 ∣ p.1 ∧ 4096 ∣ p.2 ∧ p.2 ≤ 2 ^ 31 := by
    rcases hl with rfl | ⟨base, logSize, htakes⟩
    · exact h.free
    · exact (h.takes htakes).1
  rcases hcases with ⟨hno, huse⟩ | ⟨id, hyes, hnot, huse⟩
  · obtain ⟨rfl, rfl⟩ := hnone hno
    refine ⟨h.uuids, hsmall, hwf, hfree, ?_, h.region, ?_, ?_⟩
    · intro r hr
      show _ ∈ (s.ikernelIds.getId 3 (tcCondition tc)).2.idsInUse
      rw [huse]
      exact h.used r hr
    · simpa [Hardware.after] using h.mapped
    · simpa [Hardware.after] using h.sized
  · obtain ⟨hmappings, haccesses⟩ := hsome id hyes
    have hid := (h.small.getId (hfit hmem) l s.hw).2 id hyes
    refine ⟨h.uuids, hsmall, hwf, hfree, ?_, h.region, ?_, ?_⟩
    · intro r hr
      show _ ∈ (s.ikernelIds.getId 3 (tcCondition tc)).2.idsInUse
      rw [huse]
      exact List.mem_insert_of_mem (h.used r hr)
    · intro r hr
      exact (h.commands hid hnot hmappings haccesses hr).1
    · intro r hr
      exact (h.commands hid hnot hmappings haccesses hr).2

theorem programmed_ikCreate (h : Programmed s) (hfit : uuid ∈ s.uuids → FitsIds s tc) :
    Post (ikCreate uuid log tc) s (fun _ => Programmed) (fun _ => Programmed) := by
  unfold ikCreate
  simp only [post_bind, post_get]
  refine (post_allocateIkernel s s.objects uuid log tc).imp ?_ ?_
  · intro k s' hk
    exact h.allocates hfit hk
  · intro _ s' hs'
    exact h.attempts hfit hs'

end Create

/-! ### Runs -/

/-- Only connections are made and ikernels created. -/
def Creates : Action → Prop
  | .connect _ => True
  | .client _ req _ => req.creates.isSome
  | .vm _ (.allocateIkernel _ _) _ => True
  | .rehash _ => True
  | _ => False

theorem Programmed.conns (h : Programmed s) (g : ℕ → Conn) : Programmed { s with conns := g } :=
  { h with small := stable_smallIds.conns s g h.small }

theorem Programmed.connections (h : Programmed s) (n : ℕ) : Programmed { s with connections := n } :=
  { h with small := stable_smallIds.connections s n h.small }

theorem Programmed.enter (h : Programmed s) (c : ℕ) (hw : List Outcome) : Programmed (s.enter c hw) :=
  { h with small := ⟨h.small.last, h.small.used, h.small.free, h.small.objects⟩ }

theorem Programmed.rehash (h : Programmed s) (order : Order) : Programmed (s.rehash order) :=
  { h with
    small := stable_smallIds.rehash s order h.small
    pool := IDPool.wellFormed_perm h.pool (reorder_perm _ _) }

theorem programmed_step (a : Action) (hcreates : Creates a) (hfit : IdsFit s a) (h : Programmed s) :
    Programmed (step s a) := by
  unfold Manager.step
  split
  swap
  · exact h
  cases a with
  | connect kind => exact (h.conns (Function.update s.conns s.connections (newConn kind))).connections _
  | client c req hw =>
    dsimp only
    split
    swap
    · exact h
    rename_i hserves
    have hcreate : ∀ netdev uuid log header, req.creates = some (netdev, uuid, log) →
        Post (Client.create netdev uuid log header) (s.enter c hw) (fun _ => Programmed)
          (fun _ => Programmed) := by
      intro netdev uuid log header hreq
      apply post_clientCreate (fun s g hs => hs.conns g) (h.enter c hw) header
      intro hname
      apply programmed_ikCreate (h.enter c hw)
      intro hmem
      exact hfit hserves netdev uuid log hreq hname hmem
    apply Post.state
    cases req with
    | ikCreate netdev uuid => exact hcreate netdev uuid 0 [] rfl
    | ikCreateAttrs size netdev uuid log => exact hcreate netdev uuid log.toNat [8] rfl
    | _ => cases hcreates
  | vm c req hw =>
    dsimp only
    split
    swap
    · exact h
    rename_i hserves
    apply Post.state
    cases req with
    | allocateIkernel uuid log =>
      apply post_vmAllocate (fun s g hs => hs.conns g)
      apply programmed_ikCreate (h.enter c hw)
      intro hmem
      exact hfit hserves hmem
    | _ => cases hcreates
  | rehash order => exact h.rehash order
  | connectionLost c hw => cases hcreates
  | shutdown hw => cases hcreates

theorem programmed_init (cfg : Config) (huuid : cfg.uuid = memcachedUuid) : Programmed (init cfg) where
  uuids := by
    intro uuid hmem
    rw [List.mem_singleton.mp hmem, huuid]
  small := smallIds_init cfg
  pool := IDPool.wellFormed_init _ _
  free := by
    intro p hp
    rw [List.mem_singleton.mp hp]
    decide
  used := fun r hr => absurd hr (Nat.not_lt_zero r)
  region := fun r hr => absurd hr (Nat.not_lt_zero r)
  mapped := fun r hr => absurd hr (Nat.not_lt_zero r)
  sized := fun r hr => absurd hr (Nat.not_lt_zero r)

/-- For every sequence of creations of memcached ikernels in which each finds an id below 64, every ikernel
accesses its own region. -/
theorem contained_run (cfg : Config) (huuid : cfg.uuid = memcachedUuid) (acts : List Action)
    (hcreates : ∀ a ∈ acts, Creates a) (hfit : Along step IdsFit (init cfg) acts) :
    Contained (runFrom (init cfg) acts) := by
  have hboth : ∀ (acts : List Action) (s : State), (∀ a ∈ acts, Creates a) → Along step IdsFit s acts →
      Along step (fun s a => Creates a ∧ IdsFit s a) s acts := by
    intro acts
    induction acts with
    | nil =>
      intro _ _ _
      trivial
    | cons a acts ih =>
      intro s hcreates hfit
      refine ⟨⟨hcreates a (List.mem_cons_self ..), hfit.1⟩, ih _ ?_ hfit.2⟩
      intro b hb
      exact hcreates b (List.mem_cons_of_mem _ hb)
  have hrun := run_induction (P := Programmed) (fun _ a hc hs => programmed_step a hc.1 hc.2 hs) acts
    (init cfg) (hboth acts _ hcreates hfit) (programmed_init cfg huuid)
  exact hrun.contained

/-- Memcached on the interface `e`. -/
def memcachedConfig : Config := ⟨[0x65], 0x0a000002, 0x02, memcachedUuid, 64⟩

/-- `ik_create_attrs`, with a page of the DRAM. -/
def pageCreate : Action := .client 0 (.ikCreateAttrs 8 [0x65] memcachedUuid 12) []

theorem contained_run_two :
    (runFrom (init memcachedConfig) [.connect .client, pageCreate, pageCreate]).objects = 2 ∧
      Contained (runFrom (init memcachedConfig) [.connect .client, pageCreate, pageCreate]) := by
  refine ⟨by decide +kernel, contained_run _ rfl _ ?_ ?_⟩
  · intro a ha
    simp only [List.mem_cons, List.not_mem_nil, or_false] at ha
    rcases ha with rfl | rfl | rfl
    · trivial
    · rfl
    · rfl
  · refine ⟨trivial, ?_, ?_, trivial⟩
    · intro _ _ _ _ _ _ _
      exact .inr ⟨63, by decide +kernel, by decide, rfl⟩
    · intro _ _ _ _ _ _ _
      exact .inr ⟨63, by decide +kernel, by decide, rfl⟩

/-- The 65 creations of one client. -/
def sixtyFivePages : State := runFrom (init memcachedConfig) (.connect .client :: List.replicate 65 pageCreate)

/-- The entries of the last one are taken to the region of the first. -/
theorem not_contained_sixtyFive : ¬Contained sixtyFivePages := by
  intro h
  have hlive : sixtyFivePages.alloc.Live 64 := by decide +kernel
  have hbase : (sixtyFivePages.heap 64).base = 64 * 4096 := by decide +kernel
  have haddress : entryAddress (mapTable sixtyFivePages.hw.mmu) (cacheSizes sixtyFivePages.hw.gateway)
      (ikernelIdT (sixtyFivePages.heap 64).ikernelId) (0 : Key ⟨10, 10, by decide, by decide⟩)
      ⟨0, 0, 0, 0, 0, 0, 0, 0, 0⟩ < 4096 := by decide +kernel
  have hlow := (h 64 hlive ⟨10, 10, by decide, by decide⟩ 0 ⟨0, 0, 0, 0, 0, 0, 0, 0, 0⟩).1
  rw [hbase] at hlow
  exact absurd (hlow.trans_lt haddress) (by decide)

end Nica.Device
