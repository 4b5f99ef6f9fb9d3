import Mathlib.Tactic.FinCases
import Nica.Manager.Equiv.DramRun
import Nica.Manager.Equiv.Identifiers

/-!
# What a failed creation leaves behind

`Netdev.ik_create` takes an id, then a region, then programs the hardware, and registers the object last.
It has no rollback: `atomic_iff` says that a creation which raises leaves the ids in use, the free list and
the registry as they were exactly when it raises before it has taken an id.

* `post_ikCreate_known`: once the pool has given an id, the creation returns exactly when all that follows
  succeeds (`Completes`), and otherwise the id stays in use;
* `getId_eq_none_iff`: when the pool has no id;
* `poolSound_run`: the pool is in order in every reachable state.
-/

namespace Nica.Manager

open Nica.Lib Nica.Lib.Prog

variable {s : State} {uuid : Uuid} {log : ℕ} {tc : Option (Fin 3)}

/-! ### The property and the condition -/

/-- A creation that raises leaves the set of ids in use, the free list and the registry as they were. -/
def Atomic (s : State) (uuid : Uuid) (log : ℕ) (tc : Option (Fin 3)) : Prop :=
  ∀ e s', exec (ikCreate uuid log tc) s = (.error e, s') →
    s'.ikernelIds.idsInUse.toFinset = s.ikernelIds.idsInUse.toFinset ∧ s'.freeList = s.freeList ∧
      s'.ikernels = s.ikernels

/-- The next command to the hardware returns. -/
def Returns (hw : List Outcome) : Prop := ∀ o ∈ hw.head?, o.isValue = true

/-- No id of the traffic class is free, and the next one to be made is beyond the ids of the pool. -/
def PoolExhausted (p : IDPool) (tc : Option (Fin 3)) : Prop :=
  (∀ id ∈ p.idsFree, tcCondition tc id = false) ∧ ∀ id, p.lastId < id → tcCondition tc id → 1024 ≤ id

/-- Nothing fails after the id was taken: there is room for the region, at a page, the mapping is written,
and so is the size of the cache of a memcached ikernel, `log - 6`, which has to be a 32-bit number. -/
structure Completes (s : State) (uuid : Uuid) (log : ℕ) : Prop where
  room : log ≠ 0 → ∃ base stop, firstFit (2 ^ requestedLog log) s.freeList = some (base, stop) ∧
    base % 2 ^ 12 = 0
  mapping : Returns s.hw.outcomes
  size : uuid = memcachedUuid → 6 ≤ log ∧ log < 2 ^ 32 + 6 ∧ Returns s.hw.outcomes.tail

/-! ### The commands to the hardware -/

/-- A command returns or raises as the environment has fixed it, and the next one is the next outcome. -/
theorem post_access_returns {effect : BitVec 32 → Hardware → Hardware}
    (heffect : ∀ v hw, (effect v hw).outcomes = hw.outcomes) :
    Post (access effect) s
      (fun _ s' => Returns s.hw.outcomes ∧
        ∃ hw, s' = { s with hw := hw } ∧ hw.outcomes = s.hw.outcomes.tail)
      (fun _ s' => ¬ Returns s.hw.outcomes ∧ ∃ hw, s' = { s with hw := hw }) := by
  unfold access
  rw [post_bind, post_get]
  split
  · rename_i hos
    refine ⟨by simp [Returns, hos], _, rfl, ?_⟩
    rw [heffect, hos]
    rfl
  · rename_i v os hos
    refine ⟨by simp [Returns, hos, Outcome.isValue], _, rfl, ?_⟩
    rw [heffect, hos]
    rfl
  · rename_i fault done os hos
    exact ⟨by simp [Returns, hos, Outcome.isValue], _, rfl⟩

theorem post_setMapping_returns {id : ℤ} {base : ℕ} :
    Post (setMapping id base) s
      (fun _ s' => (base % 2 ^ 12 = 0 ∧ Returns s.hw.outcomes) ∧
        ∃ hw, s' = { s with hw := hw } ∧ hw.outcomes = s.hw.outcomes.tail)
      (fun _ s' => ¬ (base % 2 ^ 12 = 0 ∧ Returns s.hw.outcomes) ∧ ∃ hw, s' = { s with hw := hw }) := by
  unfold setMapping
  split
  · rename_i hbase
    exact ⟨fun h => hbase h.1, s.hw, rfl⟩
  · rename_i hbase
    simp only [post_bind, post_pure]
    refine Post.imp (post_access_returns fun _ _ => rfl) ?_ ?_
    · rintro _ _ ⟨hret, hrest⟩
      exact ⟨⟨not_not.mp hbase, hret⟩, hrest⟩
    · rintro _ _ ⟨hret, hrest⟩
      exact ⟨fun h => hret h.2, hrest⟩

theorem post_gatewayWrite_returns {r : Ref} {id value : ℤ} {address : BitVec 32} :
    Post (gatewayWrite r id address value) s
      (fun _ s' => (0 ≤ value ∧ value < 2 ^ 32 ∧ Returns s.hw.outcomes) ∧ ∃ hw, s' = { s with hw := hw })
      (fun _ s' => ¬ (0 ≤ value ∧ value < 2 ^ 32 ∧ Returns s.hw.outcomes) ∧
        ∃ hw, s' = { s with hw := hw }) := by
  unfold gatewayWrite
  split
  · rename_i hrange
    exact ⟨fun h => by omega, s.hw, rfl⟩
  · rename_i hrange
    simp only [post_bind, post_pure]
    refine Post.imp (post_access_returns fun _ _ => rfl) ?_ ?_
    · rintro _ _ ⟨hret, hw, rfl, -⟩
      exact ⟨⟨by omega, by omega, hret⟩, hw, rfl⟩
    · rintro _ _ ⟨hret, hw, rfl⟩
      exact ⟨fun h => hret h.2.2, hw, rfl⟩

/-! ### The creation -/

theorem exists_findIdx? (hmem : uuid ∈ s.uuids) :
    ∃ index, s.uuids.findIdx? (fun u => u = uuid) = some index := by
  rcases hfind : s.uuids.findIdx? (fun u => u = uuid) with _ | index
  · rw [List.findIdx?_eq_none_iff] at hfind
    have := hfind uuid hmem
    simp at this
  · exact ⟨index, rfl⟩

/-- A creation of an unknown UUID raises before it has taken anything. -/
theorem post_ikCreate_unknown (log : ℕ) (tc : Option (Fin 3)) (hmem : uuid ∉ s.uuids) :
    Post (ikCreate uuid log tc) s (fun _ _ => False) (fun _ s' => s' = s) := by
  have hidx : s.uuids.findIdx? (fun u => u = uuid) = none := by
    rw [List.findIdx?_eq_none_iff]
    intro u hu
    simp only [decide_eq_false_iff_not]
    rintro rfl
    exact hmem hu
  unfold ikCreate allocateIkernel
  simp only [post_bind, post_get, hidx]
  rfl

/-- So does one that finds no id, but for the ids that the pool has made on the way. -/
theorem post_ikCreate_noId (log : ℕ) (hmem : uuid ∈ s.uuids)
    (hid : (s.ikernelIds.getId 3 (tcCondition tc)).1 = none) :
    Post (ikCreate uuid log tc) s (fun _ _ => False)
      (fun _ s' => s' = { s with ikernelIds := (s.ikernelIds.getId 3 (tcCondition tc)).2 }) := by
  obtain ⟨index, hidx⟩ := exists_findIdx? hmem
  unfold ikCreate allocateIkernel getIkernelId
  simp only [post_bind, post_get, hidx, post_modify, hid]
  rfl

/-- Once the pool has given an id, the creation either completes and returns, or raises with the id still
in use. -/
theorem post_ikCreate_known {id : ℤ} (log : ℕ) (hmem : uuid ∈ s.uuids)
    (hid : (s.ikernelIds.getId 3 (tcCondition tc)).1 = some id) :
    Post (ikCreate uuid log tc) s (fun _ _ => Completes s uuid log)
      (fun _ s' => ¬ Completes s uuid log ∧
        s'.ikernelIds = (s.ikernelIds.getId 3 (tcCondition tc)).2) := by
  obtain ⟨index, hidx⟩ := exists_findIdx? hmem
  unfold ikCreate allocateIkernel getIkernelId
  simp only [post_bind, post_get, hidx, post_modify, hid, post_pure]
  refine (post_allocateDram log).imp ?_ ?_
  swap
  · -- out of memory
    rintro _ _ ⟨hne, hfit, rfl⟩
    refine ⟨fun h => ?_, rfl⟩
    obtain ⟨base, stop, hsome, -⟩ := h.room hne
    rw [hfit] at hsome
    cases hsome
  rintro ⟨base, logSize⟩ s₁ hregion
  obtain ⟨l, hroom, rfl⟩ : ∃ l, ((log ≠ 0 → ∃ base stop, firstFit (2 ^ requestedLog log) s.freeList =
      some (base, stop) ∧ base % 2 ^ 12 = 0) ↔ base % 2 ^ 12 = 0) ∧
      s₁ = { s with ikernelIds := (s.ikernelIds.getId 3 (tcCondition tc)).2, freeList := l } := by
    rcases hregion with ⟨hzero, hres, rfl⟩ | ⟨hne, base', stop, hfit, hres, rfl⟩
    · cases hres
      exact ⟨s.freeList, iff_of_true (fun hne => absurd hzero hne) rfl, rfl⟩
    · cases hres
      refine ⟨_, ⟨fun h => ?_, fun h _ => ⟨base, stop, hfit, h⟩⟩, rfl⟩
      obtain ⟨base', stop', hfit', hbase⟩ := h hne
      rw [hfit] at hfit'
      cases hfit'
      exact hbase
  refine post_setMapping_returns.imp ?_ ?_
  swap
  · rintro _ _ ⟨hfail, hw, rfl⟩
    exact ⟨fun h => hfail ⟨hroom.mp h.room, h.mapping⟩, rfl⟩
  rintro _ _ ⟨⟨hbase, hmapping⟩, hw, rfl, hnext⟩
  split
  · rename_i huuid
    rw [post_bind]
    refine post_gatewayWrite_returns.imp ?_ ?_
    · rintro _ _ ⟨⟨hlow, hhigh, hret⟩, hw', rfl⟩
      refine ⟨hroom.mpr hbase, hmapping, fun _ => ⟨by omega, by omega, ?_⟩⟩
      rw [← hnext]
      exact hret
    · rintro _ _ ⟨hfail, hw', rfl⟩
      refine ⟨fun h => hfail ?_, rfl⟩
      obtain ⟨hlow, hhigh, hret⟩ := h.size huuid
      refine ⟨by omega, by omega, ?_⟩
      rw [← hnext] at hret
      exact hret
  · rename_i huuid
    exact ⟨hroom.mpr hbase, hmapping, fun h => absurd h huuid⟩

/-! ### The pool -/

/-- One of any four ids in a row belongs to the traffic class. -/
theorem exists_tcCondition (tc : Option (Fin 3)) (id : ℤ) :
    tcCondition tc (id + 1) ∨ tcCondition tc (id + 2) ∨ tcCondition tc (id + 3) ∨ tcCondition tc (id + 4) := by
  rcases tc with _ | tc
  · exact .inl rfl
  · fin_cases tc <;> simp [tcCondition] <;> omega

/-- The loop of `get_id` ends with an id of the traffic class. -/
theorem tcCondition_newId (tc : Option (Fin 3)) (p : IDPool) :
    tcCondition tc (IDPool.newId (tcCondition tc) 3 p).1 := by
  have hfour := exists_tcCondition tc p.lastId
  simp only [IDPool.newId]
  split
  · assumption
  · split
    · assumption
    · split
      · assumption
      · rename_i h₁ h₂ h₃
        rcases hfour with h | h | h | h
        · exact absurd h h₁
        · rw [show p.lastId + 2 = p.lastId + 1 + 1 by ring] at h
          exact absurd h h₂
        · rw [show p.lastId + 3 = p.lastId + 1 + 1 + 1 by ring] at h
          exact absurd h h₃
        · rw [show p.lastId + 4 = p.lastId + 1 + 1 + 1 + 1 by ring] at h
          exact h

theorem maxId_newId (condition : ℤ → Bool) (fuel : ℕ) (p : IDPool) :
    (IDPool.newId condition fuel p).2.maxId = p.maxId := by
  induction fuel generalizing p with
  | zero => rfl
  | succ fuel ih =>
    unfold IDPool.newId
    simp only
    split
    · rfl
    · rw [ih]

theorem maxId_getId (condition : ℤ → Bool) (fuel : ℕ) (p : IDPool) :
    (IDPool.getId fuel condition p).2.maxId = p.maxId := by
  unfold IDPool.getId
  split
  · rfl
  · simp only
    split <;> exact maxId_newId condition fuel p

/-- The pool that the manager makes raises exactly when it is exhausted. -/
theorem getId_eq_none_iff {p : IDPool} (hmax : p.maxId = some 1024) :
    (p.getId 3 (tcCondition tc)).1 = none ↔ PoolExhausted p tc := by
  obtain ⟨hgt, -, -, -⟩ := IDPool.newId_free (tcCondition tc) 3 p
  have hmeets := tcCondition_newId tc p
  have hmax' : (IDPool.newId (tcCondition tc) 3 p).2.maxId = some 1024 := by
    rw [← hmax]
    exact maxId_newId _ _ _
  unfold IDPool.getId PoolExhausted
  rcases hfilter : p.idsFree.filter (tcCondition tc) with _ | ⟨id, rest⟩
  · have hfree : ∀ id ∈ p.idsFree, tcCondition tc id = false := by
      intro id hid
      have := List.filter_eq_nil_iff.mp hfilter id hid
      simpa using this
    dsimp only
    constructor
    · intro hnone
      refine ⟨hfree, ?_⟩
      intro id hlt hid
      have hle := IDPool.newId_le 3 hlt hid
      split at hnone
      · rename_i hex
        simp only [IDPool.exhausted, hmax'] at hex
        have := of_decide_eq_true hex
        omega
      · cases hnone
    · rintro ⟨-, hbeyond⟩
      have hex : (IDPool.newId (tcCondition tc) 3 p).2.exhausted
          (IDPool.newId (tcCondition tc) 3 p).1 = true := by
        simp only [IDPool.exhausted, hmax']
        exact decide_eq_true ⟨by decide, hbeyond _ hgt hmeets⟩
      rw [if_pos hex]
  · have hid : id ∈ p.idsFree.filter (tcCondition tc) := hfilter ▸ List.mem_cons_self ..
    obtain ⟨hin, hc⟩ := List.mem_filter.mp hid
    refine iff_of_false (by simp) fun h => ?_
    rw [h.1 id hin] at hc
    cases hc

/-- The pool is in order and has the bound that the manager gave it. -/
def PoolSound (s : State) : Prop := s.ikernelIds.WellFormed ∧ s.ikernelIds.maxId = some 1024

theorem stable_poolSound : Stable PoolSound where
  hw _ _ h := h
  registerFlow _ _ _ _ _ h := h
  unregisterFlow s flow h := by
    unfold State.unregisterFlow
    split <;> exact h
  flowsOf _ _ h := h
  customRingIds _ _ h := h
  registerRing _ _ _ h := h
  releaseRing s ring h := by
    unfold State.releaseRing
    split
    · split <;> exact h
    · exact h
  customRingsOf _ _ h := h
  conns _ _ h := h
  caller _ _ h := h
  connections _ _ h := h
  running _ _ h := h
  freeList _ _ h := h
  releaseId s id h := by
    refine ⟨IDPool.wellFormed_releaseId h.1 id, ?_⟩
    show (s.ikernelIds.releaseId id).maxId = _
    unfold IDPool.releaseId
    split <;> exact h.2
  countRelease _ _ h := h
  markDestroyed _ _ h := h
  erase _ _ h := h
  rehash s order h := ⟨IDPool.wellFormed_perm h.1 (reorder_perm _ _), h.2⟩

/-- A creation keeps the pool in order, whether it returns or raises. -/
theorem poolSound_ikCreate (h : PoolSound s) :
    Post (ikCreate uuid log tc) s (fun _ => PoolSound) (fun _ => PoolSound) := by
  have hpool : PoolSound { s with ikernelIds := (s.ikernelIds.getId 3 (tcCondition tc)).2 } :=
    ⟨(IDPool.getId_cases (tcCondition tc) 3 h.1).1, (maxId_getId _ _ _).trans h.2⟩
  unfold ikCreate
  simp only [post_bind, post_get]
  refine (post_allocateIkernel s s.objects uuid log tc).imp ?_ ?_
  · intro k s' hk
    obtain ⟨l, os, -, rfl⟩ := hk.state
    exact hpool
  · rintro _ s' (rfl | ⟨-, l, os, mappings, accesses, -, rfl, -⟩)
    · exact h
    · exact hpool

theorem poolSound_run (cfg : Config) (acts : List Action) : PoolSound (runFrom (init cfg) acts) := by
  refine run_invariant (fun s a hs => stable_step stable_poolSound a hs ?_ ?_) acts _
    ⟨IDPool.wellFormed_init _ _, rfl⟩
  · intro c req hw netdev uuid log _ _ _ _ hs'
    exact poolSound_ikCreate hs'
  · intro c uuid log hw _ _ hs'
    exact poolSound_ikCreate hs'

/-! ### The result -/

/-- In every reachable state, a failed creation leaves the ids, the memory and the registry as they were
exactly if the UUID is unknown, or the pool has no id, or nothing can fail after the id was taken. -/
theorem atomic_iff (cfg : Config) (acts : List Action) (c : ℕ) (hw : List Outcome) (uuid : Uuid) (log : ℕ)
    (tc : Option (Fin 3)) :
    Atomic ((runFrom (init cfg) acts).enter c hw) uuid log tc ↔
      uuid ∉ (runFrom (init cfg) acts).uuids ∨ PoolExhausted (runFrom (init cfg) acts).ikernelIds tc ∨
        Completes ((runFrom (init cfg) acts).enter c hw) uuid log := by
  have hsound := poolSound_run cfg acts
  obtain ⟨s, hs, hpool⟩ : ∃ s, (runFrom (init cfg) acts).enter c hw = s ∧ PoolSound s :=
    ⟨_, rfl, hsound⟩
  rw [show (runFrom (init cfg) acts).uuids = s.uuids by rw [← hs]; rfl,
    show (runFrom (init cfg) acts).ikernelIds = s.ikernelIds by rw [← hs]; rfl, hs,
    ← getId_eq_none_iff hpool.2]
  obtain ⟨-, hcases⟩ := IDPool.getId_cases (tcCondition tc) 3 hpool.1
  by_cases hmem : uuid ∈ s.uuids
  swap
  · refine iff_of_true (fun e s' hex => ?_) (.inl hmem)
    have hpost := post_ikCreate_unknown log tc hmem
    rw [Post, hex] at hpost
    cases hpost
    exact ⟨rfl, rfl, rfl⟩
  rcases hcases with ⟨hnone, huse⟩ | ⟨id, hsome, hnot, huse⟩
  · refine iff_of_true (fun e s' hex => ?_) (.inr (.inl hnone))
    have hpost := post_ikCreate_noId log hmem hnone
    rw [Post, hex] at hpost
    cases hpost
    exact ⟨by rw [huse], rfl, rfl⟩
  · have hpost := post_ikCreate_known log hmem hsome
    simp only [hmem, hsome, not_true_eq_false, reduceCtorEq, false_or]
    constructor
    · intro hatomic
      by_contra hfail
      rcases hex : exec (ikCreate uuid log tc) s with ⟨e | r, s'⟩
      · rw [Post, hex] at hpost
        have hin : id ∈ s'.ikernelIds.idsInUse.toFinset := by
          rw [hpost.2, huse]
          exact List.mem_toFinset.mpr List.mem_insert_self
        rw [(hatomic e s' hex).1] at hin
        exact hnot (List.mem_toFinset.mp hin)
      · rw [Post, hex] at hpost
        exact hfail hpost
    · intro hcompletes e s' hex
      rw [Post, hex] at hpost
      exact absurd hcompletes hpost.1

/-- A client asks for more memory than there is. -/
theorem not_atomic_outOfMemory :
    ¬ Atomic ((runFrom (init exampleConfig) [.connect .client]).enter 0 [])
      0x2b49fec3d30c464da6a1171f9e4443f1 32 none := by
  intro h
  have hex := h (exception .ENOMEM) _ (Prod.ext rfl rfl)
  exact absurd hex.1 (by decide +kernel)

end Nica.Manager
