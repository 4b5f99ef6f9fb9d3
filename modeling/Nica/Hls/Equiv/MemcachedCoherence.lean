import Nica.Hls.Equiv.MemcachedServer

/-!
# When the cache of the memcached ikernel is coherent

A value is fresh for a key up to packet `n` if the servers hold it after the packets passed on among the first
`g`, for some `g`, and none of the packets from `g` to `n` changes the key.  The ikernel erases a key when it
takes up a `set` of it and inserts the values of the responses, so everything that is cached stays fresh as
long as no request changes a key while a `get` of the same key is on its way (`Quiet`): the response to that
`get` is inserted after the erasure.  A command that changes a key in another way is not recognised, so it
must not find the key in the cache.

* `coherenceInv_step`: every call and every execution keeps the values fresh;
* `coherent_run`: in every run in which the requests are `Quiet`, a hit returns a fresh value.
-/

namespace Nica.Hls.Memcached

open Nica.Lib

variable {z : Sizes}

/-! ### What the cache holds -/

/-- What a `find` of a key finds after some operations. -/
def cachedAfter (logSize : ℕ → ℕ) (start : BitVec 64 → BitVec 512) (ops : List (CacheOp z)) (id : ℕ)
    (key : Key z) : Option (Value z) :=
  Cache.findResult key ((replay start (ops.map (CacheOp.command logSize))).1 (h key (logSize id) id))

/-- What a `find` of a key finds when it is posted now. -/
def State.cached (s : State z) (id : BitVec 6) (key : Key z) : Option (Value z) :=
  Cache.findResult key ((replay s.cache.cache.memory.cells s.cache.cache.memory.commands.queue).1
    (h key (s.logSize id) id.toNat))

section Cached

variable {logSize : ℕ → ℕ} {start : BitVec 64 → BitVec 512} {ops : List (CacheOp z)} {id id' : ℕ}
  {key key' : Key z} {v v' : Value z}

/-- A cell that is written is found under the key of its entry, if it is valid. -/
theorem cachedAfter_write {op : CacheOp z} {e : Entry z} (hid : id < 1024) (hid' : id' < 1024)
    (hop : op.command logSize = .write (h key' (logSize id') id') e.pack)
    (hfind : cachedAfter logSize start (ops ++ [op]) id key = some v) :
    (id' = id ∧ e.valid = true ∧ e.key = key ∧ e.value = v) ∨
      (¬ (id' = id ∧ key' = key) ∧ cachedAfter logSize start ops id key = some v) := by
  unfold cachedAfter at hfind
  rw [List.map_append, List.map_singleton, replay_append, hop] at hfind
  have hcells : Cache.findResult key (Function.update (replay start (ops.map (CacheOp.command logSize))).1
      (h key' (logSize id') id') e.pack (h key (logSize id) id)) = some v := hfind
  by_cases hindex : h key (logSize id) id = h key' (logSize id') id'
  · left
    rw [hindex, Function.update_self, findResult_pack] at hcells
    split at hcells
    · rename_i hvalid
      exact ⟨(h_id hid hid' hindex).symm, hvalid.1, hvalid.2, Option.some.inj hcells⟩
    · cases hcells
  · right
    rw [Function.update_of_ne hindex] at hcells
    exact ⟨fun hsame => hindex (by rw [hsame.1, hsame.2]), hcells⟩

theorem cachedAfter_insert (hid : id < 1024) (hid' : id' < 1024)
    (hfind : cachedAfter logSize start (ops ++ [.insert id' key' v']) id key = some v) :
    (id' = id ∧ key' = key ∧ v' = v) ∨ cachedAfter logSize start ops id key = some v := by
  rcases cachedAfter_write hid hid' rfl hfind with ⟨hsame, -, hkey, hvalue⟩ | ⟨-, hold⟩
  · exact .inl ⟨hsame, hkey, hvalue⟩
  · exact .inr hold

theorem cachedAfter_erase (hid : id < 1024) (hid' : id' < 1024)
    (hfind : cachedAfter logSize start (ops ++ [.erase id' key']) id key = some v) :
    ¬ (id' = id ∧ key' = key) ∧ cachedAfter logSize start ops id key = some v := by
  rcases cachedAfter_write hid hid' rfl hfind with ⟨-, hvalid, -⟩ | hold
  · cases hvalid
  · exact hold

/-- The operations after the access of a request. -/
def ParsedRequest.opsAfter (r : ParsedRequest z) (ops : List (CacheOp z)) : List (CacheOp z) :=
  match r.type with
  | .GET => ops ++ [.find r.metadata.ikernelId.toNat r.key]
  | .SET => ops ++ [.erase r.metadata.ikernelId.toNat r.key]
  | .OTHER => ops

theorem ops_access (r : ParsedRequest z) (k : CacheRun z) :
    ((r.access.map (k.step logSize)).getD k).ops = r.opsAfter k.ops := by
  unfold ParsedRequest.access ParsedRequest.opsAfter
  cases r.type <;> rfl

/-- What is found after the access of a request was there before, and was not erased by it. -/
theorem cachedAfter_access {id : BitVec 6} {r : ParsedRequest z}
    (hfind : cachedAfter logSize start (r.opsAfter ops) id.toNat key = some v) :
    cachedAfter logSize start ops id.toNat key = some v ∧
      ¬ (r.type = .SET ∧ r.metadata.ikernelId = id ∧ r.key = key) := by
  have hid : id.toNat < 1024 := by omega
  have hid' : r.metadata.ikernelId.toNat < 1024 := by omega
  unfold ParsedRequest.opsAfter at hfind
  cases htype : r.type with
  | GET =>
    rw [htype] at hfind
    unfold cachedAfter at hfind
    rw [List.map_append, replay_append] at hfind
    exact ⟨hfind, by simp⟩
  | SET =>
    rw [htype] at hfind
    obtain ⟨hne, hold⟩ := cachedAfter_erase hid hid' hfind
    refine ⟨hold, fun hsame => hne ⟨?_, hsame.2.2⟩⟩
    rw [hsame.2.1]
  | OTHER =>
    rw [htype] at hfind
    exact ⟨hfind, by simp⟩

/-- The commands that wait are part of what a `find` sees. -/
theorem cached_eq {s : State z} {table : BitVec 6 → ℕ} (hlog : s.logSize = table)
    (hcache : CacheInv (fun id => table (BitVec.ofNat 6 id)) start s.cache) (id : BitVec 6) (key : Key z) :
    s.cached id key = cachedAfter (fun id => table (BitVec.ofNat 6 id)) start s.cache.ops id.toNat key := by
  have hserved := hcache.served
  unfold Memory.Served at hserved
  have hreplay : (replay s.cache.cache.memory.cells s.cache.cache.memory.commands.queue).1 =
      (replay start (s.cache.cache.memory.commands.past ++ s.cache.cache.memory.commands.queue)).1 := by
    rw [replay_append, hserved]
  have hsent : s.cache.cache.memory.commands.past ++ s.cache.cache.memory.commands.queue =
      s.cache.ops.map (CacheOp.command (fun id => table (BitVec.ofNat 6 id))) := hcache.commands
  unfold State.cached cachedAfter
  rw [hreplay, hsent, hlog]
  simp only [BitVec.ofNat_toNat, BitVec.setWidth_eq]

end Cached

/-! ### Fresh values -/

/-- The packet is a `get` of a key. -/
def NetPacket.Asks (P : Protocol z) (p : NetPacket) (id : BitVec 6) (key : Key z) : Prop :=
  p.metadata.ikernelId = id ∧ (P.decode p.beats).gotKey = some key

/-- The packet changes the value of a key. -/
def NetPacket.Mutates (P : Protocol z) (p : NetPacket) (id : BitVec 6) (key : Key z) : Prop :=
  p.metadata.ikernelId = id ∧ (P.decode p.beats).mutatedKey = some key

instance (P : Protocol z) (p : NetPacket) (id : BitVec 6) (key : Key z) : Decidable (p.Asks P id key) :=
  inferInstanceAs (Decidable (_ ∧ _))

instance (P : Protocol z) (p : NetPacket) (id : BitVec 6) (key : Key z) : Decidable (p.Mutates P id key) :=
  inferInstanceAs (Decidable (_ ∧ _))

theorem Command.eq_get {c : Command z} {key : Key z} (h : c.gotKey = some key) : c = .get key := by
  cases c with
  | get key' =>
    cases h
    rfl
  | set key' value => cases h
  | update key' f => cases h
  | other => cases h

/-- A `get` changes nothing. -/
theorem NetPacket.Asks.not_mutates {P : Protocol z} {p : NetPacket} {id : BitVec 6} {key : Key z}
    (h : p.Asks P id key) : ¬ p.Mutates P id key := by
  obtain ⟨-, hget⟩ := h
  rintro ⟨-, hset⟩
  rw [Command.eq_get hget] at hset
  cases hset

/-- No packet from `g` to `n` changes the value of a key. -/
def Unchanged (P : Protocol z) (packets : List NetPacket) (id : BitVec 6) (key : Key z) (g n : ℕ) : Prop :=
  ∀ j p, g ≤ j → j < n → packets[j]? = some p → ¬ p.Mutates P id key

/-- The servers hold the value `v` after the packets passed on among the first `g`, and no packet from `g` to
`n` changes the key. -/
def Fresh (P : Protocol z) (store : BitVec 6 → Key z → Option (Value z)) (packets : List NetPacket)
    (resolutions : List Resolution) (id : BitVec 6) (key : Key z) (v : Value z) (n : ℕ) : Prop :=
  ∃ g ≤ resolutions.length,
    P.executeAll store (passed ((routed packets resolutions).take g)) id key = some v ∧
    Unchanged P packets id key g n

section Fresh

variable {P : Protocol z} {store : BitVec 6 → Key z → Option (Value z)} {packets : List NetPacket}
  {resolutions : List Resolution} {id : BitVec 6} {key : Key z} {v : Value z} {g n : ℕ} {p : NetPacket}

theorem Unchanged.succ (h : Unchanged P packets id key g n)
    (hp : packets[n]? = some p) (hne : ¬ p.Mutates P id key) : Unchanged P packets id key g (n + 1) := by
  intro j q hg hj hq
  rcases Nat.lt_succ_iff_lt_or_eq.mp hj with hj | rfl
  · exact h j q hg hj hq
  · rw [hp] at hq
    cases hq
    exact hne

theorem Fresh.succ (h : Fresh P store packets resolutions id key v n) (hp : packets[n]? = some p)
    (hne : ¬ p.Mutates P id key) : Fresh P store packets resolutions id key v (n + 1) := by
  obtain ⟨g, hg, hvalue, hsame⟩ := h
  exact ⟨g, hg, hvalue, hsame.succ hp hne⟩

theorem take_routed_snoc (hp : packets[resolutions.length]? = some p) (r : Resolution)
    (hg : g ≤ resolutions.length) :
    (routed packets (resolutions ++ [r])).take g = (routed packets resolutions).take g := by
  have hle := (List.getElem?_eq_some_iff.mp hp).1.le
  rw [routed_snoc hp, List.take_append_of_le_length]
  rw [List.length_zip, Nat.min_eq_right hle]
  exact hg

/-- More resolutions may become known. -/
theorem Fresh.extend (h : Fresh P store packets resolutions id key v n)
    (hp : packets[resolutions.length]? = some p) (r : Resolution) :
    Fresh P store packets (resolutions ++ [r]) id key v n := by
  obtain ⟨g, hg, hvalue, hsame⟩ := h
  refine ⟨g, ?_, ?_, hsame⟩
  · rw [List.length_append]
    omega
  · rw [take_routed_snoc hp r hg]
    exact hvalue

end Fresh

/-! ### What is on its way -/

namespace Server

/-- The number of requests that `handle_parsed_packet` has taken up. -/
def handled (s : Server z) : ℕ := s.ikernel.reqPrs2mem.past.length

/-- The packets that were taken up and not answered: those passed on that no server has executed, and those
that are not resolved yet. -/
def unanswered (packets : List NetPacket) (s : Server z) : List NetPacket :=
  ((passed (routed packets s.ikernel.resolutions)).drop s.answers.length).map (·.1) ++
    (packets.take s.handled).drop s.ikernel.resolutions.length

/-- The pairs of the answers that are not inserted yet. -/
def pending (s : Server z) : List (KeyValuePair z) :=
  (s.answers.filterMap Answer.pair).drop s.ikernel.kvPairs.past.length

/-- No `get` of a key is on its way. -/
def Idle (P : Protocol z) (packets : List NetPacket) (s : Server z) (id : BitVec 6) (key : Key z) : Prop :=
  (∀ p ∈ s.unanswered packets, ¬ p.Asks P id key) ∧
    ∀ kv ∈ s.pending, ¬ (kv.ikernelId = id ∧ kv.key = key)

instance (P : Protocol z) (packets : List NetPacket) (s : Server z) (id : BitVec 6) (key : Key z) :
    Decidable (s.Idle P packets id key) := inferInstanceAs (Decidable (_ ∧ _))

/-- No `get` of the key that a packet changes is on its way, and unless the packet is a `SET` of the key for
the ikernel too, the key is not cached. -/
def QuietPacket (P : Protocol z) (packets : List NetPacket) (s : Server z) (r : ParsedRequest z)
    (p : NetPacket) : Prop :=
  ∀ key ∈ (P.decode p.beats).mutatedKey,
    s.Idle P packets p.metadata.ikernelId key ∧
      (r.type = .SET ∧ r.key = key ∨ s.ikernel.cached p.metadata.ikernelId key = none)

/-- A request that is taken up is quiet. -/
def QuietOp (P : Protocol z) (packets : List NetPacket) (s : Server z) : HandleOp z → Prop
  | .request r => ∀ p ∈ packets[s.handled]?, s.QuietPacket P packets r p
  | _ => True

/-- The call takes up no request that interferes with a `get` or with the cache. -/
def Quiet (P : Protocol z) (packets : List NetPacket) (s : Server z) : ServerAct → Prop
  | .ikernel (.handleParsedPacket i) =>
    s.QuietOp P packets (Memcached.handleParsedPacket i s.ikernel.kvPairs.head s.ikernel.reqPrs2mem.head)
  | _ => True

/-- The packet was taken up, and it is not resolved or passed on and not executed. -/
def Waits (packets : List NetPacket) (s : Server z) (j : ℕ) : Prop :=
  j < s.handled ∧ ∀ r, s.ikernel.resolutions[j]? = some r →
    r.passes = true ∧ s.answers.length ≤ (passed ((routed packets s.ikernel.resolutions).take j)).length

theorem Waits.mem_unanswered {packets : List NetPacket} {s : Server z} {j : ℕ} {p : NetPacket}
    (h : s.Waits packets j) (hp : packets[j]? = some p) : p ∈ s.unanswered packets := by
  obtain ⟨hj, hopen⟩ := h
  unfold unanswered
  rw [List.mem_append]
  cases hr : s.ikernel.resolutions[j]? with
  | none =>
    right
    have hle := List.getElem?_eq_none_iff.mp hr
    apply List.mem_of_getElem? (i := j - s.ikernel.resolutions.length)
    rw [List.getElem?_drop, Nat.add_sub_cancel' hle, List.getElem?_take_of_lt hj]
    exact hp
  | some r =>
    left
    obtain ⟨hpass, hle⟩ := hopen r hr
    have hx : (routed packets s.ikernel.resolutions)[j]? = some (p, r) := List.getElem?_zip_eq_some.mpr ⟨hp, hr⟩
    have hat := passed_getElem?_length hx hpass
    refine List.mem_map.mpr ⟨(p, r), ?_, rfl⟩
    apply List.mem_of_getElem? (i := (passed ((routed packets s.ikernel.resolutions).take j)).length -
      s.answers.length)
    rw [List.getElem?_drop, Nat.add_sub_cancel' hle]
    exact hat

end Server

/-! ### The invariant -/

/-- A packet that the ikernel takes for a `GET` has its `find` among the operations, and what it finds is
fresh up to the packet. -/
def FindsFresh (P : Protocol z) (start : BitVec 64 → BitVec 512) (logSize : BitVec 6 → ℕ)
    (store : BitVec 6 → Key z → Option (Value z)) (packets : List NetPacket) (resolutions : List Resolution)
    (ops : List (CacheOp z)) (i : ℕ) (p : NetPacket) : Prop :=
  ∃ before after,
    ops = before ++ .find p.metadata.ikernelId.toNat (p.request z).key :: after ∧
    findCount before = getCount z packets i ∧
    ∀ v, cachedAfter (fun id => logSize (BitVec.ofNat 6 id)) start before p.metadata.ikernelId.toNat
        (p.request z).key = some v →
      Fresh P store packets resolutions p.metadata.ikernelId (p.request z).key v i

/-- The values in the cache and on their way to it are fresh, and the key of a `get` that waits has not
changed since it was taken up. -/
structure CoherenceInv (P : Protocol z) (start : BitVec 64 → BitVec 512) (logSize : BitVec 6 → ℕ)
    (store : BitVec 6 → Key z → Option (Value z)) (packets : List NetPacket) (s : Server z) : Prop where
  cached : ∀ id key v,
    cachedAfter (fun id => logSize (BitVec.ofNat 6 id)) start s.ikernel.cache.ops id.toNat key = some v →
    Fresh P store packets s.ikernel.resolutions id key v s.handled
  pending : ∀ kv ∈ s.pending, Fresh P store packets s.ikernel.resolutions kv.ikernelId kv.key kv.value s.handled
  waiting : ∀ j p id key, packets[j]? = some p → p.Asks P id key → s.Waits packets j →
    Unchanged P packets id key j s.handled
  finds : ∀ i p, i < s.handled → packets[i]? = some p → (p.request z).type = .GET →
    FindsFresh P start logSize store packets s.ikernel.resolutions s.ikernel.cache.ops i p

section Coherence

variable {setData : List Byte → AxiData} {P : Protocol z} {start : BitVec 64 → BitVec 512}
  {logSize : BitVec 6 → ℕ} {store : BitVec 6 → Key z → Option (Value z)} {packets : List NetPacket}
  {s : Server z}

/-- Only packets that were taken up are judged. -/
theorem ServerInv.fates_le (h : ServerInv setData P start logSize store packets s) :
    s.ikernel.fates.length ≤ s.handled := by
  have hread : s.ikernel.fates.length ≤ s.ikernel.reqMem2mem.past.length := by
    rw [h.net.memory.read, List.length_append, List.length_map, List.length_take,
      Nat.min_eq_left h.net.memory.le]
    exact Nat.le_add_right _ _
  have hwritten := (Fifo.past_prefix_sent s.ikernel.reqMem2mem).length_le
  rw [h.net.handle.mem2mem_eq] at hwritten
  exact hread.trans hwritten

theorem ServerInv.resolutions_le (h : ServerInv setData P start logSize store packets s) :
    s.ikernel.resolutions.length ≤ s.handled := h.net.action.le.trans h.fates_le

theorem FindsFresh.snoc {resolutions : List Resolution} {ops : List (CacheOp z)} {i : ℕ} {p : NetPacket}
    (h : FindsFresh P start logSize store packets resolutions ops i p) (op : CacheOp z) :
    FindsFresh P start logSize store packets resolutions (ops ++ [op]) i p := by
  obtain ⟨before, after, hops, hcount, hfresh⟩ := h
  exact ⟨before, after ++ [op], by rw [hops, List.append_assoc]; rfl, hcount, hfresh⟩

theorem FindsFresh.opsAfter {resolutions : List Resolution} {ops : List (CacheOp z)} {i : ℕ} {p : NetPacket}
    (h : FindsFresh P start logSize store packets resolutions ops i p) (r : ParsedRequest z) :
    FindsFresh P start logSize store packets resolutions (r.opsAfter ops) i p := by
  unfold ParsedRequest.opsAfter
  cases r.type with
  | GET => exact h.snoc _
  | SET => exact h.snoc _
  | OTHER => exact h

theorem FindsFresh.extend {resolutions : List Resolution} {ops : List (CacheOp z)} {i : ℕ} {p q : NetPacket}
    (h : FindsFresh P start logSize store packets resolutions ops i p)
    (hq : packets[resolutions.length]? = some q) (r : Resolution) :
    FindsFresh P start logSize store packets (resolutions ++ [r]) ops i p := by
  obtain ⟨before, after, hops, hcount, hfresh⟩ := h
  exact ⟨before, after, hops, hcount, fun v hv => (hfresh v hv).extend hq r⟩

theorem coherenceInv_init (hstart : ∀ i, (start i).getLsbD 511 = false) (ringId : BitVec 6 → RingId) :
    CoherenceInv P start logSize store packets (.init start logSize ringId store packets) where
  cached := by
    intro id key v hfind
    have hinvalid : Cache.findResult key (start (h key (logSize (BitVec.ofNat 6 id.toNat)) id.toNat)) =
      some v := hfind
    simp only [Cache.findResult, Entry.unpack, hstart, Bool.false_eq_true, false_and, if_false] at hinvalid
    cases hinvalid
  pending := by
    intro kv hkv
    cases hkv
  waiting := by
    intro j p id key _ _ hwaits
    cases hwaits.1
  finds := by
    intro i p hi
    cases hi

namespace CoherenceInv

/-- A pair is inserted: it was fresh. -/
theorem insert (h : CoherenceInv P start logSize store packets s) {kv : KeyValuePair z}
    (hinv : ServerInv setData P start logSize store packets s) (hkv : s.ikernel.kvPairs.head = some kv)
    {k : CacheRun z} (hops : k.ops = s.ikernel.cache.ops ++ [.insert kv.ikernelId.toNat kv.key kv.value]) :
    CoherenceInv P start logSize store packets
      { s with ikernel := { s.ikernel with kvPairs := s.ikernel.kvPairs.pop, cache := k } } := by
  obtain ⟨q, hq⟩ := Fifo.queue_eq_of_head _ hkv
  -- the pair at the head of the stream is the first one that is pending
  have hpending : s.pending = kv :: s.pending.tail := by
    obtain ⟨rest, hrest⟩ := (s.ikernel.kvPairs.past_snoc_prefix_sent hkv).trans hinv.kvPairs_isPrefix
    unfold Server.pending
    rw [← hrest, List.append_assoc, List.drop_left]
    rfl
  have hfresh := h.pending kv (by rw [hpending]; exact List.mem_cons_self ..)
  refine { h with cached := ?_, pending := ?_, finds := ?_ }
  · intro id key v hfind
    rw [hops] at hfind
    rcases cachedAfter_insert (by omega) (by omega) hfind with ⟨hid, rfl, rfl⟩ | hold
    · rw [← BitVec.eq_of_toNat_eq hid]
      exact hfresh
    · exact h.cached id key v hold
  · intro kv' hkv'
    apply h.pending
    unfold Server.pending at hkv' ⊢
    rw [Fifo.past_pop _ hq, List.length_append, ← List.drop_drop] at hkv'
    exact List.mem_of_mem_drop hkv'
  · intro i p hi hp hget
    rw [hops]
    exact (h.finds i p hi hp hget).snoc _

/-- A request is taken up that changes no key on its way. -/
theorem request (h : CoherenceInv P start logSize store packets s)
    (hinv : ServerInv setData P start logSize store packets s) {r : ParsedRequest z}
    (hr : s.ikernel.reqPrs2mem.head = some r)
    (hquiet : s.QuietOp P packets (.request r)) {k : CacheRun z} (hops : k.ops = r.opsAfter s.ikernel.cache.ops) :
    CoherenceInv P start logSize store packets
      { s with ikernel := { s.ikernel with
          reqPrs2mem := s.ikernel.reqPrs2mem.pop
          cache := k
          reqMem2mem := s.ikernel.reqMem2mem.write r } } := by
  obtain ⟨q, hq⟩ := Fifo.queue_eq_of_head _ hr
  obtain ⟨p, hp, rfl⟩ :=
    exists_item ((s.ikernel.reqPrs2mem.past_snoc_prefix_sent hr).trans hinv.net.requests_prefix)
  have hlen : s.ikernel.reqPrs2mem.pop.past.length = s.handled + 1 := by
    rw [Fifo.past_pop _ hq, List.length_append]
    rfl
  have hp : packets[s.handled]? = some p := hp
  have hquiet : ∀ {id key}, p.Mutates P id key → s.Idle P packets id key ∧
      ((p.request z).type = .SET ∧ (p.request z).key = key ∨ s.ikernel.cached id key = none) := by
    rintro id key ⟨rfl, hkey⟩
    exact hquiet p hp key hkey
  -- what is found now and changes with the packet would have been erased
  have hcached : ∀ id key v, cachedAfter (fun id => logSize (BitVec.ofNat 6 id)) start k.ops id.toNat key =
      some v → Fresh P store packets s.ikernel.resolutions id key v (s.handled + 1) := by
    intro id key v hfind
    rw [hops] at hfind
    obtain ⟨hold, hkept⟩ := cachedAfter_access hfind
    refine (h.cached id key v hold).succ hp fun hmut => ?_
    rcases (hquiet hmut).2 with ⟨hset, hkey⟩ | hnone
    · exact hkept ⟨hset, hmut.1, hkey⟩
    · rw [cached_eq hinv.logSize_eq hinv.cache, hold] at hnone
      cases hnone
  constructor
  · intro id key v hfind
    show Fresh _ _ _ _ _ _ _ s.ikernel.reqPrs2mem.pop.past.length
    rw [hlen]
    exact hcached id key v hfind
  · intro kv hkv
    show Fresh _ _ _ _ _ _ _ s.ikernel.reqPrs2mem.pop.past.length
    rw [hlen]
    have hkv : kv ∈ s.pending := hkv
    exact (h.pending kv hkv).succ hp fun hmut => (hquiet hmut).1.2 kv hkv ⟨rfl, rfl⟩
  · intro j q id key hq hasks hwaits
    show Unchanged _ _ _ _ _ s.ikernel.reqPrs2mem.pop.past.length
    have hj : j < s.handled + 1 := hlen ▸ hwaits.1
    rw [hlen]
    rcases Nat.lt_succ_iff_lt_or_eq.mp hj with hj | rfl
    · have hwaits : s.Waits packets j := ⟨hj, hwaits.2⟩
      exact (h.waiting j q id key hq hasks hwaits).succ hp fun hmut =>
        (hquiet hmut).1.1 q (hwaits.mem_unanswered hq) hasks
    · -- the packet itself is a `get`
      intro j' q' hg hj' hq'
      obtain rfl : j' = s.handled := by omega
      rw [hq] at hq'
      cases hq'
      exact hasks.not_mutates
  · intro i q hi hq hget
    show FindsFresh _ _ _ _ _ _ k.ops _ _
    have hi : i < s.handled + 1 := hlen ▸ hi
    rw [hops]
    rcases Nat.lt_succ_iff_lt_or_eq.mp hi with hi | rfl
    · exact (h.finds i q hi hq hget).opsAfter _
    · rw [hp] at hq
      cases hq
      refine ⟨s.ikernel.cache.ops, [], ?_, ?_, ?_⟩
      · unfold ParsedRequest.opsAfter
        rw [hget]
        rfl
      · -- the `find`s so far are those of the requests taken up
        have htake : s.ikernel.reqPrs2mem.past = (packets.take s.handled).map (NetPacket.request z) := by
          have hle := (Fifo.past_prefix_sent s.ikernel.reqPrs2mem).trans hinv.net.requests_prefix
          rw [List.map_take]
          exact List.prefix_iff_eq_take.mp hle
        unfold findCount getCount
        rw [← hinv.cache.outstanding, hinv.net.handle.outstanding_eq, htake]
      · intro v hv
        exact h.cached _ _ v hv

theorem handleParsedPacket (h : CoherenceInv P start logSize store packets s)
    (hinv : ServerInv setData P start logSize store packets s) (i : HandleIn)
    (hquiet : s.Quiet P packets (.ikernel (.handleParsedPacket i))) :
    CoherenceInv P start logSize store packets
      { s with ikernel := s.ikernel.handleParsedPacket { i with write := none } } := by
  have hsame : Memcached.handleParsedPacket { i with write := none } s.ikernel.kvPairs.head
      s.ikernel.reqPrs2mem.head =
      Memcached.handleParsedPacket i s.ikernel.kvPairs.head s.ikernel.reqPrs2mem.head := rfl
  have hquiet : s.QuietOp P packets
      (Memcached.handleParsedPacket i s.ikernel.kvPairs.head s.ikernel.reqPrs2mem.head) := hquiet
  unfold State.handleParsedPacket
  rw [hsame]
  cases hop : Memcached.handleParsedPacket i s.ikernel.kvPairs.head s.ikernel.reqPrs2mem.head with
  | none => exact { h with }
  | insert kv => exact h.insert hinv (handleParsedPacket_insert hop) rfl
  | request r =>
    rw [hop] at hquiet
    exact h.request hinv (handleParsedPacket_request hop).2 hquiet (ops_access r _)

theorem actionResolution (h : CoherenceInv P start logSize store packets s)
    (hinv : ServerInv setData P start logSize store packets s) (i : ActionIn) :
    CoherenceInv P start logSize store packets { s with ikernel := s.ikernel.actionResolution i } := by
  unfold State.actionResolution
  cases hcall : Memcached.actionResolution i s.ikernel.ringId s.ikernel.bufferMetadata.head
      s.ikernel.actionStream.head with
  | none => exact { h with }
  | some x =>
    obtain ⟨m, r⟩ := x
    obtain ⟨p, f, hp, -⟩ := actionResolution_packet hinv.net.action hinv.net.bufferMetadata_prefix
      hinv.net.memory.actions_eq hcall
    constructor
    · intro id key v hfind
      exact (h.cached id key v hfind).extend hp r
    · intro kv hkv
      exact (h.pending kv hkv).extend hp r
    · intro j q id key hq hasks hwaits
      -- a packet that waits now was waiting before
      refine h.waiting j q id key hq hasks ⟨hwaits.1, fun r' hr' => ?_⟩
      have hj := (List.getElem?_eq_some_iff.mp hr').1
      obtain ⟨hpass, hle⟩ := hwaits.2 r' (by
        show (s.ikernel.resolutions ++ [r])[j]? = some r'
        rw [List.getElem?_append_left hj]
        exact hr')
      refine ⟨hpass, ?_⟩
      rw [← take_routed_snoc hp r hj.le]
      exact hle
    · intro n q hn hq hget
      exact (h.finds n q hn hq hget).extend hp r

/-- A packet is executed: the pair of its answer is fresh. -/
theorem execute (h : CoherenceInv P start logSize store packets s)
    (hinv : ServerInv setData P start logSize store packets s) :
    CoherenceInv P start logSize store packets (s.execute P) := by
  rcases Server.execute_cases (P := P) hinv.net with heq | ⟨⟨p, r⟩, m, hx, hid, heq⟩
  · rw [heq]
    exact h
  · rw [heq]
    obtain ⟨j, hj, htake⟩ := passed_getElem? hx
    obtain ⟨hp, hr⟩ := List.getElem?_zip_eq_some.mp hj
    have hpass : r.passes = true := (List.mem_filter.mp (List.mem_of_getElem? hx)).2
    have hjlt : j < s.ikernel.resolutions.length := (List.getElem?_eq_some_iff.mp hr).1
    have hlen : (s.answers ++ [P.answer s.store m p]).length = s.answers.length + 1 := by simp
    refine { h with pending := ?_, waiting := ?_ }
    · intro kv hkv
      have hkv : kv ∈ ((s.answers ++ [P.answer s.store m p]).filterMap Answer.pair).drop
        s.ikernel.kvPairs.past.length := hkv
      rw [List.filterMap_append, List.drop_append, List.mem_append] at hkv
      rcases hkv with hkv | hkv
      · exact h.pending kv hkv
      · obtain ⟨a, ha, hpair⟩ := List.mem_filterMap.mp (List.mem_of_mem_drop hkv)
        obtain rfl := List.mem_singleton.mp ha
        -- the answer has a pair, so the packet is a `get` that finds its value
        unfold Answer.pair Protocol.answer at hpair
        dsimp only at hpair
        split at hpair
        · rename_i key value hc hfound
          cases hpair
          rw [hc] at hfound
          have hasks : p.Asks P p.metadata.ikernelId key := ⟨rfl, by rw [hc]; rfl⟩
          have hwaits : s.Waits packets j := by
            refine ⟨?_, fun r' hr' => ?_⟩
            · exact hjlt.trans_le hinv.resolutions_le
            · rw [hr] at hr'
              cases hr'
              refine ⟨hpass, ?_⟩
              rw [htake, List.length_take]
              exact Nat.le_min.mpr ⟨Nat.le_refl _, hinv.answers_le⟩
          refine ⟨j, hjlt.le, ?_, ?_⟩
          · show P.executeAll store (passed ((routed packets s.ikernel.resolutions).take j)) m.ikernelId key = _
            rw [htake, ← hinv.store_eq, hid]
            exact hfound
          · rw [hid]
            exact h.waiting j p _ key hp hasks hwaits
        · cases hpair
    · intro j' q id key hq hasks hwaits
      refine h.waiting j' q id key hq hasks ⟨hwaits.1, fun r' hr' => ?_⟩
      obtain ⟨hpass', hle⟩ := hwaits.2 r' hr'
      have hle : (s.answers ++ [P.answer s.store m p]).length ≤ _ := hle
      rw [hlen] at hle
      exact ⟨hpass', Nat.le_of_succ_le hle⟩

end CoherenceInv

/-- **Every call and every execution keeps the values fresh**, if a request that changes a key is quiet. -/
theorem coherenceInv_step (hinv : ServerInv setData P start logSize store packets s)
    (h : CoherenceInv P start logSize store packets s) {a : ServerAct} (hquiet : s.Quiet P packets a) :
    CoherenceInv P start logSize store packets (s.step setData P a) := by
  cases a with
  | execute => exact h.execute hinv
  | ikernel a =>
    cases a with
    | dupMetadata full => exact { h with }
    | dupData full => exact { h with }
    | parsePacket full => exact { h with }
    | handleParsedPacket i => exact h.handleParsedPacket hinv i hquiet
    | memory => exact { h with }
    | handleMemoryResponses i =>
      show CoherenceInv _ _ _ _ _ { s with ikernel := s.ikernel.handleMemoryResponses i }
      rcases s.ikernel.handleMemoryResponses_cases i with heq | ⟨r, heq⟩ | ⟨r, f, cache, hcache, heq⟩
      · rw [heq]
        exact h
      · rw [heq]
        exact { h with }
      · rw [heq]
        -- taking a result is no operation on the cache
        rcases hcache with rfl | rfl
        · exact { h with }
        · exact { h with }
    | actionResolution i => exact h.actionResolution hinv i
    | dropOrPass => exact { h with }
    | replyCachedValue m2Full d2Full => exact { h with }
    | interceptOut i => exact { h with }
    | arbitrate => exact { h with }
    | updateStats update => cases update <;> exact { h with }

/-- A `GET` that is answered from the cache gets the value that the servers hold after the packets passed on
among the first `g`, for some `g`, and no packet from there to the `GET` changes the key: every change that
the ikernel took up before the `GET` is in the value. -/
def Coherent (P : Protocol z) (store : BitVec 6 → Key z → Option (Value z)) (packets : List NetPacket)
    (s : Server z) : Prop :=
  ∀ i p key v, packets[i]? = some p → P.decode p.beats = .get key → s.ikernel.fates[i]? = some (.hit v) →
    Fresh P store packets s.ikernel.resolutions p.metadata.ikernelId key v i

theorem CoherenceInv.coherent (hP : P.Lawful) (hinv : ServerInv setData P start logSize store packets s)
    (h : CoherenceInv P start logSize store packets s) : Coherent P store packets s := by
  intro i p key v hp hget hhit
  obtain ⟨htype, rfl⟩ := request_of_get hP hget
  -- the fate of the packet is that of its own `find`
  obtain ⟨p', hp', hfate⟩ := hinv.net.memory.fates_ok i _ hhit
  rw [hp] at hp'
  cases hp'
  rcases hfate with ⟨hother, -⟩ | ⟨-, e, found, hfound, hfate⟩
  · exact absurd htype hother
  · have hvalue : found = some v := by
      unfold fate at hfate
      split at hfate
      · cases hfate
      · split at hfate
        · cases hfate
        · split at hfate
          · cases hfate
            rfl
          · cases hfate
    have hi : i < s.handled := by
      have hlt := (List.getElem?_eq_some_iff.mp hhit).1
      exact hlt.trans_le hinv.fates_le
    obtain ⟨before, after, hops, hcount, hfresh⟩ := h.finds i p hi hp htype
    rw [← hcount] at hfound
    have hcached := hinv.cache.result_eq hops hfound
    rw [hvalue] at hcached
    exact hfresh v hcached.symm

end Coherence

instance (P : Protocol z) (packets : List NetPacket) (s : Server z) (r : ParsedRequest z) :
    DecidablePred (s.QuietPacket P packets r) := fun p =>
  Option.decidableForallMem (P.decode p.beats).mutatedKey

instance (P : Protocol z) (packets : List NetPacket) (s : Server z) :
    ∀ op : HandleOp z, Decidable (s.QuietOp P packets op)
  | .request _ => inferInstanceAs (Decidable (∀ p ∈ packets[s.handled]?, _))
  | .none | .insert _ => .isTrue trivial

instance (P : Protocol z) (packets : List NetPacket) (s : Server z) :
    ∀ a : ServerAct, Decidable (s.Quiet P packets a)
  | .ikernel (.handleParsedPacket _) => inferInstanceAs (Decidable (s.QuietOp P packets _))
  | .execute | .ikernel (.dupMetadata _) | .ikernel (.dupData _) | .ikernel (.parsePacket _)
  | .ikernel .memory | .ikernel (.handleMemoryResponses _) | .ikernel (.actionResolution _)
  | .ikernel .dropOrPass | .ikernel (.replyCachedValue _ _) | .ikernel (.interceptOut _)
  | .ikernel .arbitrate | .ikernel (.updateStats _) => .isTrue trivial

/-- The beat with the bytes `f 0`, `f 1`, ... -/
def textBeat (f : ℕ → Byte) (last : Bool) : AxiData := ⟨byteArray 32 (fun j => f (31 - j)), -1, last⟩

theorem beatByte_textBeat (f : ℕ → Byte) (last : Bool) {i : ℕ} (hi : i < 32) :
    beatByte (textBeat f last) i = f i := by
  have hbyte : byteAt (byteArray 32 (fun j => f (31 - j))) (31 - i) = f (31 - (31 - i)) :=
    byteAt_byteArray _ (by omega)
  rw [Nat.sub_sub_self (by omega)] at hbyte
  exact hbyte

/-- Whether the command in a message is `s`. -/
def hasCommand (b : AxiData) (s : String) : Bool :=
  (List.range s.length).map (fun i => beatByte b (8 + i)) == ascii s

/-- `get`, `set` and `delete` with keys and values of ten bytes. -/
def textDecode : List AxiData → Command tenBytes
  | [] => .other
  | b₀ :: rest =>
    if hasCommand b₀ "get " then .get (byteArray 10 fun i => beatByte b₀ (12 + i))
    else if hasCommand b₀ "set " then
      -- `set <key> 0 0 10\r\n<value>\r\n`
      .set (byteArray 10 fun i => beatByte b₀ (12 + i))
        (byteArray 10 fun i => messageByte b₀ (rest.headD b₀) (31 + i))
    else if hasCommand b₀ "delete " then .update (byteArray 10 fun i => beatByte b₀ (15 + i)) (fun _ => none)
    else .other

/-- The bytes of `VALUE <key> 0 10\r\n<value>\r\nEND\r\n` behind the header. -/
def valueText (key : Key tenBytes) (value : Value tenBytes) (n : ℕ) : Byte :=
  if n < 14 then (List.replicate 8 0 ++ ascii "VALUE ").getD n 0
  else if n < 24 then byteAt key (n - 14)
  else if n < 31 then (ascii " 0 10\r\n").getD (n - 24) 0
  else if n < 41 then byteAt value (n - 31)
  else (ascii "\r\nEND\r\n").getD (n - 41) 0

/-- A response of one line. -/
def lineResponse (m : Metadata) (line : String) : HostPacket :=
  ⟨m, [textBeat (fun n => (List.replicate 8 0 ++ ascii line).getD n 0) true], [], _, rfl, rfl, by simp⟩

def textRespond (m : Metadata) : Command tenBytes → Option (Value tenBytes) → HostPacket
  | .get key, some value =>
    ⟨m, [textBeat (valueText key value) false, textBeat (fun n => valueText key value (32 + n)) true],
      [_], _, rfl, rfl, by simp [textBeat]⟩
  | .get _, none => lineResponse m "END\r\n"
  | .set _ _, _ => lineResponse m "STORED\r\n"
  | .update _ _, _ => lineResponse m "DELETED\r\n"
  | .other, _ => lineResponse m "ERROR\r\n"

def textProtocol : Protocol tenBytes := ⟨textDecode, textRespond⟩

theorem textProtocol_lawful : textProtocol.Lawful where
  get_letter := by
    intro beats key h
    cases beats with
    | nil => cases h
    | cons b₀ rest =>
      have h : textDecode (b₀ :: rest) = .get key := h
      simp only [textDecode] at h
      split at h
      · rename_i hget
        cases h
        refine ⟨b₀, rest, rfl, ?_, ?_⟩
        · exact (List.cons.inj (eq_of_beq hget)).1
        · intro i hi
          have hi : i < 10 := hi
          exact (byteAt_byteArray (fun i => beatByte b₀ (12 + i)) hi).symm
      · split at h
        · cases h
        · split at h <;> cases h
  respond_value := by
    intro m key value
    refine ⟨_, _, rfl, ?_, ?_, ?_⟩
    · rw [beatByte_textBeat _ _ (by decide)]
      rfl
    · intro i hi
      have hi : i < 10 := hi
      rw [beatByte_textBeat _ _ (by omega), valueText, if_neg (by omega), if_pos (by omega),
        Nat.add_sub_cancel_left]
    · intro i hi
      have hi : i < 10 := hi
      have hmessage : messageByte (textBeat (valueText key value) false)
          (textBeat (fun n => valueText key value (32 + n)) true) (31 + i) = valueText key value (31 + i) := by
        unfold messageByte
        split
        · rw [beatByte_textBeat _ _ (by omega)]
        · rw [beatByte_textBeat _ _ (by omega), Nat.add_sub_cancel' (by omega)]
      show messageByte _ _ (31 + i) = _
      rw [hmessage, valueText, if_neg (by omega), if_neg (by omega), if_neg (by omega), if_pos (by omega),
        Nat.add_sub_cancel_left]
  respond_other := by
    intro m c found h
    cases c with
    | get key =>
      rcases h with h | rfl
      · cases h
      · exact ⟨_, _, rfl, by rw [beatByte_textBeat _ _ (by decide)]; decide⟩
    | set key value => exact ⟨_, _, rfl, by rw [beatByte_textBeat _ _ (by decide)]; decide⟩
    | update key f => exact ⟨_, _, rfl, by rw [beatByte_textBeat _ _ (by decide)]; decide⟩
    | other => exact ⟨_, _, rfl, by rw [beatByte_textBeat _ _ (by decide)]; decide⟩
  respond_ikernelId := by
    intro m c found
    cases c with
    | get key => cases found <;> rfl
    | set key value => rfl
    | update key f => rfl
    | other => rfl

/-- A packet with a text of `n + 1` beats. -/
def textPacket (n : ℕ) (text : String) : NetPacket where
  metadata := { noMetadata with length := BitVec.ofNat 16 (8 + text.length) }
  beats := (List.range n).map (fun k => textBeat
      (fun i => (List.replicate 8 0 ++ ascii text).getD (32 * k + i) 0) false) ++
    [textBeat (fun i => (List.replicate 8 0 ++ ascii text).getD (32 * n + i) 0) true]
  isPacket := by
    refine ⟨_, _, rfl, rfl, ?_⟩
    intro b hb
    obtain ⟨k, -, rfl⟩ := List.mem_map.mp hb
    rfl
  ringId_eq := rfl

def getPacket : NetPacket := textPacket 0 "get aaaaaaaaaa\r\n"

def setPacket : NetPacket := textPacket 1 "set aaaaaaaaaa 0 0 10\r\n2222222222\r\n"

/-- The key of the packets. -/
def keyOfAs : Key tenBytes := byteArray 10 fun _ => 0x61

/-- A value of ones, that every key has at first, and the value of twos that is set. -/
def oldValue : Value tenBytes := byteArray 10 fun _ => 0x31

def newValue : Value tenBytes := byteArray 10 fun _ => 0x32

def ones (_ : BitVec 6) (_ : Key tenBytes) : Option (Value tenBytes) := some oldValue

/-- `handle_parsed_packet` takes up the next pair or request. -/
def takeUp : ServerAct := .ikernel (.handleParsedPacket ⟨false, none, false, false⟩)

/-- The calls that parse a packet of `n + 1` beats and take it to the cache. -/
def parseRequest (n : ℕ) : List ServerAct :=
  [.ikernel (.dupMetadata false), .ikernel (.parsePacket false)] ++
  (List.replicate (n + 1) [.ikernel (.dupData false), .ikernel (.parsePacket false)]).flatten ++
  [takeUp, .ikernel .memory, .ikernel (.handleMemoryResponses ⟨false, true, false⟩),
    .ikernel (.actionResolution ⟨false, none, true, false, false⟩)]

/-- The calls that take a packet of `n + 1` beats to its server. -/
def forwardRequest (n : ℕ) : List ServerAct :=
  parseRequest n ++ List.replicate (n + 2) (.ikernel .dropOrPass) ++ [.execute]

/-- The calls that pass a response of `n + 1` beats on. -/
def passResponse (n : ℕ) : List ServerAct :=
  List.replicate (n + 2) (.ikernel (.interceptOut ⟨false, false, false, true⟩))

/-- A `get`, a `set` and two more `get`s of the same key, each after the response to the one before it. -/
def oneByOne : List ServerAct :=
  forwardRequest 0 ++ passResponse 1 ++ [takeUp, .ikernel .memory] ++ forwardRequest 1 ++ passResponse 0 ++
  forwardRequest 0 ++ passResponse 1 ++ [takeUp, .ikernel .memory] ++ parseRequest 0

/-- A `set` is taken up while the response to a `get` of the same key is on its way. -/
def lateResponse : List ServerAct :=
  forwardRequest 0 ++ forwardRequest 1 ++ passResponse 1 ++ [takeUp, .ikernel .memory] ++ parseRequest 0

end Nica.Hls.Memcached
