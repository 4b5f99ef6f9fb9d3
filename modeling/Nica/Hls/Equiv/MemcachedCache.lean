import Nica.Hls.MemcachedCache
import Nica.Lib.Run
import Mathlib.Data.List.Basic

/-!
# The cache answers with the owner's latest value

`latest id key ops` is the meaning of the cache for one key of one ikernel: the value of the last insertion,
unless the key was erased after it.  A valid entry of the memory is one that `latest` gives (`sound_replay`):
the index of a key never changes, so every later operation on the key overwrites it, and an operation on
another key that is mapped there does too.  `CacheInv` carries this through the queues to the results.
-/

namespace Nica.Hls.Memcached

open Nica.Lib

variable {z : Sizes}

/-! ### Entries and indices -/

/-- The bits of a packed entry. -/
theorem Entry.getLsbD_pack (e : Entry z) (i : ℕ) :
    e.pack.getLsbD i =
      if i < 128 then (e.value.setWidth 128).getLsbD i
      else if i < 256 then (e.key.setWidth 128).getLsbD (i - 128)
      else if i < 511 then false
      else (BitVec.ofBool e.valid).getLsbD (i - 511) := by
  unfold pack
  rw [BitVec.getLsbD_append, BitVec.getLsbD_append, BitVec.getLsbD_append]
  by_cases h128 : i < 128
  · have h256 : i < 128 + 128 := by omega
    have h511 : i < 255 + (128 + 128) := by omega
    rw [if_pos h511, if_pos h256, if_pos h128, if_pos h128]
  · by_cases h256 : i < 256
    · have h511 : i < 255 + (128 + 128) := by omega
      rw [if_pos h511, if_pos h256, if_neg h128, if_neg h128, if_pos h256]
    · by_cases h511 : i < 511
      · rw [if_pos h511, if_neg h256, if_neg h128, if_neg h256, if_pos h511, BitVec.getLsbD_zero]
      · rw [if_neg h511, if_neg h128, if_neg h256, if_neg h511]

theorem Entry.unpack_pack (e : Entry z) : Entry.unpack e.pack = e := by
  have hkey := z.key_le
  have hvalue := z.value_le
  obtain ⟨valid, key, value⟩ := e
  unfold unpack
  congr 1
  · rw [getLsbD_pack, if_neg (by decide), if_neg (by decide), if_neg (by decide)]
    simp
  · ext i hi
    have h128 : i < 128 := by omega
    have h256 : 128 + i < 256 := by omega
    rw [BitVec.getElem_setWidth, BitVec.getLsbD_extractLsb', getLsbD_pack, if_neg (by omega), if_pos h256]
    simp [h128, hi]
  · ext i hi
    have h128 : i < 128 := by omega
    rw [BitVec.getElem_setWidth, BitVec.getLsbD_extractLsb', Nat.zero_add, getLsbD_pack, if_pos h128]
    simp [h128, hi]

/-- The id stands above the hash. -/
theorem h_extract (tag : Key z) (logSize id : ℕ) :
    (h tag logSize id).extractLsb' 25 10 = BitVec.ofNat 10 id := by
  unfold h
  ext i hi
  have h64 : 25 + i < 64 := by omega
  rw [BitVec.getElem_extractLsb', BitVec.getLsbD_setWidth, BitVec.getLsbD_append]
  simp [h64, hi]

/-- Two ikernels never share an index. -/
theorem h_id {tag tag' : Key z} {logSize logSize' id id' : ℕ} (hid : id < 1024) (hid' : id' < 1024)
    (heq : h tag logSize id = h tag' logSize' id') : id = id' := by
  have := congrArg (BitVec.toNat ∘ BitVec.extractLsb' 25 10) heq
  simp only [Function.comp, h_extract, BitVec.toNat_ofNat] at this
  omega

/-! ### The meaning of a sequence of operations -/

namespace CacheOp

def ikernelId : CacheOp z → ℕ
  | .insert id _ _ => id
  | .erase id _ => id
  | .find id _ => id

/-- The command that an operation posts. -/
def command (logSize : ℕ → ℕ) : CacheOp z → MemCommand (BitVec 64) (BitVec 512)
  | .insert id key value => .write (h key (logSize id) id) (Entry.pack ⟨true, key, value⟩)
  | .erase id key => .write (h key (logSize id) id) (Entry.pack (z := z) ⟨false, 0, 0⟩)
  | .find id key => .read (h key (logSize id) id)

/-- The key that a `find` looks for. -/
def findKey : CacheOp z → Option (Key z)
  | .find _ key => some key
  | _ => none

/-- What one operation makes of the value of a key. -/
def effect (id : ℕ) (key : Key z) (v : Option (Value z)) : CacheOp z → Option (Value z)
  | .insert id' key' value => if id' = id ∧ key' = key then some value else v
  | .erase id' key' => if id' = id ∧ key' = key then none else v
  | .find _ _ => v

end CacheOp

/-- The value of the last insertion of a key by an ikernel, unless the ikernel erased the key after it. -/
def latest (id : ℕ) (key : Key z) (ops : List (CacheOp z)) : Option (Value z) :=
  ops.foldl (CacheOp.effect id key) none

theorem latest_snoc (id : ℕ) (key : Key z) (ops : List (CacheOp z)) (op : CacheOp z) :
    latest id key (ops ++ [op]) = op.effect id key (latest id key ops) := by
  rw [latest, List.foldl_append]
  rfl

/-- Every valid entry at the index of a key, under that key, is the latest value of the key. -/
def Sound (logSize : ℕ → ℕ) (cells : BitVec 64 → BitVec 512) (ops : List (CacheOp z)) : Prop :=
  ∀ id < 1024, ∀ (key : Key z) value,
    Cache.findResult key (cells (h key (logSize id) id)) = some value → latest id key ops = some value

variable {logSize : ℕ → ℕ} {cells : BitVec 64 → BitVec 512} {ops : List (CacheOp z)}

theorem findResult_pack (key : Key z) (e : Entry z) :
    Cache.findResult key e.pack = if e.valid ∧ e.key = key then some e.value else none := by
  simp only [Cache.findResult, Entry.unpack_pack]

/-- A write to the index of `(id', key')` that finds for its key what the operation makes of it. -/
theorem Sound.write {id' : ℕ} {key' : Key z} {e : Entry z} {op : CacheOp z} (hs : Sound logSize cells ops)
    (hid' : id' < 1024)
    (hsame : e.valid = true → ∀ v, op.effect id' e.key v = some e.value)
    (hother : ∀ id key v, ¬ (id' = id ∧ key' = key) → op.effect id key v = v) :
    Sound logSize (Function.update cells (h key' (logSize id') id') e.pack) (ops ++ [op]) := by
  intro id hid key value hfind
  rw [latest_snoc]
  by_cases hindex : h key (logSize id) id = h key' (logSize id') id'
  · obtain rfl := h_id hid hid' hindex
    rw [hindex, Function.update_self, findResult_pack] at hfind
    split at hfind
    · rename_i hvalid
      cases hfind
      rw [← hvalid.2]
      exact hsame hvalid.1 _
    · cases hfind
  · rw [Function.update_of_ne hindex] at hfind
    rw [hother id key _ (fun hboth => hindex (by rw [hboth.1, hboth.2]))]
    exact hs id hid key value hfind

theorem Sound.op {op : CacheOp z} (hs : Sound logSize cells ops) (hid : op.ikernelId < 1024) :
    Sound logSize ((op.command logSize).apply cells) (ops ++ [op]) := by
  cases op with
  | insert id' key' value =>
    refine hs.write hid ?_ ?_
    · intro _ v
      exact if_pos ⟨rfl, rfl⟩
    · intro id key v hne
      exact if_neg hne
  | erase id' key' =>
    refine hs.write hid ?_ ?_
    · intro hvalid
      cases hvalid
    · intro id key v hne
      exact if_neg hne
  | find id' key' =>
    intro id hid key value hfind
    rw [latest_snoc]
    exact hs id hid key value hfind

/-- From a memory without valid entries, the operations lead to a memory that is sound. -/
theorem sound_replay {start : BitVec 64 → BitVec 512} (hstart : ∀ i, (start i).getLsbD 511 = false)
    (hids : ∀ op ∈ ops, op.ikernelId < 1024) :
    Sound logSize (replay start (ops.map (CacheOp.command logSize))).1 ops := by
  induction ops using List.reverseRecOn with
  | nil =>
    intro id hid key value hfind
    have hinvalid := hstart (h key (logSize id) id)
    simp only [Cache.findResult, Entry.unpack, List.map_nil, replay, hinvalid, Bool.false_eq_true, false_and,
      if_false] at hfind
    cases hfind
  | append_singleton ops op ih =>
    have ih := ih (fun op' hop' => hids op' (List.mem_append_left _ hop'))
    rw [List.map_append, replay_append]
    exact ih.op (hids op (by simp))

/-! ### The results -/

/-- The queues of the cache, beside the operations and the results. -/
structure CacheInv (logSize : ℕ → ℕ) (start : BitVec 64 → BitVec 512) (s : CacheRun z) : Prop where
  served : s.cache.memory.Served start
  commands : s.cache.memory.commands.sent = s.ops.map (CacheOp.command logSize)
  outstanding : s.cache.outstandingReads.sent = s.ops.filterMap CacheOp.findKey
  paired : s.cache.outstandingReads.past.length = s.cache.memory.responses.past.length
  results : s.results =
    List.zipWith Cache.findResult s.cache.outstandingReads.past s.cache.memory.responses.past

variable {start : BitVec 64 → BitVec 512} {s : CacheRun z}

theorem cacheInv_init : CacheInv logSize start (CacheRun.init start : CacheRun z) :=
  ⟨Memory.served_init, rfl, rfl, rfl, rfl⟩

/-- An operation posts its command, and a `find` its key. -/
theorem CacheInv.post (hs : CacheInv logSize start s) (op : CacheOp z) {k : Cache z}
    (hmemory : k.memory = s.cache.memory.post (op.command logSize))
    (hreads : k.outstandingReads = s.cache.outstandingReads.put op.findKey) :
    CacheInv logSize start { s with cache := k, ops := s.ops ++ [op] } := by
  constructor
  · simp only [hmemory]
    exact hs.served.post _
  · simp only [hmemory, Memory.post, Fifo.sent_write, hs.commands, List.map_append, List.map_singleton]
  · simp only [hreads, Fifo.sent_put, hs.outstanding, List.filterMap_append]
    cases op <;> rfl
  · simp only [hmemory, hreads, Fifo.past_put]
    exact hs.paired
  · simp only [hmemory, hreads, Fifo.past_put]
    exact hs.results

theorem CacheInv.getFindResult (hs : CacheInv logSize start s) :
    CacheInv logSize start (s.step logSize .getFindResult) := by
  cases hkey : s.cache.outstandingReads.head with
  | none =>
    have hstep : s.step logSize .getFindResult = s := by
      simp [CacheRun.step, Cache.getFindResult, hkey]
    rw [hstep]
    exact hs
  | some key =>
    cases hd : s.cache.memory.responses.head with
    | none =>
      have hstep : s.step logSize .getFindResult = s := by
        simp [CacheRun.step, Cache.getFindResult, hkey, hd]
      rw [hstep]
      exact hs
    | some d =>
      obtain ⟨q, hq⟩ := Fifo.queue_eq_of_head _ hkey
      obtain ⟨q', hq'⟩ := Fifo.queue_eq_of_head _ hd
      have hstep : s.step logSize .getFindResult =
          { s with
            cache := ⟨s.cache.outstandingReads.pop, s.cache.memory.getResponse⟩
            results := s.results ++ [Cache.findResult key d] } := by
        simp [CacheRun.step, Cache.getFindResult, hkey, hd]
      rw [hstep]
      constructor
      · exact hs.served.getResponse
      · exact hs.commands
      · simp only [Fifo.sent_pop]
        exact hs.outstanding
      · simp only [Memory.getResponse, Fifo.past_pop _ hq, Fifo.past_pop _ hq', List.length_append,
          hs.paired, List.length_singleton]
      · simp only [Memory.getResponse, Fifo.past_pop _ hq, Fifo.past_pop _ hq', hs.results]
        rw [List.zipWith_append hs.paired]
        rfl

theorem CacheInv.step (hs : CacheInv logSize start s) (a : CacheAction z) :
    CacheInv logSize start (s.step logSize a) := by
  cases a with
  | insert id key value => exact hs.post (.insert id key value) rfl (Fifo.put_none _).symm
  | erase id key => exact hs.post (.erase id key) rfl (Fifo.put_none _).symm
  | find full id key =>
    cases full with
    | true =>
      have hstep : s.step logSize (.find true id key) = s := by
        simp [CacheRun.step, Cache.find]
      rw [hstep]
      exact hs
    | false => exact hs.post (.find id key) rfl rfl
  | serve =>
    obtain ⟨hcommands, hpast⟩ := s.cache.memory.serve_streams
    constructor
    · exact hs.served.serve
    · exact hcommands.trans hs.commands
    · exact hs.outstanding
    · show _ = s.cache.memory.serve.responses.past.length
      rw [hpast]
      exact hs.paired
    · show _ = List.zipWith _ _ s.cache.memory.serve.responses.past
      rw [hpast]
      exact hs.results
  | getFindResult => exact hs.getFindResult

/-- The number of `find`s among the operations. -/
def findCount (ops : List (CacheOp z)) : ℕ := (ops.filterMap CacheOp.findKey).length

/-- The memory answers once for every `find`. -/
theorem length_replay_find (cells : BitVec 64 → BitVec 512) (ops : List (CacheOp z)) :
    (replay cells (ops.map (CacheOp.command logSize))).2.length = findCount ops := by
  induction ops generalizing cells with
  | nil => rfl
  | cons op ops ih =>
    cases op with
    | insert id key value => exact ih _
    | erase id key => exact ih _
    | find id key => exact congrArg (· + 1) (ih _)

/-- The n-th result belongs to the n-th `find`, and a value in it is the latest one of the key, at the time
of the `find`, of the ikernel that asked. -/
def Answered (s : CacheRun z) : Prop :=
  ∀ n value, s.results[n]? = some (some value) →
    ∃ before id key after, s.ops = before ++ .find id key :: after ∧ findCount before = n ∧
      latest id key before = some value

/-- What stands in a list stands in every longer one. -/
theorem getElem?_of_isPrefix {α : Type} {xs ys : List α} (hle : xs <+: ys) {n : ℕ} {x : α}
    (hx : xs[n]? = some x) : ys[n]? = some x := by
  obtain ⟨zs, rfl⟩ := hle
  exact List.getElem?_append_left (List.getElem?_eq_some_iff.mp hx).1 ▸ hx

/-- The result of a `find` is what the operations before it left at the index of its key. -/
theorem CacheInv.result_eq (hs : CacheInv logSize start s) {before after : List (CacheOp z)} {id : ℕ}
    {key : Key z} {found : Option (Value z)} (hops : s.ops = before ++ .find id key :: after)
    (hresult : s.results[findCount before]? = some found) :
    found = Cache.findResult key
      ((replay start (before.map (CacheOp.command logSize))).1 (h key (logSize id) id)) := by
  rw [hs.results, List.getElem?_zipWith_eq_some] at hresult
  obtain ⟨key', d, hkey', hd, rfl⟩ := hresult
  -- the key in the one queue and the answer of the memory in the other
  have hkey : (s.ops.filterMap CacheOp.findKey)[findCount before]? = some key' := by
    rw [← hs.outstanding]
    exact getElem?_of_isPrefix (Fifo.past_prefix_sent _) hkey'
  have hanswer : (replay start (s.ops.map (CacheOp.command logSize))).2[findCount before]? = some d := by
    have hle := hs.served.responses_of_replay
    rw [hs.commands] at hle
    exact getElem?_of_isPrefix ((Fifo.past_prefix_sent _).trans hle) hd
  rw [hops, List.filterMap_append, findCount, List.getElem?_append_right (Nat.le_refl _), Nat.sub_self] at hkey
  have hlen : (replay start (before.map (CacheOp.command logSize))).2.length = findCount before :=
    length_replay_find start before
  rw [hops, List.map_append, replay_append, ← hlen, List.getElem?_append_right (Nat.le_refl _),
    Nat.sub_self] at hanswer
  cases hkey
  cases hanswer
  rfl

theorem CacheInv.answered (hs : CacheInv logSize start s) (hstart : ∀ i, (start i).getLsbD 511 = false)
    (hids : ∀ op ∈ s.ops, op.ikernelId < 1024) : Answered s := by
  intro n value hresult
  -- the read that the answer of the memory belongs to
  obtain ⟨d, hd⟩ : ∃ d, (replay start (s.ops.map (CacheOp.command logSize))).2[n]? = some d := by
    have hresult' := hresult
    rw [hs.results, List.getElem?_zipWith_eq_some] at hresult'
    obtain ⟨-, d, -, hd, -⟩ := hresult'
    have hle := hs.served.responses_of_replay
    rw [hs.commands] at hle
    exact ⟨d, getElem?_of_isPrefix ((Fifo.past_prefix_sent _).trans hle) hd⟩
  obtain ⟨cs, i, ds, hsplit, hlen, -⟩ := replay_answer hd
  obtain ⟨before, rest, hops, rfl, hrest⟩ := List.map_eq_append_iff.mp hsplit
  obtain ⟨op, after, rfl, hop, -⟩ := List.map_eq_cons_iff.mp hrest
  rw [length_replay_find] at hlen
  cases op with
  | insert id' key' v => cases hop
  | erase id' key' => cases hop
  | find id key =>
    subst hlen
    refine ⟨before, id, key, after, hops, rfl, ?_⟩
    have hsound : Sound logSize (replay start (before.map (CacheOp.command logSize))).1 before :=
      sound_replay hstart (fun op hop => hids op (by rw [hops]; exact List.mem_append_left _ hop))
    apply hsound id (hids (.find id key) (by rw [hops]; simp)) key value
    exact (hs.result_eq hops hresult).symm

/-- The users of the cache are ikernels, with ids below 1024. -/
def SmallId : CacheAction z → Prop
  | .insert id _ _ => id < 1024
  | .erase id _ => id < 1024
  | .find _ id _ => id < 1024
  | _ => True

instance : ∀ a : CacheAction z, Decidable (SmallId a)
  | .insert _ _ _ => inferInstanceAs (Decidable (_ < _))
  | .erase _ _ => inferInstanceAs (Decidable (_ < _))
  | .find _ _ _ => inferInstanceAs (Decidable (_ < _))
  | .serve => .isTrue trivial
  | .getFindResult => .isTrue trivial

theorem smallId_step {a : CacheAction z} (ha : SmallId a) (hs : ∀ op ∈ s.ops, op.ikernelId < 1024) :
    ∀ op ∈ (s.step logSize a).ops, op.ikernelId < 1024 := by
  intro op hop
  cases a with
  | insert id key value =>
    rcases List.mem_append.mp hop with hop | hop
    · exact hs op hop
    · rw [List.mem_singleton.mp hop]
      exact ha
  | erase id key =>
    rcases List.mem_append.mp hop with hop | hop
    · exact hs op hop
    · rw [List.mem_singleton.mp hop]
      exact ha
  | find full id key =>
    rcases List.mem_append.mp hop with hop | hop
    · exact hs op hop
    · cases full with
      | true => cases hop
      | false =>
        rw [List.mem_singleton.mp hop]
        exact ha
  | serve => exact hs op hop
  | getFindResult => exact hs op hop

/-- From a memory without valid entries, in every run: the results come in the order of the `find`s, and a
value among them is that of the last insertion of the key by the same ikernel before the `find`, with no
erasure of the key by that ikernel in between. -/
theorem answered_run (logSize : ℕ → ℕ) (start : BitVec 64 → BitVec 512)
    (hstart : ∀ i, (start i).getLsbD 511 = false) (actions : List (CacheAction z))
    (hids : ∀ a ∈ actions, SmallId a) :
    Answered (run (CacheRun.step logSize) (.init start : CacheRun z) actions) := by
  have hrun : Along (CacheRun.step logSize) (fun _ a => SmallId a) (.init start : CacheRun z) actions :=
    along_of_forall actions _ hids
  have hinv := run_induction
    (P := fun s : CacheRun z => CacheInv logSize start s ∧ ∀ op ∈ s.ops, op.ikernelId < 1024)
    (fun s a ha hs => ⟨hs.1.step a, smallId_step ha hs.2⟩) actions _ hrun
    ⟨cacheInv_init, fun op hop => by cases hop⟩
  exact hinv.1.answered hstart hinv.2

/-- Keys and values of four bytes. -/
def exampleSizes : Sizes := ⟨4, 4, by decide, by decide⟩

/-- Two ikernels use the same key, and the second one erases it. -/
def sharedKey : List (CacheAction exampleSizes) :=
  [.insert 3 0x61626364 7, .insert 5 0x61626364 8, .find false 5 0x61626364, .serve, .erase 5 0x61626364,
    .serve, .find false 3 0x61626364, .find false 5 0x61626364, .serve, .serve, .serve, .serve,
    .getFindResult, .getFindResult, .getFindResult]

theorem answered_run_sharedKey :
    Answered (run (CacheRun.step (fun _ => 6)) (.init (fun _ => 0)) sharedKey) ∧
      (run (CacheRun.step (fun _ => 6)) (.init (fun _ => 0)) sharedKey).results =
        [some 8, some 7, none] :=
  ⟨answered_run _ _ (fun _ => by simp) sharedKey (by decide), by decide +kernel⟩

end Nica.Hls.Memcached
