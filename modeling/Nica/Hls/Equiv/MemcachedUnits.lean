import Nica.Hls.Memcached
import Nica.Hls.Equiv.MemcachedCache
import Nica.Lib.Owed

/-!
# The units of the memcached ikernel one by one

For each unit an invariant says how far it has come with the packets, and a lemma shows that a call of the
unit keeps it.  `request p` is what the parser makes of the packet `p`; the fates and the resolutions of the
first packets are the histories of `handle_memory_responses` and `action_resolution`, so the packets zipped
with them are what the later units work on.

* `parserInv_parsePacket`: the requests are those of the packets, in their order;
* `State.memoryInv_handleMemoryResponses`: the packets are judged in their order;
* `actionInv_actionResolution`: an action bit meets the metadata of its own packet;
* `dropperInv_dropOrPass`: the output carries the packets that are passed on, each with its own metadata.
-/

namespace Nica.Hls.Memcached

open Nica.Lib

variable {z : Sizes}

/-! ### Bytes -/

theorem byteArray_congr {n : ℕ} {f g : ℕ → Byte} (h : ∀ i < n, f i = g i) :
    byteArray n f = byteArray n g := by
  unfold byteArray
  apply List.foldr_ext
  intro i hi a
  rw [h i (List.mem_range.mp hi)]

/-- A loop that writes all of an array forgets what was in it. -/
theorem storeBytes_congr {n : ℕ} {select : ℕ → Bool} {index : ℕ → ℤ} (a b : BitVec (8 * n)) (d : AxiData)
    (h : ∀ j < n, ∃ i < 32, select i = true ∧ index i = j) :
    storeBytes a d select index = storeBytes b d select index := by
  apply byteArray_congr
  intro j hj
  obtain ⟨i, hi, hselect, hindex⟩ := h j hj
  have hsome : ((List.range 32).find? (fun i => select i && index i == j)).isSome = true := by
    rw [List.find?_isSome]
    exact ⟨i, List.mem_range.mpr hi, by simp [hselect, hindex]⟩
  obtain ⟨k, hk⟩ := Option.isSome_iff_exists.mp hsome
  simp only [hk]

/-! ### The requests -/

/-- The request that the parser makes of a packet. -/
def NetPacket.request (z : Sizes) (p : NetPacket) : ParsedRequest z :=
  parseFirst ⟨0, 0, .GET, p.metadata⟩ (p.beats.head p.isPacket.ne_nil)

@[simp] theorem NetPacket.request_metadata (p : NetPacket) : (p.request z).metadata = p.metadata := rfl

/-- The first beat decides, whatever the registers held. -/
theorem parseFirst_eq_request {r : ParsedRequest z} {p : NetPacket} {d : AxiData} {rest : List AxiData}
    (hmeta : r.metadata = p.metadata) (hbeats : p.beats = d :: rest) : parseFirst r d = p.request z := by
  have hd : p.beats.head p.isPacket.ne_nil = d := by simp [hbeats]
  unfold NetPacket.request parseFirst
  rw [hd, ← hmeta, ParsedRequest.mk.injEq]
  refine ⟨?_, ?_, rfl, rfl⟩
  · apply storeBytes_congr
    intro j hj
    exact ⟨j, by omega, by simpa using hj, rfl⟩
  · have hkey := z.key_le
    apply storeBytes_congr
    intro j hj
    exact ⟨j + 12, by omega, by simp; omega, by push_cast; omega⟩

/-! ### The parser -/

/-- Where the parser is after the metadata of `n` packets and the beats `done`, with `k` requests written. -/
def ParserPhase (packets : List NetPacket) (u : Parser z) (n k : ℕ) (done : List AxiData) : Prop :=
  match u.inState with
  | .metadata => n = k ∧ u.inOffset = 0 ∧ Owed NetPacket.beats packets n done []
  | .data => n = k + 1 ∧ ∃ p due, packets[k]? = some p ∧ u.parsedRequest.metadata = p.metadata ∧
      Owed NetPacket.beats packets n done due ∧ IsPacket due ∧
      if u.inOffset = 0 then due = p.beats else u.parsedRequest = p.request z

/-- The ikernel and the type of a packet, for the statistics. -/
def NetPacket.stat (z : Sizes) (p : NetPacket) : BitVec 6 × RequestType :=
  (p.metadata.ikernelId, (p.request z).type)

structure ParserInv (packets : List NetPacket) (u : Parser z) (n : ℕ) (done : List AxiData)
    (requests : List (ParsedRequest z)) (stats : List (BitVec 6 × RequestType)) : Prop where
  phase : ParserPhase packets u n requests.length done
  requests_eq : requests = (packets.take requests.length).map (NetPacket.request z)
  stats_eq : stats = (packets.take requests.length).map (NetPacket.stat z)

section Parser

variable {packets : List NetPacket} {u : Parser z} {metas : Fifo Metadata} {beats : Fifo AxiData}
  {requests : Fifo (ParsedRequest z)} {stats : Fifo (BitVec 6 × RequestType)}

/-- After the first beat the registers hold the request of the packet. -/
theorem look_eq {p : NetPacket} {d : AxiData} {due : List AxiData} (hu : u.inState = .data)
    (hmeta : u.parsedRequest.metadata = p.metadata)
    (hregs : if u.inOffset = 0 then d :: due = p.beats else u.parsedRequest = p.request z) :
    (u.look d).parsedRequest = p.request z ∧ (u.look d).inOffset ≠ 0 ∧ (u.look d).inState = .data := by
  unfold Parser.look
  by_cases hoffset : u.inOffset = 0
  · rw [if_pos hoffset] at hregs ⊢
    exact ⟨parseFirst_eq_request hmeta hregs.symm, Nat.succ_ne_zero _, hu⟩
  · rw [if_neg hoffset] at hregs ⊢
    exact ⟨hregs, hoffset, hu⟩

/-- **The parser**: a call of `parse_packet` takes the packets further in their order. -/
theorem parserInv_parsePacket (full : Bool)
    (h : ParserInv packets u metas.past.length beats.past requests.sent stats.sent)
    (hmetas : metas.sent <+: packets.map NetPacket.metadata)
    (hbeats : beats.sent <+: packets.flatMap NetPacket.beats) :
    let r := parsePacket full u metas.head beats.head
    ParserInv packets r.1 (metas.readIf r.2.readMetadata).past.length (beats.readIf r.2.readData).past
      (requests.put r.2.request).sent (stats.put r.2.stat).sent := by
  -- a call that finds nothing to read, or no room to write, changes nothing
  have hwait : ParserInv packets u (metas.readIf false).past.length (beats.readIf false).past
      (requests.put none).sent (stats.put none).sent := by
    simpa using h
  have hphase := h.phase
  cases hu : u.inState with
  | metadata =>
    simp only [parsePacket, hu]
    cases hm : metas.head with
    | none => exact hwait
    | some m =>
      simp only [ParserPhase, hu] at hphase
      obtain ⟨hn, hoffset, howed⟩ := hphase
      obtain ⟨p, hp, rfl⟩ := exists_item ((metas.past_snoc_prefix_sent hm).trans hmetas)
      constructor
      · simp only [ParserPhase, metas.length_past_readIf_true hm, Fifo.put_none, hoffset, if_true]
        refine ⟨by rw [hn], p, p.beats, by rw [← hn]; exact hp, rfl, ?_, p.isPacket, rfl⟩
        exact howed.start hp
      · simpa using h.requests_eq
      · simpa using h.stats_eq
  | data =>
    simp only [parsePacket, hu]
    cases hd : beats.head with
    | none => exact hwait
    | some d =>
      cases full with
      | true => exact hwait
      | false =>
        simp only [ParserPhase, hu] at hphase
        obtain ⟨hn, p, due, hp, hmeta, howed, hdue, hregs⟩ := hphase
        obtain ⟨y, due, rfl⟩ := List.exists_cons_of_ne_nil hdue.ne_nil
        obtain rfl := howed.head_eq hbeats hd
        obtain ⟨hrequest, hoffset, hstate⟩ := look_eq hu hmeta hregs
        have hdone := howed.advance
        obtain ⟨hfinal, hmore⟩ := isPacket_cons hdue
        cases hlast : d.last with
        | true =>
          obtain rfl := hfinal hlast
          simp only [hlast, Bool.false_eq_true, if_false, if_true]
          have hlen : (requests.put (some (u.look d).parsedRequest)).sent.length = requests.sent.length + 1 := by
            simp
          constructor
          · simp only [ParserPhase, hlen, beats.past_readIf_true hd, Fifo.past_readIf_false]
            exact ⟨hn, trivial, hdone⟩
          · rw [hlen, take_succ_eq hp, List.map_append, ← h.requests_eq, Fifo.sent_put, hrequest]
            rfl
          · rw [hlen, take_succ_eq hp, List.map_append, ← h.stats_eq, Fifo.sent_put, hrequest]
            rfl
        | false =>
          simp only [hlast, Bool.false_eq_true, if_false, Fifo.put_none]
          refine ⟨?_, h.requests_eq, h.stats_eq⟩
          simp only [ParserPhase, hstate, beats.past_readIf_true hd, Fifo.past_readIf_false]
          refine ⟨hn, p, due, hp, ?_, hdone, hmore hlast, ?_⟩
          · rw [hrequest]
            rfl
          · rw [if_neg hoffset]
            exact hrequest

end Parser

/-! ### The cache accesses -/

/-- A request is taken up when no pair waits. -/
theorem handleParsedPacket_request {i : HandleIn} {kv : Option (KeyValuePair z)}
    {request : Option (ParsedRequest z)} {r : ParsedRequest z}
    (hop : handleParsedPacket i kv request = .request r) : kv = none ∧ request = some r := by
  unfold handleParsedPacket at hop
  split at hop
  · cases hop
  · cases kv with
    | some kv => cases hop
    | none =>
      cases request with
      | none => cases hop
      | some r' =>
        dsimp only at hop
        split at hop
        · cases hop
        · cases hop
          exact ⟨rfl, rfl⟩

theorem handleParsedPacket_insert {i : HandleIn} {kv : Option (KeyValuePair z)}
    {request : Option (ParsedRequest z)} {pair : KeyValuePair z}
    (hop : handleParsedPacket i kv request = .insert pair) : kv = some pair := by
  unfold handleParsedPacket at hop
  split at hop
  · cases hop
  · cases kv with
    | some kv =>
      cases hop
      rfl
    | none =>
      cases request with
      | none => cases hop
      | some r =>
        dsimp only at hop
        split at hop <;> cases hop

/-- The key that a request looks for. -/
def ParsedRequest.findKey (r : ParsedRequest z) : Option (Key z) :=
  if r.type = .GET then some r.key else none

/-- The requests that were handled wait for the memory, and the keys of the `GET`s among them for their
entries. -/
structure HandleInv (handled mem2mem : List (ParsedRequest z)) (outstanding : List (Key z)) : Prop where
  mem2mem_eq : mem2mem = handled
  outstanding_eq : outstanding = handled.filterMap ParsedRequest.findKey

theorem outstanding_step (logSize : ℕ → ℕ) (k : CacheRun z) (a : CacheAction z)
    (h : ∀ id key, a ≠ .find false id key) :
    (k.step logSize a).cache.outstandingReads.sent = k.cache.outstandingReads.sent := by
  cases a with
  | insert id key value => rfl
  | erase id key => rfl
  | find full id key =>
    cases full with
    | true => rfl
    | false => exact absurd rfl (h id key)
  | serve => rfl
  | getFindResult =>
    simp only [CacheRun.step, Cache.getFindResult]
    split
    · exact Fifo.sent_pop _
    · rfl

theorem outstanding_past_step (logSize : ℕ → ℕ) (k : CacheRun z) (a : CacheAction z)
    (h : a ≠ .getFindResult) :
    (k.step logSize a).cache.outstandingReads.past = k.cache.outstandingReads.past ∧
      (k.step logSize a).results = k.results := by
  cases a with
  | insert id key value => exact ⟨rfl, rfl⟩
  | erase id key => exact ⟨rfl, rfl⟩
  | find full id key => cases full <;> exact ⟨rfl, rfl⟩
  | serve => exact ⟨rfl, rfl⟩
  | getFindResult => exact absurd rfl h

/-- A request posts its access, and a `GET` its key. -/
theorem outstanding_access (logSize : ℕ → ℕ) (k : CacheRun z) (r : ParsedRequest z) :
    ((r.access.map (k.step logSize)).getD k).cache.outstandingReads.sent =
      k.cache.outstandingReads.sent ++ r.findKey.toList := by
  unfold ParsedRequest.access ParsedRequest.findKey
  cases r.type with
  | GET => exact Fifo.sent_write ..
  | SET => exact (List.append_nil _).symm
  | OTHER => exact (List.append_nil _).symm

/-! ### The memory responses -/

/-- The packets with their fates, as far as these are known. -/
abbrev judged (packets : List NetPacket) (fates : List (Fate z)) : List (NetPacket × Fate z) :=
  packets.zip fates

/-- The event for the statistics. -/
def judgedStat (x : NetPacket × Fate z) : Option (BitVec 6 × CacheStatsType) :=
  x.2.stat.map (x.1.metadata.ikernelId, ·)

/-- The reply. -/
def judgedReply (x : NetPacket × Fate z) : Option (Metadata × List Byte) := x.2.reply (x.1.request z)

/-- The number of `GET`s among the first `n` packets. -/
def getCount (z : Sizes) (packets : List NetPacket) (n : ℕ) : ℕ :=
  (((packets.take n).map (NetPacket.request z)).filterMap ParsedRequest.findKey).length

/-- A packet is judged by its type and, if it is a `GET`, by the result of its own `find`. -/
def FateOk (packets : List NetPacket) (results : List (Option (Value z))) (n : ℕ) (f : Fate z) : Prop :=
  ∃ p, packets[n]? = some p ∧
    ((p.request z).type ≠ .GET ∧ f = .pass ∨
      (p.request z).type = .GET ∧ ∃ i found, results[getCount z packets n]? = some found ∧ f = fate i found)

structure MemoryInv (packets : List NetPacket) (fates : List (Fate z)) (waiting : Option (ParsedRequest z))
    (mem2mem : List (ParsedRequest z)) (outstanding : List (Key z)) (results : List (Option (Value z)))
    (stats : List (BitVec 6 × CacheStatsType)) (replyMetadata : List Metadata) (replyData : List (List Byte))
    (actions : List Bool) : Prop where
  read : mem2mem = (packets.take fates.length).map (NetPacket.request z) ++ waiting.toList
  le : fates.length ≤ packets.length
  waiting_get : ∀ r, waiting = some r → r.type = .GET
  outstanding_eq :
    outstanding = ((packets.take fates.length).map (NetPacket.request z)).filterMap ParsedRequest.findKey
  results_length : results.length = outstanding.length
  fates_ok : ∀ n f, fates[n]? = some f → FateOk packets results n f
  stats_eq : stats = (judged packets fates).filterMap judgedStat
  replyMetadata_eq : replyMetadata = ((judged packets fates).filterMap judgedReply).map (·.1)
  replyData_eq : replyData = ((judged packets fates).filterMap judgedReply).map (·.2)
  actions_eq : actions = fates.map Fate.action

theorem FateOk.mono {packets : List NetPacket} {results results' : List (Option (Value z))} {n : ℕ}
    {f : Fate z} (h : FateOk packets results n f) (hle : results <+: results') :
    FateOk packets results' n f := by
  obtain ⟨p, hp, hfate⟩ := h
  refine ⟨p, hp, ?_⟩
  rcases hfate with hpass | ⟨hget, i, found, hfound, hf⟩
  · exact .inl hpass
  · exact .inr ⟨hget, i, found, getElem?_of_isPrefix hle hfound, hf⟩

namespace State

abbrev MemoryInv (packets : List NetPacket) (s : State z) : Prop :=
  Memcached.MemoryInv packets s.fates s.memRespReq s.reqMem2mem.past s.cache.cache.outstandingReads.past
    s.cache.results s.statsCache.sent s.replyMetadata.sent s.replyData.sent s.actionStream.sent

variable {packets : List NetPacket} {s : State z}

/-- A packet is judged: what `complete` adds. -/
theorem MemoryInv.complete {p : NetPacket} {f : Fate z} (cache : CacheRun z)
    (h : Memcached.MemoryInv packets s.fates none ((packets.take s.fates.length).map (NetPacket.request z))
      s.cache.cache.outstandingReads.past s.cache.results s.statsCache.sent s.replyMetadata.sent
      s.replyData.sent s.actionStream.sent)
    (hread : s.reqMem2mem.past =
      (packets.take s.fates.length).map (NetPacket.request z) ++ [p.request z])
    (hp : packets[s.fates.length]? = some p)
    (houtstanding : cache.cache.outstandingReads.past =
      s.cache.cache.outstandingReads.past ++ (p.request z).findKey.toList)
    (hresults : s.cache.results <+: cache.results)
    (hlength : cache.results.length = cache.cache.outstandingReads.past.length)
    (hf : FateOk packets cache.results s.fates.length f) :
    ({ s with cache := cache }.complete (p.request z) f).MemoryInv packets := by
  have htake := take_succ_eq hp
  have hlen : (s.fates ++ [f]).length = s.fates.length + 1 := by simp
  have hzip : judged packets (s.fates ++ [f]) = judged packets s.fates ++ [(p, f)] := zip_snoc hp f
  constructor
  · show s.reqMem2mem.past = (packets.take (s.fates ++ [f]).length).map _ ++ []
    rw [hread, hlen, htake, List.map_append, List.append_nil]
    rfl
  · show (s.fates ++ [f]).length ≤ _
    rw [hlen]
    exact (List.getElem?_eq_some_iff.mp hp).1
  · intro r hr
    cases hr
  · show cache.cache.outstandingReads.past = _
    rw [houtstanding, h.outstanding_eq]
    show _ = ((packets.take (s.fates ++ [f]).length).map _).filterMap _
    rw [hlen, htake, List.map_append, List.filterMap_append]
    congr 1
  · exact hlength
  · intro n g hg
    have hg' : (s.fates ++ [f])[n]? = some g := hg
    by_cases hn : n < s.fates.length
    · rw [List.getElem?_append_left hn] at hg'
      exact (h.fates_ok n g hg').mono hresults
    · have hn' : n = s.fates.length := by
        have := (List.getElem?_eq_some_iff.mp hg').1
        omega
      subst hn'
      rw [List.getElem?_append_right (Nat.le_refl _), Nat.sub_self] at hg'
      cases hg'
      exact hf
  · show (s.statsCache.put _).sent = (judged packets (s.fates ++ [f])).filterMap _
    rw [hzip, List.filterMap_append, ← h.stats_eq, Fifo.sent_put]
    congr 1
  · show (s.replyMetadata.put _).sent = ((judged packets (s.fates ++ [f])).filterMap _).map _
    rw [hzip, List.filterMap_append, List.map_append, ← h.replyMetadata_eq, Fifo.sent_put]
    congr 1
    simp only [List.filterMap_cons, List.filterMap_nil, judgedReply]
    cases f.reply (p.request z) <;> rfl
  · show (s.replyData.put _).sent = ((judged packets (s.fates ++ [f])).filterMap _).map _
    rw [hzip, List.filterMap_append, List.map_append, ← h.replyData_eq, Fifo.sent_put]
    congr 1
    simp only [List.filterMap_cons, List.filterMap_nil, judgedReply]
    cases f.reply (p.request z) <;> rfl
  · show (s.actionStream.write f.action).sent = (s.fates ++ [f]).map _
    rw [Fifo.sent_write, h.actions_eq, List.map_append]
    rfl

/-- Both ends of a result of the cache. -/
theorem getFindResult_eq_some {k : Cache z} {found : Option (Value z)} (h : k.getFindResult.1 = some found) :
    ∃ key d, k.outstandingReads.head = some key ∧ k.memory.responses.head = some d ∧
      found = Cache.findResult key d ∧
      k.getFindResult = (some found, ⟨k.outstandingReads.pop, k.memory.getResponse⟩) := by
  unfold Cache.getFindResult at h ⊢
  cases hkey : k.outstandingReads.head with
  | none => simp [hkey] at h
  | some key =>
    cases hd : k.memory.responses.head with
    | none => simp [hkey, hd] at h
    | some d =>
      simp only [hkey, hd, Option.some.injEq] at h ⊢
      exact ⟨key, d, rfl, rfl, h.symm, by rw [h]⟩

/-- The unit works on the requests in their order. -/
theorem past_memRespRequest {i : MemoryIn} {waiting : Option (ParsedRequest z)} {f : Fifo (ParsedRequest z)}
    {done : List (ParsedRequest z)} {r : ParsedRequest z} (hr : memRespRequest i waiting f.head = some r)
    (hread : f.past = done ++ waiting.toList) : (f.readIf waiting.isNone).past = done ++ [r] := by
  cases waiting with
  | some w =>
    cases hr
    exact hread
  | none =>
    rw [Option.toList_none, List.append_nil] at hread
    simp only [memRespRequest] at hr
    split at hr
    · cases hr
    · rw [← hread]
      exact f.past_readIf_true hr

/-- **The memory responses**: a call of `handle_memory_responses` judges the packets in their order, and a
`GET` by the result of its own `find`. -/
theorem memoryInv_handleMemoryResponses (h : s.MemoryInv packets) (i : MemoryIn)
    (hreads : s.reqMem2mem.sent <+: packets.map (NetPacket.request z))
    (hkeys : s.cache.cache.outstandingReads.sent = s.reqMem2mem.sent.filterMap ParsedRequest.findKey) :
    (s.handleMemoryResponses i).MemoryInv packets := by
  unfold handleMemoryResponses
  cases hr : memRespRequest i s.memRespReq s.reqMem2mem.head with
  | none => exact h
  | some r =>
    -- the request is the one of the next packet
    have hread := past_memRespRequest hr h.read
    have hsent : (packets.take s.fates.length).map (NetPacket.request z) ++ [r] <+: s.reqMem2mem.sent := by
      rw [← hread, ← Fifo.sent_readIf s.reqMem2mem s.memRespReq.isNone]
      exact Fifo.past_prefix_sent _
    obtain ⟨p, hp, rfl⟩ : ∃ p, packets[s.fates.length]? = some p ∧ p.request z = r := by
      have hitem := exists_item (hsent.trans hreads)
      rwa [List.length_map, List.length_take, Nat.min_eq_left h.le] at hitem
    have hmem : Memcached.MemoryInv packets s.fates none
        ((packets.take s.fates.length).map (NetPacket.request z)) s.cache.cache.outstandingReads.past
        s.cache.results s.statsCache.sent s.replyMetadata.sent s.replyData.sent s.actionStream.sent :=
      { h with
        read := (List.append_nil _).symm
        waiting_get := fun _ hnone => by cases hnone }
    set s' : State z := { s with
      memRespReq := some (p.request z)
      reqMem2mem := s.reqMem2mem.readIf s.memRespReq.isNone } with hs'
    have hpass : (p.request z).type ≠ .GET → (s'.complete (p.request z) .pass).MemoryInv packets := by
      intro htype
      refine MemoryInv.complete (s := s') s.cache hmem hread hp ?_ (List.prefix_refl _) h.results_length
        ⟨p, hp, .inl ⟨htype, rfl⟩⟩
      rw [ParsedRequest.findKey, if_neg htype]
      exact (List.append_nil _).symm
    cases htype : (p.request z).type with
    | SET =>
      simp only [htype]
      exact hpass (by rw [htype]; decide)
    | OTHER =>
      simp only [htype]
      exact hpass (by rw [htype]; decide)
    | GET =>
      cases hfound : s.cache.cache.getFindResult.1 with
      | none =>
        simp only [htype, hfound]
        refine { h with read := hread, waiting_get := ?_ }
        intro r hr'
        cases hr'
        exact htype
      | some found =>
        obtain ⟨key, d, hkey, hd, -, heq⟩ := getFindResult_eq_some hfound
        obtain ⟨q, hq⟩ := Fifo.queue_eq_of_head _ hkey
        have hfind : (p.request z).findKey = some (p.request z).key := if_pos htype
        -- the key at the head is the one of the packet
        obtain rfl : key = (p.request z).key := by
          apply Fifo.head_eq _ hq (List.prefix_refl _)
          rw [hkeys, h.outstanding_eq]
          have := hsent.filterMap ParsedRequest.findKey
          rwa [List.filterMap_append, List.filterMap_cons, hfind] at this
        have hstep : s.cache.step (fun id => s.logSize (BitVec.ofNat 6 id)) .getFindResult =
            { s.cache with
              cache := ⟨s.cache.cache.outstandingReads.pop, s.cache.cache.memory.getResponse⟩
              results := s.cache.results ++ [found] } := by
          simp [CacheRun.step, heq]
        have hpast := s.cache.cache.outstandingReads.past_pop hq
        simp only [htype, hfound]
        show State.MemoryInv packets ({ s' with cache := s.cache.step _ .getFindResult }.complete _ _)
        rw [hstep]
        refine MemoryInv.complete (s := s') _ hmem hread hp ?_ (List.prefix_append _ _) ?_
          ⟨p, hp, .inr ⟨htype, i, found, ?_, rfl⟩⟩
        · rw [hfind]
          exact hpast
        · simp only [hpast, List.length_append, List.length_singleton, h.results_length]
        · have hcount : getCount z packets s.fates.length = s.cache.results.length := by
            rw [h.results_length, h.outstanding_eq]
            rfl
          show (s.cache.results ++ [found])[getCount z packets s.fates.length]? = some found
          rw [hcount, List.getElem?_append_right (Nat.le_refl _), Nat.sub_self]
          rfl

end State

/-! ### The actions -/

/-- The packets with their resolutions, as far as these are known. -/
abbrev routed (packets : List NetPacket) (resolutions : List Resolution) : List (NetPacket × Resolution) :=
  packets.zip resolutions

theorem routed_snoc {packets : List NetPacket} {resolutions : List Resolution} {p : NetPacket}
    (hp : packets[resolutions.length]? = some p) (r : Resolution) :
    routed packets (resolutions ++ [r]) = routed packets resolutions ++ [(p, r)] :=
  zip_snoc hp r

/-- The event of a packet that is dropped because the host is not ready. -/
def backpressureEvent (x : NetPacket × Resolution) : Option (BitVec 6 × Bool) :=
  if x.2 = .backpressure then some (x.1.metadata.ikernelId, true) else none

structure ActionInv (packets : List NetPacket) (fates : List (Fate z)) (resolutions : List Resolution)
    (metadata : List Metadata) (actions : List Bool) (packetActions : List PacketAction)
    (drops : List (BitVec 6 × Bool)) : Prop where
  metadata_eq : metadata = (packets.take resolutions.length).map NetPacket.metadata
  actions_eq : actions = (fates.take resolutions.length).map Fate.action
  le : resolutions.length ≤ fates.length
  packetActions_eq :
    packetActions = (routed packets resolutions).map (fun x => packetAction x.1.metadata x.2)
  drops_eq : drops = (routed packets resolutions).filterMap backpressureEvent
  consistent : ∀ (n : ℕ) (f : Fate z) (r : Resolution), fates[n]? = some f → resolutions[n]? = some r →
    (r = .drop ↔ f.action = false)

section Action

variable {packets : List NetPacket} {fates : List (Fate z)} {resolutions : List Resolution}
  {metadata : Fifo Metadata} {actions : Fifo Bool} {packetActions : Fifo PacketAction}
  {drops : Fifo (BitVec 6 × Bool)}

/-- More fates may become known. -/
theorem ActionInv.extend {ms : List Metadata} {as : List Bool} {pas : List PacketAction}
    {ds : List (BitVec 6 × Bool)} (h : ActionInv packets fates resolutions ms as pas ds) {fates' : List (Fate z)}
    (hle : fates <+: fates') : ActionInv packets fates' resolutions ms as pas ds := by
  obtain ⟨more, rfl⟩ := hle
  refine { h with actions_eq := ?_, le := ?_, consistent := ?_ }
  · rw [List.take_append_of_le_length h.le]
    exact h.actions_eq
  · exact h.le.trans (List.length_append ▸ Nat.le_add_right _ _)
  · intro n f r hf hr
    have hn : n < fates.length := (List.getElem?_eq_some_iff.mp hr).1.trans_le h.le
    rw [List.getElem?_append_left hn] at hf
    exact h.consistent n f r hf hr

/-- The metadata and the bit that a call of `action_resolution` joins are those of the same packet. -/
theorem actionResolution_packet {i : ActionIn} {ring : BitVec 6 → RingId} {m : Metadata} {r : Resolution}
    {pas : List PacketAction} {ds : List (BitVec 6 × Bool)}
    (h : ActionInv packets fates resolutions metadata.past actions.past pas ds)
    (hmetadata : metadata.sent <+: packets.map NetPacket.metadata)
    (hactions : actions.sent = fates.map Fate.action)
    (hcall : Memcached.actionResolution i ring metadata.head actions.head = some (m, r)) :
    ∃ p f, packets[resolutions.length]? = some p ∧ fates[resolutions.length]? = some f ∧ m = p.metadata ∧
      metadata.head = some p.metadata ∧ actions.head = some f.action ∧
      r = resolve i.canTransmit f.action (ring p.metadata.ikernelId) := by
  unfold actionResolution at hcall
  cases hm : metadata.head with
  | none => simp [hm] at hcall
  | some m' =>
    cases ha : actions.head with
    | none => simp [hm, ha] at hcall
    | some a =>
      simp only [hm, ha] at hcall
      split at hcall
      · cases hcall
      · cases hcall
        obtain ⟨p, hp, hpm⟩ := exists_item ((metadata.past_snoc_prefix_sent hm).trans hmetadata)
        obtain ⟨f, hf, hfa⟩ := exists_item (hactions ▸ actions.past_snoc_prefix_sent ha)
        have hfates : (fates.take resolutions.length).length = resolutions.length := by
          rw [List.length_take]
          exact Nat.min_eq_left h.le
        rw [h.actions_eq, List.length_map, hfates] at hf
        have hpackets : metadata.past.length = resolutions.length := by
          rw [h.metadata_eq, List.length_map, List.length_take, Nat.min_eq_left]
          by_contra hlt
          rw [h.metadata_eq, List.length_map, List.length_take,
            Nat.min_eq_right (Nat.le_of_not_le hlt), List.getElem?_eq_none (Nat.le_refl _)] at hp
          cases hp
        rw [hpackets] at hp
        subst hpm hfa
        exact ⟨p, f, hp, hf, rfl, rfl, rfl, rfl⟩

/-- **The actions**: a call of `action_resolution` joins an action bit with the metadata of its packet. -/
theorem actionInv_actionResolution {i : ActionIn} {ring : BitVec 6 → RingId} {m : Metadata} {r : Resolution}
    (h : ActionInv packets fates resolutions metadata.past actions.past packetActions.sent drops.sent)
    (hmetadata : metadata.sent <+: packets.map NetPacket.metadata)
    (hactions : actions.sent = fates.map Fate.action)
    (hcall : Memcached.actionResolution i ring metadata.head actions.head = some (m, r)) :
    ActionInv packets fates (resolutions ++ [r]) metadata.pop.past actions.pop.past
      (packetActions.write (packetAction m r)).sent
      (drops.put (if r = .backpressure then some (m.ikernelId, true) else none)).sent := by
  obtain ⟨p, f, hp, hf, rfl, hm, ha, hr⟩ := actionResolution_packet h hmetadata hactions hcall
  obtain ⟨qm, hqm⟩ := Fifo.queue_eq_of_head _ hm
  obtain ⟨qa, hqa⟩ := Fifo.queue_eq_of_head _ ha
  have hlen : (resolutions ++ [r]).length = resolutions.length + 1 := by simp
  constructor
  · rw [metadata.past_pop hqm, h.metadata_eq, hlen, take_succ_eq hp, List.map_append]
    rfl
  · rw [actions.past_pop hqa, h.actions_eq, hlen, take_succ_eq hf, List.map_append]
    rfl
  · rw [hlen]
    exact (List.getElem?_eq_some_iff.mp hf).1
  · rw [Fifo.sent_write, h.packetActions_eq, routed_snoc hp, List.map_append]
    rfl
  · rw [Fifo.sent_put, h.drops_eq, routed_snoc hp, List.filterMap_append]
    congr 1
  · intro n g r' hg hr'
    by_cases hn : n < resolutions.length
    · rw [List.getElem?_append_left hn] at hr'
      exact h.consistent n g r' hg hr'
    · have hn' : n = resolutions.length := by
        have := (List.getElem?_eq_some_iff.mp hr').1
        omega
      subst hn'
      rw [List.getElem?_append_right (Nat.le_refl _), Nat.sub_self] at hr'
      cases hr'
      rw [hf] at hg
      cases hg
      rw [hr]
      unfold resolve
      cases f.action <;> cases i.canTransmit <;> simp

end Action

/-! ### The data -/

/-- Whether a packet is passed on. -/
def Resolution.passes : Resolution → Bool
  | .pass _ => true
  | _ => false

/-- The metadata that a packet is passed on with. -/
def passedMetadata (x : NetPacket × Resolution) : Option Metadata :=
  if x.2.passes then some (packetAction x.1.metadata x.2).metadata else none

/-- The beats that a packet is passed on with. -/
def passedBeats (setData : List Byte → AxiData) (x : NetPacket × Resolution) : List AxiData :=
  match x.2 with
  | .pass ringId =>
    (if ringId ≠ 0 then [senderBeat setData (packetAction x.1.metadata x.2)] else []) ++ x.1.beats
  | _ => []

/-- Where `drop_or_pass` is after `n` actions and the beats `done`. -/
def DropperPhase (setData : List Byte → AxiData) (packets : List NetPacket) (resolutions : List Resolution)
    (u : Dropper) (n : ℕ) (done output : List AxiData) : Prop :=
  match u.state with
  | .metadata =>
    Owed NetPacket.beats packets n done [] ∧ Owed (passedBeats setData) (routed packets resolutions) n output []
  | .data =>
    ∃ due, IsPacket due ∧ Owed NetPacket.beats packets n done due ∧
      Owed (passedBeats setData) (routed packets resolutions) n output (if u.action then due else [])

structure DropperInv (setData : List Byte → AxiData) (packets : List NetPacket)
    (resolutions : List Resolution) (u : Dropper) (n : ℕ) (done : List AxiData) (metadata : List Metadata)
    (output : List AxiData) : Prop where
  phase : DropperPhase setData packets resolutions u n done output
  metadata_eq : metadata = ((routed packets resolutions).take n).filterMap passedMetadata
  le : n ≤ (routed packets resolutions).length

section Dropper

variable {setData : List Byte → AxiData} {packets : List NetPacket} {resolutions : List Resolution}
  {u : Dropper} {actions : Fifo PacketAction} {beats : Fifo AxiData} {metadata : List Metadata}
  {output : List AxiData}

/-- A packet of the network has no ring of its own. -/
theorem packetAction_spec (p : NetPacket) (r : Resolution) :
    (packetAction p.metadata r).action = r.passes ∧
      ((packetAction p.metadata r).metadata.ringId ≠ 0 ↔ ∃ ringId, ringId ≠ 0 ∧ r = .pass ringId) := by
  have hring := p.ringId_eq
  cases r with
  | drop => exact ⟨rfl, by simp [packetAction, hring]⟩
  | backpressure => exact ⟨rfl, by simp [packetAction, hring]⟩
  | pass ringId =>
    simp only [packetAction]
    by_cases hr : ringId = 0
    · rw [if_neg (not_not.mpr hr)]
      exact ⟨rfl, by simp [hring, hr]⟩
    · rw [if_pos hr]
      exact ⟨rfl, by simp⟩

/-- The beat in front of the packet, and the packet itself as far as it is passed on. -/
theorem passedBeats_eq (p : NetPacket) (r : Resolution) :
    passedBeats setData (p, r) =
      (if (packetAction p.metadata r).metadata.ringId ≠ 0 then
        some (senderBeat setData (packetAction p.metadata r)) else none).toList ++
      if r.passes then p.beats else [] := by
  obtain ⟨-, hring⟩ := packetAction_spec p r
  cases r with
  | drop =>
    rw [if_neg (by rw [hring]; rintro ⟨_, _, h⟩; cases h)]
    rfl
  | backpressure =>
    rw [if_neg (by rw [hring]; rintro ⟨_, _, h⟩; cases h)]
    rfl
  | pass ringId =>
    by_cases hr : ringId = 0
    · rw [if_neg (by rw [hring]; rintro ⟨_, hne, h⟩; cases h; exact hne hr)]
      simp [passedBeats, hr, Resolution.passes]
    · rw [if_pos (hring.mpr ⟨ringId, hr, rfl⟩)]
      show (if ringId ≠ 0 then _ else _) ++ p.beats = _
      rw [if_pos hr]
      rfl

/-- More resolutions may become known. -/
theorem DropperInv.extend {n : ℕ} {done : List AxiData}
    (h : DropperInv setData packets resolutions u n done metadata output) {resolutions' : List Resolution}
    {more : List (NetPacket × Resolution)}
    (hmore : routed packets resolutions' = routed packets resolutions ++ more) :
    DropperInv setData packets resolutions' u n done metadata output := by
  have hle := h.le
  constructor
  · have hphase := h.phase
    unfold DropperPhase at hphase ⊢
    rw [hmore]
    cases hu : u.state with
    | metadata =>
      simp only [hu] at hphase ⊢
      exact ⟨hphase.1, hphase.2.extend hle more⟩
    | data =>
      simp only [hu] at hphase ⊢
      obtain ⟨due, hdue, hin, hout⟩ := hphase
      exact ⟨due, hdue, hin, hout.extend hle more⟩
  · rw [hmore, List.take_append_of_le_length hle]
    exact h.metadata_eq
  · rw [hmore, List.length_append]
    omega

/-- **The data**: a call of `drop_or_pass` applies the action of a packet to its own data. -/
theorem dropperInv_dropOrPass
    (h : DropperInv setData packets resolutions u actions.past.length beats.past metadata output)
    (hactions : actions.sent = (routed packets resolutions).map (fun x => packetAction x.1.metadata x.2))
    (hbeats : beats.sent <+: packets.flatMap NetPacket.beats) :
    let r := dropOrPass setData u actions.head beats.head
    DropperInv setData packets resolutions r.1 (actions.readIf r.2.readAction).past.length
      (beats.readIf r.2.readData).past (metadata ++ r.2.metadata.toList) (output ++ r.2.data.toList) := by
  have hwait : DropperInv setData packets resolutions u (actions.readIf false).past.length
      (beats.readIf false).past (metadata ++ []) (output ++ []) := by
    simpa using h
  have hphase := h.phase
  unfold DropperPhase at hphase
  cases hu : u.state with
  | metadata =>
    simp only [hu] at hphase
    obtain ⟨hin, hout⟩ := hphase
    simp only [dropOrPass, hu]
    cases ha : actions.head with
    | none => exact hwait
    | some a =>
      obtain ⟨⟨p, r⟩, hx, rfl⟩ := exists_item (hactions ▸ actions.past_snoc_prefix_sent ha)
      obtain ⟨hp, -⟩ : packets[actions.past.length]? = some p ∧
          resolutions[actions.past.length]? = some r := List.getElem?_zip_eq_some.mp hx
      obtain ⟨hpasses, -⟩ := packetAction_spec p r
      have hlen := actions.length_past_readIf_true ha
      dsimp only
      constructor
      · show ∃ due, _
        rw [hlen]
        refine ⟨p.beats, p.isPacket, hin.start hp, ?_⟩
        rw [hpasses]
        have hstart := hout.start hx
        rw [passedBeats_eq] at hstart
        unfold Owed at hstart ⊢
        rw [← hstart, List.append_assoc]
      · rw [hlen, take_succ_eq hx, List.filterMap_append, ← h.metadata_eq, hpasses]
        congr 1
      · rw [hlen]
        exact (List.getElem?_eq_some_iff.mp hx).1
  | data =>
    simp only [hu] at hphase
    obtain ⟨due, hdue, hin, hout⟩ := hphase
    simp only [dropOrPass, hu]
    cases hd : beats.head with
    | none => exact hwait
    | some d =>
      obtain ⟨y, due, rfl⟩ := List.exists_cons_of_ne_nil hdue.ne_nil
      obtain rfl := hin.head_eq hbeats hd
      obtain ⟨hfinal, hmore⟩ := isPacket_cons hdue
      have hin' := hin.advance
      -- the output takes the beat exactly when the packet is passed on
      have hout' : Owed (passedBeats setData) (routed packets resolutions) actions.past.length
          (output ++ (if u.action then some d else none).toList) (if u.action then due else []) := by
        cases hpass : u.action with
        | true =>
          rw [hpass] at hout
          exact hout.advance
        | false =>
          rw [hpass] at hout
          simpa using hout
      refine ⟨?_, ?_, h.le⟩
      · simp only [DropperPhase, beats.past_readIf_true hd, Fifo.past_readIf_false]
        cases hlast : d.last with
        | true =>
          obtain rfl := hfinal hlast
          rw [ite_self] at hout'
          exact ⟨hin', hout'⟩
        | false => exact ⟨due, hmore hlast, hin', hout'⟩
      · rw [Option.toList_none, List.append_nil]
        exact h.metadata_eq

end Dropper

end Nica.Hls.Memcached
