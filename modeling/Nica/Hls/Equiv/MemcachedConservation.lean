import Nica.Hls.Equiv.MemcachedReplies
import Nica.Lib.Run

/-!
# The memcached ikernel loses, duplicates and confuses no packet

`NetInv` collects the invariants of the units that the packets of the network pass through, `HostInv` those
of the way to the network.  Every call of a unit keeps them (`netInv_step`, `hostInv_step`), so in every run,
whatever the order of the calls, the stalls and the latency of the memory, the n-th action bit, the n-th
metadata and the beats of the n-th packet meet.
-/

namespace Nica.Hls.Memcached

open Nica.Lib

variable {z : Sizes}

/-! ### The statistics -/

/-- The counters of an ikernel after the events that were counted. -/
def tally (n2h : List (BitVec 6 × RequestType)) (h2n : List (BitVec 6 × H2nPacketType))
    (cache : List (BitVec 6 × CacheStatsType)) (backpressure : List (BitVec 6 × Bool)) (id : BitVec 6) :
    StatsContext where
  getRequests := BitVec.ofNat 32 (n2h.count (id, .GET))
  getReqHit := BitVec.ofNat 32 (cache.count (id, .hitGen))
  getReqDroppedHits := BitVec.ofNat 32 (cache.count (id, .hitDrop))
  getReqMiss := BitVec.ofNat 32 (cache.count (id, .miss))
  setRequests := BitVec.ofNat 32 (n2h.count (id, .SET))
  n2hUnknown := BitVec.ofNat 32 (n2h.count (id, .OTHER))
  getResponse := BitVec.ofNat 32 (h2n.count (id, .getResponse))
  h2nUnknown := BitVec.ofNat 32 (h2n.count (id, .unknown))
  backpressureDropCount := BitVec.ofNat 32 (backpressure.countP (·.1 = id))
  tcBackpressureDropCount := BitVec.ofNat 32 (cache.count (id, .hitTcBackpressure))

section Stats

variable {n2h : Fifo (BitVec 6 × RequestType)} {h2n : Fifo (BitVec 6 × H2nPacketType)}
  {cache : Fifo (BitVec 6 × CacheStatsType)} {backpressure : Fifo (BitVec 6 × Bool)}

/-- Counting the event at the head of a stream, if there is one, for a table that counts what was read. -/
theorem countEvent_eq {E : Type} {f : StatsContext → E → StatsContext} {f' : Fifo (BitVec 6 × E)}
    {t : List (BitVec 6 × E) → BitVec 6 → StatsContext}
    (hstep : ∀ past id e, Function.update (t past) id (f (t past id) e) = t (past ++ [(id, e)])) :
    countEvent f (t f'.past) f'.head = t (f'.readIf true).past := by
  cases hhead : f'.head with
  | none =>
    have hq : f'.queue = [] := by
      rw [Fifo.head, List.head?_eq_none_iff] at hhead
      exact hhead
    have hpop : f'.readIf true = f' := by
      rw [Fifo.readIf, if_pos rfl, Fifo.pop, hq]
    rw [hpop]
    rfl
  | some e =>
    rw [f'.past_readIf_true hhead]
    exact hstep f'.past e.1 e.2

/-- **The statistics**: a call of `update_stats` counts the events that it reads. -/
theorem updateStats_eq :
    updateStats (tally n2h.past h2n.past cache.past backpressure.past) n2h.head h2n.head cache.head
        backpressure.head =
      tally (n2h.readIf true).past (h2n.readIf true).past (cache.readIf true).past
        (backpressure.readIf true).past := by
  unfold updateStats
  rw [countEvent_eq (t := fun past => tally past h2n.past cache.past backpressure.past),
    countEvent_eq (t := fun past => tally (n2h.readIf true).past past cache.past backpressure.past),
    countEvent_eq (t := fun past => tally (n2h.readIf true).past (h2n.readIf true).past past
      backpressure.past),
    countEvent_eq (t := fun past => tally (n2h.readIf true).past (h2n.readIf true).past
      (cache.readIf true).past past)]
  · intro past id e
    ext i : 1
    by_cases hi : i = id
    · subst hi
      simp [tally, StatsContext.countBackpressure, BitVec.ofNat_add]
    · have hne : ¬id = i := fun h => hi h.symm
      simp [tally, hi, hne]
  · intro past id e
    ext i : 1
    by_cases hi : i = id
    · subst hi
      cases e <;> simp [tally, StatsContext.countCache, BitVec.ofNat_add]
    · have hne : ¬id = i := fun h => hi h.symm
      simp [tally, hi, hne]
  · intro past id e
    ext i : 1
    by_cases hi : i = id
    · subst hi
      cases e <;> simp [tally, StatsContext.countResponse, BitVec.ofNat_add]
    · have hne : ¬id = i := fun h => hi h.symm
      simp [tally, hi, hne]
  · intro past id e
    ext i : 1
    by_cases hi : i = id
    · subst hi
      cases e <;> simp [tally, StatsContext.countRequest, BitVec.ofNat_add]
    · have hne : ¬id = i := fun h => hi h.symm
      simp [tally, hi, hne]

end Stats

/-! ### The packets of the network -/

/-- The replies, as far as they are known. -/
abbrev replies (packets : List NetPacket) (fates : List (Fate z)) : List (Metadata × List Byte) :=
  (judged packets fates).filterMap judgedReply

structure NetInv (setData : List Byte → AxiData) (packets : List NetPacket) (s : State z) : Prop where
  netMetadata : s.netMetadata.sent = packets.map NetPacket.metadata
  netData : s.netData.sent = packets.flatMap NetPacket.beats
  parserMetadata : s.parserMetadata.sent = s.netMetadata.past
  bufferMetadata : s.bufferMetadata.sent = s.netMetadata.past
  parserData : s.parserData.sent = s.netData.past
  bufferData : s.bufferData.sent = s.netData.past
  parser : ParserInv packets s.parser s.parserMetadata.past.length s.parserData.past s.reqPrs2mem.sent
    s.n2hStats.sent
  handle : HandleInv s.reqPrs2mem.past s.reqMem2mem.sent s.cache.cache.outstandingReads.sent
  memory : s.MemoryInv packets
  action : ActionInv packets s.fates s.resolutions s.bufferMetadata.past s.actionStream.past
    s.packetAction.sent s.backpressureDrop.sent
  dropper : DropperInv setData packets s.resolutions s.dropper s.packetAction.past.length s.bufferData.past
    s.netMetadataOutput s.netDataOutput
  replier : ReplierInv setData (replies packets s.fates) s.replier s.replyMetadata.past s.m2.sent
    s.replyData.past.length s.d2.sent
  stats : s.stats = tally s.n2hStats.past s.h2nStats.past s.statsCache.past s.backpressureDrop.past

section Net

variable {setData : List Byte → AxiData} {packets : List NetPacket} {s : State z}

theorem netInv_init (cells : BitVec 64 → BitVec 512) (logSize : BitVec 6 → ℕ) (ringId : BitVec 6 → RingId)
    (hostPackets : List HostPacket) :
    NetInv setData packets (.init cells logSize ringId packets hostPackets : State z) where
  netMetadata := rfl
  netData := rfl
  parserMetadata := rfl
  bufferMetadata := rfl
  parserData := rfl
  bufferData := rfl
  parser := ⟨⟨rfl, rfl, .zero _ _⟩, rfl, rfl⟩
  handle := ⟨rfl, rfl⟩
  memory := by
    constructor
    · rfl
    · exact Nat.zero_le _
    · intro r hr
      cases hr
    · rfl
    · rfl
    · intro n f hf
      cases hf
    all_goals simp [State.init]
  action := by
    constructor
    · rfl
    · rfl
    · exact Nat.le_refl _
    · simp [State.init]
    · simp [State.init]
    · intro n f r hf
      cases hf
  dropper := ⟨⟨.zero _ _, .zero _ _⟩, rfl, Nat.zero_le _⟩
  replier := ⟨⟨rfl, rfl, .zero _ _⟩, rfl⟩
  stats := by
    funext id
    simp [State.init, tally, StatsContext.init]

/-- What `handle_memory_responses` can do: nothing, take up a request that then waits, or judge one. -/
theorem State.handleMemoryResponses_cases (s : State z) (i : MemoryIn) :
    s.handleMemoryResponses i = s ∨
    (∃ r, s.handleMemoryResponses i = { s with
      memRespReq := some r
      reqMem2mem := s.reqMem2mem.readIf s.memRespReq.isNone }) ∨
    ∃ r f cache,
      (cache = s.cache ∨ cache = s.cache.step (fun id => s.logSize (BitVec.ofNat 6 id)) .getFindResult) ∧
      s.handleMemoryResponses i = { s with
        memRespReq := some r
        reqMem2mem := s.reqMem2mem.readIf s.memRespReq.isNone
        cache := cache }.complete r f := by
  unfold handleMemoryResponses
  cases hr : memRespRequest i s.memRespReq s.reqMem2mem.head with
  | none => exact .inl rfl
  | some r =>
    right
    dsimp only
    cases htype : r.type with
    | SET => exact .inr ⟨r, .pass, s.cache, .inl rfl, rfl⟩
    | OTHER => exact .inr ⟨r, .pass, s.cache, .inl rfl, rfl⟩
    | GET =>
      dsimp only
      cases hfound : s.cache.cache.getFindResult.1 with
      | none => exact .inl ⟨r, rfl⟩
      | some found => exact .inr ⟨r, fate i found, _, .inr rfl, rfl⟩

namespace NetInv

theorem parserMetadata_prefix (h : NetInv setData packets s) :
    s.parserMetadata.sent <+: packets.map NetPacket.metadata := by
  rw [h.parserMetadata, ← h.netMetadata]
  exact Fifo.past_prefix_sent _

theorem bufferMetadata_prefix (h : NetInv setData packets s) :
    s.bufferMetadata.sent <+: packets.map NetPacket.metadata := by
  rw [h.bufferMetadata, ← h.netMetadata]
  exact Fifo.past_prefix_sent _

theorem parserData_prefix (h : NetInv setData packets s) :
    s.parserData.sent <+: packets.flatMap NetPacket.beats := by
  rw [h.parserData, ← h.netData]
  exact Fifo.past_prefix_sent _

theorem bufferData_prefix (h : NetInv setData packets s) :
    s.bufferData.sent <+: packets.flatMap NetPacket.beats := by
  rw [h.bufferData, ← h.netData]
  exact Fifo.past_prefix_sent _

theorem requests_prefix (h : NetInv setData packets s) :
    s.reqPrs2mem.sent <+: packets.map (NetPacket.request z) := by
  rw [h.parser.requests_eq]
  exact map_take_isPrefix _ _ _

theorem mem2mem_prefix (h : NetInv setData packets s) :
    s.reqMem2mem.sent <+: packets.map (NetPacket.request z) := by
  rw [h.handle.mem2mem_eq]
  exact (Fifo.past_prefix_sent _).trans h.requests_prefix

/-- The data of a reply is written for replies that are known. -/
theorem replyData_le (h : NetInv setData packets s) :
    s.replyData.past.length ≤ (replies packets s.fates).length := by
  have hle := (Fifo.past_prefix_sent s.replyData).length_le
  rwa [h.memory.replyData_eq, List.length_map] at hle

/-- A call that takes a request to the cache. -/
theorem request (h : NetInv setData packets s) {r : ParsedRequest z} (hr : s.reqPrs2mem.head = some r)
    (logSize : ℕ → ℕ) :
    NetInv setData packets { s with
      reqPrs2mem := s.reqPrs2mem.pop
      cache := (r.access.map (s.cache.step logSize)).getD s.cache
      reqMem2mem := s.reqMem2mem.write r } := by
  obtain ⟨q, hq⟩ := Fifo.queue_eq_of_head _ hr
  have hpast : ((r.access.map (s.cache.step logSize)).getD s.cache).cache.outstandingReads.past =
      s.cache.cache.outstandingReads.past ∧
      ((r.access.map (s.cache.step logSize)).getD s.cache).results = s.cache.results := by
    unfold ParsedRequest.access
    cases r.type with
    | GET => exact outstanding_past_step logSize s.cache (.find false _ _) (by simp)
    | SET => exact outstanding_past_step logSize s.cache (.erase _ _) (by simp)
    | OTHER => exact ⟨rfl, rfl⟩
  refine { h with parser := ?_, handle := ?_, memory := ?_ }
  · simp only [Fifo.sent_pop]
    exact h.parser
  · constructor
    · rw [Fifo.sent_write, Fifo.past_pop _ hq, h.handle.mem2mem_eq]
    · rw [outstanding_access, Fifo.past_pop _ hq, List.filterMap_append, ← h.handle.outstanding_eq]
      rfl
  · simp only [State.MemoryInv, hpast.1, hpast.2, Fifo.past_write]
    exact h.memory

theorem handleParsedPacket (h : NetInv setData packets s) (i : HandleIn) :
    NetInv setData packets (s.handleParsedPacket i) := by
  unfold State.handleParsedPacket
  cases hop : Memcached.handleParsedPacket i s.kvPairs.head s.reqPrs2mem.head with
  | none => exact { h with }
  | insert kv => exact { h with }
  | request r =>
    obtain ⟨-, hr⟩ := handleParsedPacket_request hop
    exact h.request hr _

theorem handleMemoryResponses (h : NetInv setData packets s) (i : MemoryIn) :
    NetInv setData packets (s.handleMemoryResponses i) := by
  have hmemory := State.memoryInv_handleMemoryResponses h.memory i h.mem2mem_prefix
    (h.handle.mem2mem_eq ▸ h.handle.outstanding_eq)
  rcases s.handleMemoryResponses_cases i with heq | ⟨r, heq⟩ | ⟨r, f, cache, hcache, heq⟩
  · rw [heq]
    exact h
  · rw [heq] at hmemory ⊢
    refine { h with handle := ⟨?_, h.handle.outstanding_eq⟩, memory := hmemory }
    rw [Fifo.sent_readIf]
    exact h.handle.mem2mem_eq
  · rw [heq] at hmemory ⊢
    -- one more fate is known
    have hlt : s.fates.length < packets.length := by
      have hle : (s.fates ++ [f]).length ≤ packets.length := hmemory.le
      rwa [List.length_append, List.length_singleton] at hle
    have hzip : judged packets (s.fates ++ [f]) = judged packets s.fates ++ [(packets[s.fates.length], f)] :=
      zip_snoc (List.getElem?_eq_getElem hlt) f
    refine { h with handle := ⟨?_, ?_⟩, memory := hmemory, action := ?_, replier := ?_ }
    · show (s.reqMem2mem.readIf _).sent = _
      rw [Fifo.sent_readIf]
      exact h.handle.mem2mem_eq
    · have hsent : cache.cache.outstandingReads.sent = s.cache.cache.outstandingReads.sent := by
        rcases hcache with rfl | rfl
        · rfl
        · exact outstanding_step _ _ _ (by simp)
      exact hsent.trans h.handle.outstanding_eq
    · exact h.action.extend (List.prefix_append _ _)
    · have hreplies : replies packets (s.fates ++ [f]) =
          replies packets s.fates ++ [(packets[s.fates.length], f)].filterMap judgedReply := by
        rw [replies, hzip, List.filterMap_append]
      show ReplierInv setData (replies packets (s.fates ++ [f])) _ _ _ _ _
      rw [hreplies]
      exact h.replier.extend h.replyData_le _

theorem actionResolution (h : NetInv setData packets s) (i : ActionIn) :
    NetInv setData packets (s.actionResolution i) := by
  unfold State.actionResolution
  cases hcall : Memcached.actionResolution i s.ringId s.bufferMetadata.head s.actionStream.head with
  | none => exact { h with }
  | some x =>
    obtain ⟨m, r⟩ := x
    have haction := actionInv_actionResolution h.action h.bufferMetadata_prefix h.memory.actions_eq hcall
    have hlt : s.resolutions.length < packets.length := by
      have hle : (s.resolutions ++ [r]).length ≤ s.fates.length := haction.le
      rw [List.length_append, List.length_singleton] at hle
      exact hle.trans h.memory.le
    refine { h with bufferMetadata := ?_, memory := ?_, action := haction, dropper := ?_ }
    · rw [Fifo.sent_pop]
      exact h.bufferMetadata
    · simp only [State.MemoryInv, Fifo.sent_pop]
      exact h.memory
    · exact h.dropper.extend (routed_snoc (List.getElem?_eq_getElem hlt) r)

end NetInv

/-- **Every call keeps the invariant.** -/
theorem netInv_step (h : NetInv setData packets s) (a : Act) : NetInv setData packets (step setData s a) := by
  cases a with
  | dupMetadata full =>
    refine { h with netMetadata := ?_, parserMetadata := ?_, bufferMetadata := ?_ }
    · exact (Fifo.sent_readIf _ _).trans h.netMetadata
    · show (s.parserMetadata.put _).sent = _
      rw [Fifo.sent_put, h.parserMetadata]
      exact (past_readIf_dup _ _).symm
    · show (s.bufferMetadata.put _).sent = _
      rw [Fifo.sent_put, h.bufferMetadata]
      exact (past_readIf_dup _ _).symm
  | dupData full =>
    refine { h with netData := ?_, parserData := ?_, bufferData := ?_ }
    · exact (Fifo.sent_readIf _ _).trans h.netData
    · show (s.parserData.put _).sent = _
      rw [Fifo.sent_put, h.parserData]
      exact (past_readIf_dup _ _).symm
    · show (s.bufferData.put _).sent = _
      rw [Fifo.sent_put, h.bufferData]
      exact (past_readIf_dup _ _).symm
  | parsePacket full =>
    have hparser := parserInv_parsePacket full h.parser h.parserMetadata_prefix h.parserData_prefix
    refine { h with parserMetadata := ?_, parserData := ?_, parser := hparser }
    · exact (Fifo.sent_readIf _ _).trans h.parserMetadata
    · exact (Fifo.sent_readIf _ _).trans h.parserData
  | handleParsedPacket i => exact h.handleParsedPacket i
  | memory => exact { h with }
  | handleMemoryResponses i => exact h.handleMemoryResponses i
  | actionResolution i => exact h.actionResolution i
  | dropOrPass =>
    have hdropper := dropperInv_dropOrPass h.dropper h.action.packetActions_eq h.bufferData_prefix
    refine { h with bufferData := ?_, action := ?_, dropper := hdropper }
    · exact (Fifo.sent_readIf _ _).trans h.bufferData
    · have hsent := Fifo.sent_readIf s.packetAction
        (dropOrPass setData s.dropper s.packetAction.head s.bufferData.head).2.readAction
      exact hsent ▸ h.action
  | replyCachedValue m2Full d2Full =>
    have hreplies : s.replyData.sent <+: (replies packets s.fates).map (·.2) := by
      rw [h.memory.replyData_eq]
    have hreplier := replierInv_replyCachedValue m2Full d2Full h.replier hreplies
    refine { h with memory := ?_, replier := hreplier }
    simp only [State.MemoryInv, step, Fifo.sent_readIf]
    exact h.memory
  | interceptOut i => exact { h with }
  | arbitrate =>
    refine { h with replier := ?_ }
    simp only [step, Fifo.sent_readIf]
    exact h.replier
  | updateStats update =>
    cases update with
    | true => exact h
    | false =>
      refine { h with parser := ?_, memory := ?_, action := ?_, stats := ?_ }
      · simp only [step, Bool.false_eq_true, if_false, Fifo.sent_readIf]
        exact h.parser
      · simp only [State.MemoryInv, step, Bool.false_eq_true, if_false, Fifo.sent_readIf]
        exact h.memory
      · simp only [step, Bool.false_eq_true, if_false, Fifo.sent_readIf]
        exact h.action
      · simp only [step, Bool.false_eq_true, if_false]
        rw [h.stats]
        exact updateStats_eq

theorem netInv_run (h : NetInv setData packets s) (acts : List Act) :
    NetInv setData packets (run (step setData) s acts) :=
  run_invariant (P := NetInv setData packets) (fun _ a hs => netInv_step hs a) acts s h

end Net

/-! ### The way to the network -/

/-- The packets on the two ports of the arbiter: those of the host and the replies. -/
def ports (setData : List Byte → AxiData) (packets : List NetPacket) (hosted : List HostPacket)
    (fates : List (Fate z)) (transmits : List Bool) (c : Bool) : List PortPacket :=
  if c then (replies packets fates).map (fun x => (x.1, replyBeats setData x))
  else (transmitted hosted transmits).map (fun p => (p.metadata, p.beats))

/-- The streams of the two ports. -/
def State.portMetadata (s : State z) (c : Bool) : Fifo Metadata := if c then s.m2 else s.m1

def State.portData (s : State z) (c : Bool) : Fifo AxiData := if c then s.d2 else s.d1

structure HostInv (setData : List Byte → AxiData) (packets : List NetPacket) (hosted : List HostPacket)
    (s : State z) : Prop where
  hostMetadata : s.hostMetadata.sent = hosted.map HostPacket.metadata
  hostData : s.hostData.sent = hosted.flatMap HostPacket.beats
  intercept : InterceptInv hosted s.transmits s.interceptor s.hostMetadata.past.length s.hostData.past
    s.m1.sent s.d1.sent
  arbiter : ∃ served, ArbiterInv (ports setData packets hosted s.fates s.transmits) served s.arbiter
    s.portMetadata s.portData s.hostMetadataOutput s.hostDataOutput

section Host

variable {setData : List Byte → AxiData} {packets : List NetPacket} {hosted : List HostPacket} {s : State z}

theorem hostInv_init (cells : BitVec 64 → BitVec 512) (logSize : BitVec 6 → ℕ) (ringId : BitVec 6 → RingId) :
    HostInv setData packets hosted (.init cells logSize ringId packets hosted : State z) where
  hostMetadata := rfl
  hostData := rfl
  intercept := by
    refine ⟨⟨.zero _ _, ?_⟩, rfl, ?_⟩
    · simpa [State.init, transmitted] using Owed.zero HostPacket.beats (transmitted hosted [])
    · simp [State.init, transmitted]
  arbiter := by
    refine ⟨[], ?_, rfl, .zero _ _, ?_⟩
    · intro c
      cases c <;> rfl
    · intro c
      cases c <;> exact .zero _ _

namespace HostInv

/-- What is written to a port is a prefix of its packets. -/
theorem portMetadata_prefix (h : HostInv setData packets hosted s) (hnet : NetInv setData packets s)
    (c : Bool) : (s.portMetadata c).sent <+: (ports setData packets hosted s.fates s.transmits c).map (·.1) := by
  cases c with
  | false =>
    show s.m1.sent <+: ((transmitted hosted s.transmits).map _).map _
    rw [h.intercept.m1_eq, List.map_map]
    exact List.prefix_refl _
  | true =>
    show s.m2.sent <+: ((replies packets s.fates).map _).map _
    rw [hnet.replier.m2_eq, List.map_map]
    exact hnet.memory.replyMetadata_eq ▸ Fifo.past_prefix_sent _

theorem portData_prefix (h : HostInv setData packets hosted s) (hnet : NetInv setData packets s)
    (c : Bool) : (s.portData c).sent <+:
      (ports setData packets hosted s.fates s.transmits c).flatMap (·.2) := by
  cases c with
  | false =>
    show s.d1.sent <+: ((transmitted hosted s.transmits).map _).flatMap _
    rw [List.flatMap_map]
    have hphase := h.intercept.phase
    unfold InterceptPhase at hphase
    cases hu : s.interceptor.outState with
    | metadata =>
      simp only [hu] at hphase
      exact hphase.2.done_prefix_pieces
    | data =>
      simp only [hu] at hphase
      obtain ⟨due, -, -, hout⟩ := hphase
      exact hout.done_prefix_pieces
  | true =>
    show s.d2.sent <+: ((replies packets s.fates).map _).flatMap _
    rw [List.flatMap_map]
    have hphase := hnet.replier.phase
    unfold ReplierPhase at hphase
    cases hu : s.replier.state with
    | requestMetadata =>
      simp only [hu] at hphase
      exact hphase.2.2.done_prefix_pieces
    | readRequest =>
      simp only [hu] at hphase
      exact hphase.2.2.done_prefix_pieces
    | generateResponse =>
      simp only [hu] at hphase
      obtain ⟨-, x, -, hout⟩ := hphase
      exact hout.done_prefix_pieces

theorem isPacket_ports (c : Bool) (transmits : List Bool) (fates : List (Fate z)) :
    ∀ x ∈ ports setData packets hosted fates transmits c, IsPacket x.2 := by
  intro x hx
  cases c with
  | false =>
    obtain ⟨p, -, rfl⟩ := List.mem_map.mp hx
    exact p.isPacket
  | true =>
    obtain ⟨r, -, rfl⟩ := List.mem_map.mp hx
    exact isPacket_replyBeats setData r

/-- The packets on the ports become more, and what was read from the ports stays. -/
theorem arbiter_extend (h : HostInv setData packets hosted s) (hnet : NetInv setData packets s)
    {fates : List (Fate z)} {transmits : List Bool} {m1 m2 : Fifo Metadata} {d1 d2 : Fifo AxiData}
    (hports : ∀ c, ports setData packets hosted s.fates s.transmits c <+:
      ports setData packets hosted fates transmits c)
    (hm1 : m1.past = s.m1.past) (hm2 : m2.past = s.m2.past) (hd1 : d1.past = s.d1.past)
    (hd2 : d2.past = s.d2.past) :
    ∃ served, ArbiterInv (ports setData packets hosted fates transmits) served s.arbiter
      (fun c => if c then m2 else m1) (fun c => if c then d2 else d1) s.hostMetadataOutput
      s.hostDataOutput := by
  obtain ⟨served, hserved⟩ := h.arbiter
  have hle : ∀ c, (s.portMetadata c).past.length ≤
      (ports setData packets hosted s.fates s.transmits c).length := by
    intro c
    have := ((Fifo.past_prefix_sent _).trans (h.portMetadata_prefix hnet c)).length_le
    rwa [List.length_map] at this
  refine ⟨served, (hserved.extend hle hports).congr ?_ ?_⟩
  · intro c
    cases c
    · exact hm1
    · exact hm2
  · intro c
    cases c
    · exact hd1
    · exact hd2

end HostInv

/-- One more fate only adds replies. -/
theorem ports_fates (hosted : List HostPacket) (transmits : List Bool) {fates fates' : List (Fate z)}
    (hle : fates <+: fates') (c : Bool) :
    ports setData packets hosted fates transmits c <+: ports setData packets hosted fates' transmits c := by
  cases c with
  | false => exact List.prefix_refl _
  | true =>
    obtain ⟨more, rfl⟩ := hle
    have hzip : judged packets fates <+: judged packets (fates ++ more) := zip_isPrefix_zip_append _ _ _
    exact (hzip.filterMap _).map _

theorem transmitted_isPrefix {transmits : List Bool} (more : List Bool) :
    transmitted hosted transmits <+: transmitted hosted (transmits ++ more) := by
  have hzip : hosted.zip transmits <+: hosted.zip (transmits ++ more) := zip_isPrefix_zip_append _ _ _
  exact (hzip.filter _).map _

theorem ports_transmits (fates : List (Fate z)) {transmits : List Bool} (more : List Bool) (c : Bool) :
    ports setData packets hosted fates transmits c <+:
      ports setData packets hosted fates (transmits ++ more) c := by
  cases c with
  | false => exact (transmitted_isPrefix more).map _
  | true => exact List.prefix_refl _

/-- **Every call keeps the invariant of the way to the network.** -/
theorem hostInv_step (h : HostInv setData packets hosted s) (hnet : NetInv setData packets s) (a : Act) :
    HostInv setData packets hosted (step setData s a) := by
  cases a with
  | dupMetadata full => exact { h with }
  | dupData full => exact { h with }
  | parsePacket full => exact { h with }
  | handleParsedPacket i =>
    show HostInv _ _ _ (s.handleParsedPacket i)
    unfold State.handleParsedPacket
    cases Memcached.handleParsedPacket i s.kvPairs.head s.reqPrs2mem.head with
    | none => exact { h with }
    | insert kv => exact { h with }
    | request r => exact { h with }
  | memory => exact { h with }
  | handleMemoryResponses i =>
    show HostInv _ _ _ (s.handleMemoryResponses i)
    rcases s.handleMemoryResponses_cases i with heq | ⟨r, heq⟩ | ⟨r, f, cache, -, heq⟩
    · rw [heq]
      exact h
    · rw [heq]
      exact { h with }
    · rw [heq]
      refine { h with arbiter := ?_ }
      exact h.arbiter_extend hnet (ports_fates hosted s.transmits (List.prefix_append _ _)) rfl rfl rfl rfl
  | actionResolution i =>
    show HostInv _ _ _ (s.actionResolution i)
    unfold State.actionResolution
    cases Memcached.actionResolution i s.ringId s.bufferMetadata.head s.actionStream.head with
    | none => exact { h with }
    | some x => exact { h with }
  | dropOrPass => exact { h with }
  | replyCachedValue m2Full d2Full =>
    refine { h with arbiter := ?_ }
    exact h.arbiter_extend hnet (fun _ => List.prefix_refl _) rfl rfl rfl rfl
  | interceptOut i =>
    have hintercept := interceptInv_interceptOut i h.intercept (by rw [h.hostMetadata]) (by rw [h.hostData])
    refine { h with hostMetadata := ?_, hostData := ?_, intercept := hintercept, arbiter := ?_ }
    · exact (Fifo.sent_readIf _ _).trans h.hostMetadata
    · exact (Fifo.sent_readIf _ _).trans h.hostData
    · exact h.arbiter_extend hnet (ports_transmits s.fates _) rfl rfl rfl rfl
  | arbitrate =>
    obtain ⟨served, hserved⟩ := h.arbiter
    obtain ⟨served', hserved'⟩ := arbiterInv_arbitrate hserved (h.portMetadata_prefix hnet)
      (h.portData_prefix hnet) (fun c => HostInv.isPacket_ports c _ _)
    refine { h with intercept := ?_, arbiter := ⟨served', hserved'.congr ?_ ?_⟩ }
    · simp only [step, Fifo.sent_readIf]
      exact h.intercept
    · intro c
      cases c <;> rfl
    · intro c
      cases c <;> rfl
  | updateStats update => cases update <;> exact { h with }

end Host

/-! ### Conservation -/

/-- The bytes of a beat: those that are kept. -/
def beatBytes (d : AxiData) : ℕ := (List.range 32).countP (fun i => d.keep.getLsbD i)

def byteCount (beats : List AxiData) : ℕ := (beats.map beatBytes).sum

/-- `set_data` keeps as many bytes as it is given. -/
def KeepsBytes (setData : List Byte → AxiData) : Prop :=
  ∀ bytes : List Byte, bytes.length ≤ 32 → beatBytes (setData bytes) = bytes.length

/-- If the length of a packet counts its bytes, so does the length that it is passed on with. -/
def LengthOk (setData : List Byte → AxiData) (x : NetPacket × Resolution) : Prop :=
  x.1.metadata.length.toNat = byteCount x.1.beats → ∀ m, passedMetadata x = some m →
    m.length.toNat = byteCount (passedBeats setData x)

/-- A reply goes to the sender of the request and has the bytes of the response in its two beats. -/
def ReplyOk (setData : List Byte → AxiData) (p : NetPacket) (value : Value z) (x : Metadata × List Byte) :
    Prop :=
  getPacketMetadata x.1 = replyAddresses (getPacketMetadata p.metadata) ∧ x.1.ringId = 0 ∧
    x.1.ikernelId = p.metadata.ikernelId ∧ x.1.length.toNat = replySize z ∧
    x.2 = generateResponse (p.request z) value ∧
    byteCount (replyBeats setData x) = replySize z

/-- Whether a packet was dropped, by its fate and its resolution. -/
def isDropped (f : Fate z) (r : Resolution) : Bool :=
  match f with
  | .hitDrop | .hitTcBackpressure => true
  | _ => r = .backpressure

/-- Whether a packet was answered from the cache. -/
def Fate.isHit : Fate z → Bool
  | .hit _ => true
  | _ => false

/-- The number of packets of an ikernel with a given fate or resolution. -/
def countFor {α : Type} (id : BitVec 6) (xs : List (NetPacket × α)) (q : α → Bool) : ℕ :=
  xs.countP (fun x => x.1.metadata.ikernelId = id && q x.2)

/-- The streams between the parser and the statistics are empty. -/
def State.Drained (s : State z) : Prop :=
  s.reqPrs2mem.queue = [] ∧ s.reqMem2mem.queue = [] ∧ s.cache.cache.outstandingReads.queue = [] ∧
    s.n2hStats.queue = [] ∧ s.statsCache.queue = []

/-- The packets of the network and what became of them. -/
structure Conserved (setData : List Byte → AxiData) (packets : List NetPacket) (hosted : List HostPacket)
    (s : State z) : Prop where
  /-- There is one action bit for each packet that was judged, in the order of the packets. -/
  bits : s.actionStream.sent = s.fates.map Fate.action ∧ s.fates.length ≤ packets.length
  /-- A packet is judged by its type and by the result of its own `find`. -/
  judged_ok : ∀ n f, s.fates[n]? = some f → FateOk packets s.cache.results n f
  /-- A bit is applied to the metadata of its packet. -/
  applied : s.packetAction.sent =
    (routed packets s.resolutions).map (fun x => packetAction x.1.metadata x.2)
  /-- A packet is exactly one of passed on, answered and dropped. -/
  outcome : ∀ (n : ℕ) (f : Fate z) (r : Resolution), s.fates[n]? = some f → s.resolutions[n]? = some r →
    [r.passes, f.isHit, isDropped f r].count true = 1
  /-- The host gets the metadata of the packets that are passed on, and their data. -/
  metadata : s.netMetadataOutput =
    ((routed packets s.resolutions).take s.packetAction.past.length).filterMap passedMetadata
  data : ∃ due, Owed (passedBeats setData) (routed packets s.resolutions) s.packetAction.past.length
    s.netDataOutput due ∧ (s.dropper.state = .metadata → due = [])
  lengths : ∀ x ∈ routed packets s.resolutions, LengthOk setData x
  /-- The answers are written as whole packets, to the senders of the requests. -/
  answers : ∃ served : List (Bool × PortPacket), ∃ n,
    (lane (·.1) served true).map (·.2) =
      ((replies packets s.fates).take n).map (fun x => (x.1, replyBeats setData x)) ∧
    (∃ k, (lane (·.1) served false).map (·.2) =
      ((transmitted hosted s.transmits).take k).map (fun p => (p.metadata, p.beats))) ∧
    s.hostMetadataOutput = served.map (·.2.1) ∧
    ∃ due, Owed (·.2.2) served served.length s.hostDataOutput due ∧ (s.arbiter = none → due = [])
  replies_ok : ∀ (n : ℕ) (p : NetPacket) (value : Value z), packets[n]? = some p →
    s.fates[n]? = some (.hit value) →
    ∃ x ∈ replies packets s.fates, ReplyOk setData p value x
  /-- A packet that is dropped is counted once, now or when its event is read. -/
  hitDrops : ∀ id, (s.stats id).getReqDroppedHits +
      BitVec.ofNat 32 (s.statsCache.queue.count (id, .hitDrop)) =
    BitVec.ofNat 32 (countFor id (judged packets s.fates) (· = .hitDrop))
  tcDrops : ∀ id, (s.stats id).tcBackpressureDropCount +
      BitVec.ofNat 32 (s.statsCache.queue.count (id, .hitTcBackpressure)) =
    BitVec.ofNat 32 (countFor id (judged packets s.fates) (· = .hitTcBackpressure))
  hostDrops : ∀ id, (s.stats id).backpressureDropCount +
      BitVec.ofNat 32 (s.backpressureDrop.queue.countP (·.1 = id)) =
    BitVec.ofNat 32 (countFor id (routed packets s.resolutions) (· = .backpressure))
  /-- Every `GET` is counted with what became of it. -/
  balanced : s.Drained → ∀ id, (s.stats id).getRequests =
    (s.stats id).getReqHit + (s.stats id).getReqMiss + (s.stats id).getReqDroppedHits +
      (s.stats id).tcBackpressureDropCount

/-- A packet that is about to be passed on to a custom ring has room for 32 more bytes in its length. -/
def LengthFits (s : State z) : Act → Prop
  | .actionResolution i => ∀ m ∈ s.bufferMetadata.head, s.actionStream.head = some true →
    i.canTransmit = true → s.ringId m.ikernelId ≠ 0 → m.length.toNat + 32 < 2 ^ 16
  | _ => True

/-! The outcome of a packet and its length. -/

theorem outcome_count {f : Fate z} {r : Resolution} (h : r = .drop ↔ f.action = false) :
    [r.passes, f.isHit, isDropped f r].count true = 1 := by
  cases f with
  | pass =>
    cases r with
    | drop => cases h.mp rfl
    | backpressure => rfl
    | pass ringId => rfl
  | miss =>
    cases r with
    | drop => cases h.mp rfl
    | backpressure => rfl
    | pass ringId => rfl
  | hit value =>
    obtain rfl := h.mpr rfl
    rfl
  | hitDrop =>
    obtain rfl := h.mpr rfl
    rfl
  | hitTcBackpressure =>
    obtain rfl := h.mpr rfl
    rfl

theorem byteCount_append (bs cs : List AxiData) : byteCount (bs ++ cs) = byteCount bs + byteCount cs := by
  rw [byteCount, List.map_append, List.sum_append]
  rfl

section Lengths

variable {setData : List Byte → AxiData} (hset : KeepsBytes setData)

include hset

theorem beatBytes_senderBeat (a : PacketAction) : beatBytes (senderBeat setData a) = 32 :=
  hset _ (by simp)

theorem lengthOk_of_fits {p : NetPacket} {r : Resolution}
    (hfits : ∀ ringId, r = .pass ringId → ringId ≠ 0 → p.metadata.length.toNat + 32 < 2 ^ 16) :
    LengthOk setData (p, r) := by
  intro hlength m hm
  have hbytes : p.metadata.length.toNat = byteCount p.beats := hlength
  cases r with
  | drop => cases hm
  | backpressure => cases hm
  | pass ringId =>
    cases hm
    by_cases hr : ringId = 0
    · subst hr
      exact hlength
    · have hfit := hfits ringId rfl hr
      have hmeta : (packetAction p.metadata (.pass ringId)).metadata.length = p.metadata.length + 32 := by
        simp only [packetAction]
        rw [if_pos hr]
      have hbeats : passedBeats setData (p, .pass ringId) =
          [senderBeat setData (packetAction p.metadata (.pass ringId))] ++ p.beats := by
        show (if ringId ≠ 0 then _ else _) ++ p.beats = _
        rw [if_pos hr]
      rw [hmeta, hbeats, byteCount_append, BitVec.toNat_add]
      show (p.metadata.length.toNat + 32) % 2 ^ 16 = beatBytes _ + 0 + byteCount p.beats
      rw [beatBytes_senderBeat hset, Nat.mod_eq_of_lt hfit, hbytes]
      omega

omit hset in
theorem length_bytes {n : ℕ} (a : BitVec (8 * n)) : (bytes a).length = n := by
  rw [bytes, List.length_map, List.length_range]

omit hset in
theorem length_generateResponse (r : ParsedRequest z) (value : Value z) :
    (generateResponse r value).length = replySize z := by
  have hdigits : ∀ v ≤ 16, 2 ≤ (ascii (toString v) ++ [0]).length := by decide
  have hvalue := hdigits z.value z.value_le
  have htake : ((ascii (toString z.value) ++ [0]).take 2).length = 2 := by
    rw [List.length_take]
    omega
  have hascii : (ascii "VALUE ").length = 6 ∧ (ascii " 0 ").length = 3 ∧ (ascii "\r\n").length = 2 ∧
      (ascii "\r\nEND\r\n").length = 7 := by
    decide
  simp only [generateResponse, List.length_append, length_bytes, hascii, replySize] at htake ⊢
  omega

theorem replyOk_hit (p : NetPacket) (value : Value z) :
    ReplyOk setData p value
      (replyMetadata p.metadata (replySize z), generateResponse (p.request z) value) := by
  have hkey := z.key_le
  have hvalue := z.value_le
  refine ⟨?_, p.ringId_eq, rfl, ?_, rfl, ?_⟩
  · simp only [replyMetadata, if_pos p.ringId_eq, getPacketMetadata]
  · show (BitVec.ofNat 16 (replySize z)).toNat = _
    rw [BitVec.toNat_ofNat, Nat.mod_eq_of_lt]
    unfold replySize
    omega
  · have hlen := length_generateResponse (p.request z) value
    have hfirst : beatBytes (setData ((generateResponse (p.request z) value).take 32)) = _ :=
      hset _ (by rw [List.length_take]; omega)
    have hsecond : beatBytes (setData ((generateResponse (p.request z) value).drop 32)) = _ :=
      hset _ (by rw [List.length_drop, hlen]; unfold replySize; omega)
    show beatBytes (setData _) + (beatBytes (setData _) + 0) = _
    rw [hfirst, hsecond, List.length_take, List.length_drop, hlen]
    omega

end Lengths

/-! The counters. -/

section Counters

variable {packets : List NetPacket}

/-- What was counted and what waits to be counted. -/
theorem countP_sent {E : Type} (f : Fifo E) (q : E → Bool) :
    BitVec.ofNat 32 (f.past.countP q) + BitVec.ofNat 32 (f.queue.countP q) =
      BitVec.ofNat 32 (f.sent.countP q) := by
  rw [Fifo.sent, List.countP_append, BitVec.ofNat_add]

theorem countFor_congr {α : Type} {id : BitVec 6} {xs : List (NetPacket × α)} {q q' : α → Bool}
    (h : ∀ a, q a = q' a) : countFor id xs q = countFor id xs q' := by
  rw [funext h]

theorem count_judgedStat (id : BitVec 6) (t : CacheStatsType) (xs : List (NetPacket × Fate z)) :
    (xs.filterMap judgedStat).count (id, t) =
      countFor id xs (fun f => f.stat = some t) := by
  rw [List.count_filterMap, countFor]
  apply List.countP_congr
  intro x _
  unfold judgedStat
  cases hstat : x.2.stat with
  | none => simp
  | some t' => simp

/-- Every event of an ikernel is one of the four. -/
theorem countP_events (id : BitVec 6) (es : List (BitVec 6 × CacheStatsType)) :
    es.countP (·.1 = id) =
      es.count (id, .hitGen) + es.count (id, .miss) + es.count (id, .hitDrop) +
        es.count (id, .hitTcBackpressure) := by
  induction es with
  | nil => rfl
  | cons e es ih =>
    obtain ⟨id', t⟩ := e
    by_cases hid : id' = id
    · subst hid
      cases t <;> simp [ih] <;> omega
    · simp [ih, hid]

/-- A judged packet has an event exactly when it is a `GET`. -/
theorem FateOk.isSome_stat {results : List (Option (Value z))} {n : ℕ} {f : Fate z} {p : NetPacket}
    (h : FateOk packets results n f) (hp : packets[n]? = some p) :
    f.stat.isSome = true ↔ (p.request z).type = .GET := by
  obtain ⟨p', hp', hfate⟩ := h
  rw [hp] at hp'
  cases hp'
  rcases hfate with ⟨hne, rfl⟩ | ⟨hget, i, found, -, rfl⟩
  · exact iff_of_false Bool.false_ne_true hne
  · refine iff_of_true ?_ hget
    unfold fate
    cases found with
    | none => rfl
    | some v => cases i.canTransmit <;> cases i.replyFull <;> rfl

/-- Among the packets that were judged, those of an ikernel that are `GET`s are those with an event. -/
theorem count_get {results : List (Option (Value z))} {fates : List (Fate z)}
    (hle : fates.length ≤ packets.length) (hok : ∀ n f, fates[n]? = some f → FateOk packets results n f)
    (id : BitVec 6) :
    ((packets.take fates.length).map (NetPacket.stat z)).count (id, .GET) =
      ((judged packets fates).filterMap judgedStat).countP (·.1 = id) := by
  have hfst : packets.take fates.length = (judged packets fates).map (·.1) := by
    have hlen : (packets.take fates.length).length ≤ fates.length := List.length_take_le _ _
    have hzip : judged packets fates = (packets.take fates.length).zip fates := by
      rw [judged, List.zip_eq_zip_take_min, Nat.min_eq_right hle, List.take_length]
    rw [hzip, List.map_fst_zip hlen]
  rw [hfst, List.map_map, List.count, List.countP_map, List.countP_filterMap]
  apply List.countP_congr
  intro x hx
  obtain ⟨n, hn⟩ := List.mem_iff_getElem?.mp hx
  obtain ⟨hp, hf⟩ := List.getElem?_zip_eq_some.mp hn
  have hsome := (hok n x.2 hf).isSome_stat hp
  simp only [Function.comp, NetPacket.stat, judgedStat, beq_iff_eq, Prod.mk.injEq]
  cases hstat : x.2.stat with
  | none =>
    rw [hstat] at hsome
    simp [← hsome]
  | some t =>
    rw [hstat] at hsome
    simp [← hsome]

end Counters

section Conservation

variable {setData : List Byte → AxiData} {packets : List NetPacket} {hosted : List HostPacket} {s : State z}

/-- When nothing is on its way, every packet that was parsed was judged. -/
theorem NetInv.fates_of_drained (h : NetInv setData packets s) (hs : s.Drained) :
    s.reqPrs2mem.sent.length = s.fates.length := by
  obtain ⟨hprs, hmem, hout, -, -⟩ := hs
  have hparsed : s.reqPrs2mem.past = s.reqPrs2mem.sent := by
    rw [Fifo.sent, hprs, List.append_nil]
  have hhandled : s.reqMem2mem.past = s.reqMem2mem.sent := by
    rw [Fifo.sent, hmem, List.append_nil]
  have hfound : s.cache.cache.outstandingReads.past = s.cache.cache.outstandingReads.sent := by
    rw [Fifo.sent, hout, List.append_nil]
  have hread := h.memory.read
  rw [hhandled, h.handle.mem2mem_eq] at hread
  -- a request that waits would have its key among the outstanding reads
  have hwaiting : s.memRespReq = none := by
    cases hw : s.memRespReq with
    | none => rfl
    | some r =>
      have hkeys := h.memory.outstanding_eq
      rw [hfound, h.handle.outstanding_eq, hread, hw, List.filterMap_append] at hkeys
      have hget : r.findKey = some r.key := if_pos (h.memory.waiting_get r hw)
      simp [hget] at hkeys
  rw [hwaiting, Option.toList_none, List.append_nil] at hread
  rw [← hparsed, hread, List.length_map, List.length_take, Nat.min_eq_left h.memory.le]

theorem NetInv.balanced (h : NetInv setData packets s) (hs : s.Drained) (id : BitVec 6) :
    (s.stats id).getRequests = (s.stats id).getReqHit + (s.stats id).getReqMiss +
      (s.stats id).getReqDroppedHits + (s.stats id).tcBackpressureDropCount := by
  have hlen := h.fates_of_drained hs
  obtain ⟨-, -, -, hn2h, hcache⟩ := hs
  have hrequests : s.n2hStats.past = (packets.take s.fates.length).map (NetPacket.stat z) := by
    rw [← hlen, ← h.parser.stats_eq, Fifo.sent, hn2h, List.append_nil]
  have hevents : s.statsCache.past = (judged packets s.fates).filterMap judgedStat := by
    rw [← h.memory.stats_eq, Fifo.sent, hcache, List.append_nil]
  have hcount := count_get h.memory.le h.memory.fates_ok id
  rw [← hrequests, ← hevents, countP_events] at hcount
  rw [h.stats]
  simp only [tally, hcount, BitVec.ofNat_add]

/-- The packets that were passed on to a custom ring had room in their lengths. -/
def FitInv (packets : List NetPacket) (s : State z) : Prop :=
  ∀ x ∈ routed packets s.resolutions, ∀ ringId, x.2 = .pass ringId → ringId ≠ 0 →
    x.1.metadata.length.toNat + 32 < 2 ^ 16

theorem fitInv_step (hfit : FitInv packets s) (h : NetInv setData packets s) {a : Act}
    (ha : LengthFits s a) : FitInv packets (step setData s a) := by
  cases a with
  | handleParsedPacket i =>
    show FitInv packets (s.handleParsedPacket i)
    unfold State.handleParsedPacket
    cases Memcached.handleParsedPacket i s.kvPairs.head s.reqPrs2mem.head <;> exact hfit
  | handleMemoryResponses i =>
    show FitInv packets (s.handleMemoryResponses i)
    rcases s.handleMemoryResponses_cases i with heq | ⟨r, heq⟩ | ⟨r, f, cache, -, heq⟩ <;>
      rw [heq] <;> exact hfit
  | actionResolution i =>
    show FitInv packets (s.actionResolution i)
    unfold State.actionResolution
    cases hcall : Memcached.actionResolution i s.ringId s.bufferMetadata.head s.actionStream.head with
    | none => exact hfit
    | some x =>
      obtain ⟨m, r⟩ := x
      obtain ⟨p, f, hp, -, -, hm, hbit, hr⟩ :=
        actionResolution_packet h.action h.bufferMetadata_prefix h.memory.actions_eq hcall
      intro x hx ringId hpass hring
      have hx' : x ∈ routed packets s.resolutions ++ [(p, r)] := routed_snoc hp r ▸ hx
      rcases List.mem_append.mp hx' with hx' | hx'
      · exact hfit x hx' ringId hpass hring
      · obtain rfl := List.mem_singleton.mp hx'
        -- only a packet with its bit set is passed on
        have hpass : resolve i.canTransmit f.action (s.ringId p.metadata.ikernelId) = .pass ringId :=
          hr.symm.trans hpass
        unfold resolve at hpass
        cases hf : f.action with
        | false => simp [hf] at hpass
        | true =>
          cases hcan : i.canTransmit with
          | false => simp [hf, hcan] at hpass
          | true =>
            simp only [hf, hcan, if_true, Resolution.pass.injEq] at hpass
            rw [hf] at hbit
            exact ha p.metadata hm hbit hcan (hpass ▸ hring)
  | updateStats update => cases update <;> exact hfit
  | _ => exact hfit

/-- **Conservation from the invariants.** -/
theorem conserved_of_inv (hset : KeepsBytes setData) (hnet : NetInv setData packets s)
    (hhost : HostInv setData packets hosted s) (hfit : FitInv packets s) :
    Conserved setData packets hosted s where
  bits := ⟨hnet.memory.actions_eq, hnet.memory.le⟩
  judged_ok := hnet.memory.fates_ok
  applied := hnet.action.packetActions_eq
  outcome := fun n f r hf hr => outcome_count (hnet.action.consistent n f r hf hr)
  metadata := hnet.dropper.metadata_eq
  data := by
    have hphase := hnet.dropper.phase
    unfold DropperPhase at hphase
    cases hu : s.dropper.state with
    | metadata =>
      simp only [hu] at hphase
      exact ⟨[], hphase.2, fun _ => rfl⟩
    | data =>
      simp only [hu] at hphase
      obtain ⟨due, -, -, hout⟩ := hphase
      exact ⟨_, hout, fun h => by cases h⟩
  lengths := fun x hx => lengthOk_of_fits hset (hfit x hx)
  answers := by
    obtain ⟨served, hserved⟩ := hhost.arbiter
    have hlanes := hserved.lanes
    refine ⟨served, s.m2.past.length, ?_, ⟨s.m1.past.length, ?_⟩, hserved.metadataOutput_eq, ?_⟩
    · rw [hlanes true, List.map_take]
      rfl
    · rw [hlanes false, List.map_take]
      rfl
    · have hphase := hserved.phase
      unfold ArbiterPhase at hphase
      cases hu : s.arbiter with
      | none =>
        simp only [hu] at hphase
        exact ⟨[], hphase.1, fun _ => rfl⟩
      | some cur =>
        simp only [hu] at hphase
        obtain ⟨due, -, hout, -⟩ := hphase
        exact ⟨due, hout, fun h => by cases h⟩
  replies_ok := by
    intro n p value hp hf
    have hx : (p, Fate.hit value) ∈ judged packets s.fates :=
      List.mem_iff_getElem?.mpr ⟨n, List.getElem?_zip_eq_some.mpr ⟨hp, hf⟩⟩
    exact ⟨_, List.mem_filterMap.mpr ⟨_, hx, rfl⟩, replyOk_hit hset p value⟩
  hitDrops := by
    intro id
    rw [hnet.stats]
    refine (countP_sent s.statsCache (· == (id, CacheStatsType.hitDrop))).trans ?_
    rw [hnet.memory.stats_eq]
    refine congrArg _ ((count_judgedStat id .hitDrop _).trans (countFor_congr ?_))
    intro f
    cases f <;> simp [Fate.stat]
  tcDrops := by
    intro id
    rw [hnet.stats]
    refine (countP_sent s.statsCache (· == (id, CacheStatsType.hitTcBackpressure))).trans ?_
    rw [hnet.memory.stats_eq]
    refine congrArg _ ((count_judgedStat id .hitTcBackpressure _).trans (countFor_congr ?_))
    intro f
    cases f <;> simp [Fate.stat]
  hostDrops := by
    intro id
    rw [hnet.stats]
    refine (countP_sent s.backpressureDrop (·.1 = id)).trans ?_
    rw [hnet.action.drops_eq, List.countP_filterMap, countFor]
    congr 2
    funext x
    by_cases hx : x.2 = .backpressure <;> simp [backpressureEvent, hx]
  balanced := fun hs id => hnet.balanced hs id

end Conservation

/-! ### Runs -/

instance (s : State z) : ∀ a : Act, Decidable (LengthFits s a)
  | .actionResolution _ => inferInstanceAs (Decidable (∀ m ∈ s.bufferMetadata.head, _))
  | .dupMetadata _ | .dupData _ | .parsePacket _ | .handleParsedPacket _ | .memory
  | .handleMemoryResponses _ | .dropOrPass | .replyCachedValue _ _ | .interceptOut _ | .arbitrate
  | .updateStats _ => .isTrue trivial

/-- Keys and values of ten bytes. -/
def tenBytes : Sizes := ⟨10, 10, by decide, by decide⟩

/-- `set_data` as far as the number of bytes goes. -/
def keepFirst (bytes : List Byte) : AxiData := ⟨0, BitVec.ofNat 32 (2 ^ bytes.length - 1), false⟩

theorem keepsBytes_keepFirst : KeepsBytes keepFirst := by
  intro bytes hle
  have hall : ∀ n ≤ 32, (List.range 32).countP
      (fun i => (BitVec.ofNat 32 (2 ^ n - 1)).getLsbD i) = n := by
    decide +kernel
  exact hall bytes.length hle

/-- A full beat of zeros, except for the first letter of a command. -/
def letterBeat (letter : Byte) (last : Bool) : AxiData := ⟨letter.setWidth 256 <<< (8 * 23), -1, last⟩

/-- A packet of `n + 1` full beats. -/
def fullPacket (letter : Byte) (n : ℕ) (id : BitVec 6) : NetPacket where
  metadata := { noMetadata with ikernelId := id, length := BitVec.ofNat 16 (32 * (n + 1)) }
  beats := List.replicate n (letterBeat letter false) ++ [letterBeat letter true]
  isPacket := ⟨_, _, rfl, rfl, fun b hb => by rw [(List.mem_replicate.mp hb).2]; rfl⟩
  ringId_eq := rfl

/-- The calls that take `k` packets of `n + 1` beats to the host. -/
def toHost (n k : ℕ) : List Act :=
  List.replicate k (.dupMetadata false) ++
  (List.replicate (k * (n + 2)) [.dupData false, .parsePacket false]).flatten ++
  (List.replicate k [.handleParsedPacket ⟨false, none, false, false⟩, .memory,
    .handleMemoryResponses ⟨false, true, false⟩,
    .actionResolution ⟨false, none, true, false, false⟩]).flatten ++
  List.replicate (k * (n + 2)) .dropOrPass ++ List.replicate k (.updateStats false)

/-- A `get` and a `set` of two ikernels, the first one with a ring. -/
def twoRequests : List NetPacket := [fullPacket 0x67 1 3, fullPacket 0x73 1 5]

def ringOfThree (id : BitVec 6) : RingId := if id = 3 then 9 else 0

/-- The beats in the middle of a packet go through the parser and change nothing but the streams. -/
theorem run_beats (setData : List Byte → AxiData) {b : AxiData} (hb : b.last = false) {q : List AxiData} :
    ∀ (k : ℕ) (s : State z), s.parser.inState = .data → s.parser.inOffset ≠ 0 →
      s.netData.queue = List.replicate k b ++ q → s.parserData.queue = [] →
      run (step setData) s (List.replicate k [.dupData false, .parsePacket false]).flatten =
        { s with
          netData := ⟨s.netData.past ++ List.replicate k b, q⟩
          parserData := ⟨s.parserData.past ++ List.replicate k b, []⟩
          bufferData := ⟨s.bufferData.past, s.bufferData.queue ++ List.replicate k b⟩ } := by
  intro k
  induction k with
  | zero =>
    intro s _ _ hnet hparser
    have hnet' : s.netData = ⟨s.netData.past, q⟩ := by
      rw [← List.nil_append q, ← List.replicate_zero (a := b), ← hnet]
    have hparser' : s.parserData = ⟨s.parserData.past, []⟩ := by
      rw [← hparser]
    simp only [List.replicate_zero, List.flatten_nil, run_nil, List.append_nil]
    rw [← hnet', ← hparser']
  | succ k ih =>
    intro s hstate hoffset hnet hparser
    -- one beat
    have hbeat : run (step setData) s [.dupData false, .parsePacket false] =
        { s with
          netData := ⟨s.netData.past ++ [b], List.replicate k b ++ q⟩
          parserData := ⟨s.parserData.past ++ [b], []⟩
          bufferData := ⟨s.bufferData.past, s.bufferData.queue ++ [b]⟩ } := by
      rw [List.replicate_succ, List.cons_append] at hnet
      simp [step, dup, Fifo.head, hnet, Fifo.readIf, Fifo.pop, Fifo.put, hparser, Memcached.parsePacket,
        hstate, Parser.look, hoffset, hb]
    have hrest := ih { s with
      netData := ⟨s.netData.past ++ [b], List.replicate k b ++ q⟩
      parserData := ⟨s.parserData.past ++ [b], []⟩
      bufferData := ⟨s.bufferData.past, s.bufferData.queue ++ [b]⟩ } hstate hoffset rfl rfl
    rw [List.replicate_succ, List.flatten_cons, run_append, hbeat, hrest]
    simp only [List.append_assoc, List.replicate_succ, List.singleton_append]

/-- The calls until a packet of `n + 2` beats has its action. -/
def toRing (n : ℕ) : List Act :=
  [.dupMetadata false, .parsePacket false, .dupData false, .parsePacket false] ++
  ((List.replicate n [.dupData false, .parsePacket false]).flatten ++
  [.dupData false, .parsePacket false, .handleParsedPacket ⟨false, none, false, false⟩,
    .handleMemoryResponses ⟨false, true, false⟩, .actionResolution ⟨false, none, true, false, false⟩])

theorem resolutions_toRing (n : ℕ) :
    (run (step keepFirst) (.init (fun _ => 0) (fun _ => 6) ringOfThree [fullPacket 0x73 (n + 1) 3] [] :
      State tenBytes) (toRing n)).resolutions = [.pass 9] := by
  rw [toRing, run_append, run_append, run_beats keepFirst (b := letterBeat 0x73 false) rfl
    (q := [letterBeat 0x73 true])]
  · rfl
  · rfl
  · exact Nat.one_ne_zero
  · exact List.append_nil _
  · rfl

theorem byteCount_fullPacket (letter : Byte) (n : ℕ) (id : BitVec 6) :
    byteCount (fullPacket letter n id).beats = 32 * (n + 1) := by
  have hbeat : ∀ last, beatBytes (letterBeat letter last) = 32 := by
    intro last
    show (List.range 32).countP (fun i => (-1 : BitVec 32).getLsbD i) = 32
    decide
  show byteCount (List.replicate n (letterBeat letter false) ++ [letterBeat letter true]) = _
  rw [byteCount_append]
  have hfront : byteCount (List.replicate n (letterBeat letter false)) = 32 * n := by
    rw [byteCount, List.map_replicate, hbeat]
    simp [Nat.mul_comm]
  have hfinal : byteCount [letterBeat letter true] = 32 := by
    rw [byteCount, List.map_singleton, hbeat]
    rfl
  rw [hfront, hfinal]
  omega

/-- 2047 full beats: the length of the packet on the ring is 0. -/
def longRequest : NetPacket := fullPacket 0x73 2046 3

end Nica.Hls.Memcached
