import Nica.Hls.Equiv.MemcachedIntercept
import Nica.Hls.Equiv.MemcachedConservation

/-!
# What the servers execute

`passed` are the packets that the ikernel passes on, in their order.  The servers find them in its output
(`frames_isPrefix`), with the beat of the sender in front of those for a ring, so the n-th execution is that of
the n-th packet passed on (`Server.execute_cases`) and the values are those of `Protocol.executeAll`.
`ServerInv` collects this with the invariants of the ikernel.
-/

namespace Nica.Hls.Memcached

open Nica.Lib

variable {z : Sizes}

/-! ### Frames -/

theorem frames_packet {f : List AxiData} (hf : IsPacket f) (bs : List AxiData) :
    frames (f ++ bs) = f :: frames bs := by
  obtain ⟨front, final, rfl, hfinal, hfront⟩ := hf
  induction front with
  | nil =>
    rw [List.nil_append, List.singleton_append, frames, if_pos hfinal]
  | cons b front ih =>
    have hb : b.last = false := hfront b (List.mem_cons_self ..)
    have ih := ih (fun c hc => hfront c (List.mem_cons_of_mem _ hc))
    rw [List.cons_append, List.cons_append, frames, ih, hb]
    rfl

/-- A packet that is not complete is not a frame. -/
theorem frames_of_not_last {bs : List AxiData} (h : ∀ b ∈ bs, b.last = false) : frames bs = [] := by
  induction bs with
  | nil => rfl
  | cons b bs ih =>
    rw [frames, h b (List.mem_cons_self ..), ih (fun c hc => h c (List.mem_cons_of_mem _ hc))]
    rfl

/-- The frames of what has been written of a sequence of packets are the first of the packets. -/
theorem frames_isPrefix {packets : List (List AxiData)} (hpackets : ∀ f ∈ packets, IsPacket f)
    {output : List AxiData} (h : output <+: packets.flatten) : frames output <+: packets := by
  induction packets generalizing output with
  | nil =>
    rw [List.prefix_nil.mp h]
    exact List.prefix_refl _
  | cons f packets ih =>
    rw [List.flatten_cons] at h
    have hf := hpackets f (List.mem_cons_self ..)
    rcases List.prefix_or_prefix_of_prefix h (List.prefix_append f _) with hpart | ⟨rest, rfl⟩
    · -- the first packet is on its way
      obtain ⟨front, final, hsplit, -, hfront⟩ := id hf
      rw [hsplit, List.prefix_concat_iff] at hpart
      rcases hpart with hall | hpart
      · have hone := frames_packet hf []
        rw [List.append_nil] at hone
        rw [hall, ← hsplit, hone]
        exact List.cons_prefix_cons.mpr ⟨rfl, List.nil_prefix⟩
      · rw [frames_of_not_last (fun b hb => hfront b (hpart.subset hb))]
        exact List.nil_prefix
    · rw [frames_packet hf]
      refine List.cons_prefix_cons.mpr ⟨rfl, ih (fun g hg => hpackets g (List.mem_cons_of_mem _ hg)) ?_⟩
      exact (List.prefix_append_right_inj f).mp h

/-! ### The packets passed on -/

/-- The packets that are passed on, with their resolutions. -/
def passed (xs : List (NetPacket × Resolution)) : List (NetPacket × Resolution) := xs.filter (·.2.passes)

theorem passed_append (xs ys : List (NetPacket × Resolution)) :
    passed (xs ++ ys) = passed xs ++ passed ys := List.filter_append ..

theorem passed_cons (x : NetPacket × Resolution) (xs : List (NetPacket × Resolution)) :
    passed (x :: xs) = if x.2.passes then x :: passed xs else passed xs := List.filter_cons ..

theorem passed_take_isPrefix (xs : List (NetPacket × Resolution)) (n : ℕ) : passed (xs.take n) <+: passed xs :=
  (List.take_prefix n xs).filter _

/-- The packet behind the first `n` that are passed on, among all packets. -/
theorem passed_getElem? {xs : List (NetPacket × Resolution)} {n : ℕ} {x : NetPacket × Resolution}
    (h : (passed xs)[n]? = some x) :
    ∃ j, xs[j]? = some x ∧ passed (xs.take j) = (passed xs).take n := by
  induction xs generalizing n with
  | nil => cases h
  | cons y xs ih =>
    rw [passed_cons] at h ⊢
    cases hy : y.2.passes with
    | true =>
      rw [hy, if_pos rfl] at h
      rw [if_pos rfl]
      cases n with
      | zero =>
        cases h
        exact ⟨0, rfl, rfl⟩
      | succ n =>
        obtain ⟨j, hj, htake⟩ := ih h
        refine ⟨j + 1, hj, ?_⟩
        rw [List.take_succ_cons, passed_cons, hy, if_pos rfl, htake, List.take_succ_cons]
    | false =>
      rw [hy, if_neg Bool.false_ne_true] at h
      rw [if_neg Bool.false_ne_true]
      obtain ⟨j, hj, htake⟩ := ih h
      refine ⟨j + 1, hj, ?_⟩
      rw [List.take_succ_cons, passed_cons, hy, if_neg Bool.false_ne_true, htake]

/-- A packet that is passed on stands behind those passed on before it. -/
theorem passed_getElem?_length {xs : List (NetPacket × Resolution)} {j : ℕ} {x : NetPacket × Resolution}
    (hx : xs[j]? = some x) (hpass : x.2.passes = true) : (passed xs)[(passed (xs.take j)).length]? = some x := by
  have hle : passed (xs.take (j + 1)) <+: passed xs := passed_take_isPrefix xs (j + 1)
  apply getElem?_of_isPrefix hle
  rw [take_succ_eq hx, passed_append, List.getElem?_append_right (Nat.le_refl _), Nat.sub_self, passed_cons,
    if_pos hpass]
  rfl

/-- What the server makes of a packet that is passed on: the addresses that stand in front of it on a ring
are not part of it. -/
theorem passed_spec (setData : List Byte → AxiData) {p : NetPacket} {r : Resolution} (hpass : r.passes = true) :
    (if (packetAction p.metadata r).metadata.ringId = 0 then passedBeats setData (p, r)
      else (passedBeats setData (p, r)).tail) = p.beats ∧
    (packetAction p.metadata r).metadata.ikernelId = p.metadata.ikernelId ∧
    IsPacket (passedBeats setData (p, r)) := by
  cases r with
  | drop => cases hpass
  | backpressure => cases hpass
  | pass ring =>
    by_cases hring : ring = 0
    · subst hring
      have hbeats : passedBeats setData (p, .pass 0) = p.beats := rfl
      rw [hbeats]
      exact ⟨if_pos p.ringId_eq, rfl, p.isPacket⟩
    · have hbeats : passedBeats setData (p, .pass ring) =
          senderBeat setData (packetAction p.metadata (.pass ring)) :: p.beats := by
        show (if ring ≠ 0 then _ else _) ++ p.beats = _
        rw [if_pos hring]
        rfl
      have hmetadata : (packetAction p.metadata (.pass ring)).metadata =
          { p.metadata with ringId := ring, length := p.metadata.length + 32, var := .inr ⟨1⟩ } := by
        show (if ring ≠ 0 then _ else _ : PacketAction).metadata = _
        rw [if_pos hring]
      rw [hbeats, hmetadata]
      refine ⟨if_neg hring, rfl, ?_⟩
      obtain ⟨front, final, hsplit, hfinal, hfront⟩ := p.isPacket
      refine ⟨senderBeat setData (packetAction p.metadata (.pass ring)) :: front, final, ?_, hfinal, ?_⟩
      · rw [hsplit, List.cons_append]
      · intro b hb
        rcases List.mem_cons.mp hb with rfl | hb
        · rfl
        · exact hfront b hb

section Output

variable {setData : List Byte → AxiData} {packets : List NetPacket} {resolutions : List Resolution}
  {u : Dropper} {n : ℕ} {done : List AxiData} {metadata : List Metadata} {output : List AxiData}

theorem flatMap_passedBeats (xs : List (NetPacket × Resolution)) :
    xs.flatMap (passedBeats setData) = ((passed xs).map (passedBeats setData)).flatten := by
  induction xs with
  | nil => rfl
  | cons x xs ih =>
    obtain ⟨p, r⟩ := x
    cases r with
    | drop => exact ih
    | backpressure => exact ih
    | pass ring =>
      have hcons : passed ((p, .pass ring) :: xs) = (p, .pass ring) :: passed xs := passed_cons _ _
      rw [List.flatMap_cons, ih, hcons, List.map_cons, List.flatten_cons]

theorem filterMap_passedMetadata (xs : List (NetPacket × Resolution)) :
    xs.filterMap passedMetadata = (passed xs).map (fun x => (packetAction x.1.metadata x.2).metadata) := by
  induction xs with
  | nil => rfl
  | cons x xs ih =>
    obtain ⟨p, r⟩ := x
    cases r with
    | drop => exact ih
    | backpressure => exact ih
    | pass ring =>
      have hcons : passed ((p, .pass ring) :: xs) = (p, .pass ring) :: passed xs := passed_cons _ _
      rw [hcons, List.map_cons, ← ih]
      rfl

/-- The frames in the output are the packets that are passed on. -/
theorem DropperInv.frames_isPrefix (h : DropperInv setData packets resolutions u n done metadata output) :
    frames output <+: (passed (routed packets resolutions)).map (passedBeats setData) := by
  apply Memcached.frames_isPrefix
  · intro f hf
    obtain ⟨⟨p, r⟩, hx, rfl⟩ := List.mem_map.mp hf
    exact (passed_spec setData (List.mem_filter.mp hx).2).2.2
  · rw [← flatMap_passedBeats]
    have hphase := h.phase
    unfold DropperPhase at hphase
    split at hphase
    · exact hphase.2.done_prefix_pieces
    · obtain ⟨due, -, -, hout⟩ := hphase
      exact hout.done_prefix_pieces

theorem DropperInv.metadata_isPrefix (h : DropperInv setData packets resolutions u n done metadata output) :
    metadata <+: (passed (routed packets resolutions)).map
      (fun x => (packetAction x.1.metadata x.2).metadata) := by
  rw [h.metadata_eq, filterMap_passedMetadata]
  exact (passed_take_isPrefix _ n).map _

end Output

/-! ### The values -/

/-- What the execution of a packet makes of the values. -/
def Protocol.execute (P : Protocol z) (store : BitVec 6 → Key z → Option (Value z)) (p : NetPacket) :
    BitVec 6 → Key z → Option (Value z) :=
  Function.update store p.metadata.ikernelId ((P.decode p.beats).apply (store p.metadata.ikernelId))

/-- The values after the execution of some packets. -/
def Protocol.executeAll (P : Protocol z) (store : BitVec 6 → Key z → Option (Value z))
    (xs : List (NetPacket × Resolution)) : BitVec 6 → Key z → Option (Value z) :=
  xs.foldl (fun values x => P.execute values x.1) store

/-- The answer to a packet, with the metadata that it was passed on with. -/
def Protocol.answer (P : Protocol z) (store : BitVec 6 → Key z → Option (Value z)) (m : Metadata)
    (p : NetPacket) : Answer z :=
  ⟨m, P.decode p.beats, (P.decode p.beats).gotKey.bind (store p.metadata.ikernelId)⟩

/-- A response is written to the streams from the host. -/
def State.respond (s : State z) (response : HostPacket) : State z :=
  { s with
    hostMetadata := s.hostMetadata.write response.metadata
    hostData := { s.hostData with queue := s.hostData.queue ++ response.beats } }

section Server

variable {setData : List Byte → AxiData} {P : Protocol z} {packets : List NetPacket} {s : Server z}

/-- The servers execute the packets that are passed on, one after the other. -/
theorem Server.execute_cases (h : NetInv setData packets s.ikernel) :
    s.execute P = s ∨
    ∃ x m, (passed (routed packets s.ikernel.resolutions))[s.answers.length]? = some x ∧
      m.ikernelId = x.1.metadata.ikernelId ∧
      s.execute P =
        { ikernel := s.ikernel.respond ((P.answer s.store m x.1).response P)
          store := P.execute s.store x.1
          answers := s.answers ++ [P.answer s.store m x.1] } := by
  unfold execute
  cases hm : s.ikernel.netMetadataOutput[s.answers.length]? with
  | none => exact .inl rfl
  | some m =>
    cases hbeats : (frames s.ikernel.netDataOutput)[s.answers.length]? with
    | none => exact .inl rfl
    | some beats =>
      right
      have hm' := getElem?_of_isPrefix h.dropper.metadata_isPrefix hm
      have hbeats' := getElem?_of_isPrefix h.dropper.frames_isPrefix hbeats
      rw [List.getElem?_map, Option.map_eq_some_iff] at hm' hbeats'
      obtain ⟨⟨p, r⟩, hx, rfl⟩ := hm'
      obtain ⟨x', hx', rfl⟩ := hbeats'
      rw [hx] at hx'
      cases hx'
      have hpass : r.passes = true := (List.mem_filter.mp (List.mem_of_getElem? hx)).2
      obtain ⟨hdata, hid, -⟩ := passed_spec (p := p) setData hpass
      refine ⟨(p, r), _, hx, hid, ?_⟩
      have hanswer : s.answer P (packetAction p.metadata r).metadata (passedBeats setData (p, r)) =
          P.answer s.store (packetAction p.metadata r).metadata p := by
        unfold Server.answer Protocol.answer
        rw [hdata, hid]
      simp only [hanswer, hid]
      rfl

/-- The ikernel and the servers: the invariants of the units, the way of the answers through
`intercept_out`, and the values of the packets that were executed. -/
structure ServerInv (setData : List Byte → AxiData) (P : Protocol z) (start : BitVec 64 → BitVec 512)
    (logSize : BitVec 6 → ℕ) (store : BitVec 6 → Key z → Option (Value z)) (packets : List NetPacket)
    (s : Server z) : Prop where
  net : NetInv setData packets s.ikernel
  logSize_eq : s.ikernel.logSize = logSize
  cache : CacheInv (fun id => logSize (BitVec.ofNat 6 id)) start s.ikernel.cache
  hostMetadata : s.ikernel.hostMetadata.sent = s.answers.map (fun a => (a.response P).metadata)
  hostData : s.ikernel.hostData.sent = s.answers.flatMap (fun a => (a.response P).beats)
  kv : KvInv P s.answers s.ikernel.interceptor s.ikernel.hostMetadata.past.length s.ikernel.hostData.past
    s.ikernel.kvPairs.sent
  answers_le : s.answers.length ≤ (passed (routed packets s.ikernel.resolutions)).length
  store_eq : s.store =
    P.executeAll store ((passed (routed packets s.ikernel.resolutions)).take s.answers.length)

variable {start : BitVec 64 → BitVec 512} {logSize : BitVec 6 → ℕ}
  {store : BitVec 6 → Key z → Option (Value z)}

theorem serverInv_init (ringId : BitVec 6 → RingId) :
    ServerInv setData P start logSize store packets (.init start logSize ringId store packets) where
  net := netInv_init _ _ _ _
  logSize_eq := rfl
  cache := cacheInv_init
  hostMetadata := rfl
  hostData := rfl
  kv := ⟨⟨rfl, .zero _ _⟩, rfl⟩
  answers_le := Nat.zero_le _
  store_eq := rfl

namespace ServerInv

/-- The pairs are those of the answers. -/
theorem kvPairs_isPrefix (h : ServerInv setData P start logSize store packets s) :
    s.ikernel.kvPairs.sent <+: s.answers.filterMap Answer.pair := by
  rw [h.kv.kv_eq]
  exact (List.take_prefix _ _).filterMap _

theorem execute (h : ServerInv setData P start logSize store packets s) :
    ServerInv setData P start logSize store packets (s.execute P) := by
  rcases Server.execute_cases (P := P) h.net with heq | ⟨x, m, hx, hid, heq⟩
  · rw [heq]
    exact h
  · rw [heq]
    have hread : s.ikernel.hostMetadata.past.length ≤ s.answers.length := by
      have hle := (Fifo.past_prefix_sent s.ikernel.hostMetadata).length_le
      rwa [h.hostMetadata, List.length_map] at hle
    refine { h with
      net := { h.net with }, hostMetadata := ?_, hostData := ?_, kv := ?_, answers_le := ?_, store_eq := ?_ }
    · show (s.ikernel.hostMetadata.write _).sent = _
      rw [Fifo.sent_write, h.hostMetadata, List.map_append]
      rfl
    · show s.ikernel.hostData.past ++ (s.ikernel.hostData.queue ++ _) = _
      rw [← List.append_assoc, List.flatMap_append, ← h.hostData, List.flatMap_singleton]
      rfl
    · exact h.kv.extend hread _
    · show (s.answers ++ [_]).length ≤ _
      rw [List.length_append, List.length_singleton]
      exact (List.getElem?_eq_some_iff.mp hx).1
    · show P.execute s.store x.1 = P.executeAll store
        ((passed (routed packets s.ikernel.resolutions)).take (s.answers ++ [_]).length)
      rw [List.length_append, List.length_singleton, take_succ_eq hx, Protocol.executeAll, List.foldl_append,
        h.store_eq]
      rfl

theorem handleParsedPacket (h : ServerInv setData P start logSize store packets s) (i : HandleIn) :
    ServerInv setData P start logSize store packets
      { s with ikernel := s.ikernel.handleParsedPacket { i with write := none } } := by
  have hnet := h.net.handleParsedPacket { i with write := none }
  revert hnet
  unfold State.handleParsedPacket
  cases hop : Memcached.handleParsedPacket { i with write := none } s.ikernel.kvPairs.head
      s.ikernel.reqPrs2mem.head with
  | none =>
    intro hnet
    refine { h with net := hnet, logSize_eq := ?_ }
    have hkeep : s.ikernel.logSizeAfter { i with write := none } = s.ikernel.logSize := by
      unfold State.logSizeAfter
      cases i.update <;> rfl
    exact hkeep.trans h.logSize_eq
  | insert kv =>
    intro hnet
    refine { h with net := hnet, cache := ?_, kv := ?_ }
    · show CacheInv _ start (s.ikernel.cache.step (fun id => s.ikernel.logSize (BitVec.ofNat 6 id))
        (.insert kv.ikernelId.toNat kv.key kv.value))
      rw [h.logSize_eq]
      exact h.cache.step _
    · rw [Fifo.sent_pop]
      exact h.kv
  | request r =>
    intro hnet
    refine { h with net := hnet, cache := ?_ }
    show CacheInv _ start
      ((r.access.map (s.ikernel.cache.step (fun id => s.ikernel.logSize (BitVec.ofNat 6 id)))).getD
        s.ikernel.cache)
    rw [h.logSize_eq]
    cases r.access with
    | none => exact h.cache
    | some a => exact h.cache.step a

theorem handleMemoryResponses (h : ServerInv setData P start logSize store packets s) (i : MemoryIn) :
    ServerInv setData P start logSize store packets
      { s with ikernel := s.ikernel.handleMemoryResponses i } := by
  have hnet := h.net.handleMemoryResponses i
  rcases s.ikernel.handleMemoryResponses_cases i with heq | ⟨r, heq⟩ | ⟨r, f, cache, hcache, heq⟩
  · rw [heq]
    exact h
  · rw [heq] at hnet ⊢
    exact { h with net := hnet }
  · rw [heq] at hnet ⊢
    refine { h with net := hnet, cache := ?_ }
    show CacheInv _ _ cache
    rcases hcache with rfl | rfl
    · exact h.cache
    · rw [h.logSize_eq]
      exact h.cache.step _

theorem actionResolution (h : ServerInv setData P start logSize store packets s) (i : ActionIn) :
    ServerInv setData P start logSize store packets
      { s with ikernel := s.ikernel.actionResolution i } := by
  have hnet := h.net.actionResolution i
  revert hnet
  unfold State.actionResolution
  cases hcall : Memcached.actionResolution i s.ikernel.ringId s.ikernel.bufferMetadata.head
      s.ikernel.actionStream.head with
  | none =>
    intro hnet
    exact { h with net := hnet }
  | some x =>
    obtain ⟨m, r⟩ := x
    intro hnet
    obtain ⟨p, f, hp, -⟩ :=
      actionResolution_packet h.net.action h.net.bufferMetadata_prefix h.net.memory.actions_eq hcall
    have hpassed : passed (routed packets (s.ikernel.resolutions ++ [r])) =
        passed (routed packets s.ikernel.resolutions) ++ passed [(p, r)] := by
      rw [routed_snoc hp, passed_append]
    refine { h with net := hnet, answers_le := ?_, store_eq := ?_ }
    · show _ ≤ (passed (routed packets (s.ikernel.resolutions ++ [r]))).length
      rw [hpassed, List.length_append]
      exact h.answers_le.trans (Nat.le_add_right _ _)
    · show _ = P.executeAll store ((passed (routed packets (s.ikernel.resolutions ++ [r]))).take _)
      rw [hpassed, List.take_append_of_le_length h.answers_le]
      exact h.store_eq

end ServerInv

/-- **Every call and every execution keeps the invariant.** -/
theorem serverInv_step (hP : P.Lawful) (hz : z.key = 10 ∨ 12 ≤ z.key)
    (h : ServerInv setData P start logSize store packets s) (a : ServerAct) :
    ServerInv setData P start logSize store packets (s.step setData P a) := by
  cases a with
  | execute => exact h.execute
  | ikernel a =>
    have hnet := netInv_step h.net a.keepSizes
    cases a with
    | dupMetadata full => exact { h with net := hnet }
    | dupData full => exact { h with net := hnet }
    | parsePacket full => exact { h with net := hnet }
    | handleParsedPacket i => exact h.handleParsedPacket i
    | memory =>
      refine { h with net := hnet, cache := ?_ }
      show CacheInv _ start (s.ikernel.cache.step (fun id => s.ikernel.logSize (BitVec.ofNat 6 id)) .serve)
      rw [h.logSize_eq]
      exact h.cache.step _
    | handleMemoryResponses i => exact h.handleMemoryResponses i
    | actionResolution i => exact h.actionResolution i
    | dropOrPass => exact { h with net := hnet }
    | replyCachedValue m2Full d2Full => exact { h with net := hnet }
    | interceptOut i =>
      have hkv := kvInv_interceptOut hP hz i h.kv (by rw [h.hostMetadata]) (by rw [h.hostData])
      refine { h with net := hnet, hostMetadata := ?_, hostData := ?_, kv := hkv }
      · exact (Fifo.sent_readIf _ _).trans h.hostMetadata
      · exact (Fifo.sent_readIf _ _).trans h.hostData
    | arbitrate => exact { h with net := hnet }
    | updateStats update =>
      cases update with
      | true => exact h
      | false => exact { h with net := hnet }

end Server

end Nica.Hls.Memcached
