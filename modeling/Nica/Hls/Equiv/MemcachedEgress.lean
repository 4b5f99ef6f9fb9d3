import Nica.Hls.Equiv.MemcachedConservation

/-!
# What the memcached ikernel sends to the network

`intercept_out` and `reply_cached_value` write metadata and data to the four streams of the arbiter at times
of their own, and `arbitrate` chooses a port by the metadata alone.

* `suffix_of_append_eq`: what is left of the last packet of a stream of packets is an end of its beats;
* `served_under_way`: so the output lacks at most an end of the packet that was served last;
* `interleaved_run`: in every run the output is an interleaving of whole packets, those of the host that were
  transmitted and the replies, each with its own metadata and each kind in its own order.
-/

namespace Nica.Hls.Memcached

open Nica.Lib

variable {z : Sizes}

/-! ### The packet that is served -/

/-- Packets in front, and then one more: what is missing at the end, if it is the rest of a packet, belongs to
the last one. -/
theorem suffix_of_append_eq {front : List (List AxiData)} {x done due : List AxiData}
    (hfront : ∀ p ∈ front, IsPacket p) (hx : IsPacket x) (hdue : IsPacket due)
    (h : done ++ due = front.flatten ++ x) : due <:+ x := by
  have hxs : x <:+ done ++ due := ⟨front.flatten, h.symm⟩
  rcases List.suffix_or_suffix_of_suffix (List.suffix_append done due) hxs with hle | ⟨pre, hpre⟩
  · exact hle
  · -- otherwise the packet in front would end within `due`
    subst hpre
    rw [← List.append_assoc] at h
    have hdone : done ++ pre = front.flatten := List.append_cancel_right h
    obtain rfl | ⟨pre, b, rfl⟩ := List.eq_nil_or_concat pre
    · exact List.suffix_refl _
    · exfalso
      obtain ⟨init, e, heq, -, hinit⟩ := hdue
      obtain ⟨xs, y, rfl, -, -⟩ := hx
      have hb : b ∈ init := by
        have hcut : (pre.concat b ++ xs) ++ [y] = init ++ [e] := by
          rw [List.append_assoc]
          exact heq
        rw [← (List.append_inj' hcut rfl).1]
        simp
      obtain rfl | ⟨front, p, rfl⟩ := List.eq_nil_or_concat front
      · simp at hdone
      · obtain ⟨ps, f, hp, hlast, -⟩ := hfront p (by simp)
        have hend : (done ++ pre) ++ [b] = (front.flatten ++ ps) ++ [f] := by
          simpa [hp] using hdone
        obtain rfl : b = f := List.singleton_inj.mp (List.append_inj' hend rfl).2
        rw [hinit b hb] at hlast
        cases hlast

section Served

variable {port : Bool → List PortPacket} {served : List (Bool × PortPacket)} {u : Arbiter}
  {metadata : Bool → Fifo Metadata} {data : Bool → Fifo AxiData} {metadataOutput : List Metadata}
  {output : List AxiData}

/-- The packets that were served are packets of the ports. -/
theorem ArbiterInv.mem_port (h : ArbiterInv port served u metadata data metadataOutput output)
    {x : Bool × PortPacket} (hx : x ∈ served) : x.2 ∈ port x.1 := by
  have hlane : x ∈ lane (·.1) served x.1 := by
    simp [lane, hx]
  have hmem : x.2 ∈ (lane (·.1) served x.1).map (·.2) := List.mem_map_of_mem hlane
  rw [h.lanes x.1] at hmem
  exact List.mem_of_mem_take hmem

/-- The output has the beats of the packets served, except for an end of the last one. -/
theorem served_under_way (h : ArbiterInv port served u metadata data metadataOutput output)
    (hport : ∀ c, ∀ x ∈ port c, IsPacket x.2) :
    ∃ due, output ++ due = served.flatMap (·.2.2) ∧ (u = none → due = []) ∧
      ∀ x ∈ served.getLast?, due <:+ x.2.2 := by
  have hphase := h.phase
  unfold ArbiterPhase at hphase
  cases u with
  | none =>
    refine ⟨[], ?_, fun _ => rfl, fun x _ => List.nil_suffix⟩
    have hall := hphase.1
    unfold Owed at hall
    rwa [List.take_length] at hall
  | some cur =>
    obtain ⟨due, hdue, hout, -⟩ := hphase
    unfold Owed at hout
    rw [List.take_length] at hout
    refine ⟨due, hout, fun hu => (by cases hu), ?_⟩
    intro x hx
    obtain ⟨front, rfl⟩ := List.getLast?_eq_some_iff.mp hx
    have hpacket : ∀ y ∈ front ++ [x], IsPacket y.2.2 := fun y hy => hport y.1 y.2 (h.mem_port hy)
    have hall : output ++ due = (front.map (·.2.2)).flatten ++ x.2.2 := by
      rw [hout, List.flatMap_append, List.flatMap_singleton, List.flatMap_def]
    refine suffix_of_append_eq ?_ (hpacket x (by simp)) hdue hall
    intro p hp
    obtain ⟨y, hy, rfl⟩ := List.mem_map.mp hp
    exact hpacket y (by simp [hy])

end Served

/-! ### The output -/

/-- The way to the network when the packets `served` have been chosen, each from one of the ports (`true` for
the replies). -/
structure Interleaving (setData : List Byte → AxiData) (packets : List NetPacket) (hosted : List HostPacket)
    (s : State z) (served : List (Bool × PortPacket)) : Prop where
  /-- There is one metadata for each packet, -/
  metadata : s.hostMetadataOutput = served.map (·.2.1)
  /-- and the data of the packets follow one another; only the last packet may be under way. -/
  data : ∃ due, s.hostDataOutput ++ due = served.flatMap (·.2.2) ∧ (s.arbiter = none → due = []) ∧
    ∀ x ∈ served.getLast?, due <:+ x.2.2
  /-- `can_transmit` has an answer for each packet of the host that was taken up. -/
  answered : s.transmits.length = s.hostMetadata.past.length
  /-- The packets of the host are those it admitted, with their own data and in their order, -/
  responses : (lane (·.1) served false).map (·.2) <+:
    (transmitted hosted s.transmits).map (fun p => (p.metadata, p.beats))
  /-- and none is left behind. -/
  responses_all : s.m1.queue = [] → (lane (·.1) served false).map (·.2) =
    (transmitted hosted s.transmits).map (fun p => (p.metadata, p.beats))
  /-- The same holds of the replies. -/
  replies : (lane (·.1) served true).map (·.2) <+:
    (replies packets s.fates).map (fun x => (x.1, replyBeats setData x))
  replies_all : s.replyMetadata.queue = [] → s.m2.queue = [] → (lane (·.1) served true).map (·.2) =
    (Memcached.replies packets s.fates).map (fun x => (x.1, replyBeats setData x))
  /-- The length of a reply counts its bytes. -/
  lengths : ∀ x ∈ Memcached.replies packets s.fates, x.1.length.toNat = byteCount (replyBeats setData x)

section Interleaving

variable {setData : List Byte → AxiData} {packets : List NetPacket} {hosted : List HostPacket} {s : State z}

/-- A reply that was written is the reply of a hit. -/
theorem exists_hit_of_mem_replies {fates : List (Fate z)} {x : Metadata × List Byte}
    (hx : x ∈ replies packets fates) : ∃ p v, x = (replyMetadata p.metadata (replySize z),
      generateResponse (NetPacket.request z p) v) := by
  obtain ⟨⟨p, f⟩, -, hreply⟩ := List.mem_filterMap.mp hx
  cases f with
  | hit v => exact ⟨p, v, (Option.some.inj hreply).symm⟩
  | pass => cases hreply
  | miss => cases hreply
  | hitDrop => cases hreply
  | hitTcBackpressure => cases hreply

/-- **The interleaving from the invariants.** -/
theorem interleaving_of_inv (hset : KeepsBytes setData) (hnet : NetInv setData packets s)
    (hhost : HostInv setData packets hosted s) : ∃ served, Interleaving setData packets hosted s served := by
  obtain ⟨served, hserved⟩ := hhost.arbiter
  have hlanes := hserved.lanes
  have hreplied := hnet.replier.m2_eq
  refine ⟨served, ?_⟩
  constructor
  · exact hserved.metadataOutput_eq
  · exact served_under_way hserved fun c => HostInv.isPacket_ports c _ _
  · exact hhost.intercept.transmits_length
  · rw [hlanes false]
    exact List.take_prefix _ _
  · intro hm1
    rw [hlanes false]
    apply List.take_of_length_le
    show (List.map _ _).length ≤ s.m1.past.length
    rw [s.m1.past_eq_sent_of_queue hm1, hhost.intercept.m1_eq, List.length_map, List.length_map]
  · rw [hlanes true]
    exact List.take_prefix _ _
  · intro hmeta hm2
    rw [hlanes true]
    apply List.take_of_length_le
    show (List.map _ _).length ≤ s.m2.past.length
    rw [s.m2.past_eq_sent_of_queue hm2, hreplied, s.replyMetadata.past_eq_sent_of_queue hmeta,
      hnet.memory.replyMetadata_eq, List.length_map, List.length_map]
  · intro x hx
    obtain ⟨p, v, rfl⟩ := exists_hit_of_mem_replies hx
    obtain ⟨-, -, -, hlength, -, hbytes⟩ := replyOk_hit hset p v
    exact hlength.trans hbytes.symm

/-- For packets of the network and of the host, a memory and contexts, in every run: what leaves the ikernel on
the way to the network is an interleaving of whole packets, the transmitted packets of the host and the
replies from the cache, each with its own metadata and data and each kind in its own order; and the length of
a reply counts its bytes. -/
theorem interleaved_run (setData : List Byte → AxiData) (hset : KeepsBytes setData)
    (cells : BitVec 64 → BitVec 512) (logSize : BitVec 6 → ℕ) (ringId : BitVec 6 → RingId)
    (packets : List NetPacket) (hosted : List HostPacket) (acts : List Act) :
    ∃ served, Interleaving setData packets hosted
      (run (step setData) (.init cells logSize ringId packets hosted : State z) acts) served := by
  have hinv := run_invariant
    (P := fun s : State z => NetInv setData packets s ∧ HostInv setData packets hosted s)
    (fun s a hs => ⟨netInv_step hs.1 a, hostInv_step hs.2 hs.1 a⟩) acts _
    ⟨netInv_init cells logSize ringId hosted, hostInv_init cells logSize ringId⟩
  exact interleaving_of_inv hset hinv.1 hinv.2

end Interleaving

/-! ### Runs -/

/-- A response of two beats and its metadata. -/
def twoBeatResponse (id : BitVec 6) : HostPacket where
  metadata := { noMetadata with ikernelId := id, length := 64 }
  beats := [letterBeat 0x53 false, letterBeat 0x53 true]
  isPacket := by decide

/-- A `get` misses the empty cache, or hits it when the memory has a valid entry of its key. -/
def hitCells : BitVec 64 → BitVec 512 := fun _ => Entry.pack (z := tenBytes) ⟨true, 0, 0x2A⟩

/-- The reply of a hit comes between two packets of the host, the second of which is not transmitted. -/
def replyBetween : List Act :=
  [.interceptOut ⟨false, false, false, true⟩, .arbitrate, .dupMetadata false, .dupData false,
    .parsePacket false, .parsePacket false, .handleParsedPacket ⟨false, none, false, false⟩, .memory,
    .handleMemoryResponses ⟨false, true, false⟩] ++ List.replicate 3 (.replyCachedValue false false) ++
  List.replicate 2 (.interceptOut ⟨false, false, false, true⟩) ++ List.replicate 5 .arbitrate ++
  List.replicate 3 (.interceptOut ⟨false, false, false, false⟩) ++ [.arbitrate]

theorem interleaved_run_replyBetween :
    (∃ served, Interleaving keepFirst [fullPacket 0x67 0 3] [twoBeatResponse 3, twoBeatResponse 5]
      (run (step keepFirst) (.init hitCells (fun _ => 6) (fun _ => 0) [fullPacket 0x67 0 3]
        [twoBeatResponse 3, twoBeatResponse 5] : State tenBytes) replyBetween) served) ∧
    let s := run (step keepFirst) (.init hitCells (fun _ => 6) (fun _ => 0) [fullPacket 0x67 0 3]
      [twoBeatResponse 3, twoBeatResponse 5] : State tenBytes) replyBetween
    s.hostMetadataOutput.map (·.length) = [64, 48] ∧ s.hostDataOutput.length = 4 ∧
      s.transmits = [true, false] :=
  ⟨interleaved_run keepFirst keepsBytes_keepFirst _ _ _ _ _ _, by decide +kernel⟩

end Nica.Hls.Memcached
