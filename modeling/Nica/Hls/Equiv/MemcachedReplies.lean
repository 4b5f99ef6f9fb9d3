import Nica.Hls.Equiv.MemcachedUnits
import Nica.Lib.Lanes

/-!
# The units of the memcached ikernel on the way to the network

* `replierInv_replyCachedValue`: every reply is written with its metadata and its two beats;
* `interceptInv_interceptOut`: the packets of the host that are transmitted keep their data;
* `arbiterInv_arbitrate`: the output is a sequence of whole packets, the replies and the packets of the host
  each in their own order.
-/

namespace Nica.Hls.Memcached

open Nica.Lib

variable {z : Sizes}

/-! ### The replies -/

/-- The two beats of a reply. -/
def replyBeats (setData : List Byte → AxiData) (x : Metadata × List Byte) : List AxiData :=
  [{ setData (x.2.take 32) with last := false }, { setData (x.2.drop 32) with last := true }]

theorem isPacket_replyBeats (setData : List Byte → AxiData) (x : Metadata × List Byte) :
    IsPacket (replyBeats setData x) := by
  refine ⟨[_], _, rfl, rfl, ?_⟩
  intro b hb
  rw [List.mem_singleton.mp hb]

/-- Where `reply_cached_value` is after the metadata of `m` replies and the data of `n`. -/
def ReplierPhase (setData : List Byte → AxiData) (replies : List (Metadata × List Byte)) (u : Replier)
    (m n : ℕ) (output : List AxiData) : Prop :=
  match u.state with
  | .requestMetadata => m = n ∧ u.replyWord = false ∧ Owed (replyBeats setData) replies n output []
  | .readRequest => m = n + 1 ∧ u.replyWord = false ∧ Owed (replyBeats setData) replies n output []
  | .generateResponse => m = n ∧ ∃ x, x.2 = u.currentResponse ∧
      Owed (replyBeats setData) replies n output
        (if u.replyWord then (replyBeats setData x).drop 1 else replyBeats setData x)

structure ReplierInv (setData : List Byte → AxiData) (replies : List (Metadata × List Byte)) (u : Replier)
    (metadata m2 : List Metadata) (n : ℕ) (output : List AxiData) : Prop where
  phase : ReplierPhase setData replies u metadata.length n output
  m2_eq : m2 = metadata

section Replier

variable {setData : List Byte → AxiData} {replies : List (Metadata × List Byte)} {u : Replier}
  {metadata m2 : Fifo Metadata} {responses : Fifo (List Byte)} {output : Fifo AxiData}

/-- More replies may follow. -/
theorem ReplierInv.extend {ms m2s : List Metadata} {n : ℕ} {out : List AxiData}
    (h : ReplierInv setData replies u ms m2s n out) (hn : n ≤ replies.length)
    (more : List (Metadata × List Byte)) : ReplierInv setData (replies ++ more) u ms m2s n out := by
  refine ⟨?_, h.m2_eq⟩
  have hphase := h.phase
  unfold ReplierPhase at hphase ⊢
  cases hu : u.state with
  | requestMetadata =>
    simp only [hu] at hphase ⊢
    exact ⟨hphase.1, hphase.2.1, hphase.2.2.extend hn more⟩
  | readRequest =>
    simp only [hu] at hphase ⊢
    exact ⟨hphase.1, hphase.2.1, hphase.2.2.extend hn more⟩
  | generateResponse =>
    simp only [hu] at hphase ⊢
    obtain ⟨hm, x, hx, howed⟩ := hphase
    exact ⟨hm, x, hx, howed.extend hn more⟩

/-- `READ_REQUEST`, after the metadata of one more reply than there is data of. -/
theorem replierPhase_readRequest {m : Option Metadata} {out : List AxiData}
    (hword : u.replyWord = false)
    (howed : Owed (replyBeats setData) replies responses.past.length out [])
    (hresponses : responses.sent <+: replies.map (·.2)) :
    let r := readRequest u responses.head m
    ReplierPhase setData replies r.1 (responses.past.length + 1) (responses.readIf r.2.readData).past.length
        out ∧
      r.2.metadata = m ∧ r.2.data = none := by
  unfold readRequest
  cases hr : responses.head with
  | none => exact ⟨⟨rfl, hword, howed⟩, rfl, rfl⟩
  | some r =>
    obtain ⟨x, hx, hxr⟩ := exists_item ((responses.past_snoc_prefix_sent hr).trans hresponses)
    refine ⟨?_, rfl, rfl⟩
    simp only [ReplierPhase, responses.length_past_readIf_true hr, hword]
    exact ⟨trivial, x, hxr, howed.start hx⟩

/-- **The replies**: a call of `reply_cached_value` writes the next piece of the replies. -/
theorem replierInv_replyCachedValue (m2Full d2Full : Bool)
    (h : ReplierInv setData replies u metadata.past m2.sent responses.past.length output.sent)
    (hresponses : responses.sent <+: replies.map (·.2)) :
    let r := replyCachedValue setData m2Full d2Full u metadata.head responses.head
    ReplierInv setData replies r.1 (metadata.readIf r.2.metadata.isSome).past (m2.put r.2.metadata).sent
      (responses.readIf r.2.readData).past.length (output.put r.2.data).sent := by
  have hwait : ReplierInv setData replies u (metadata.readIf false).past (m2.put none).sent
      (responses.readIf false).past.length (output.put none).sent := by
    simpa using h
  have hphase := h.phase
  unfold ReplierPhase at hphase
  cases hu : u.state with
  | requestMetadata =>
    simp only [hu] at hphase
    obtain ⟨hm, hword, howed⟩ := hphase
    simp only [replyCachedValue, hu]
    cases hmeta : metadata.head with
    | none => exact hwait
    | some m =>
      cases m2Full with
      | true => exact hwait
      | false =>
        obtain ⟨hread, hm', hdata⟩ := replierPhase_readRequest (m := some m) hword howed hresponses
        dsimp only [Bool.false_eq_true, if_false] at hread ⊢
        rw [if_neg Bool.false_ne_true, hm', hdata]
        have hpast : (metadata.readIf (some m).isSome).past = metadata.past ++ [m] :=
          metadata.past_readIf_true hmeta
        constructor
        · rw [hpast, List.length_append, List.length_singleton, hm, Fifo.put_none]
          exact hread
        · rw [hpast, Fifo.sent_put, h.m2_eq]
          rfl
  | readRequest =>
    simp only [hu] at hphase
    obtain ⟨hm, hword, howed⟩ := hphase
    simp only [replyCachedValue, hu]
    obtain ⟨hread, hm', hdata⟩ := replierPhase_readRequest (m := none) hword howed hresponses
    rw [hm', hdata]
    refine ⟨?_, by simpa using h.m2_eq⟩
    rw [Fifo.put_none]
    show ReplierPhase _ _ _ metadata.past.length _ _
    rw [hm]
    exact hread
  | generateResponse =>
    simp only [hu] at hphase
    obtain ⟨hm, x, hx, howed⟩ := hphase
    simp only [replyCachedValue, hu]
    cases d2Full with
    | true => exact hwait
    | false =>
      rw [if_neg Bool.false_ne_true]
      cases hword : u.replyWord with
      | false =>
        rw [hword] at howed
        refine ⟨?_, by simpa using h.m2_eq⟩
        simp only [Bool.false_eq_true, if_false, ReplierPhase, Fifo.sent_put]
        refine ⟨hm, x, hx, ?_⟩
        rw [← hx]
        exact howed.advance
      | true =>
        rw [hword] at howed
        refine ⟨?_, by simpa using h.m2_eq⟩
        simp only [if_true, ReplierPhase, Fifo.sent_put]
        refine ⟨hm, trivial, ?_⟩
        rw [← hx]
        exact howed.advance

end Replier

/-! ### The packets of the host -/

/-- The packets that `intercept_out` has transmitted. -/
def transmitted (hosted : List HostPacket) (transmits : List Bool) : List HostPacket :=
  ((hosted.zip transmits).filter (·.2)).map (·.1)

theorem transmitted_snoc {hosted : List HostPacket} {transmits : List Bool} {p : HostPacket}
    (hp : hosted[transmits.length]? = some p) (b : Bool) :
    transmitted hosted (transmits ++ [b]) = transmitted hosted transmits ++ if b then [p] else [] := by
  unfold transmitted
  rw [zip_snoc hp, List.filter_append, List.map_append]
  cases b <;> rfl

/-- Where `intercept_out` is after the metadata of `n` packets and the beats `done`. -/
def InterceptPhase (hosted : List HostPacket) (transmits : List Bool) (u : Interceptor z) (n : ℕ)
    (done output : List AxiData) : Prop :=
  match u.outState with
  | .metadata => Owed HostPacket.beats hosted n done [] ∧
      Owed HostPacket.beats (transmitted hosted transmits) (transmitted hosted transmits).length output []
  | .data => ∃ due, IsPacket due ∧ Owed HostPacket.beats hosted n done due ∧
      Owed HostPacket.beats (transmitted hosted transmits) (transmitted hosted transmits).length output
        (if u.tcBackpressure then [] else due)

structure InterceptInv (hosted : List HostPacket) (transmits : List Bool) (u : Interceptor z) (n : ℕ)
    (done : List AxiData) (m1 : List Metadata) (output : List AxiData) : Prop where
  phase : InterceptPhase hosted transmits u n done output
  transmits_length : transmits.length = n
  m1_eq : m1 = (transmitted hosted transmits).map HostPacket.metadata

section Intercept

variable {hosted : List HostPacket} {transmits : List Bool} {u : Interceptor z} {metadata m1 : Fifo Metadata}
  {beats output : Fifo AxiData}

/-- **The packets of the host**: a call of `intercept_out` takes the packets further in their order, and
those that are transmitted keep their data. -/
theorem interceptInv_interceptOut (i : InterceptIn)
    (h : InterceptInv hosted transmits u metadata.past.length beats.past m1.sent output.sent)
    (hmetadata : metadata.sent <+: hosted.map HostPacket.metadata)
    (hbeats : beats.sent <+: hosted.flatMap HostPacket.beats) :
    let r := interceptOut i u metadata.head beats.head
    InterceptInv hosted (transmits ++ if r.2.readMetadata then [i.canTransmit] else []) r.1
      (metadata.readIf r.2.readMetadata).past.length (beats.readIf r.2.readData).past
      (m1.put r.2.metadata).sent (output.put r.2.data).sent := by
  have hwait : InterceptInv hosted (transmits ++ if false then [i.canTransmit] else []) u
      (metadata.readIf false).past.length (beats.readIf false).past (m1.put none).sent
      (output.put none).sent := by
    simpa using h
  have hphase := h.phase
  unfold InterceptPhase at hphase
  cases hu : u.outState with
  | metadata =>
    simp only [hu] at hphase
    obtain ⟨hin, hout⟩ := hphase
    simp only [interceptOut, hu]
    cases hm : metadata.head with
    | none => exact hwait
    | some m =>
      cases hfull : i.m1Full with
      | true => simpa [hfull] using hwait
      | false =>
        obtain ⟨p, hp, rfl⟩ := exists_item ((metadata.past_snoc_prefix_sent hm).trans hmetadata)
        have hsnoc := transmitted_snoc (h.transmits_length ▸ hp) i.canTransmit
        have hlen := metadata.length_past_readIf_true hm
        simp only [Bool.false_eq_true, if_false, if_true]
        constructor
        · simp only [InterceptPhase, hlen, Fifo.past_readIf_false, Fifo.put_none, hsnoc]
          refine ⟨p.beats, p.isPacket, hin.start hp, ?_⟩
          cases i.canTransmit with
          | true =>
            have hnext : (transmitted hosted transmits ++ [p])[(transmitted hosted transmits).length]? =
                some p := by
              simp
            simpa using (hout.extend (Nat.le_refl _) [p]).start hnext
          | false => simpa using hout
        · rw [List.length_append, List.length_singleton, h.transmits_length, hlen]
        · rw [Fifo.sent_put, h.m1_eq, hsnoc, List.map_append]
          cases i.canTransmit <;> rfl
  | data =>
    simp only [hu] at hphase
    obtain ⟨due, hdue, hin, hout⟩ := hphase
    simp only [interceptOut, hu]
    cases hd : beats.head with
    | none => exact hwait
    | some d =>
      cases hfull : i.kvFull || i.d1Full with
      | true => simpa [hfull] using hwait
      | false =>
        obtain ⟨y, due, rfl⟩ := List.exists_cons_of_ne_nil hdue.ne_nil
        obtain rfl := hin.head_eq hbeats hd
        obtain ⟨hfinal, hmore⟩ := isPacket_cons hdue
        have hin' := hin.advance
        have hout' : Owed HostPacket.beats (transmitted hosted transmits)
            (transmitted hosted transmits).length
            (output.sent ++ (if u.tcBackpressure then none else some d).toList)
            (if u.tcBackpressure then [] else due) := by
          cases hb : u.tcBackpressure with
          | true =>
            rw [hb] at hout
            simpa using hout
          | false =>
            rw [hb] at hout
            exact hout.advance
        simp only [Bool.false_eq_true, if_false, List.append_nil, Fifo.put_none]
        refine ⟨?_, h.transmits_length, h.m1_eq⟩
        simp only [InterceptPhase, beats.past_readIf_true hd, Fifo.past_readIf_false, Fifo.sent_put]
        cases hlast : d.last with
        | true =>
          obtain rfl := hfinal hlast
          rw [ite_self] at hout'
          exact ⟨hin', hout'⟩
        | false => exact ⟨due, hmore hlast, hin', hout'⟩

end Intercept

/-! ### The output -/

/-- A packet on one of the ports of the arbiter: its metadata and its beats. -/
abbrev PortPacket := Metadata × List AxiData

/-- What the arbiter owes to its output and to its ports, with the packets it has served. -/
def ArbiterPhase (port : Bool → List PortPacket) (served : List (Bool × PortPacket)) (u : Arbiter)
    (metadata : Bool → Fifo Metadata) (data : Bool → Fifo AxiData) (output : List AxiData) : Prop :=
  match u with
  | none => Owed (·.2.2) served served.length output [] ∧
      ∀ c, Owed (·.2) (port c) (metadata c).past.length (data c).past []
  | some cur => ∃ due, IsPacket due ∧ Owed (·.2.2) served served.length output due ∧
      ∀ c, Owed (·.2) (port c) (metadata c).past.length (data c).past (if c = cur then due else [])

/-- The packets that were served from each port are the first ones of the port, and the output carries the
packets that were served. -/
structure ArbiterInv (port : Bool → List PortPacket) (served : List (Bool × PortPacket)) (u : Arbiter)
    (metadata : Bool → Fifo Metadata) (data : Bool → Fifo AxiData) (metadataOutput : List Metadata)
    (output : List AxiData) : Prop where
  lanes : ∀ c, (lane (·.1) served c).map (·.2) = (port c).take (metadata c).past.length
  metadataOutput_eq : metadataOutput = served.map (·.2.1)
  phase : ArbiterPhase port served u metadata data output

section Arbiter

variable {port : Bool → List PortPacket} {served : List (Bool × PortPacket)} {u : Arbiter}
  {metadata : Bool → Fifo Metadata} {data : Bool → Fifo AxiData} {metadataOutput : List Metadata}
  {output : List AxiData}

/-- More packets may arrive on the ports. -/
theorem ArbiterInv.extend (h : ArbiterInv port served u metadata data metadataOutput output)
    (hle : ∀ c, (metadata c).past.length ≤ (port c).length) {port' : Bool → List PortPacket}
    (hport : ∀ c, port c <+: port' c) : ArbiterInv port' served u metadata data metadataOutput output := by
  refine ⟨?_, h.metadataOutput_eq, ?_⟩
  · intro c
    obtain ⟨more, hmore⟩ := hport c
    rw [h.lanes c, ← hmore, List.take_append_of_le_length (hle c)]
  · have hphase := h.phase
    unfold ArbiterPhase at hphase ⊢
    cases u with
    | none =>
      refine ⟨hphase.1, fun c => ?_⟩
      obtain ⟨more, hmore⟩ := hport c
      rw [← hmore]
      exact (hphase.2 c).extend (hle c) more
    | some cur =>
      obtain ⟨due, hdue, hout, hin⟩ := hphase
      refine ⟨due, hdue, hout, fun c => ?_⟩
      obtain ⟨more, hmore⟩ := hport c
      rw [← hmore]
      exact (hin c).extend (hle c) more

/-- Only what was read from the streams matters. -/
theorem ArbiterInv.congr (h : ArbiterInv port served u metadata data metadataOutput output)
    {metadata' : Bool → Fifo Metadata} {data' : Bool → Fifo AxiData}
    (hm : ∀ c, (metadata' c).past = (metadata c).past) (hd : ∀ c, (data' c).past = (data c).past) :
    ArbiterInv port served u metadata' data' metadataOutput output := by
  refine ⟨fun c => by rw [hm c]; exact h.lanes c, h.metadataOutput_eq, ?_⟩
  have hphase := h.phase
  unfold ArbiterPhase at hphase ⊢
  cases u with
  | none => exact ⟨hphase.1, fun c => by rw [hm c, hd c]; exact hphase.2 c⟩
  | some cur =>
    obtain ⟨due, hdue, hout, hin⟩ := hphase
    exact ⟨due, hdue, hout, fun c => by rw [hm c, hd c]; exact hin c⟩

/-- `STREAM`: one beat of the packet that is being served. -/
theorem arbiterInv_stream {cur : Bool} (io : ArbitrateIo) (hio : io.readData = none ∧ io.data = none)
    (h : ArbiterInv port served (some cur) metadata data metadataOutput output)
    (hdata : ∀ c, (data c).sent <+: (port c).flatMap (·.2)) :
    let r := stream cur (data false).head (data true).head io
    ArbiterInv port served r.1 metadata (fun c => (data c).readIf (r.2.readData == some c)) metadataOutput
        (output ++ r.2.data.toList) ∧
      r.2.readMetadata = io.readMetadata ∧ r.2.metadata = io.metadata := by
  have hhead : (if cur then (data true).head else (data false).head) = (data cur).head := by
    cases cur <;> rfl
  unfold stream
  rw [hhead]
  cases hd : (data cur).head with
  | none =>
    refine ⟨?_, rfl, rfl⟩
    simpa [hio.1, hio.2, Fifo.readIf] using h
  | some d =>
    refine ⟨⟨h.lanes, h.metadataOutput_eq, ?_⟩, rfl, rfl⟩
    obtain ⟨due, hdue, hout, hin⟩ := h.phase
    obtain ⟨y, due, rfl⟩ := List.exists_cons_of_ne_nil hdue.ne_nil
    have hcur := hin cur
    rw [if_pos rfl] at hcur
    obtain rfl := hcur.head_eq (hdata cur) hd
    obtain ⟨hfinal, hmore⟩ := isPacket_cons hdue
    -- the port that is served has given one beat, the other one none
    have hin' : ∀ c, Owed (·.2) (port c) (metadata c).past.length
        ((data c).readIf (some cur == some c)).past (if c = cur then due else []) := by
      intro c
      by_cases hc : c = cur
      · subst hc
        rw [if_pos rfl, beq_self_eq_true, (data c).past_readIf_true hd]
        exact hcur.advance
      · have hne : (some cur == some c) = false := by
          rw [beq_eq_false_iff_ne]
          exact fun heq => hc (Option.some.inj heq).symm
        have := hin c
        rw [if_neg hc] at this ⊢
        rw [hne]
        exact this
    dsimp only
    cases hlast : d.last with
    | true =>
      obtain rfl := hfinal hlast
      rw [if_pos rfl]
      refine ⟨hout.advance, fun c => ?_⟩
      have := hin' c
      rwa [ite_self] at this
    | false => exact ⟨due, hmore hlast, hout.advance, hin'⟩

/-- A packet is taken up from a port. -/
theorem ArbiterInv.start {c₀ : Bool} {m : Metadata}
    (h : ArbiterInv port served none metadata data metadataOutput output)
    (hm : (metadata c₀).head = some m) (hmetadata : (metadata c₀).sent <+: (port c₀).map (·.1))
    (hport : ∀ x ∈ port c₀, IsPacket x.2) :
    ∃ x, ArbiterInv port (served ++ [(c₀, x)]) (some c₀)
      (fun c => (metadata c).readIf (some c₀ == some c)) data (metadataOutput ++ [m]) output := by
  obtain ⟨x, hx, rfl⟩ := exists_item (((metadata c₀).past_snoc_prefix_sent hm).trans hmetadata)
  obtain ⟨hout, hin⟩ := h.phase
  have hother : ∀ c, c ≠ c₀ → (some c₀ == some c) = false := by
    intro c hc
    rw [beq_eq_false_iff_ne]
    exact fun heq => hc (Option.some.inj heq).symm
  have hlen := (metadata c₀).length_past_readIf_true hm
  refine ⟨x, ?_, ?_, x.2, hport x (List.mem_of_getElem? hx), ?_, ?_⟩
  · intro c
    rw [lane_append, List.map_append, h.lanes c]
    by_cases hc : c = c₀
    · subst hc
      rw [beq_self_eq_true, hlen, take_succ_eq hx]
      simp [lane]
    · have hc' : ¬c₀ = c := fun heq => hc heq.symm
      rw [hother c hc]
      simp [lane, hc']
  · rw [List.map_append, ← h.metadataOutput_eq]
    rfl
  · have hnext : (served ++ [(c₀, x)])[served.length]? = some (c₀, x) := by simp
    rw [List.length_append, List.length_singleton]
    exact (hout.extend (Nat.le_refl _) [(c₀, x)]).start hnext
  · intro c
    dsimp only
    by_cases hc : c = c₀
    · subst hc
      rw [if_pos rfl, beq_self_eq_true, hlen]
      exact (hin c).start hx
    · rw [if_neg hc, hother c hc]
      exact hin c

/-- **The output**: a call of `arbitrate` takes the packets of the ports further, one packet at a time. -/
theorem arbiterInv_arbitrate (h : ArbiterInv port served u metadata data metadataOutput output)
    (hmetadata : ∀ c, (metadata c).sent <+: (port c).map (·.1))
    (hdata : ∀ c, (data c).sent <+: (port c).flatMap (·.2))
    (hport : ∀ c, ∀ x ∈ port c, IsPacket x.2) :
    let r := arbitrate u (metadata false).head (metadata true).head (data false).head (data true).head
    ∃ served', ArbiterInv port served' r.1 (fun c => (metadata c).readIf (r.2.readMetadata == some c))
      (fun c => (data c).readIf (r.2.readData == some c)) (metadataOutput ++ r.2.metadata.toList)
      (output ++ r.2.data.toList) := by
  unfold arbitrate
  cases u with
  | some cur =>
    obtain ⟨hstream, hread, hmeta⟩ := arbiterInv_stream {} ⟨rfl, rfl⟩ h hdata
    refine ⟨served, ?_⟩
    dsimp only at hread hmeta ⊢
    rw [hread, hmeta]
    simpa [Fifo.readIf] using hstream
  | none =>
    -- taking up a packet of port `c₀`, and its first beat if it is there
    have hstart : ∀ c₀ m, (metadata c₀).head = some m →
        let r := stream c₀ (data false).head (data true).head { readMetadata := some c₀, metadata := some m }
        ∃ served', ArbiterInv port served' r.1 (fun c => (metadata c).readIf (r.2.readMetadata == some c))
          (fun c => (data c).readIf (r.2.readData == some c)) (metadataOutput ++ r.2.metadata.toList)
          (output ++ r.2.data.toList) := by
      intro c₀ m hm
      obtain ⟨x, hx⟩ := h.start hm (hmetadata c₀) (hport c₀)
      obtain ⟨hstream, hread, hmeta⟩ := arbiterInv_stream { readMetadata := some c₀, metadata := some m }
        ⟨rfl, rfl⟩ hx hdata
      refine ⟨served ++ [(c₀, x)], ?_⟩
      dsimp only at hread hmeta ⊢
      rw [hread, hmeta]
      exact hstream
    cases hm1 : (metadata false).head with
    | some m => exact hstart false m hm1
    | none =>
      cases hm2 : (metadata true).head with
      | some m => exact hstart true m hm2
      | none =>
        refine ⟨served, ?_⟩
        simpa [Fifo.readIf] using h

end Arbiter

end Nica.Hls.Memcached
