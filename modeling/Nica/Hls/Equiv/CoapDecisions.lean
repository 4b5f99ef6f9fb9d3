import Nica.Hls.Equiv.CoapFraming

/-!
# Packets and decisions

If every packet has at least six beats, the parser takes exactly the beats of one packet for each metadata, what it
queues for a packet comes from the packet's own beats, and every packet gets one decision (`framing_run`).  A packet
with less than six beats is run together with the one behind it (`not_framing_shortPacket`).
-/

namespace Nica.Hls.Coap

open Nica.Lib

variable {logNumTc : Nat} {hash : List (List Byte) → List Byte} {setData : List Byte → AxiData}

/-! ### The property -/

/-- The calls of all units but `read_key`, with room on all streams. -/
def units (logNumTc : Nat) : List (Act logNumTc) :=
  [.dupMetadata false, .dupData false, .parsePacket ⟨false, false, false, false, false⟩, .firstPass, .firstSha,
    .secondPass, .secondSha, .verifySig false]

/-- No unit can move, and `read_key` has served what is queued. -/
structure Settled (hash : List (List Byte) → List Byte) (setData : List Byte → AxiData) (s : State logNumTc) : Prop where
  still : ∀ a ∈ units logNumTc, step hash setData s a = s
  served : ∀ tc, (s.ikernelIdPerTc tc).head = none

/-- What the parser reads and queues, and what is decided.  `takenOf p` is what the parser makes of `p` if it reads the
beats of `p` and no others. -/
structure Framing (hash : List (List Byte) → List Byte) (setData : List Byte → AxiData) (packets : List Datagram)
    (s : State logNumTc) : Prop where
  /-- The parser has not read beats of a packet whose metadata it has not read. -/
  within : s.parserData.past <+: (packets.take s.parserMetadata.past.length).flatMap Datagram.beats
  /-- Between two packets it has read all beats of those whose metadata it has read. -/
  between : s.parser.inState = .inMetadata →
    s.parserData.past = (packets.take s.parserMetadata.past.length).flatMap Datagram.beats
  token : ∀ c, (s.parsedDataStream c).sent <+:
    (lane (Request.tc logNumTc) (packets.map takenOf) c).map Request.parsedData
  signature : ∀ c, (s.sigStream c).sent <+: (lane (Request.tc logNumTc) (packets.map takenOf) c).map Request.signature
  ikernelId : ∀ c, (s.ikernelIdPerTc c).sent <+:
    (lane (Request.tc logNumTc) (packets.map takenOf) c).map (·.metadata.ikernelId)
  /-- No packet gets a second decision, and in the end each of them has one. -/
  decision : ∃ services : List (Service logNumTc), s.decision.sent = services.map (Service.decision hash) ∧
    (∀ c, lane (Request.tc logNumTc) (services.map Service.packet) c <+:
      lane (Request.tc logNumTc) (packets.map takenOf) c) ∧
    (Settled hash setData s → (services.map Service.packet).Perm (packets.map takenOf))

/-! ### Services in their lanes -/

theorem InLane.tc_eq {packets : List Request} {services : List (Service logNumTc)} (h : InLane packets services)
    {x : Service logNumTc} (hx : x ∈ services) : x.packet.tc logNumTc = x.tc := by
  obtain ⟨n, hn⟩ := List.mem_iff_getElem?.mp hx
  exact of_decide_eq_true (List.mem_filter.mp (List.mem_of_getElem? (h n x hn))).2

theorem InLane.classes_eq {packets : List Request} {services : List (Service logNumTc)} (h : InLane packets services) :
    (services.map Service.packet).map (Request.tc logNumTc) = services.map Service.tc := by
  rw [List.map_map]
  exact List.map_congr_left fun x hx => h.tc_eq hx

theorem InLane.isPrefix {packets : List Request} {services : List (Service logNumTc)} (h : InLane packets services)
    (c : BitVec logNumTc) :
    lane (Request.tc logNumTc) (services.map Service.packet) c <+: lane (Request.tc logNumTc) packets c := by
  induction services using List.reverseRecOn with
  | nil => exact List.nil_prefix
  | append_singleton services x ih =>
    have hbefore : InLane packets services := by
      intro n y hy
      have hn := (List.getElem?_eq_some_iff.mp hy).1
      have hy' := h n y (by rw [List.getElem?_append_left hn]; exact hy)
      rwa [List.map_append, List.take_append_of_le_length (by simpa using hn.le)] at hy'
    have hx := h services.length x (by rw [List.getElem?_append_right (Nat.le_refl _), Nat.sub_self]; rfl)
    rw [List.map_append, List.take_append_of_le_length (by simp), List.take_of_length_le (by simp)] at hx
    rw [List.map_append, List.map_singleton, lane_snoc]
    split
    · rename_i hc
      apply prefix_snoc (ih hbefore)
      rw [length_lane, hbefore.classes_eq, hc, h.tc_eq (List.mem_append_right _ (List.mem_singleton_self x))]
      exact hx
    · rw [List.append_nil]
      exact ih hbefore

/-! ### Nothing moves any more -/

theorem WordPhase.due_ne_nil {u : Parser logNumTc} {p : Request} {due : List AxiData} (h : WordPhase u p due) :
    due ≠ [] := by
  have hlong := p.long
  have hdrop : ∀ j, j < 6 → p.beats.drop j ≠ [] := by
    intro j hj hnil
    have := List.drop_eq_nil_iff.mp hnil
    omega
  cases hu : u.inState with
  | inMetadata => simp only [WordPhase, hu] at h
  | firstWord =>
    simp only [WordPhase, hu] at h
    rw [h]
    exact hdrop 0 (by decide)
  | secondWord =>
    simp only [WordPhase, hu] at h
    rw [h]
    exact hdrop 1 (by decide)
  | thirdWord =>
    simp only [WordPhase, hu] at h
    rw [h.1]
    exact hdrop 2 (by decide)
  | fourthWord =>
    simp only [WordPhase, hu] at h
    rw [h.1]
    exact hdrop 3 (by decide)
  | fifthWord =>
    simp only [WordPhase, hu] at h
    rw [h.1]
    exact hdrop 4 (by decide)
  | otherWords =>
    simp only [WordPhase, hu] at h
    exact h.ne_nil

/-- With room on its streams the parser does not leave a beat of a packet. -/
theorem readData_parsePacket {u : Parser logNumTc} (hu : u.inState ≠ .inMetadata) (m : Option Metadata) (d : AxiData) :
    (parsePacket ⟨false, false, false, false, false⟩ u m (some d)).2.readData = true := by
  cases hs : u.inState with
  | inMetadata => exact absurd hs hu
  | _ => simp [parsePacket, hs]

section Settled

variable {packets : List Request} {services : List (Service logNumTc)} {s : State logNumTc}
  (h : PairingInv hash setData packets services s) (hset : Settled hash setData s)

include hset in
theorem Settled.netMetadata : s.netMetadata.head = none :=
  head_eq_none_of_dup (congrArg State.netMetadata (hset.still (.dupMetadata false) (by simp [units])))

include hset in
theorem Settled.netData : s.netData.head = none :=
  head_eq_none_of_dup (congrArg State.netData (hset.still (.dupData false) (by simp [units])))

include h hset

/-- The parser has gone through all packets. -/
theorem PairingInv.parsed : s.parser.inState = .inMetadata ∧ s.parserMetadata.past.length = packets.length := by
  have hmetas : s.parserMetadata.sent = packets.map Request.metadata := by
    rw [h.parserMetadata_sent, Fifo.past_eq_sent _ hset.netMetadata, h.netMetadata_sent]
  have hbeats : s.parserData.sent = packets.flatMap Request.beats := by
    rw [h.parserData_sent, Fifo.past_eq_sent _ hset.netData, h.netData_sent]
  have hstep := hset.still (.parsePacket ⟨false, false, false, false, false⟩) (by simp [units])
  rcases h.parser.phase with ⟨hstate, -⟩ | ⟨m, p, due, hn, hp, -, -, howed, hphase⟩
  · refine ⟨hstate, ?_⟩
    cases hm : s.parserMetadata.head with
    | none => rw [Fifo.past_eq_sent _ hm, hmetas, List.length_map]
    | some m =>
      have hread := congrArg State.parserMetadata hstep
      simp only [step, parsePacket, hstate, hm] at hread
      rw [Fifo.head_eq_none_of_readIf _ hread] at hm
      cases hm
  · exfalso
    have hdue := hphase.due_ne_nil
    have hstate : s.parser.inState ≠ .inMetadata := by
      intro hstate
      simp only [WordPhase, hstate] at hphase
    have hd : s.parserData.head = none := by
      cases hd : s.parserData.head with
      | none => rfl
      | some d =>
        have hread := congrArg State.parserData hstep
        simp only [step, hd, readData_parsePacket hstate] at hread
        rw [← hd]
        exact Fifo.head_eq_none_of_readIf _ hread
    have hle := howed.all_prefix_pieces.length_le
    rw [Fifo.past_eq_sent _ hd, hbeats, List.length_append] at hle
    have hpos := List.length_pos_iff.mpr hdue
    omega

theorem PairingInv.all_filed (c : BitVec logNumTc) :
    (s.parsedDataStream c).sent = (lane (Request.tc logNumTc) packets c).map Request.parsedData ∧
      (s.sigStream c).sent = (lane (Request.tc logNumTc) packets c).map Request.signature ∧
      (s.ikernelIdPerTc c).sent = (lane (Request.tc logNumTc) packets c).map (·.metadata.ikernelId) := by
  obtain ⟨hstate, hn⟩ := h.parsed hset
  have hfiled : s.parser.filed s.parserMetadata.past.length = packets.length := by
    rw [Parser.filed, hstate]
    exact hn
  have hsigned : s.parser.signed s.parserMetadata.past.length = packets.length := by
    rw [Parser.signed, hstate]
    exact hn
  rw [h.parser.parsedData_sent, h.parser.sig_sent, h.parser.ids_sent, hfiled, hsigned, List.take_length]
  exact ⟨rfl, rfl, rfl⟩

/-- Every packet was served. -/
theorem PairingInv.count_tc (c : BitVec logNumTc) :
    (services.map Service.tc).count c = (lane (Request.tc logNumTc) packets c).length := by
  have hreads := h.idReads c
  rw [List.take_of_length_le (by rw [List.length_map]), Fifo.past_eq_sent _ (hset.served c),
    (h.all_filed hset c).2.2, List.length_map] at hreads
  exact hreads.symm

theorem PairingInv.lane_eq (c : BitVec logNumTc) :
    lane (Request.tc logNumTc) (services.map Service.packet) c = lane (Request.tc logNumTc) packets c := by
  apply (h.inLane.isPrefix c).eq_of_length
  rw [length_lane, h.inLane.classes_eq, h.count_tc hset]

/-- The first pass has sent all blocks. -/
theorem PairingInv.firstPass_done : s.firstShaIn.sent = services.flatMap Service.firstBlocks := by
  have hstep := hset.still .firstPass (by simp [units])
  have hfirst := h.firstPass
  cases hu : s.firstPass.state with
  | readRequest =>
    simp only [FirstPassInv, hu] at hfirst
    cases hk : s.toFirstPass.head with
    | none =>
      apply hfirst.done_eq
      rw [Fifo.past_eq_sent _ hk, h.toFirstPass_sent, List.length_map]
    | some key =>
      have hread := congrArg State.toFirstPass hstep
      simp only [step, Coap.firstPass, hu, hk] at hread
      rw [Fifo.head_eq_none_of_readIf _ hread] at hk
      cases hk
  | firstBlock =>
    exfalso
    simp only [FirstPassInv, hu] at hfirst
    obtain ⟨m, x, hm, hx, htc, -⟩ := hfirst
    have hreads := h.tokenReads
    simp only [FirstPass.taken, hu, hm, Nat.add_sub_cancel] at hreads
    -- the token of the packet is there
    obtain ⟨d, hd⟩ := hreads.exists_head (c := s.firstPass.currTc) (by rw [List.getElem?_map, hx, htc]; rfl)
      (by rw [(h.all_filed hset _).1, List.length_map, h.count_tc hset])
    have hstate := congrArg (fun s => s.firstPass.state) hstep
    simp only [step, Coap.firstPass, hu, hd] at hstate
    cases hstate
  | secondBlock =>
    exfalso
    have hstate := congrArg (fun s => s.firstPass.state) hstep
    simp only [step, Coap.firstPass, hu] at hstate
    cases hstate

end Settled

/-- A SHA unit that finds nothing to do has answered all messages. -/
theorem ShaInv.done {pieces : Service logNumTc → List ShaRequest} {services : List (Service logNumTc)}
    {blocks : List (List Byte)} {requests : Fifo ShaRequest} {out : List (List Byte)}
    (h : ShaInv hash pieces services blocks requests.past out) (hsent : requests.sent = services.flatMap pieces)
    (hne : ∀ x ∈ services, pieces x ≠ []) (hhead : requests.head = none) : out.length = services.length := by
  have hpast := Fifo.past_eq_sent _ hhead
  rw [hsent] at hpast
  rcases h with ⟨-, howed, hout⟩ | ⟨x, due, hx, hmsg, howed, -⟩
  · by_contra hlen
    have hlt : out.length < services.length := by
      have hle : out.length ≤ services.length := by
        rw [hout, List.length_map]
        exact List.length_take_le' ..
      omega
    -- the blocks of the next message would have been read
    have hnext := (howed.start (List.getElem?_eq_getElem hlt)).all_prefix_pieces.length_le
    rw [hpast, List.length_append] at hnext
    have hpos := List.length_pos_iff.mpr (hne _ (List.getElem_mem hlt))
    omega
  · have hle := howed.all_prefix_pieces.length_le
    rw [hpast, List.length_append] at hle
    have hpos := List.length_pos_iff.mpr hmsg.ne_nil
    omega

section Settled

variable {packets : List Request} {services : List (Service logNumTc)} {s : State logNumTc}
  (h : PairingInv hash setData packets services s) (hset : Settled hash setData s)

include h hset

theorem PairingInv.firstSha_done : s.firstShaOut.sent.length = services.length := by
  apply h.firstSha.done (h.firstPass_done hset) (fun x _ => (isMessage_firstBlocks x).ne_nil)
  exact Fifo.head_eq_none_of_readIf _ (congrArg State.firstShaIn (hset.still .firstSha (by simp [units])))

/-- The second pass has sent all blocks. -/
theorem PairingInv.secondPass_done : s.secondShaIn.sent = services.flatMap (Service.secondBlocks hash) := by
  have hstep := hset.still .secondPass (by simp [units])
  have hsecond := h.secondPass
  cases hu : s.secondPass with
  | hashKey =>
    rw [hu] at hsecond
    cases hk : s.toSecondPass.head with
    | none =>
      apply hsecond.2.done_eq
      rw [Fifo.past_eq_sent _ hk, h.toSecondPass_sent, List.length_map]
    | some key =>
      have hread := congrArg State.toSecondPass hstep
      simp only [step, Coap.secondPass, hu, hk] at hread
      rw [Fifo.head_eq_none_of_readIf _ hread] at hk
      cases hk
  | hashFirstPass =>
    exfalso
    rw [hu] at hsecond
    obtain ⟨m, x, hn, hdigests, hx, -⟩ := hsecond
    cases hd : s.firstShaOut.head with
    | none =>
      -- all digests would have been read, one more than there are
      have hlen := congrArg List.length (Fifo.past_eq_sent _ hd)
      have hlt := (List.getElem?_eq_some_iff.mp hx).1
      rw [h.firstSha_done hset] at hlen
      omega
    | some d =>
      have hread := congrArg State.firstShaOut hstep
      simp only [step, Coap.secondPass, hu, hd] at hread
      rw [Fifo.head_eq_none_of_readIf _ hread] at hd
      cases hd

theorem PairingInv.secondSha_done : s.secondShaOut.sent.length = services.length := by
  apply h.secondSha.done (h.secondPass_done hset) (fun x _ => (isMessage_secondBlocks x).ne_nil)
  exact Fifo.head_eq_none_of_readIf _ (congrArg State.secondShaIn (hset.still .secondSha (by simp [units])))

/-- A decision was made for every service. -/
theorem PairingInv.verifySig_done : s.verifySigRequest.past.length = services.length := by
  have hstep := hset.still (.verifySig false) (by simp [units])
  cases hr : s.verifySigRequest.head with
  | none => rw [Fifo.past_eq_sent _ hr, h.request_sent, List.length_map]
  | some req =>
    exfalso
    obtain ⟨x, hx, hreq⟩ := exists_item (h.request_sent ▸ s.verifySigRequest.past_snoc_prefix_sent hr)
    have hlt := (List.getElem?_eq_some_iff.mp hx).1
    obtain ⟨digest, hd⟩ : ∃ digest, s.secondShaOut.head = some digest := by
      cases hd : s.secondShaOut.head with
      | some digest => exact ⟨digest, rfl⟩
      | none =>
        have hlen := congrArg List.length (Fifo.past_eq_sent _ hd)
        rw [h.secondSha_done hset, h.digestReads] at hlen
        omega
    obtain ⟨sig, hs⟩ := h.sigReads.exists_head (c := req.tc) (by rw [List.getElem?_map, hx, ← hreq]; rfl)
      (by rw [(h.all_filed hset _).2.1, List.length_map, h.count_tc hset])
    have hread := congrArg State.secondShaOut hstep
    simp only [step, hr, hd, hs, Coap.verifySig, Bool.false_eq_true, if_false, Option.isSome_some] at hread
    rw [Fifo.head_eq_none_of_readIf _ hread] at hd
    cases hd

end Settled

/-! ### Packets with at least six beats -/

namespace Request

def datagram (r : Request) : Datagram := ⟨r.metadata, r.beats, r.isPacket⟩

/-- The packet as the parser sees it. -/
def own (r : Request) : Request := takenOf r.datagram

theorem token_own (r : Request) : r.own.token = r.token := by
  obtain ⟨b₀, b₁, b₂, b₃, b₄, rest, hb, -⟩ := r.exists_beats
  have hown : r.own.beats =
      clearLast b₀ :: clearLast b₁ :: clearLast b₂ :: clearLast b₃ :: clearLast b₄ :: [anyEnd] := by
    simp only [own, takenOf, taken, datagram, hb]
    rfl
  rw [token_eq hown, token_eq hb]
  rfl

theorem signature_own (r : Request) : r.own.signature = r.signature := by
  obtain ⟨b₀, b₁, b₂, b₃, b₄, rest, hb, -⟩ := r.exists_beats
  have hown : r.own.beats =
      clearLast b₀ :: clearLast b₁ :: clearLast b₂ :: clearLast b₃ :: clearLast b₄ :: [anyEnd] := by
    simp only [own, takenOf, taken, datagram, hb]
    rfl
  rw [signature_eq hown, signature_eq hb]
  rfl

theorem parsedData_own (r : Request) : r.own.parsedData = r.parsedData := by
  rw [parsedData, parsedData, token_own]

end Request

theorem exists_requests {packets : List Datagram} (h : ∀ p ∈ packets, 6 ≤ p.beats.length) :
    ∃ rs : List Request, rs.map Request.datagram = packets := by
  induction packets with
  | nil => exact ⟨[], rfl⟩
  | cons p packets ih =>
    obtain ⟨rs, rfl⟩ := ih fun q hq => h q (List.mem_cons_of_mem p hq)
    exact ⟨⟨p.metadata, p.beats, p.isPacket, h p (List.mem_cons_self ..)⟩ :: rs, rfl⟩

/-- A service, for the packet as the parser sees it. -/
def Service.own (x : Service logNumTc) : Service logNumTc := { x with packet := x.packet.own }

theorem Service.decision_own (x : Service logNumTc) : x.own.decision hash = x.decision hash := by
  have hmac_own : hmac hash x.key x.packet.own = hmac hash x.key x.packet := by
    simp only [hmac, Coap.secondBlocks, Coap.firstDigest, Coap.firstBlocks, Request.token_own]
  show (⟨base64Encode (hmac hash x.key x.packet.own) == x.packet.own.signature, _⟩ : Decision) = _
  rw [hmac_own, Request.signature_own]
  rfl

section

variable {packets : List Request} {services : List (Service logNumTc)} {s : State logNumTc}

theorem lane_own (packets : List Request) (c : BitVec logNumTc) :
    lane (Request.tc logNumTc) ((packets.map Request.datagram).map takenOf) c =
      (lane (Request.tc logNumTc) packets c).map Request.own := by
  rw [List.map_map]
  exact lane_map ..

theorem map_lane_own {α : Type} {g : Request → α} (hg : ∀ p, g p.own = g p) (packets : List Request)
    (c : BitVec logNumTc) :
    (lane (Request.tc logNumTc) ((packets.map Request.datagram).map takenOf) c).map g =
      (lane (Request.tc logNumTc) packets c).map g := by
  rw [lane_own, List.map_map]
  exact List.map_congr_left fun p _ => hg p

theorem flatMap_take_datagram (packets : List Request) (n : ℕ) :
    ((packets.map Request.datagram).take n).flatMap Datagram.beats = (packets.take n).flatMap Request.beats := by
  rw [← List.map_take, List.flatMap_map]
  rfl

theorem framing_of_pairingInv (h : PairingInv hash setData packets services s) :
    Framing hash setData (packets.map Request.datagram) s where
  within := by
    rw [flatMap_take_datagram]
    rcases h.parser.phase with ⟨-, howed⟩ | ⟨m, p, due, -, -, -, -, howed, -⟩
    · exact ⟨_, howed⟩
    · exact ⟨_, howed⟩
  between hstate := by
    rw [flatMap_take_datagram]
    rcases h.parser.phase with ⟨-, howed⟩ | ⟨m, p, due, -, -, -, -, -, hphase⟩
    · exact (List.append_nil _).symm.trans howed
    · simp only [WordPhase, hstate] at hphase
  token c := by
    rw [map_lane_own Request.parsedData_own]
    exact h.filed_prefix c
  signature c := by
    rw [map_lane_own Request.signature_own]
    exact h.sig_prefix c
  ikernelId c := by
    rw [map_lane_own fun _ => rfl]
    exact h.ids_prefix c
  decision := by
    have hpackets : ∀ xs : List (Service logNumTc),
        (xs.map Service.own).map Service.packet = (xs.map Service.packet).map Request.own := by
      intro xs
      rw [List.map_map, List.map_map]
      rfl
    refine ⟨(services.take s.verifySigRequest.past.length).map Service.own, ?_, ?_, ?_⟩
    · rw [h.decision_sent, List.map_map]
      exact List.map_congr_left fun x _ => x.decision_own.symm
    · intro c
      rw [hpackets, lane_own, lane_map, List.map_take]
      exact ((lane_take_prefix_lane _ _ _ _).trans (h.inLane.isPrefix c)).map _
    · intro hset
      have hown : (packets.map Request.datagram).map takenOf = packets.map Request.own := List.map_map ..
      rw [hpackets, h.verifySig_done hset, List.take_length, hown]
      exact (perm_of_lanes (Request.tc logNumTc) (h.lane_eq hset)).map _

end

/-- **Framing**: if every packet has at least six beats, the parser keeps to the beats of one packet for each metadata
in every run, and every packet gets exactly one decision. -/
theorem framing_run (hash : List (List Byte) → List Byte) (setData : List Byte → AxiData) (c : Config)
    (packets : List Datagram) (h : ∀ p ∈ packets, 6 ≤ p.beats.length) (acts : List (Act logNumTc)) :
    Framing hash setData packets (run (step hash setData) (State.ofDatagrams c packets) acts) := by
  obtain ⟨rs, rfl⟩ := exists_requests h
  have hinit : (State.ofDatagrams c (rs.map Request.datagram) : State logNumTc) = State.init c rs := by
    simp only [State.ofDatagrams, State.init, List.map_map, List.flatMap_map]
    rfl
  rw [hinit]
  obtain ⟨services, hinv⟩ := pairingInv_run hash setData c rs acts
  exact framing_of_pairingInv hinv

/-- A packet with `n` beats of zeros and one more. -/
def blank (n : ℕ) : Datagram where
  metadata := ⟨0, 0, 0, .inl ⟨0, 0, 0, 0, 0, 0⟩, 0, 0, 32⟩
  beats := List.replicate n ⟨0, -1, false⟩ ++ [⟨0, -1, true⟩]
  isPacket := ⟨_, _, rfl, rfl, fun _ hb => by rw [List.eq_of_mem_replicate hb]⟩

/-- Two packets, and as many calls of the parser as there are metadata and beats. -/
def parseTwo (p q : Datagram) : State 2 :=
  run (step (fun _ => []) fun _ => anyEnd) (State.ofDatagrams ⟨fun _ _ => 0, fun _ => 0⟩ [p, q])
    (List.replicate 2 (.dupMetadata false) ++ List.replicate 14 (.dupData false) ++
      List.replicate 9 (.parsePacket ⟨false, false, false, false, false⟩))

theorem framing_run_twoPackets :
    (∀ p ∈ [blank 6, blank 5], 6 ≤ p.beats.length) ∧
      Framing (fun _ => []) (fun _ => anyEnd) [blank 6, blank 5] (parseTwo (blank 6) (blank 5)) := by
  have hlong : ∀ p ∈ [blank 6, blank 5], 6 ≤ p.beats.length := by decide
  exact ⟨hlong, framing_run _ _ _ _ hlong _⟩

/-- Behind a packet of two beats, the parser is between two packets again when it has read the packet that follows, and
has read one metadata. -/
theorem not_framing_shortPacket :
    ¬Framing (fun _ => []) (fun _ => anyEnd) [blank 1, blank 5] (parseTwo (blank 1) (blank 5)) := by
  intro h
  have hstate : (parseTwo (blank 1) (blank 5)).parser.inState = .inMetadata := by decide +kernel
  have hlen := congrArg List.length (h.between hstate)
  have hread : (parseTwo (blank 1) (blank 5)).parserData.past.length = 8 := by decide +kernel
  have hmeta : (parseTwo (blank 1) (blank 5)).parserMetadata.past.length = 1 := by decide +kernel
  rw [hread, hmeta] at hlen
  exact absurd hlen (by decide)

end Nica.Hls.Coap
