import Nica.Hls.Equiv.CoapUnits
import Nica.Verilog.Sha256

/-!
# Which decision a packet gets

`PairingInv` collects the invariants of the units over the streams between them, and `pairingInv_run` shows that they
hold in every run: for every interleaving of the units and every order in which the scheduler serves
the traffic classes, the decisions come in the order of the requests of `read_key`, and each of them is
computed from the packet whose turn it is in the class that is served, with the key and the ring of its
ikernel (`PairingInv.decision_sent`).

`action_resolution` takes the decisions in that order, but the packets in the order of their arrival.
So every packet gets its own decision if the requests are made in the order of arrival (`InOrder`),
and does not in general.
-/

namespace Nica.Hls.Coap

open Nica.Lib

variable {logNumTc : Nat}

section

variable (hash : List (List Byte) → List Byte) (setData : List Byte → AxiData)

/-- What the streams carry after the services `services`. -/
structure PairingInv (packets : List Request) (services : List (Service logNumTc)) (s : State logNumTc) :
    Prop where
  netMetadata_sent : s.netMetadata.sent = packets.map Request.metadata
  netData_sent : s.netData.sent = packets.flatMap Request.beats
  parserMetadata_sent : s.parserMetadata.sent = s.netMetadata.past
  bufferMetadata_sent : s.bufferMetadata.sent = s.netMetadata.past
  parserData_sent : s.parserData.sent = s.netData.past
  bufferData_sent : s.bufferData.sent = s.netData.past
  parser : ParserInv packets s.parser s.parserMetadata.past.length s.parserData.past
    s.parsedDataStream s.sigStream s.ikernelIdPerTc s.parsedPacketTc
  dispatched : s.dispatched = services.map Service.dispatch
  inLane : InLane packets services
  ownId : ∀ x ∈ services, x.dispatch.ikernelId = x.packet.metadata.ikernelId
  idReads : Reads (services.map Service.tc) services.length s.ikernelIdPerTc
  toFirstPass_sent : s.toFirstPass.sent = services.map (fun x => x.dispatch.key)
  toSecondPass_sent : s.toSecondPass.sent = services.map (fun x => x.dispatch.key)
  request_sent : s.verifySigRequest.sent = services.map (fun x => x.dispatch.request)
  firstPass : FirstPassInv services s.firstPass s.toFirstPass.past.length s.firstShaIn.sent
  tokenReads : Reads (services.map Service.tc) (s.firstPass.taken s.toFirstPass.past.length)
    s.parsedDataStream
  firstSha : ShaInv hash Service.firstBlocks services s.firstSha s.firstShaIn.past
    s.firstShaOut.sent
  secondPass : SecondPassInv hash services s.secondPass s.toSecondPass.past.length
    s.firstShaOut.past.length s.secondShaIn.sent
  secondSha : ShaInv hash (Service.secondBlocks hash) services s.secondSha s.secondShaIn.past
    s.secondShaOut.sent
  digestReads : s.secondShaOut.past.length = s.verifySigRequest.past.length
  sigReads : Reads (services.map Service.tc) s.verifySigRequest.past.length s.sigStream
  decision_sent : s.decision.sent =
    (services.take s.verifySigRequest.past.length).map (Service.decision hash)
  paired : s.decision.past.length = s.bufferMetadata.past.length
  action_length : s.action.sent.length = s.bufferMetadata.past.length
  action_pass : ∀ (k : Nat) (a : PacketAction), s.action.sent[k]? = some a → a.pass = true →
    ∃ d : Decision, s.decision.past[k]? = some d ∧ d.pass = true ∧ a.ringId = d.ringId
  metadataOutput_eq : s.metadataOutput =
    (s.bufferMetadata.past.zip s.action.sent).filterMap (fun x => written x.1 x.2)
  dropper : DropperInv setData packets s.dropper s.action.past s.bufferData.past s.dataOutput

end

variable {hash : List (List Byte) → List Byte} {setData : List Byte → AxiData}
  {packets : List Request} {services : List (Service logNumTc)} {s : State logNumTc}

/-! ### What the streams carry -/

theorem isMessage_firstBlocks (x : Service logNumTc) : IsMessage x.firstBlocks :=
  ⟨rfl, rfl, rfl⟩

theorem isMessage_secondBlocks (x : Service logNumTc) : IsMessage (x.secondBlocks hash) :=
  ⟨rfl, rfl⟩

theorem FirstPassInv.out_prefix {u : FirstPass logNumTc} {n : Nat} {out : List ShaRequest}
    (h : FirstPassInv services u n out) : out <+: services.flatMap Service.firstBlocks := by
  cases hu : u.state with
  | readRequest =>
    simp only [FirstPassInv, hu] at h
    exact h.done_prefix_pieces
  | firstBlock =>
    simp only [FirstPassInv, hu] at h
    obtain ⟨m, x, -, -, -, howed⟩ := h
    exact howed.done_prefix_pieces
  | secondBlock =>
    simp only [FirstPassInv, hu] at h
    obtain ⟨m, x, -, -, -, howed⟩ := h
    exact howed.done_prefix_pieces

theorem SecondPassInv.out_prefix {u : SecondPassState} {n m : Nat} {out : List ShaRequest}
    (h : SecondPassInv hash services u n m out) :
    out <+: services.flatMap (Service.secondBlocks hash) := by
  cases u with
  | hashKey => exact h.2.done_prefix_pieces
  | hashFirstPass =>
    obtain ⟨m, x, -, -, -, howed⟩ := h
    exact howed.done_prefix_pieces

theorem ShaInv.out_eq {pieces : Service logNumTc → List ShaRequest} {blocks : List (List Byte)}
    {done : List ShaRequest} {out : List (List Byte)}
    (h : ShaInv hash pieces services blocks done out) :
    out = (services.take out.length).map (fun x => hash ((pieces x).map (·.data))) := by
  rcases h with ⟨-, -, h⟩ | ⟨-, -, -, -, -, -, h⟩
  · exact h
  · exact h

theorem ShaInv.out_prefix {pieces : Service logNumTc → List ShaRequest}
    {blocks : List (List Byte)} {done : List ShaRequest} {out : List (List Byte)}
    (h : ShaInv hash pieces services blocks done out) :
    out <+: services.map (fun x => hash ((pieces x).map (·.data))) := by
  rw [h.out_eq]
  exact map_take_isPrefix _ _ _

theorem ShaInv.length_le {pieces : Service logNumTc → List ShaRequest}
    {blocks : List (List Byte)} {done : List ShaRequest} {out : List (List Byte)}
    (h : ShaInv hash pieces services blocks done out) : out.length ≤ services.length := by
  simpa using h.out_prefix.length_le

/-! The invariants of the units stay when another service is added at the end. -/

theorem FirstPassInv.extend {u : FirstPass logNumTc} {n : Nat} {out : List ShaRequest}
    (h : FirstPassInv services u n out) (hn : n ≤ services.length) (x : Service logNumTc) :
    FirstPassInv (services ++ [x]) u n out := by
  have hget : ∀ {m : Nat} {y : Service logNumTc}, services[m]? = some y →
      (services ++ [x])[m]? = some y := by
    intro m y hy
    rw [List.getElem?_append_left (List.getElem?_eq_some_iff.mp hy).1]
    exact hy
  cases hu : u.state with
  | readRequest =>
    simp only [FirstPassInv, hu] at h ⊢
    exact h.extend hn _
  | firstBlock =>
    simp only [FirstPassInv, hu] at h ⊢
    obtain ⟨m, y, hm, hy, htc, howed⟩ := h
    exact ⟨m, y, hm, hget hy, htc, howed.extend hn _⟩
  | secondBlock =>
    simp only [FirstPassInv, hu] at h ⊢
    obtain ⟨m, y, hm, hy, hdata, howed⟩ := h
    exact ⟨m, y, hm, hget hy, hdata, howed.extend hn _⟩

theorem SecondPassInv.extend {u : SecondPassState} {n m : Nat} {out : List ShaRequest}
    (h : SecondPassInv hash services u n m out) (hn : n ≤ services.length) (x : Service logNumTc) :
    SecondPassInv hash (services ++ [x]) u n m out := by
  cases u with
  | hashKey => exact ⟨h.1, h.2.extend hn _⟩
  | hashFirstPass =>
    obtain ⟨k, y, hk, hm, hy, howed⟩ := h
    refine ⟨k, y, hk, hm, ?_, howed.extend hn _⟩
    rw [List.getElem?_append_left (List.getElem?_eq_some_iff.mp hy).1]
    exact hy

theorem ShaInv.extend {pieces : Service logNumTc → List ShaRequest} {blocks : List (List Byte)}
    {done : List ShaRequest} {out : List (List Byte)}
    (h : ShaInv hash pieces services blocks done out) (x : Service logNumTc) :
    ShaInv hash pieces (services ++ [x]) blocks done out := by
  have hle := h.length_le
  have hout : out = ((services ++ [x]).take out.length).map
      (fun x => hash ((pieces x).map (·.data))) := by
    rw [List.take_append_of_le_length hle]
    exact h.out_eq
  rcases h with ⟨hblocks, howed, -⟩ | ⟨y, due, hy, hmsg, howed, hblocks, -⟩
  · exact .inl ⟨hblocks, howed.extend hle _, hout⟩
  · have hlt := (List.getElem?_eq_some_iff.mp hy).1
    refine .inr ⟨y, due, ?_, hmsg, howed.extend hlt _, hblocks, hout⟩
    rw [List.getElem?_append_left hlt]
    exact hy

namespace PairingInv

theorem bufferMetadata_prefix (h : PairingInv hash setData packets services s) :
    s.bufferMetadata.past <+: packets.map Request.metadata := by
  rw [← h.netMetadata_sent]
  exact s.bufferMetadata.past_prefix_sent.trans
    (h.bufferMetadata_sent ▸ s.netMetadata.past_prefix_sent)

theorem filed_prefix (h : PairingInv hash setData packets services s) (c : BitVec logNumTc) :
    (s.parsedDataStream c).sent <+:
      (lane (Request.tc logNumTc) packets c).map Request.parsedData := by
  rw [h.parser.parsedData_sent c]
  exact (lane_take_prefix_lane _ _ _ _).map _

theorem sig_prefix (h : PairingInv hash setData packets services s) (c : BitVec logNumTc) :
    (s.sigStream c).sent <+: (lane (Request.tc logNumTc) packets c).map Request.signature := by
  rw [h.parser.sig_sent c]
  exact (lane_take_prefix_lane _ _ _ _).map _

theorem ids_prefix (h : PairingInv hash setData packets services s) (c : BitVec logNumTc) :
    (s.ikernelIdPerTc c).sent <+:
      (lane (Request.tc logNumTc) packets c).map (·.metadata.ikernelId) := by
  rw [h.parser.ids_sent c]
  exact (lane_take_prefix_lane _ _ _ _).map _

end PairingInv

/-! ### The steps -/

theorem pairingInv_init (c : Config) :
    PairingInv hash setData packets [] (State.init c packets : State logNumTc) where
  netMetadata_sent := rfl
  netData_sent := rfl
  parserMetadata_sent := rfl
  bufferMetadata_sent := rfl
  parserData_sent := rfl
  bufferData_sent := rfl
  parser :=
    { shaped := ⟨rfl, rfl, rfl, rfl, rfl⟩
      phase := .inl ⟨rfl, .zero _ _⟩
      parsedData_sent := fun _ => rfl
      sig_sent := fun _ => rfl
      ids_sent := fun _ => rfl
      packetTc_sent := rfl }
  dispatched := rfl
  inLane := by intro n x hx; simp at hx
  ownId := by simp
  idReads := .zero fun _ => rfl
  toFirstPass_sent := rfl
  toSecondPass_sent := rfl
  request_sent := rfl
  firstPass := .zero _ _
  tokenReads := .zero fun _ => rfl
  firstSha := .inl ⟨rfl, .zero _ _, rfl⟩
  secondPass := ⟨rfl, .zero _ _⟩
  secondSha := .inl ⟨rfl, .zero _ _, rfl⟩
  digestReads := rfl
  sigReads := .zero fun _ => rfl
  decision_sent := rfl
  paired := rfl
  action_length := rfl
  action_pass := by intro k a ha; simp [State.init] at ha
  metadataOutput_eq := rfl
  dropper := ⟨.zero _ _, by simp [State.init]⟩

theorem pairingInv_dupMetadata (h : PairingInv hash setData packets services s) (full : Bool) :
    PairingInv hash setData packets services (step hash setData s (.dupMetadata full)) where
  __ := h
  netMetadata_sent := by simpa [step] using h.netMetadata_sent
  parserMetadata_sent := by
    simp only [step, Fifo.sent_put, h.parserMetadata_sent, past_readIf_dup]
  bufferMetadata_sent := by
    simp only [step, Fifo.sent_put, h.bufferMetadata_sent, past_readIf_dup]

theorem pairingInv_dupData (h : PairingInv hash setData packets services s) (full : Bool) :
    PairingInv hash setData packets services (step hash setData s (.dupData full)) where
  __ := h
  netData_sent := by simpa [step] using h.netData_sent
  parserData_sent := by
    simp only [step, Fifo.sent_put, h.parserData_sent, past_readIf_dup]
  bufferData_sent := by
    simp only [step, Fifo.sent_put, h.bufferData_sent, past_readIf_dup]

theorem pairingInv_parsePacket (h : PairingInv hash setData packets services s) (full : ParseFull) :
    PairingInv hash setData packets services (step hash setData s (.parsePacket full)) where
  __ := h
  parserMetadata_sent := by simpa [step] using h.parserMetadata_sent
  parserData_sent := by simpa [step] using h.parserData_sent
  parser := by
    refine parserInv_parsePacket full h.parser ?_ ?_
    · rw [h.parserMetadata_sent, ← h.netMetadata_sent]
      exact s.netMetadata.past_prefix_sent
    · rw [h.parserData_sent, ← h.netData_sent]
      exact s.netData.past_prefix_sent
  idReads := h.idReads.put _ _
  tokenReads := h.tokenReads.put _ _
  sigReads := h.sigReads.put _ _

/-- A call of `read_key` that makes no request. -/
theorem pairingInv_readKey_none (h : PairingInv hash setData packets services s)
    {i : ReadKeyIn logNumTc} (hd : s.dispatch i = none) :
    PairingInv hash setData packets services (step hash setData s (.readKey i)) := by
  simp only [step, hd, Option.isSome_none, readLane_false, Option.map_none, Fifo.put_none,
    Option.toList_none, List.append_nil]
  exact { h with
    parser := { h.parser with packetTc_sent := by simpa using h.parser.packetTc_sent } }

/-- A call of `read_key` that makes a request: the service of the packet whose turn it is. -/
theorem pairingInv_readKey_some (h : PairingInv hash setData packets services s)
    {i : ReadKeyIn logNumTc} {d : Dispatch logNumTc} (hd : s.dispatch i = some d) :
    ∃ p, PairingInv hash setData packets (services ++ [⟨d, p⟩])
      (step hash setData s (.readKey i)) := by
  obtain ⟨htc, hid⟩ := State.dispatch_eq hd
  obtain ⟨p, hp, hpid⟩ := h.idReads.head_eq hid (h.ids_prefix d.tc)
  rw [List.take_of_length_le (by simp)] at hp
  have hkeys : s.toFirstPass.past.length ≤ services.length := by
    simpa [h.toFirstPass_sent] using s.toFirstPass.past_prefix_sent.length_le
  have hkeys' : s.toSecondPass.past.length ≤ services.length := by
    simpa [h.toSecondPass_sent] using s.toSecondPass.past_prefix_sent.length_le
  have hrequests : s.verifySigRequest.past.length ≤ services.length := by
    simpa [h.request_sent] using s.verifySigRequest.past_prefix_sent.length_le
  have htaken : s.firstPass.taken s.toFirstPass.past.length ≤ services.length := by
    refine Nat.le_trans ?_ hkeys
    unfold FirstPass.taken
    split
    · exact Nat.sub_le _ _
    · exact Nat.le_refl _
  have htcs : (services ++ [(⟨d, p⟩ : Service logNumTc)]).map Service.tc =
      services.map Service.tc ++ [d.tc] := by
    rw [List.map_append]
    rfl
  refine ⟨p, ?_⟩
  simp only [step, hd, Option.isSome_some, Option.map_some, Option.toList_some, htc]
  exact
    { h with
      parser :=
        { h.parser with
          ids_sent := by simpa using h.parser.ids_sent
          packetTc_sent := by simpa using h.parser.packetTc_sent }
      dispatched := by rw [List.map_append, h.dispatched]; rfl
      inLane := h.inLane.snoc hp
      ownId := by
        intro x hx
        rcases List.mem_append.mp hx with hx | hx
        · exact h.ownId x hx
        · rw [List.mem_singleton.mp hx]
          exact hpid.symm
      idReads := by
        rw [htcs, List.length_append]
        exact (h.idReads.extend (by simp) _).next (by simp) hid
      toFirstPass_sent := by rw [Fifo.sent_put, h.toFirstPass_sent, List.map_append]; rfl
      toSecondPass_sent := by rw [Fifo.sent_put, h.toSecondPass_sent, List.map_append]; rfl
      request_sent := by rw [Fifo.sent_put, h.request_sent, List.map_append]; rfl
      firstPass := h.firstPass.extend hkeys _
      tokenReads := by
        rw [htcs]
        exact h.tokenReads.extend (by simpa using htaken) _
      firstSha := h.firstSha.extend _
      secondPass := h.secondPass.extend hkeys' _
      secondSha := h.secondSha.extend _
      sigReads := by
        rw [htcs]
        exact h.sigReads.extend (by simpa using hrequests) _
      decision_sent := by
        rw [List.take_append_of_le_length (by simpa using hrequests)]
        exact h.decision_sent }

theorem pairingInv_firstPass (h : PairingInv hash setData packets services s) :
    PairingInv hash setData packets services (step hash setData s .firstPass) := by
  have hnext := firstPassInv_firstPass h.firstPass h.tokenReads h.toFirstPass_sent h.inLane
    h.filed_prefix
  exact
    { h with
      parser :=
        { h.parser with parsedData_sent := by simpa [step] using h.parser.parsedData_sent }
      toFirstPass_sent := by simpa [step] using h.toFirstPass_sent
      firstPass := hnext.1
      tokenReads := hnext.2 }

theorem pairingInv_firstSha (h : PairingInv hash setData packets services s) :
    PairingInv hash setData packets services (step hash setData s .firstSha) where
  __ := h
  firstPass := by simpa [step] using h.firstPass
  firstSha := shaInv_shaUnit isMessage_firstBlocks h.firstPass.out_prefix h.firstSha
  secondPass := by simpa [step] using h.secondPass

theorem pairingInv_secondPass (h : PairingInv hash setData packets services s) :
    PairingInv hash setData packets services (step hash setData s .secondPass) where
  __ := h
  toSecondPass_sent := by simpa [step] using h.toSecondPass_sent
  firstSha := by simpa [step] using h.firstSha
  secondPass := secondPassInv_secondPass h.secondPass h.toSecondPass_sent h.firstSha.out_prefix

theorem pairingInv_secondSha (h : PairingInv hash setData packets services s) :
    PairingInv hash setData packets services (step hash setData s .secondSha) where
  __ := h
  secondPass := by simpa [step] using h.secondPass
  secondSha := shaInv_shaUnit isMessage_secondBlocks h.secondPass.out_prefix h.secondSha
  digestReads := by simpa [step] using h.digestReads

theorem pairingInv_verifySig (h : PairingInv hash setData packets services s) (full : Bool) :
    PairingInv hash setData packets services (step hash setData s (.verifySig full)) := by
  cases hreq : s.verifySigRequest.head with
  | none => simpa [step, hreq] using h
  | some req =>
    cases hd : verifySig full s.secondShaOut.head (some req) (s.sigStream req.tc).head with
    | none => simpa [step, hreq, hd, Fifo.readIf] using h
    | some d =>
      obtain ⟨x, hx, rfl, htc, ⟨y, hy⟩, ⟨z, hz⟩⟩ := verifySig_eq h.digestReads h.request_sent
        h.secondSha.out_prefix h.sigReads h.inLane h.sig_prefix hreq hd
      have hlen := s.verifySigRequest.length_past_readIf_true hreq
      have hnext : (services.map Service.tc)[s.verifySigRequest.past.length]? = some req.tc := by
        rw [List.getElem?_map, hx, htc]
        rfl
      simp only [step, hreq, hd, Option.isSome_some]
      exact
        { h with
          parser := { h.parser with sig_sent := by simpa using h.parser.sig_sent }
          request_sent := by simpa using h.request_sent
          secondSha := by simpa using h.secondSha
          digestReads := by
            show (s.secondShaOut.readIf true).past.length = _
            rw [s.secondShaOut.length_past_readIf_true hy, hlen, h.digestReads]
          sigReads := by
            show Reads _ (s.verifySigRequest.readIf true).past.length _
            rw [hlen]
            exact h.sigReads.next hnext hz
          decision_sent := by
            show (s.decision.put _).sent = (services.take (s.verifySigRequest.readIf true).past.length).map _
            rw [hlen, take_succ_eq hx, List.map_append, Fifo.sent_put, h.decision_sent]
            rfl }

theorem pairingInv_actionResolution (h : PairingInv hash setData packets services s) (i : ActionIn) :
    PairingInv hash setData packets services (step hash setData s (.actionResolution i)) := by
  cases hr : actionResolution i s.bufferMetadata.head s.decision.head with
  | none => simpa [step, hr, Fifo.readIf] using h
  | some r =>
    obtain ⟨a, out⟩ := r
    obtain ⟨m, d, hm, hd, hpass, hring, rfl⟩ := actionResolution_eq hr
    have hlenM := s.bufferMetadata.length_past_readIf_true hm
    have hlenD := s.decision.length_past_readIf_true hd
    simp only [step, hr, Option.isSome_some, Option.map_some, Option.bind_some]
    exact
      { h with
        bufferMetadata_sent := by simpa using h.bufferMetadata_sent
        decision_sent := by simpa using h.decision_sent
        paired := by
          show (s.decision.readIf true).past.length = (s.bufferMetadata.readIf true).past.length
          rw [hlenM, hlenD, h.paired]
        action_length := by
          show (s.action.put _).sent.length = (s.bufferMetadata.readIf true).past.length
          rw [hlenM, Fifo.sent_put, List.length_append, h.action_length]
          rfl
        action_pass := by
          show ∀ (k : Nat) (a' : PacketAction), (s.action.put (some a)).sent[k]? = some a' → _ →
            ∃ d, (s.decision.readIf true).past[k]? = some d ∧ _
          intro k a' ha' hp'
          rw [Fifo.sent_put, Option.toList_some] at ha'
          rw [s.decision.past_readIf_true hd]
          rcases Nat.lt_or_ge k s.action.sent.length with hk | hk
          · rw [List.getElem?_append_left hk] at ha'
            obtain ⟨d', hd', hrest⟩ := h.action_pass k a' ha' hp'
            refine ⟨d', ?_, hrest⟩
            rw [List.getElem?_append_left (by rw [h.paired, ← h.action_length]; exact hk)]
            exact hd'
          · -- the action that was just made
            rw [List.getElem?_append_right hk, List.getElem?_singleton] at ha'
            split at ha'
            · obtain rfl : a = a' := Option.some.inj ha'
              refine ⟨d, ?_, hpass hp', hring⟩
              rw [List.getElem?_append_right (by rw [h.paired, ← h.action_length]; exact hk),
                List.getElem?_singleton, if_pos (by rw [h.paired, ← h.action_length]; assumption)]
            · cases ha'
        metadataOutput_eq := by
          show _ = ((s.bufferMetadata.readIf true).past.zip (s.action.put (some a)).sent).filterMap _
          rw [s.bufferMetadata.past_readIf_true hm, Fifo.sent_put, Option.toList_some,
            List.zip_append h.action_length.symm, List.filterMap_append, h.metadataOutput_eq]
          cases hw : written m a <;> simp [hw] }

theorem pairingInv_dropOrPass (h : PairingInv hash setData packets services s) (full : Bool) :
    PairingInv hash setData packets services (step hash setData s (.dropOrPass full)) where
  __ := h
  bufferData_sent := by simpa [step] using h.bufferData_sent
  action_length := by simpa [step] using h.action_length
  action_pass := by simpa [step] using h.action_pass
  metadataOutput_eq := by simpa [step] using h.metadataOutput_eq
  dropper := by
    refine dropperInv_dropOrPass full h.dropper ?_ ?_
    · rw [h.action_length]
      simpa using h.bufferMetadata_prefix.length_le
    · rw [h.bufferData_sent, ← h.netData_sent]
      exact s.netData.past_prefix_sent

theorem pairingInv_step (h : ∃ services, PairingInv hash setData packets services s)
    (a : Act logNumTc) :
    ∃ services, PairingInv hash setData packets services (step hash setData s a) := by
  obtain ⟨services, h⟩ := h
  cases a with
  | dupMetadata full => exact ⟨services, pairingInv_dupMetadata h full⟩
  | dupData full => exact ⟨services, pairingInv_dupData h full⟩
  | parsePacket full => exact ⟨services, pairingInv_parsePacket h full⟩
  | readKey i =>
    cases hd : s.dispatch i with
    | none => exact ⟨services, pairingInv_readKey_none h hd⟩
    | some d =>
      obtain ⟨p, hp⟩ := pairingInv_readKey_some h hd
      exact ⟨_, hp⟩
  | firstPass => exact ⟨services, pairingInv_firstPass h⟩
  | firstSha => exact ⟨services, pairingInv_firstSha h⟩
  | secondPass => exact ⟨services, pairingInv_secondPass h⟩
  | secondSha => exact ⟨services, pairingInv_secondSha h⟩
  | verifySig full => exact ⟨services, pairingInv_verifySig h full⟩
  | actionResolution i => exact ⟨services, pairingInv_actionResolution h i⟩
  | dropOrPass full => exact ⟨services, pairingInv_dropOrPass h full⟩

/-- The invariants hold in every run. -/
theorem pairingInv_run (hash : List (List Byte) → List Byte) (setData : List Byte → AxiData)
    (c : Config) (packets : List Request) (ins : List (Act logNumTc)) :
    ∃ services, PairingInv hash setData packets services
      (run (step hash setData) (State.init c packets) ins) :=
  run_invariant (P := fun s => ∃ services, PairingInv hash setData packets services s)
    (fun _ a h => pairingInv_step h a) ins _ ⟨[], pairingInv_init c⟩

/-! ### Requests in the order of arrival -/

/-- If `read_key` makes a request, it is for the class of the oldest packet that was parsed and not
requested yet. -/
def InOrder (s : State logNumTc) : Act logNumTc → Prop
  | .readKey i => ∀ d ∈ s.dispatch i, s.parsedPacketTc.sent[s.dispatched.length]? = some d.tc
  | _ => True

instance (s : State logNumTc) : (a : Act logNumTc) → Decidable (InOrder s a)
  | .readKey i => inferInstanceAs
    (Decidable (∀ d ∈ s.dispatch i, s.parsedPacketTc.sent[s.dispatched.length]? = some d.tc))
  | .dupMetadata _ | .dupData _ | .parsePacket _ | .firstPass | .firstSha | .secondPass | .secondSha
  | .verifySig _ | .actionResolution _ | .dropOrPass _ => isTrue trivial

/-- The requests were made in the order of arrival. -/
def Ordered (s : State logNumTc) : Prop :=
  s.dispatched.map Dispatch.tc <+: s.parsedPacketTc.sent

theorem ordered_step {a : Act logNumTc} (ha : InOrder s a) (h : Ordered s) :
    Ordered (step hash setData s a) := by
  cases a with
  | readKey i =>
    have hsent : (step hash setData s (.readKey i)).parsedPacketTc.sent = s.parsedPacketTc.sent := by
      simp [step]
    rw [Ordered, hsent]
    cases hd : s.dispatch i with
    | none => simpa [step, hd] using (show s.dispatched.map Dispatch.tc <+: _ from h)
    | some d =>
      have ha := ha d hd
      simp only [step, hd, Option.toList_some, List.map_append, List.map_cons, List.map_nil]
      obtain ⟨rest, hrest⟩ := h
      have hlen : (s.dispatched.map Dispatch.tc).length = s.dispatched.length := List.length_map _
      rw [← hrest, ← hlen, List.getElem?_append_right (Nat.le_refl _), Nat.sub_self] at ha
      obtain ⟨tcs, rfl⟩ : ∃ tcs, rest = d.tc :: tcs := by
        cases rest with
        | nil => cases ha
        | cons x tcs => exact ⟨tcs, by rw [Option.some.inj ha]⟩
      exact ⟨tcs, by rw [← hrest, List.append_assoc]; rfl⟩
  | parsePacket full =>
    refine h.trans ?_
    simp only [step, Fifo.sent_put]
    exact List.prefix_append _ _
  | verifySig full =>
    simp only [step]
    split
    · exact h
    · exact h
  | dupMetadata _ | dupData _ | firstPass | firstSha | secondPass | secondSha
  | actionResolution _ | dropOrPass _ => exact h

/-- In an ordered run the services are those of the packets in the order of their arrival. -/
theorem PairingInv.packet_eq (h : PairingInv hash setData packets services s) (ho : Ordered s)
    {k : Nat} {x : Service logNumTc} (hx : services[k]? = some x) :
    packets[k]? = some x.packet ∧ x.tc = x.packet.tc logNumTc := by
  have hprefix : services.map Service.tc <+: packets.map (Request.tc logNumTc) := by
    have htcs : s.dispatched.map Dispatch.tc = services.map Service.tc := by
      rw [h.dispatched, List.map_map]
      rfl
    rw [← htcs]
    refine ho.trans ?_
    rw [h.parser.packetTc_sent]
    exact map_take_isPrefix _ _ _
  have hk : k < services.length := (List.getElem?_eq_some_iff.mp hx).1
  have htake : (services.map Service.tc).take k = (packets.take k).map (Request.tc logNumTc) := by
    obtain ⟨rest, hrest⟩ := hprefix
    rw [List.map_take, ← hrest, List.take_append_of_le_length (by simpa using hk.le)]
  obtain ⟨p, hp, hptc⟩ : ∃ p, packets[k]? = some p ∧ p.tc logNumTc = x.tc := by
    have hget : (packets.map (Request.tc logNumTc))[k]? = some x.tc := by
      obtain ⟨rest, hrest⟩ := hprefix
      rw [← hrest, List.getElem?_append_left (by simpa using hk), List.getElem?_map, hx]
      rfl
    rwa [List.getElem?_map, Option.map_eq_some_iff] at hget
  -- both are the packet of this class behind the same number of others
  have hlane := h.inLane k x hx
  have hself := lane_getElem_of_take (Request.tc logNumTc) hp
  rw [htake, ← hptc, hself, Option.some.injEq] at hlane
  exact ⟨by rw [hp, hlane], by rw [← hlane, hptc]⟩

/-! ### Packets and their decisions -/

/-- Every packet gets the decision that belongs to it: `action_resolution` takes with the metadata of a
packet the decision on its own token and signature, with the key and the ring of its own ikernel (as
they were when `read_key` read them); and what is written to the host are the packets whose action lets
them pass, each of them with a signature of its own that matches. -/
structure Paired (hash : List (List Byte) → List Byte) (setData : List Byte → AxiData)
    (packets : List Request) (s : State logNumTc) : Prop where
  together : s.decision.past.length = s.bufferMetadata.past.length
  own : ∀ (k : Nat) (m : Metadata) (d : Decision), s.bufferMetadata.past[k]? = some m →
    s.decision.past[k]? = some d → ∃ p c, packets[k]? = some p ∧ m = p.metadata ∧
      s.dispatched[k]? = some ⟨p.tc logNumTc, p.metadata.ikernelId, c⟩ ∧ d = decisionOf hash c p
  passed : ∀ (k : Nat) (a : PacketAction), s.action.sent[k]? = some a → a.pass = true →
    ∃ p c, packets[k]? = some p ∧
      s.dispatched[k]? = some ⟨p.tc logNumTc, p.metadata.ikernelId, c⟩ ∧ authentic hash c p = true
  metadataOutput : s.metadataOutput =
    (packets.zip s.action.sent).filterMap (fun x => written x.1.metadata x.2)
  dataOutput : s.dataOutput <+: (packets.zip s.action.sent).flatMap (writtenBeats setData)

/-- Zipping does not look behind the end of the shorter list. -/
theorem zip_eq_of_prefix {α β : Type} {as bs : List α} {cs : List β} (h : as <+: bs)
    (hlen : as.length = cs.length) : as.zip cs = bs.zip cs := by
  obtain ⟨rest, rfl⟩ := h
  have hzip : (as ++ rest).zip (cs ++ []) = as.zip cs ++ rest.zip [] := List.zip_append hlen
  rw [List.append_nil] at hzip
  rw [hzip, List.zip_nil_right, List.append_nil]

namespace PairingInv

/-- In an ordered run the `k`-th decision is the one that belongs to the `k`-th packet. -/
theorem own_decision (h : PairingInv hash setData packets services s) (ho : Ordered s) {k : Nat}
    {d : Decision} (hd : s.decision.past[k]? = some d) :
    ∃ p c, packets[k]? = some p ∧
      s.dispatched[k]? = some ⟨p.tc logNumTc, p.metadata.ikernelId, c⟩ ∧ d = decisionOf hash c p := by
  obtain ⟨x, hx, rfl⟩ : ∃ x, services[k]? = some x ∧ x.decision hash = d := by
    have hsent : s.decision.past <+: services.map (Service.decision hash) :=
      s.decision.past_prefix_sent.trans (h.decision_sent ▸ map_take_isPrefix _ _ _)
    obtain ⟨rest, hrest⟩ := hsent
    have hk : k < s.decision.past.length := (List.getElem?_eq_some_iff.mp hd).1
    rw [← Option.map_eq_some_iff, ← List.getElem?_map, ← hrest, List.getElem?_append_left hk]
    exact hd
  obtain ⟨hp, htc⟩ := h.packet_eq ho hx
  have hid := h.ownId x (List.mem_of_getElem? hx)
  refine ⟨x.packet, x.dispatch.config, hp, ?_, ?_⟩
  · rw [h.dispatched, List.getElem?_map, hx, Option.map_some, ← htc, ← hid]
    rfl
  · rw [Service.decision, Service.key, hid]
    rfl

theorem dataOutput_prefix (h : PairingInv hash setData packets services s) :
    s.dataOutput <+: (packets.zip s.action.sent).flatMap (writtenBeats setData) := by
  have hpast : s.dataOutput <+: (packets.zip s.action.past).flatMap (writtenBeats setData) := by
    have hdropper := h.dropper
    cases hu : s.dropper.state with
    | decision =>
      simp only [DropperInv, hu] at hdropper
      rw [hdropper.2]
    | data =>
      simp only [DropperInv, hu] at hdropper
      obtain ⟨due, -, -, hout⟩ := hdropper
      exact ⟨_, hout⟩
  refine hpast.trans ?_
  obtain ⟨rest, hrest⟩ := s.action.past_prefix_sent
  have hzip : packets.zip s.action.past <+: packets.zip s.action.sent := by
    rw [← hrest]
    exact zip_isPrefix_zip_append _ _ _
  obtain ⟨more, hmore⟩ := hzip
  rw [← hmore, List.flatMap_append]
  exact List.prefix_append _ _

theorem paired_of_ordered (h : PairingInv hash setData packets services s) (ho : Ordered s) :
    Paired hash setData packets s where
  together := h.paired
  own := by
    intro k m d hm hd
    obtain ⟨p, c, hp, hdisp, rfl⟩ := h.own_decision ho hd
    refine ⟨p, c, hp, ?_, hdisp, rfl⟩
    obtain ⟨rest, hrest⟩ := h.bufferMetadata_prefix
    have hk : k < s.bufferMetadata.past.length := (List.getElem?_eq_some_iff.mp hm).1
    have hget : (packets.map Request.metadata)[k]? = some m := by
      rw [← hrest, List.getElem?_append_left hk]
      exact hm
    rw [List.getElem?_map, hp] at hget
    exact (Option.some.inj hget).symm
  passed := by
    intro k a ha hpass
    obtain ⟨d, hd, hdpass, -⟩ := h.action_pass k a ha hpass
    obtain ⟨p, c, hp, hdisp, rfl⟩ := h.own_decision ho hd
    exact ⟨p, c, hp, hdisp, hdpass⟩
  metadataOutput := by
    rw [h.metadataOutput_eq, zip_eq_of_prefix h.bufferMetadata_prefix h.action_length.symm,
      List.zip_map_left, List.filterMap_map]
    rfl
  dataOutput := h.dataOutput_prefix

end PairingInv

/-- **Pairing**: in every run in which `read_key` makes its requests in the order of arrival, every
packet gets its own decision. -/
theorem paired_run (hash : List (List Byte) → List Byte) (setData : List Byte → AxiData)
    (c : Config) (packets : List Request) (ins : List (Act logNumTc))
    (h : Along (step hash setData) InOrder (State.init c packets) ins) :
    Paired hash setData packets (run (step hash setData) (State.init c packets) ins) := by
  have hordered : Ordered (run (step hash setData) (State.init c packets) ins) := by
    refine run_induction (fun s a ha hs => ordered_step ha hs) ins _ h ?_
    exact List.prefix_rfl
  obtain ⟨services, hinv⟩ := pairingInv_run hash setData c packets ins
  exact hinv.paired_of_ordered hordered

/-- If all packets are of one class, a request is always for the oldest packet. -/
theorem PairingInv.inOrder_of_oneClass (h : PairingInv hash setData packets services s)
    {c : BitVec logNumTc} (hc : ∀ p ∈ packets, p.tc logNumTc = c) (a : Act logNumTc) :
    InOrder s a := by
  have hlane : ∀ {c' : BitVec logNumTc} {k : Nat} {p : Request},
      (lane (Request.tc logNumTc) packets c')[k]? = some p → c' = c := by
    intro c' k p hp
    obtain ⟨hmem, htc⟩ := List.mem_filter.mp (List.mem_of_getElem? hp)
    rw [← hc p hmem]
    exact (of_decide_eq_true htc).symm
  have hservices : ∀ x ∈ services.map Service.tc, c = x := by
    intro tc htc
    obtain ⟨x, hx, rfl⟩ := List.mem_map.mp htc
    obtain ⟨n, hn⟩ := List.mem_iff_getElem?.mp hx
    exact (hlane (h.inLane n x hn)).symm
  cases a with
  | readKey i =>
    intro d hd
    obtain ⟨-, hid⟩ := State.dispatch_eq hd
    obtain ⟨p, hp, -⟩ := h.idReads.head_eq hid (h.ids_prefix d.tc)
    rw [hlane hp] at hid ⊢
    -- as many ids were read as requests made, and one more is waiting
    have hread : (s.ikernelIdPerTc c).past.length = services.length := by
      rw [h.idReads c, List.take_of_length_le (by simp), List.count_eq_length.mpr hservices,
        List.length_map]
    have hwaiting := ((s.ikernelIdPerTc c).past_snoc_prefix_sent hid).length_le
    have hparsed : (s.ikernelIdPerTc c).sent.length = s.parsedPacketTc.sent.length := by
      rw [h.parser.ids_sent, h.parser.packetTc_sent, List.length_map, List.length_map, lane,
        List.filter_eq_self.mpr]
      intro p hp
      exact decide_eq_true (hc p (List.mem_of_mem_take hp))
    rw [List.length_append, List.length_singleton, hread, hparsed] at hwaiting
    have hlt : s.dispatched.length < s.parsedPacketTc.sent.length := by
      rw [h.dispatched, List.length_map]
      omega
    have hclass : ∀ tc ∈ s.parsedPacketTc.sent, tc = c := by
      intro tc htc
      rw [h.parser.packetTc_sent] at htc
      obtain ⟨p, hp, rfl⟩ := List.mem_map.mp htc
      exact hc p (List.mem_of_mem_take hp)
    rw [List.getElem?_eq_getElem hlt, hclass _ (List.getElem_mem hlt)]
  | _ => trivial

/-- With a single traffic class every packet gets its own decision, in every run. -/
theorem paired_run_of_oneClass (hash : List (List Byte) → List Byte) (setData : List Byte → AxiData)
    (c : Config) (packets : List Request) (ins : List (Act logNumTc)) {tc : BitVec logNumTc}
    (htc : ∀ p ∈ packets, p.tc logNumTc = tc) :
    Paired hash setData packets (run (step hash setData) (State.init c packets) ins) := by
  have h : (∃ services, PairingInv hash setData packets services
        (run (step hash setData) (State.init c packets) ins)) ∧
      Ordered (run (step hash setData) (State.init c packets) ins) := by
    refine run_invariant (P := fun s => (∃ services, PairingInv hash setData packets services s) ∧
      Ordered s) ?_ ins _ ⟨⟨[], pairingInv_init c⟩, List.prefix_rfl⟩
    rintro s a ⟨⟨services, hinv⟩, ho⟩
    exact ⟨pairingInv_step ⟨services, hinv⟩ a, ordered_step (hinv.inOrder_of_oneClass htc a) ho⟩
  obtain ⟨⟨services, hinv⟩, ho⟩ := h
  exact hinv.paired_of_ordered ho

/-! ### A run in order and one out of order

Three packets arrive: of the ikernels 0, 1 and 4, the first and the third of class 0 and the second of
class 1 (`NUM_TC` is 4).  Only the third one carries a valid signature. -/

/-- A packet of zeros but for the signature, which lies in the fourth and the fifth beat. -/
def zeroPacket (ikernelId : BitVec 6) (fourth fifth : BitVec 256) : Request where
  metadata := ⟨0, 0, ikernelId, .inl ⟨0, 0, 0, 0, 0, 0⟩, 0, 0, 192⟩
  beats := [⟨0, -1, false⟩, ⟨0, -1, false⟩, ⟨0, -1, false⟩, ⟨fourth, -1, false⟩,
    ⟨fifth, -1, false⟩, ⟨0, -1, true⟩]
  isPacket := by rw [← isPacket_iff]; rfl
  long := by simp

/-- Every ikernel has its own id as its key, and no ring. -/
def idKeys : Config where
  keys := fun n id => if n = 0 then id.setWidth 32 else 0
  ringId := fun _ => 0

def threePackets : List Request :=
  [zeroPacket 0 0 0, zeroPacket 1 0 0,
   zeroPacket 4 0x6d615356414b344a6a534751416b59794d694b705f
    0x767a6542716a414e4e6e4a6932573531754a6d76505900000000000000000000]

/-- A call of `read_key` without updates and with room for a request. -/
def readKeyWith (nextFlow : Option (BitVec 2 × BitVec 32)) : Act 2 :=
  .readKey ⟨false, [], nextFlow, false, false, false⟩

/-- All packets are parsed, then `read_key` is called, then all units behind it. -/
def threePacketsRun (reads : List (Act 2)) : List (Act 2) :=
  List.replicate 3 (.dupMetadata false) ++ List.replicate 18 (.dupData false) ++
    List.replicate 21 (.parsePacket ⟨false, false, false, false, false⟩) ++ reads ++
    List.replicate 9 .firstPass ++ List.replicate 9 .firstSha ++ List.replicate 6 .secondPass ++
    List.replicate 6 .secondSha ++ List.replicate 3 (.verifySig false) ++
    List.replicate 3 (.actionResolution ⟨false, true, false, false, false⟩)

/-- The scheduler gives each class a quota of one, in turn. -/
def readsInTurn : List (Act 2) :=
  [readKeyWith (some (0, 1)), readKeyWith none, readKeyWith none, readKeyWith (some (1, 1)),
   readKeyWith none, readKeyWith none, readKeyWith (some (0, 1))]

/-- The scheduler gives each class a quota of two. -/
def readsByTwo : List (Act 2) :=
  [readKeyWith (some (0, 2)), readKeyWith none, readKeyWith none, readKeyWith none,
   readKeyWith (some (1, 2))]

/-- `set_data` of a whole beat. -/
def setBeat (bytes : List Byte) : AxiData :=
  ⟨bytes.foldl (fun acc b => (acc <<< 8) ||| b.setWidth 256) 0, -1, false⟩

/-- The end of the run with the given calls of `read_key`, on the SHA-256 core. -/
def threePacketsEnd (reads : List (Act 2)) : State 2 :=
  run (step Verilog.Sha256.sha256 setBeat) (State.init idKeys threePackets) (threePacketsRun reads)

theorem paired_run_inTurn :
    Along (step Verilog.Sha256.sha256 setBeat) InOrder (State.init idKeys threePackets)
        (threePacketsRun readsInTurn) ∧
      (threePacketsEnd readsInTurn).metadataOutput.map (·.ikernelId) = [4] ∧
      Paired Verilog.Sha256.sha256 setBeat threePackets (threePacketsEnd readsInTurn) := by
  have hin : Along (step Verilog.Sha256.sha256 setBeat) InOrder (State.init idKeys threePackets)
      (threePacketsRun readsInTurn) := by decide +kernel
  exact ⟨hin, by decide +kernel, paired_run _ _ _ _ _ hin⟩

/-- The answers of the scheduler are classes that were scheduled and have requests waiting, with a
positive quota. -/
def ActiveFlows (s : State logNumTc) : Act logNumTc → Prop
  | .readKey i => ∀ f ∈ i.nextFlow, f.2 ≠ 0 ∧ f.1 ∈ (s.parsedPacketTc.readIf (!i.busy)).past ∧
      (s.ikernelIdPerTc f.1).queue ≠ []
  | _ => True

instance (s : State logNumTc) : (a : Act logNumTc) → Decidable (ActiveFlows s a)
  | .readKey i =>
    have : Decidable (∀ f ∈ i.nextFlow, f.2 ≠ 0 ∧ f.1 ∈ (s.parsedPacketTc.readIf (!i.busy)).past ∧
        (s.ikernelIdPerTc f.1).queue ≠ []) :=
      @Option.decidableForallMem _ _ (fun _ => inferInstance) i.nextFlow
    this
  | .dupMetadata _ | .dupData _ | .parsePacket _ | .firstPass | .firstSha | .secondPass | .secondSha
  | .verifySig _ | .actionResolution _ | .dropOrPass _ => isTrue trivial

/-- With a quota of two, the two packets of class 0 are served first: the packet of ikernel 1, whose
signature does not match, gets the decision on the packet of ikernel 4 and is written to the host. -/
theorem not_paired_byTwo :
    Along (step Verilog.Sha256.sha256 setBeat) ActiveFlows (State.init idKeys threePackets)
        (threePacketsRun readsByTwo) ∧
      (threePacketsEnd readsByTwo).metadataOutput.map (·.ikernelId) = [1] ∧
      authentic Verilog.Sha256.sha256 idKeys (zeroPacket 1 0 0) = false ∧
      ¬Paired Verilog.Sha256.sha256 setBeat threePackets (threePacketsEnd readsByTwo) := by
  refine ⟨by decide +kernel, by decide +kernel, by decide +kernel, ?_⟩
  intro h
  have hlen : (threePacketsEnd readsByTwo).decision.past.length = 3 := by decide +kernel
  have hserved : (threePacketsEnd readsByTwo).dispatched[1]?.map (·.ikernelId) = some 4 := by
    decide +kernel
  obtain ⟨p, c, hp, -, hd, -⟩ := h.own 1 _ _
    (List.getElem?_eq_getElem (by rw [← h.together, hlen]; decide))
    (List.getElem?_eq_getElem (by rw [hlen]; decide))
  obtain rfl : zeroPacket 1 0 0 = p := Option.some.inj hp
  rw [hd, Option.map_some, Option.some.injEq] at hserved
  -- the second request was for ikernel 4, the second packet is of ikernel 1
  exact absurd hserved (show ¬(1 : BitVec 6) = 4 by decide)

end Nica.Hls.Coap
