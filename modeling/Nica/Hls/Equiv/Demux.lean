import Nica.Hls.Demux
import Nica.Lib.Owed
import Mathlib.Data.Nat.Log

/-!
# The demultiplexer keeps a metadata and its data together

`Delivers pkts s` says that what arrived so far is a prefix of the metadata and of the beats of the packets
`pkts`.  `Routed cfg pkts s` is the property: every metadata and every beat that went through stands on the port
of the traffic class of its packet, in the order of arrival, and that port is the one whose occupancy was looked
at before the packet was made.

The two state machines read three streams that all carry one element for each metadata, so a machine that has
taken `n` elements of its stream is at packet `n`, whatever the others have taken (`Inv`).
-/

namespace Nica.Hls.Demux

open Nica.Lib

/-! ### The port of a packet -/

/-- What the build promises: the static assertion on `NUM_TC`, a port for the ikernels besides that of the
passthrough traffic, and that `ntl::log2` rounds up. -/
structure Config.Valid (cfg : Config) : Prop where
  two_le : 2 ≤ cfg.numTc
  numTc_eq : cfg.numTc = 2 ^ cfg.log2 cfg.numTc
  le_pow_log2 : ∀ n, n ≤ 2 ^ cfg.log2 n

namespace Config

variable {cfg : Config}

theorem Valid.and_eq_mod (h : cfg.Valid) (x : ℕ) : x &&& (cfg.numTc - 1) = x % cfg.numTc := by
  rw [h.numTc_eq]
  exact Nat.and_two_pow_sub_one_eq_mod x _

theorem Valid.trafficClass_lt (h : cfg.Valid) (id : BitVec 6) : cfg.trafficClass id < cfg.numPorts := by
  have htwo := h.two_le
  have hlt : id.toNat % cfg.numTc < cfg.numTc := Nat.mod_lt _ (by omega)
  rw [trafficClass, numPorts, h.and_eq_mod]
  split_ifs with hlast
  · omega
  · omega

theorem Valid.numPorts_le (h : cfg.Valid) : cfg.numPorts ≤ 2 ^ cfg.numStreamsWidth := by
  have hlog := h.le_pow_log2 cfg.numPorts
  rw [numStreamsWidth]
  split_ifs with hz
  · exact hlog
  · -- a single port: the width is one bit all the same
    rw [not_ne_iff.mp hz] at hlog
    omega

theorem tcHasRoom_iff (metaCounts dataCounts : ℕ → BitVec 10) (id : BitVec 6) (len : BitVec 11) :
    cfg.tcHasRoom metaCounts dataCounts id len = true ↔ (metaCounts (cfg.trafficClass id)).toNat < 256 ∧
      (dataCounts (cfg.trafficClass id)).toNat + len.toNat / 32 ≤ 256 := by
  rw [tcHasRoom, Nat.shiftRight_eq_div_pow, Bool.not_eq_true', decide_eq_false_iff_not]
  omega

/-- The two formulas of the port agree. -/
theorem Valid.selectPort_eq (h : cfg.Valid) (m : Metadata) : cfg.selectPort m = cfg.trafficClass m.ikernelId := by
  have htwo := h.two_le
  have hmod : m.ikernelId.toNat % cfg.numTc < cfg.numTc := Nat.mod_lt _ (by omega)
  have hport : (if cfg.numPorts ≤ m.ikernelId.toNat &&& (cfg.numTc - 1) then
      (m.ikernelId.toNat &&& (cfg.numTc - 1)) - cfg.numPorts else m.ikernelId.toNat &&& (cfg.numTc - 1)) =
      cfg.trafficClass m.ikernelId := by
    rw [trafficClass, numPorts, h.and_eq_mod]
    split_ifs with h₁ h₂ h₂
    · omega
    · omega
    · omega
    · rfl
  have hlt : cfg.trafficClass m.ikernelId < 2 ^ cfg.numStreamsWidth :=
    lt_of_lt_of_le (h.trafficClass_lt _) h.numPorts_le
  rw [selectPort, hport, Nat.mod_eq_of_lt hlt]

end Config

variable (cfg : Config)

/-- The traffic class of a packet. -/
def cls (k : Packet) : ℕ := cfg.trafficClass k.metadata.ikernelId

/-- All beats, each with the traffic class of its packet. -/
def tagged (pkts : List Packet) : List (ℕ × AxiData) := pkts.flatMap (tag (cls cfg) Packet.beats)

/-! ### The property -/

/-- What arrived is a prefix of the packets, metadata and data separately. -/
def Delivers (pkts : List Packet) (s : State) : Prop :=
  s.metadataIn.sent <+: pkts.map Packet.metadata ∧ s.dataIn.sent <+: pkts.flatMap Packet.beats

instance (pkts : List Packet) (s : State) : Decidable (Delivers pkts s) :=
  inferInstanceAs (Decidable (_ ∧ _))

/-- No unit can move before something arrives. -/
def Settled (s : State) : Prop :=
  dupMeta false s = s ∧ portSelector cfg false s = s ∧ dupPorts false s = s ∧ demuxMeta cfg false s = s ∧
    demuxData cfg false s = s

/-- The ports carry what went through, by the class of the packet. -/
structure Routed (pkts : List Packet) (s : State) : Prop where
  /-- The port of a packet is there. -/
  port_lt : ∀ k ∈ pkts, cls cfg k < cfg.numPorts
  /-- It is the port whose occupancy `can_transmit` looked at. -/
  checked : ∀ k ∈ pkts, ∀ metaCounts dataCounts len,
    cfg.tcHasRoom metaCounts dataCounts k.metadata.ikernelId len = true ↔
      (metaCounts (cls cfg k)).toNat < 256 ∧ (dataCounts (cls cfg k)).toNat + len.toNat / 32 ≤ 256
  /-- The metadata that `demuxMeta` has taken stand on their ports, in the order of arrival. -/
  tcMeta : ∀ c, (s.tcMeta c).sent =
    (lane (cls cfg) (pkts.take s.metaToOutput.past.length) c).map Packet.metadata
  /-- The beats that `demuxData` has taken stand on the ports of their packets, in the order of arrival. -/
  tcData : ∀ c, (s.tcData c).sent =
    (lane Prod.fst ((tagged cfg pkts).take s.dataIn.past.length) c).map Prod.snd
  /-- A metadata that arrived was taken, is on its way, or has not been read. -/
  metadata_kept : s.metadataIn.sent = (pkts.take s.metaToOutput.past.length).map Packet.metadata ++
    s.metaToOutput.queue ++ s.metadataIn.queue
  /-- Between two packets, the beats taken are those of the packets whose metadata were taken. -/
  data_kept : s.state = .idle → s.dataIn.past = (pkts.take s.emptyStream.past.length).flatMap Packet.beats
  /-- The demultiplexer does not stop before everything that arrived went through. -/
  settled : Settled cfg s → s.metadataIn.sent = pkts.map Packet.metadata →
    s.dataIn.sent = pkts.flatMap Packet.beats →
    ∀ c, (s.tcMeta c).sent = (lane (cls cfg) pkts c).map Packet.metadata ∧
      (s.tcData c).sent = (lane (cls cfg) pkts c).flatMap Packet.beats

/-! ### The invariant -/

/-- What `demuxMeta` has taken: between two packets as many ports as metadata, else one port more, which is the
one it holds. -/
def MetaTurn (s : State) : Prop :=
  match s.metaState with
  | .metaIdle => s.portToMetaOutput.past.length = s.metaToOutput.past.length
  | .writeMetadata => ∃ ports, s.portToMetaOutput.past = ports ++ [s.metaPort] ∧
      ports.length = s.metaToOutput.past.length

/-- What `demuxData` has taken: `done` are the beats it copied, `due` those of the packet it copies that are
still to come. -/
structure DataTurn (pkts : List Packet) (s : State) (done : List (ℕ × AxiData)) (due : List AxiData) : Prop where
  owed : Owed (tag (cls cfg) Packet.beats) pkts s.emptyStream.past.length done (due.map (s.dataPort, ·))
  taken : done.map Prod.snd = s.dataIn.past
  copied : ∀ c, (s.tcData c).sent = (lane Prod.fst done c).map Prod.snd
  idle : s.state = .idle → due = []
  stream : s.state = .stream → IsPacket due

/-- Every stream carries one element for each metadata, and both machines follow the packets. -/
structure Inv (pkts : List Packet) (s : State) : Prop where
  metaToSelectPort : s.metaToSelectPort.sent = s.metadataIn.past
  metaToOutput : s.metaToOutput.sent = s.metadataIn.past
  selectedPorts : s.selectedPorts.sent = s.metaToSelectPort.past.map cfg.selectPort
  emptyStream : s.emptyStream.sent = s.metaToSelectPort.past.map Metadata.emptyPacket
  portToMetaOutput : s.portToMetaOutput.sent = s.selectedPorts.past
  portToDataOutput : s.portToDataOutput.sent = s.selectedPorts.past
  metaTurn : MetaTurn s
  tcMeta : ∀ c, (s.tcMeta c).sent =
    (lane (cls cfg) (pkts.take s.metaToOutput.past.length) c).map Packet.metadata
  taken : s.emptyStream.past.length = s.portToDataOutput.past.length
  dataTurn : ∃ done due, DataTurn cfg pkts s done due

theorem inv_init (pkts : List Packet) : Inv cfg pkts State.init where
  metaToSelectPort := rfl
  metaToOutput := rfl
  selectedPorts := rfl
  emptyStream := rfl
  portToMetaOutput := rfl
  portToDataOutput := rfl
  metaTurn := rfl
  tcMeta _ := rfl
  taken := rfl
  dataTurn := ⟨[], [], Owed.zero _ _, rfl, fun _ => rfl, fun _ => rfl, fun h => by cases h⟩

variable {cfg} {pkts : List Packet} {s : State}

namespace Inv

/-- The metadata on the way to the ports are those of the packets. -/
theorem metaToOutput_prefix (h : Inv cfg pkts s) (hdel : Delivers pkts s) :
    s.metaToOutput.sent <+: pkts.map Packet.metadata := by
  rw [h.metaToOutput]
  exact s.metadataIn.past_prefix_sent.trans hdel.1

theorem selected_prefix (h : Inv cfg pkts s) (hdel : Delivers pkts s) :
    s.metaToSelectPort.past <+: pkts.map Packet.metadata := by
  refine s.metaToSelectPort.past_prefix_sent.trans ?_
  rw [h.metaToSelectPort]
  exact s.metadataIn.past_prefix_sent.trans hdel.1

theorem selectedPorts_prefix (h : Inv cfg pkts s) (hcfg : cfg.Valid) (hdel : Delivers pkts s) :
    s.selectedPorts.sent <+: pkts.map (cls cfg) := by
  have hmap : pkts.map (cls cfg) = (pkts.map Packet.metadata).map cfg.selectPort := by
    rw [List.map_map]
    apply List.map_congr_left
    intro k _
    exact (hcfg.selectPort_eq k.metadata).symm
  rw [h.selectedPorts, hmap]
  exact (h.selected_prefix hdel).map _

theorem emptyStream_prefix (h : Inv cfg pkts s) (hdel : Delivers pkts s) :
    s.emptyStream.sent <+: pkts.map (fun k => k.metadata.emptyPacket) := by
  rw [h.emptyStream]
  have hpre := (h.selected_prefix hdel).map Metadata.emptyPacket
  rwa [List.map_map] at hpre

theorem portToMetaOutput_prefix (h : Inv cfg pkts s) (hcfg : cfg.Valid) (hdel : Delivers pkts s) :
    s.portToMetaOutput.sent <+: pkts.map (cls cfg) := by
  rw [h.portToMetaOutput]
  exact s.selectedPorts.past_prefix_sent.trans (h.selectedPorts_prefix hcfg hdel)

theorem portToDataOutput_prefix (h : Inv cfg pkts s) (hcfg : cfg.Valid) (hdel : Delivers pkts s) :
    s.portToDataOutput.sent <+: pkts.map (cls cfg) := by
  rw [h.portToDataOutput]
  exact s.selectedPorts.past_prefix_sent.trans (h.selectedPorts_prefix hcfg hdel)

end Inv

/-! ### The steps -/

/-- The units before `demuxData` do not touch what it has taken. -/
theorem DataTurn.congr {s' : State} {done : List (ℕ × AxiData)} {due : List AxiData}
    (h : DataTurn cfg pkts s done due) (hempty : s'.emptyStream.past = s.emptyStream.past)
    (hdata : s'.dataIn.past = s.dataIn.past) (htc : s'.tcData = s.tcData) (hstate : s'.state = s.state)
    (hport : s'.dataPort = s.dataPort) : DataTurn cfg pkts s' done due where
  owed := by rw [hempty, hport]; exact h.owed
  taken := by rw [hdata]; exact h.taken
  copied := by rw [htc]; exact h.copied
  idle := by rw [hstate]; exact h.idle
  stream := by rw [hstate]; exact h.stream

theorem inv_dupMeta (h : Inv cfg pkts s) (full : Bool) : Inv cfg pkts (dupMeta full s) := by
  obtain ⟨done, due, hturn⟩ := h.dataTurn
  have hpast := past_readIf_dup s.metadataIn full
  exact { h with
    dataTurn := ⟨done, due, hturn.congr rfl rfl rfl rfl rfl⟩
    metaToSelectPort := by
      show (s.metaToSelectPort.put _).sent = _
      rw [Fifo.sent_put, h.metaToSelectPort]
      exact hpast.symm
    metaToOutput := by
      show (s.metaToOutput.put _).sent = _
      rw [Fifo.sent_put, h.metaToOutput]
      exact hpast.symm }

theorem inv_portSelector (h : Inv cfg pkts s) (full : Bool) : Inv cfg pkts (portSelector cfg full s) := by
  obtain ⟨done, due, hturn⟩ := h.dataTurn
  have hpast := past_readIf_dup s.metaToSelectPort full
  exact { h with
    dataTurn := ⟨done, due, hturn.congr rfl rfl rfl rfl rfl⟩
    metaToSelectPort := (Fifo.sent_readIf _ _).trans h.metaToSelectPort
    selectedPorts := by
      show (s.selectedPorts.put _).sent = (s.metaToSelectPort.readIf _).past.map _
      rw [Fifo.sent_put, h.selectedPorts, hpast, List.map_append, Option.toList_map]
    emptyStream := by
      show (s.emptyStream.put _).sent = (s.metaToSelectPort.readIf _).past.map _
      rw [Fifo.sent_put, h.emptyStream, hpast, List.map_append, Option.toList_map] }

theorem inv_dupPorts (h : Inv cfg pkts s) (full : Bool) : Inv cfg pkts (dupPorts full s) := by
  obtain ⟨done, due, hturn⟩ := h.dataTurn
  have hpast := past_readIf_dup s.selectedPorts full
  exact { h with
    dataTurn := ⟨done, due, hturn.congr rfl rfl rfl rfl rfl⟩
    selectedPorts := (Fifo.sent_readIf _ _).trans h.selectedPorts
    portToMetaOutput := by
      show (s.portToMetaOutput.put _).sent = (s.selectedPorts.readIf _).past
      rw [Fifo.sent_put, h.portToMetaOutput, hpast]
    portToDataOutput := by
      show (s.portToDataOutput.put _).sent = (s.selectedPorts.readIf _).past
      rw [Fifo.sent_put, h.portToDataOutput, hpast] }

/-- What a port gets when it is there. -/
theorem sent_putPort {α : Type} (f : ℕ → Fifo α) {port : ℕ} (hport : port < cfg.numPorts) (x : α) (c : ℕ) :
    (putPort cfg f port (some x) c).sent = (f c).sent ++ if c = port then [x] else [] := by
  rw [putPort, if_pos hport, sent_putLane, Option.toList_some]

theorem inv_demuxMeta (hcfg : cfg.Valid) (hdel : Delivers pkts s) (h : Inv cfg pkts s) (full : Bool) :
    Inv cfg pkts (demuxMeta cfg full s) := by
  obtain ⟨done, due, hturn⟩ := h.dataTurn
  have hmeta := h.metaTurn
  unfold demuxMeta
  cases hstate : s.metaState with
  | metaIdle =>
    simp only [MetaTurn, hstate] at hmeta
    cases hport : s.portToMetaOutput.head with
    | none => exact h
    | some port =>
      exact { h with
        portToMetaOutput := (Fifo.sent_readIf _ _).trans h.portToMetaOutput
        metaTurn := ⟨s.portToMetaOutput.past, s.portToMetaOutput.past_readIf_true hport, hmeta⟩
        dataTurn := ⟨done, due, hturn.congr rfl rfl rfl rfl rfl⟩ }
  | writeMetadata =>
    simp only [MetaTurn, hstate] at hmeta
    obtain ⟨ports, hports, hlen⟩ := hmeta
    cases hhead : s.metaToOutput.head with
    | none => exact h
    | some m =>
      cases full with
      | true => exact h
      | false =>
        -- the port it holds and the metadata it finds are those of the same packet
        have hlenPast := s.metaToOutput.length_past_readIf_true hhead
        obtain ⟨k, hk, rfl⟩ := exists_item
          ((s.metaToOutput.past_snoc_prefix_sent hhead).trans (h.metaToOutput_prefix hdel))
        have hheld : ports ++ [s.metaPort] <+: pkts.map (cls cfg) := by
          rw [← hports]
          exact s.portToMetaOutput.past_prefix_sent.trans (h.portToMetaOutput_prefix hcfg hdel)
        obtain ⟨k', hk', hcls⟩ := exists_item hheld
        rw [hlen, hk] at hk'
        cases hk'
        have hlt : s.metaPort < cfg.numPorts := by
          rw [← hcls]
          exact hcfg.trafficClass_lt _
        exact { h with
          metaToOutput := (Fifo.sent_readIf _ _).trans h.metaToOutput
          metaTurn := by
            show s.portToMetaOutput.past.length = (s.metaToOutput.readIf true).past.length
            rw [hlenPast, hports, List.length_append, hlen, List.length_singleton]
          tcMeta := by
            intro c
            show (putPort cfg s.tcMeta s.metaPort (some k.metadata) c).sent =
              (lane (cls cfg) (pkts.take (s.metaToOutput.readIf true).past.length) c).map Packet.metadata
            rw [sent_putPort _ hlt, h.tcMeta c, hlenPast, lane_take_succ _ hk, List.map_append, hcls]
            split_ifs with hc
            · rfl
            · rfl
          dataTurn := ⟨done, due, hturn.congr rfl rfl rfl rfl rfl⟩ }

/-- The data port of a packet that is being copied is there. -/
theorem DataTurn.port_lt (hcfg : cfg.Valid) {done : List (ℕ × AxiData)} {b : AxiData} {due : List AxiData}
    (h : DataTurn cfg pkts s done (b :: due)) : s.dataPort < cfg.numPorts := by
  have hmem : (s.dataPort, b) ∈ (pkts.take s.emptyStream.past.length).flatMap (tag (cls cfg) Packet.beats) := by
    rw [← h.owed]
    exact List.mem_append_right _ (List.mem_cons_self ..)
  obtain ⟨k, -, hk⟩ := List.mem_flatMap.mp hmem
  obtain ⟨b', -, heq⟩ := List.mem_map.mp hk
  rw [← (Prod.mk.inj heq).1]
  exact hcfg.trafficClass_lt _

/-- The beat at the head of the data is the next one of the packet that is being copied. -/
theorem DataTurn.head_eq (hdel : Delivers pkts s) {done : List (ℕ × AxiData)} {b flit : AxiData}
    {due : List AxiData} (h : DataTurn cfg pkts s done (b :: due)) (hhead : s.dataIn.head = some flit) :
    flit = b := by
  have howed : Owed Packet.beats pkts s.emptyStream.past.length s.dataIn.past (b :: due) := by
    have hmap := congrArg (List.map Prod.snd) h.owed
    rw [List.map_append, h.taken, List.map_map, map_snd_flatMap_tag] at hmap
    rw [Owed, ← hmap]
    congr 1
    exact (List.map_id _).symm
  exact howed.head_eq hdel.2 hhead

theorem inv_demuxData (hcfg : cfg.Valid) (hdel : Delivers pkts s) (h : Inv cfg pkts s) (full : Bool) :
    Inv cfg pkts (demuxData cfg full s) := by
  obtain ⟨done, due, hturn⟩ := h.dataTurn
  unfold demuxData
  cases hstate : s.state with
  | idle =>
    cases hempty : s.emptyStream.head with
    | none => exact h
    | some empty =>
      cases hport : s.portToDataOutput.head with
      | none => exact h
      | some port =>
        have hlenEmpty := s.emptyStream.length_past_readIf_true hempty
        have hlenPort := s.portToDataOutput.length_past_readIf_true hport
        -- the flag and the port are those of the same packet
        obtain ⟨k, hk, rfl⟩ := exists_item
          ((s.emptyStream.past_snoc_prefix_sent hempty).trans (h.emptyStream_prefix hdel))
        obtain ⟨k', hk', rfl⟩ := exists_item
          ((s.portToDataOutput.past_snoc_prefix_sent hport).trans (h.portToDataOutput_prefix hcfg hdel))
        rw [← h.taken, hk] at hk'
        cases hk'
        have hdue := hturn.idle hstate
        subst hdue
        refine { h with
          emptyStream := (Fifo.sent_readIf _ _).trans h.emptyStream
          portToDataOutput := (Fifo.sent_readIf _ _).trans h.portToDataOutput
          taken := by
            show (s.emptyStream.readIf true).past.length = (s.portToDataOutput.readIf true).past.length
            rw [hlenEmpty, hlenPort, h.taken]
          dataTurn := ⟨done, k.beats, ?_⟩ }
        exact {
          owed := by
            show Owed _ pkts (s.emptyStream.readIf true).past.length done (k.beats.map (cls cfg k, ·))
            rw [hlenEmpty]
            exact hturn.owed.start hk
          taken := hturn.taken
          copied := hturn.copied
          idle := by
            intro hidle
            cases he : k.metadata.emptyPacket with
            | true => exact k.beats_eq_nil he
            | false => simp [he] at hidle
          stream := by
            intro hstream
            cases he : k.metadata.emptyPacket with
            | true => simp [he] at hstream
            | false => exact k.isPacket_beats he }
  | stream =>
    cases hhead : s.dataIn.head with
    | none => exact h
    | some flit =>
      cases full with
      | true => exact h
      | false =>
        have hpacket := hturn.stream hstate
        obtain ⟨b, due, rfl⟩ := List.exists_cons_of_ne_nil hpacket.ne_nil
        have hlt := hturn.port_lt hcfg
        have hflit := hturn.head_eq hdel hhead
        subst hflit
        refine { h with dataTurn := ⟨done ++ [(s.dataPort, flit)], due, ?_⟩ }
        exact {
          owed := hturn.owed.advance
          taken := by
            show (done ++ [(s.dataPort, flit)]).map Prod.snd = (s.dataIn.readIf true).past
            rw [List.map_append, hturn.taken, s.dataIn.past_readIf_true hhead]
            rfl
          copied := by
            intro c
            show (putPort cfg s.tcData s.dataPort (some flit) c).sent = _
            rw [sent_putPort _ hlt, hturn.copied c, lane_append, List.map_append]
            congr 1
            by_cases hc : c = s.dataPort
            · simp [lane, hc]
            · have hc' : ¬s.dataPort = c := fun h => hc h.symm
              simp [lane, hc, hc']
          idle := by
            intro hidle
            cases hl : flit.last with
            | true => exact (isPacket_cons hpacket).1 hl
            | false => simp [hl] at hidle
          stream := by
            intro hstream
            cases hl : flit.last with
            | true => simp [hl] at hstream
            | false => exact (isPacket_cons hpacket).2 hl }

theorem inv_step (hcfg : cfg.Valid) (hdel : Delivers pkts s) (h : Inv cfg pkts s) (a : Act) :
    Inv cfg pkts (step cfg s a) := by
  cases a with
  | dupMeta full => exact inv_dupMeta h full
  | portSelector full => exact inv_portSelector h full
  | dupPorts full => exact inv_dupPorts h full
  | demuxMeta full => exact inv_demuxMeta hcfg hdel h full
  | demuxData full => exact inv_demuxData hcfg hdel h full
  | arriveMeta m =>
    obtain ⟨done, due, hturn⟩ := h.dataTurn
    exact { h with dataTurn := ⟨done, due, hturn.congr rfl rfl rfl rfl rfl⟩ }
  | arriveData b =>
    obtain ⟨done, due, hturn⟩ := h.dataTurn
    exact { h with dataTurn := ⟨done, due, hturn.congr rfl rfl rfl rfl rfl⟩ }

/-- What arrived before a step arrived after it. -/
theorem sent_prefix_step (s : State) (a : Act) :
    s.metadataIn.sent <+: (step cfg s a).metadataIn.sent ∧ s.dataIn.sent <+: (step cfg s a).dataIn.sent := by
  cases a with
  | dupMeta full => exact ⟨by simp [step, dupMeta], List.prefix_refl _⟩
  | portSelector full => exact ⟨List.prefix_refl _, List.prefix_refl _⟩
  | dupPorts full => exact ⟨List.prefix_refl _, List.prefix_refl _⟩
  | demuxMeta full =>
    simp only [step, demuxMeta]
    split
    · split <;> exact ⟨List.prefix_refl _, List.prefix_refl _⟩
    · split
      · exact ⟨List.prefix_refl _, List.prefix_refl _⟩
      · split <;> exact ⟨List.prefix_refl _, List.prefix_refl _⟩
  | demuxData full =>
    simp only [step, demuxData]
    split
    · split <;> exact ⟨List.prefix_refl _, List.prefix_refl _⟩
    · split
      · exact ⟨List.prefix_refl _, List.prefix_refl _⟩
      · split
        · exact ⟨List.prefix_refl _, List.prefix_refl _⟩
        · exact ⟨List.prefix_refl _, by simp⟩
  | arriveMeta m => exact ⟨by simp [step], List.prefix_refl _⟩
  | arriveData b => exact ⟨List.prefix_refl _, by simp [step]⟩

theorem Delivers.of_step (a : Act) (h : Delivers pkts (step cfg s a)) : Delivers pkts s :=
  ⟨(sent_prefix_step s a).1.trans h.1, (sent_prefix_step s a).2.trans h.2⟩

/-! ### Progress -/

namespace Settled

theorem metadataIn (h : Settled cfg s) : s.metadataIn.head = none :=
  head_eq_none_of_dup (congrArg State.metadataIn h.1)

theorem metaToSelectPort (h : Settled cfg s) : s.metaToSelectPort.head = none :=
  head_eq_none_of_dup (congrArg State.metaToSelectPort h.2.1)

theorem selectedPorts (h : Settled cfg s) : s.selectedPorts.head = none :=
  head_eq_none_of_dup (congrArg State.selectedPorts h.2.2.1)

/-- `demuxMeta` waits for a port or for a metadata. -/
theorem demuxMeta (h : Settled cfg s) :
    (s.metaState = .metaIdle ∧ s.portToMetaOutput.head = none) ∨
      (s.metaState = .writeMetadata ∧ s.metaToOutput.head = none) := by
  have hstep := h.2.2.2.1
  unfold Demux.demuxMeta at hstep
  cases hstate : s.metaState with
  | metaIdle =>
    refine .inl ⟨rfl, ?_⟩
    cases hport : s.portToMetaOutput.head with
    | none => rfl
    | some port =>
      simp only [hstate, hport] at hstep
      rw [← hport]
      exact Fifo.head_eq_none_of_readIf _ (congrArg State.portToMetaOutput hstep)
  | writeMetadata =>
    refine .inr ⟨rfl, ?_⟩
    cases hhead : s.metaToOutput.head with
    | none => rfl
    | some m =>
      simp only [hstate, hhead] at hstep
      rw [← hhead]
      exact Fifo.head_eq_none_of_readIf _ (congrArg State.metaToOutput hstep)

/-- `demuxData` waits for a packet or for its data. -/
theorem demuxData (h : Settled cfg s) :
    (s.state = .idle ∧ (s.emptyStream.head = none ∨ s.portToDataOutput.head = none)) ∨
      (s.state = .stream ∧ s.dataIn.head = none) := by
  have hstep := h.2.2.2.2
  unfold Demux.demuxData at hstep
  cases hstate : s.state with
  | idle =>
    refine .inl ⟨rfl, ?_⟩
    cases hempty : s.emptyStream.head with
    | none => exact .inl rfl
    | some empty =>
      cases hport : s.portToDataOutput.head with
      | none => exact .inr rfl
      | some port =>
        simp only [hstate, hempty, hport] at hstep
        rw [← hport]
        exact .inr (Fifo.head_eq_none_of_readIf _ (congrArg State.portToDataOutput hstep))
  | stream =>
    refine .inr ⟨rfl, ?_⟩
    cases hhead : s.dataIn.head with
    | none => rfl
    | some flit =>
      simp only [hstate, hhead] at hstep
      rw [← hhead]
      exact Fifo.head_eq_none_of_readIf _ (congrArg State.dataIn hstep)

end Settled

namespace Inv

/-- When every metadata arrived and no unit can move, the streams behind `portSelector` have carried one element
for each packet. -/
theorem length_sent (h : Inv cfg pkts s) (hset : Settled cfg s)
    (harrived : s.metadataIn.sent = pkts.map Packet.metadata) :
    s.metaToOutput.sent.length = pkts.length ∧ s.portToMetaOutput.sent.length = pkts.length ∧
      s.emptyStream.sent.length = pkts.length ∧ s.portToDataOutput.sent.length = pkts.length := by
  have hin : s.metadataIn.past.length = pkts.length := by
    rw [Fifo.past_eq_sent _ hset.metadataIn, harrived, List.length_map]
  have hselect : s.metaToSelectPort.past.length = pkts.length := by
    rw [Fifo.past_eq_sent _ hset.metaToSelectPort, h.metaToSelectPort, hin]
  have hports : s.selectedPorts.past.length = pkts.length := by
    rw [Fifo.past_eq_sent _ hset.selectedPorts, h.selectedPorts, List.length_map, hselect]
  refine ⟨?_, ?_, ?_, ?_⟩
  · rw [h.metaToOutput, hin]
  · rw [h.portToMetaOutput, hports]
  · rw [h.emptyStream, List.length_map, hselect]
  · rw [h.portToDataOutput, hports]

/-- Then `demuxMeta` has taken them all. -/
theorem length_metaToOutput (h : Inv cfg pkts s) (hset : Settled cfg s)
    (harrived : s.metadataIn.sent = pkts.map Packet.metadata) :
    s.metaToOutput.past.length = pkts.length := by
  obtain ⟨houtput, hports, -, -⟩ := h.length_sent hset harrived
  have hmeta := h.metaTurn
  rcases hset.demuxMeta with ⟨hstate, hhead⟩ | ⟨hstate, hhead⟩
  · simp only [MetaTurn, hstate] at hmeta
    rw [← hmeta, Fifo.past_eq_sent _ hhead, hports]
  · simp only [MetaTurn, hstate] at hmeta
    obtain ⟨ports, hpast, hlen⟩ := hmeta
    -- it would hold a port more than there are packets
    have hle := s.portToMetaOutput.past_prefix_sent.length_le
    rw [Fifo.past_eq_sent _ hhead, houtput] at hlen
    rw [hpast, hports, List.length_append, hlen, List.length_singleton] at hle
    omega

/-- And `demuxData` has copied every packet. -/
theorem dataTurn_all (h : Inv cfg pkts s) (hset : Settled cfg s)
    (harrived : s.metadataIn.sent = pkts.map Packet.metadata)
    (hdata : s.dataIn.sent = pkts.flatMap Packet.beats) :
    DataTurn cfg pkts s (tagged cfg pkts) [] := by
  obtain ⟨-, -, hempties, hports⟩ := h.length_sent hset harrived
  obtain ⟨done, due, hturn⟩ := h.dataTurn
  rcases hset.demuxData with ⟨hstate, hhead⟩ | ⟨hstate, hhead⟩
  · have hlen : s.emptyStream.past.length = pkts.length := by
      rcases hhead with hhead | hhead
      · rw [Fifo.past_eq_sent _ hhead, hempties]
      · rw [h.taken, Fifo.past_eq_sent _ hhead, hports]
    have hdue := hturn.idle hstate
    subst hdue
    have hdone := hturn.owed.done_eq hlen.ge
    subst hdone
    exact hturn
  · -- beats would be due that are not among the packets
    have hne := (hturn.stream hstate).ne_nil
    have hle := hturn.owed.all_prefix_pieces.length_le
    have hlen := congrArg List.length hturn.taken
    rw [Fifo.past_eq_sent _ hhead, hdata, ← map_snd_flatMap_tag (cls cfg), List.length_map, List.length_map] at hlen
    rw [List.length_append, hlen, List.length_map] at hle
    have hpos := List.length_pos_iff.mpr hne
    omega

theorem routed (hcfg : cfg.Valid) (hdel : Delivers pkts s) (h : Inv cfg pkts s) : Routed cfg pkts s := by
  obtain ⟨done, due, hturn⟩ := h.dataTurn
  have htake : (tagged cfg pkts).take s.dataIn.past.length = done := by
    rw [← hturn.taken, List.length_map]
    exact (List.prefix_iff_eq_take.mp hturn.owed.done_prefix_pieces).symm
  exact {
    port_lt := fun k _ => hcfg.trafficClass_lt _
    checked := fun k _ _ _ _ => Config.tcHasRoom_iff _ _ _ _
    tcMeta := h.tcMeta
    tcData := by
      intro c
      rw [htake]
      exact hturn.copied c
    metadata_kept := by
      have hpast := List.prefix_iff_eq_take.mp
        (s.metaToOutput.past_prefix_sent.trans (h.metaToOutput_prefix hdel))
      rw [List.map_take, ← hpast]
      show s.metadataIn.past ++ s.metadataIn.queue = _
      rw [← h.metaToOutput, Fifo.sent]
    data_kept := by
      intro hidle
      have howed := hturn.owed
      rw [hturn.idle hidle, Owed, List.map_nil, List.append_nil] at howed
      rw [← hturn.taken, howed, map_snd_flatMap_tag]
    settled := by
      intro hset harrived hdata c
      have hall := h.dataTurn_all hset harrived hdata
      refine ⟨?_, ?_⟩
      · rw [h.tcMeta c, h.length_metaToOutput hset harrived, List.take_length]
      · rw [hall.copied c]
        exact lane_flatMap_tag (cls cfg) Packet.beats pkts c }

end Inv

/-! ### Runs -/

/-- Among other units, too, the ports carry what went through. -/
theorem routed_of_reachable (hcfg : cfg.Valid) (h : Reachable (step cfg) State.init s) (hdel : Delivers pkts s) :
    Routed cfg pkts s := by
  obtain ⟨acts, rfl⟩ := h
  have hinv : Delivers pkts (run (step cfg) State.init acts) →
      Inv cfg pkts (run (step cfg) State.init acts) := by
    apply run_invariant (P := fun s => Delivers pkts s → Inv cfg pkts s)
    · intro s a ih h
      have hbefore := h.of_step a
      exact inv_step hcfg hbefore (ih hbefore) a
    · intro _
      exact inv_init cfg pkts
  exact (hinv hdel).routed hcfg hdel

/-- For every sequence of packets, every order of the calls and arrivals and every pattern of stalls, the ports
carry what went through by the traffic class of its packet. -/
theorem routed_run (cfg : Config) (hcfg : cfg.Valid) (pkts : List Packet) (acts : List Act)
    (hdel : Delivers pkts (run (step cfg) State.init acts)) :
    Routed cfg pkts (run (step cfg) State.init acts) :=
  routed_of_reachable hcfg ⟨acts, rfl⟩ hdel

/-- Eight traffic classes, as the builds have. -/
def eight : Config := ⟨8, Nat.clog 2⟩

theorem eight_valid : eight.Valid where
  two_le := by decide
  numTc_eq := (congrArg (2 ^ ·) (Nat.clog_pow 2 3 (by decide))).symm
  le_pow_log2 n := Nat.le_pow_clog (by decide) n

/-- A metadata of an ikernel and a length. -/
def metadataOf (id : BitVec 6) (length : BitVec 16) : Metadata :=
  ⟨0, 1, id, .inr ⟨0⟩, 0, 0, length⟩

/-- A packet of two beats of ikernel 7, which has class 0, an empty one of ikernel 8, and one of ikernel 1. -/
def threePackets : List Packet :=
  [⟨metadataOf 7 40, [⟨1, 0xffffffff, false⟩, ⟨2, 0xff000000, true⟩], by decide⟩,
    ⟨metadataOf 8 0, [], by decide⟩,
    ⟨metadataOf 1 32, [⟨3, 0xffffffff, true⟩], by decide⟩]

/-- The packets arrive while the units are stalled here and there, and everything goes through. -/
def threePacketsActs : List Act :=
  let go : List Act := [.dupMeta false, .portSelector false, .dupPorts false]
  [.arriveMeta (metadataOf 7 40), .arriveMeta (metadataOf 8 0), .arriveData ⟨1, 0xffffffff, false⟩,
    .dupMeta true] ++ go ++ [.demuxData false, .demuxMeta false, .demuxData true, .demuxData false] ++ go ++
  [.arriveMeta (metadataOf 1 32), .demuxMeta true, .demuxMeta false, .demuxMeta false, .demuxMeta false] ++ go ++
  [.arriveData ⟨2, 0xff000000, true⟩, .arriveData ⟨3, 0xffffffff, true⟩, .demuxData false, .demuxData false,
    .demuxData false, .demuxData false, .demuxMeta false, .demuxMeta false]

/-- The demultiplexer at the end of `threePacketsActs`. -/
def threePacketsEnd : State := run (step eight) State.init threePacketsActs

theorem routed_run_threePackets :
    Routed eight threePackets threePacketsEnd ∧
      (threePacketsEnd.tcMeta 0).sent.map Metadata.length = [40, 0] ∧
      (threePacketsEnd.tcData 0).sent.map AxiData.data = [1, 2] ∧
      (threePacketsEnd.tcData 1).sent.map AxiData.data = [3] := by
  have hdel : Delivers threePackets threePacketsEnd := by decide +kernel
  refine ⟨routed_run eight eight_valid threePackets threePacketsActs hdel, ?_, ?_, ?_⟩
  · decide +kernel
  · decide +kernel
  · decide +kernel

end Nica.Hls.Demux
