import Nica.Hls.ThresholdPipeline
import Nica.Hls.Equiv.Reading

/-!
# The data of a metadata in the threshold ikernel

`net_ingress` joins a metadata with the next value of `parser`, `egress` joins its decision with the next packet of the
other copy of the data, and `drop_or_pass` joins the decision with what `egress` made of a packet.  If no packet is
empty all three are those of the same packet (`inv_run`).
-/

namespace Nica.Hls.Threshold

open Nica.Lib

/-- The value of a packet, if it has data. -/
def packetValue (p : Packet) : Option (BitVec 32) := p.beats.head?.map value

/-- What `egress` makes of a packet. -/
def egressBeats (x : Packet × Decision) : List AxiData :=
  if x.2.ringId = 0 then x.1.beats else [valueBeat x.2.v]

variable {N : ContextManager ThresholdContext}

/-- The units process every metadata with its own data. -/
structure OwnData (packets : List Packet) (s : State N) : Prop where
  values : s.parsed.past = (packets.take s.netMetadata.past.length).filterMap packetValue
  egress : Hls.OwnData Packet.beats packets s.decisions.past.length (s.egressState = .idle) s.dataDupToEgress.past
  filter : Hls.OwnData egressBeats (packets.zip s.decisions.sent) s.decisionPass.past.length
    (s.dropper.state = .decision) s.dataEgressToFilter.past

/-- `egress` reads the packet of the decision, and writes it if there is no ring. -/
def EgressInv (packets : List Packet) (s : State N) : Prop :=
  ∃ due, Owed Packet.beats packets s.decisions.past.length s.dataDupToEgress.past due ∧
    (s.egressState = .idle → due = []) ∧ (s.egressState ≠ .idle → IsPacket due) ∧
    Owed egressBeats (packets.zip s.decisions.sent) s.decisions.past.length s.dataEgressToFilter.sent
      (if s.egressLastDecision.ringId = 0 then due else [])

structure Inv (packets : List Packet) (s : State N) : Prop where
  netMetadata : s.netMetadata.sent = packets.map Packet.metadata
  netData : s.netData.sent = packets.flatMap Packet.beats
  toParser : s.dataDupToParser.sent = s.netData.past
  toEgress : s.dataDupToEgress.sent = s.netData.past
  parser : Reading Packet.beats packets s.parsed.sent.length (s.parserState = .first) s.dataDupToParser.past
  parsed : s.parsed.sent.map some = (packets.take s.parsed.sent.length).map packetValue
  ingress : s.parsed.past.length = s.netMetadata.past.length
  decisions : s.decisions.sent.length = s.netMetadata.past.length
  passes : s.decisionPass.sent.length = s.decisions.sent.length
  egress : EgressInv packets s
  filter : Reading egressBeats (packets.zip s.decisions.sent) s.decisionPass.past.length (s.dropper.state = .decision)
    s.dataEgressToFilter.past

variable {packets : List Packet} {s : State N}

theorem inv_init (contexts : N.Table) (packets : List Packet) :
    Inv packets (State.init contexts (packets.map Packet.metadata) (packets.flatMap Packet.beats)) where
  netMetadata := rfl
  netData := rfl
  toParser := rfl
  toEgress := rfl
  parser := .zero _ _ rfl
  parsed := rfl
  ingress := rfl
  decisions := rfl
  passes := rfl
  egress := ⟨[], .zero _ _, fun _ => rfl, fun h => absurd rfl h, .zero _ _⟩
  filter := .zero _ _ rfl

namespace Inv

theorem toParser_prefix (h : Inv packets s) : s.dataDupToParser.sent <+: packets.flatMap Packet.beats := by
  rw [h.toParser, ← h.netData]
  exact s.netData.past_prefix_sent

theorem toEgress_prefix (h : Inv packets s) : s.dataDupToEgress.sent <+: packets.flatMap Packet.beats := by
  rw [h.toEgress, ← h.netData]
  exact s.netData.past_prefix_sent

theorem length_decisions (h : Inv packets s) : s.decisions.sent.length ≤ packets.length := by
  have hle := s.netMetadata.past_prefix_sent.length_le
  rw [h.netMetadata, List.length_map] at hle
  exact h.decisions.le.trans hle

theorem length_zip (h : Inv packets s) : (packets.zip s.decisions.sent).length = s.decisions.sent.length := by
  rw [List.length_zip, Nat.min_eq_right h.length_decisions]

/-- The packet of a decision. -/
theorem zip_getElem? (h : Inv packets s) {d : Decision} (hd : s.decisions.head = some d) :
    ∃ p, packets[s.decisions.past.length]? = some p ∧
      (packets.zip s.decisions.sent)[s.decisions.past.length]? = some (p, d) := by
  have hlt : s.decisions.past.length < packets.length := by
    have hle := (s.decisions.past_snoc_prefix_sent hd).length_le
    rw [List.length_append, List.length_singleton] at hle
    exact lt_of_lt_of_le hle h.length_decisions
  have hget : s.decisions.sent[s.decisions.past.length]? = some d := by
    obtain ⟨rest, hrest⟩ := s.decisions.past_snoc_prefix_sent hd
    rw [← hrest, List.append_assoc, List.getElem?_append_right (Nat.le_refl _), Nat.sub_self]
    rfl
  refine ⟨_, List.getElem?_eq_getElem hlt, ?_⟩
  rw [List.getElem?_zip_eq_some]
  exact ⟨List.getElem?_eq_getElem hlt, hget⟩

theorem dup (h : Inv packets s) (full : Bool) : Inv packets (step s (.dup full)) where
  netMetadata := h.netMetadata
  netData := (Fifo.sent_readIf _ _).trans h.netData
  toParser := by
    simp only [step, Fifo.sent_put, h.toParser, past_readIf_dup]
  toEgress := by
    simp only [step, Fifo.sent_put, h.toEgress, past_readIf_dup]
  parser := h.parser
  parsed := h.parsed
  ingress := h.ingress
  decisions := h.decisions
  passes := h.passes
  egress := by
    obtain ⟨due, howed, hidle, hpacket, hout⟩ := h.egress
    exact ⟨due, howed, hidle, hpacket, hout⟩
  filter := h.filter

/-- A beat behind the first one of a packet. -/
theorem parser_rest (h : Inv packets s) (hs : s.parserState = .rest) {d : AxiData}
    (hd : s.dataDupToParser.head = some d) :
    Reading Packet.beats packets s.parsed.sent.length
      ((if d.last then ParserState.first else .rest) = .first) (s.dataDupToParser.readIf true).past :=
  h.parser.read (by rw [hs]; decide) h.toParser_prefix hd (by cases d.last <;> decide)

/-- The first beat of a packet, and the packet. -/
theorem parser_first (hne : NoneEmpty packets) (h : Inv packets s) (hs : s.parserState = .first) {d : AxiData}
    (hd : s.dataDupToParser.head = some d) :
    ∃ p, packets[s.parsed.sent.length]? = some p ∧ packetValue p = some (value d) ∧
      Reading Packet.beats packets (s.parsed.sent.length + 1)
        ((if d.last then ParserState.first else .rest) = .first) (s.dataDupToParser.readIf true).past := by
  obtain ⟨due, howed, hidle, -⟩ := h.parser
  rw [hidle hs] at howed
  obtain ⟨p, due, hp, hbeats⟩ :=
    howed.exists_next h.toParser_prefix (fun p hp => (hne.isPacket p hp).ne_nil) hd
  refine ⟨p, hp, by rw [packetValue, hbeats]; rfl, ?_⟩
  have hstart : Reading Packet.beats packets (s.parsed.sent.length + 1) False s.dataDupToParser.past :=
    h.parser.start hs hp (hne.isPacket p (List.mem_of_getElem? hp)) not_false
  exact hstart.read not_false h.toParser_prefix hd (by cases d.last <;> decide)

theorem parserCall (hne : NoneEmpty packets) (h : Inv packets s) (full : Bool) : Inv packets (Threshold.parser full s) := by
  unfold Threshold.parser
  cases hd : s.dataDupToParser.head with
  | none => exact h
  | some d =>
    cases hs : s.parserState with
    | rest =>
      exact { h with
        toParser := (Fifo.sent_readIf _ _).trans h.toParser
        parser := h.parser_rest hs hd }
    | first =>
      dsimp only
      split
      · exact h
      · obtain ⟨p, hp, hvalue, hread⟩ := h.parser_first hne hs hd
        have hlen : (s.parsed.write (value d)).sent.length = s.parsed.sent.length + 1 := by
          rw [Fifo.sent_write, List.length_append, List.length_singleton]
        exact { h with
          toParser := (Fifo.sent_readIf _ _).trans h.toParser
          parser := by
            show Reading _ _ (s.parsed.write (value d)).sent.length _ _
            rw [hlen]
            exact hread
          parsed := by
            show (s.parsed.write (value d)).sent.map some =
              (packets.take (s.parsed.write (value d)).sent.length).map packetValue
            rw [hlen, take_succ_eq hp, List.map_append, ← h.parsed, Fifo.sent_write, List.map_append, List.map_singleton,
              List.map_singleton, hvalue] }

/-- One more decision. -/
theorem egress_extend (h : Inv packets s) {p : Packet} (hp : packets[s.decisions.sent.length]? = some p) (d : Decision) :
    ∃ due, Owed Packet.beats packets s.decisions.past.length s.dataDupToEgress.past due ∧
      (s.egressState = .idle → due = []) ∧ (s.egressState ≠ .idle → IsPacket due) ∧
      Owed egressBeats (packets.zip (s.decisions.sent ++ [d])) s.decisions.past.length s.dataEgressToFilter.sent
        (if s.egressLastDecision.ringId = 0 then due else []) := by
  obtain ⟨due, howed, hidle, hpacket, hout⟩ := h.egress
  refine ⟨due, howed, hidle, hpacket, ?_⟩
  rw [zip_snoc hp]
  refine hout.extend ?_ _
  rw [h.length_zip]
  exact s.decisions.past_prefix_sent.length_le

theorem ingressCall (h : Inv packets s) (tc : TcPipelineDataCounts) {m : Metadata} {v : BitVec 32}
    (hm : s.netMetadata.head = some m) (hv : s.parsed.head = some v) : Inv packets (Threshold.ingress tc m v s) := by
  have hsent : s.netMetadata.sent <+: packets.map Packet.metadata := by rw [h.netMetadata]
  obtain ⟨p, hp, -⟩ := exists_packet hsent hm
  have hmeta := s.netMetadata.length_past_readIf_true hm
  rw [← h.decisions] at hp
  constructor
  · exact (Fifo.sent_readIf _ _).trans h.netMetadata
  · exact h.netData
  · exact h.toParser
  · exact h.toEgress
  · show Reading _ _ (s.parsed.readIf true).sent.length _ _
    rw [Fifo.sent_readIf]
    exact h.parser
  · show (s.parsed.readIf true).sent.map some = (packets.take (s.parsed.readIf true).sent.length).map packetValue
    rw [Fifo.sent_readIf]
    exact h.parsed
  · show (s.parsed.readIf true).past.length = (s.netMetadata.readIf true).past.length
    rw [hmeta, s.parsed.length_past_readIf_true hv, h.ingress]
  · show (s.decisions.write _).sent.length = (s.netMetadata.readIf true).past.length
    rw [hmeta, Fifo.sent_write, List.length_append, List.length_singleton, h.decisions]
  · show (s.decisionPass.write _).sent.length = (s.decisions.write _).sent.length
    rw [Fifo.sent_write, Fifo.sent_write, List.length_append, List.length_append, h.passes]
    rfl
  · obtain ⟨due, howed, hidle, hpacket, hout⟩ := h.egress_extend hp ⟨v, (netIngress N s.contexts s.credits tc m v).ringId⟩
    refine ⟨due, howed, hidle, hpacket, ?_⟩
    show Owed egressBeats (packets.zip (s.decisions.write _).sent) _ _ _
    rw [Fifo.sent_write]
    exact hout
  · show Reading egressBeats (packets.zip (s.decisions.write _).sent) _ _ _
    rw [Fifo.sent_write, zip_snoc hp]
    refine h.filter.extend ?_ _
    rw [h.length_zip, ← h.passes]
    exact s.decisionPass.past_prefix_sent.length_le

theorem netIngressCall (h : Inv packets s) (cmd : Option GatewayCmd) (tc : TcPipelineDataCounts) (full : Bool) :
    Inv packets (Threshold.netIngressCall cmd tc full s) := by
  unfold Threshold.netIngressCall
  split
  · exact { h with }
  · dsimp only
    split
    · exact { h with }
    · split
      · rename_i hm hv
        split
        · exact h
        · exact h.ingressCall tc hm hv
      · exact h

theorem egressCall (hne : NoneEmpty packets) (h : Inv packets s) (full : Bool) : Inv packets (Threshold.egress full s) := by
  unfold Threshold.egress
  split
  · exact h
  · obtain ⟨due, howed, hidle, hpacket, hout⟩ := h.egress
    cases hs : s.egressState with
    | idle =>
      cases hd : s.decisions.head with
      | none => exact h
      | some d =>
        obtain ⟨p, hp, hzip⟩ := h.zip_getElem? hd
        have hlen := s.decisions.length_past_readIf_true hd
        have hdue := hidle hs
        subst hdue
        -- nothing of the packet before is left to be written
        rw [ite_self] at hout
        have hwritten := hout.start hzip
        refine { h with decisions := ?_, passes := ?_, egress := ?_, filter := ?_ }
        · exact (congrArg List.length (Fifo.sent_readIf _ _)).trans h.decisions
        · exact h.passes.trans (congrArg List.length (Fifo.sent_readIf _ _)).symm
        · refine ⟨p.beats, ?_, fun h => (by cases h), fun _ => hne.isPacket p (List.mem_of_getElem? hp), ?_⟩
          · show Owed _ _ (s.decisions.readIf true).past.length _ _
            rw [hlen]
            exact howed.start hp
          · show Owed _ (packets.zip (s.decisions.readIf true).sent) (s.decisions.readIf true).past.length _ _
            rw [hlen, Fifo.sent_readIf]
            by_cases hring : d.ringId = 0
            · simp only [egressBeats, hring, if_true] at hwritten
              simp only [hring, ne_eq, not_true_eq_false, if_false, if_true]
              exact hwritten
            · simp only [egressBeats, hring, if_false] at hwritten
              simp only [hring, ne_eq, not_false_eq_true, if_false, if_true, Fifo.sent_write]
              exact hwritten.advance
        · show Reading _ (packets.zip (s.decisions.readIf true).sent) _ _ _
          rw [Fifo.sent_readIf]
          dsimp only
          split
          · exact h.filter
          · exact h.filter
    | stream =>
      cases hd : s.dataDupToEgress.head with
      | none => exact h
      | some d =>
        have hstate : s.egressState ≠ .idle := by rw [hs]; decide
        obtain ⟨y, due, rfl⟩ := List.exists_cons_of_ne_nil (hpacket hstate).ne_nil
        obtain rfl := howed.head_eq h.toEgress_prefix hd
        obtain ⟨hend, hmore⟩ := isPacket_cons (hpacket hstate)
        refine { h with toEgress := (Fifo.sent_readIf _ _).trans h.toEgress, egress := ?_, filter := ?_ }
        · refine ⟨due, ?_, ?_, ?_, ?_⟩
          · show Owed _ _ _ (s.dataDupToEgress.readIf true).past _
            rw [s.dataDupToEgress.past_readIf_true hd]
            exact howed.advance
          · intro hnext
            apply hend
            by_contra hl
            simp only [hl, if_false] at hnext
            cases hnext
          · intro hnext
            apply hmore
            rw [← Bool.not_eq_true]
            intro hl
            exact hnext (by simp only [hl, if_true])
          · dsimp only
            by_cases hring : s.egressLastDecision.ringId = 0
            · simp only [hring, if_true] at hout ⊢
              rw [Fifo.sent_write]
              exact hout.advance
            · simp only [hring, if_false] at hout ⊢
              exact hout
        · dsimp only
          split
          · exact h.filter
          · exact h.filter

theorem egress_prefix (h : Inv packets s) :
    s.dataEgressToFilter.sent <+: (packets.zip s.decisions.sent).flatMap egressBeats := by
  obtain ⟨due, -, -, -, hout⟩ := h.egress
  exact hout.done_prefix_pieces

theorem isPacket_egressBeats (hne : NoneEmpty packets) (decisions : List Decision) :
    ∀ x ∈ packets.zip decisions, IsPacket (egressBeats x) := by
  intro x hx
  unfold egressBeats
  split
  · exact hne.isPacket x.1 (List.of_mem_zip hx).1
  · exact ⟨[], _, rfl, rfl, by simp⟩

theorem filterCall (hne : NoneEmpty packets) (h : Inv packets s) : Inv packets (Threshold.filter s) := by
  refine { h with passes := ?_, egress := ?_, filter := ?_ }
  · exact (congrArg List.length (Fifo.sent_readIf _ _)).trans h.passes
  · obtain ⟨due, howed, hidle, hpacket, hout⟩ := h.egress
    refine ⟨due, howed, hidle, hpacket, ?_⟩
    show Owed _ _ _ (s.dataEgressToFilter.readIf _).sent _
    rw [Fifo.sent_readIf]
    exact hout
  · exact h.filter.filter (isPacket_egressBeats hne _) (h.passes.le.trans h.length_zip.ge) h.egress_prefix

theorem step (hne : NoneEmpty packets) (h : Inv packets s) : ∀ a : Act, Inv packets (Threshold.step s a)
  | .dup full => h.dup full
  | .parser full => h.parserCall hne full
  | .netIngress cmd tc full => h.netIngressCall cmd tc full
  | .egress full => h.egressCall hne full
  | .filter => h.filterCall hne
  | .hostCreditsUpdate _ _ => { h with }

/-- What was parsed and taken is the value of the packets whose metadata were taken. -/
theorem values (h : Inv packets s) :
    s.parsed.past = (packets.take s.netMetadata.past.length).filterMap packetValue := by
  have hle := s.parsed.past_prefix_sent.length_le
  have hpast : s.parsed.past = s.parsed.sent.take s.netMetadata.past.length := by
    rw [← h.ingress, Fifo.sent, List.take_left]
  have hmap : s.parsed.past.map some = (packets.take s.netMetadata.past.length).map packetValue := by
    rw [hpast, List.map_take, h.parsed, ← List.map_take, List.take_take, ← h.ingress, Nat.min_eq_left hle]
  have hfilter := congrArg (List.filterMap id) hmap
  rw [List.filterMap_map, List.filterMap_map] at hfilter
  exact List.filterMap_some.symm.trans hfilter

theorem ownData (h : Inv packets s) : OwnData packets s where
  values := h.values
  egress := by
    obtain ⟨due, howed, hidle, hpacket, -⟩ := h.egress
    exact Reading.ownData ⟨due, howed, hidle, hpacket⟩
  filter := h.filter.ownData

end Inv

theorem inv_run (contexts : N.Table) (hne : NoneEmpty packets) (acts : List Act) :
    Inv packets (run step (State.init contexts (packets.map Packet.metadata) (packets.flatMap Packet.beats)) acts) :=
  run_invariant (P := Inv packets) (fun _ a h => h.step hne a) acts _ (inv_init contexts packets)

end Nica.Hls.Threshold
