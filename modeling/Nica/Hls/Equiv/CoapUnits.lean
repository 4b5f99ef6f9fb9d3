import Nica.Hls.Equiv.CoapToken
import Nica.Lib.Owed

/-!
# The units of the CoAP ikernel one by one

For each unit an invariant says how far it has come with the packets (`ParserInv`) or with the requests
that `read_key` has made (the other units), and a lemma shows that a call of the unit keeps it.  A
request is a `Service`: what `read_key` dispatched, together with the packet it was made for.

* `parserInv_parsePacket`: every packet's token, signature and ikernel id are filed under its class;
* `firstPassInv_firstPass`, `secondPassInv_secondPass`: the SHA units get the blocks of the HMAC of each
  service, in the order of the services;
* `shaInv_shaUnit`: the digests come out in that order.
-/

namespace Nica.Hls.Coap

open Nica.Lib

variable {logNumTc : Nat}

/-! ### The parser -/

/-- The registers that are never overwritten as a whole: the constant header in front of the first
word, and the zeros behind the 17 bytes of the second one. -/
structure Shaped (u : Parser logNumTc) : Prop where
  length_first : u.parsedData.firstWord.length = 64
  header : u.parsedData.firstWord.take 37 = jwtBase64Header
  length_second : u.parsedData.secondWord.length = 64
  zeros : u.parsedData.secondWord.drop 17 = List.replicate 47 0
  length_sig : u.sig.length = 43

theorem Shaped.congr {u u' : Parser logNumTc} (h : Shaped u) (hdata : u'.parsedData = u.parsedData)
    (hsig : u'.sig = u.sig) : Shaped u' := by
  constructor
  · rw [hdata]; exact h.length_first
  · rw [hdata]; exact h.header
  · rw [hdata]; exact h.length_second
  · rw [hdata]; exact h.zeros
  · rw [hsig]; exact h.length_sig

/-- The beats of the packet `p` that are still to be read, and what the registers hold of it. -/
def WordPhase (u : Parser logNumTc) (p : Request) (due : List AxiData) : Prop :=
  match u.inState with
  | .inMetadata => False
  | .firstWord => due = p.beats
  | .secondWord => due = p.beats.drop 1
  | .thirdWord => due = p.beats.drop 2 ∧ u.parsedData.firstWord.take 39 = p.token.take 39
  | .fourthWord =>
    due = p.beats.drop 3 ∧ u.parsedData.firstWord = p.token.take 64 ∧
      u.parsedData.secondWord.take 7 = (p.token.drop 64).take 7
  | .fifthWord => due = p.beats.drop 4 ∧ u.sig.take 21 = p.signature.take 21
  | .otherWords => IsPacket due

/-- After the metadata of `n` packets and the beats `done`: either all of them were read, or the last
one is being read. -/
def ParserPhase (packets : List Request) (u : Parser logNumTc) (n : Nat) (done : List AxiData) :
    Prop :=
  (u.inState = .inMetadata ∧ Owed Request.beats packets n done []) ∨
    ∃ m p due, n = m + 1 ∧ packets[m]? = some p ∧ u.metadata = p.metadata ∧
      u.currTc = p.tc logNumTc ∧ Owed Request.beats packets n done due ∧ WordPhase u p due

/-- How many packets have their token filed, and how many their signature. -/
def Parser.filed (u : Parser logNumTc) (n : Nat) : Nat :=
  match u.inState with
  | .inMetadata | .fifthWord | .otherWords => n
  | _ => n - 1

def Parser.signed (u : Parser logNumTc) (n : Nat) : Nat :=
  match u.inState with
  | .inMetadata | .otherWords => n
  | _ => n - 1

/-- The parser has read the metadata of `n` packets and the beats `done`. -/
structure ParserInv (packets : List Request) (u : Parser logNumTc) (n : Nat) (done : List AxiData)
    (parsedData : BitVec logNumTc → Fifo ParsedData) (sig : BitVec logNumTc → Fifo (List Byte))
    (ids : BitVec logNumTc → Fifo (BitVec 6)) (packetTc : Fifo (BitVec logNumTc)) : Prop where
  shaped : Shaped u
  phase : ParserPhase packets u n done
  parsedData_sent : ∀ c, (parsedData c).sent =
    (lane (Request.tc logNumTc) (packets.take (u.filed n)) c).map Request.parsedData
  sig_sent : ∀ c, (sig c).sent =
    (lane (Request.tc logNumTc) (packets.take (u.signed n)) c).map Request.signature
  ids_sent : ∀ c, (ids c).sent =
    (lane (Request.tc logNumTc) (packets.take (u.signed n)) c).map (·.metadata.ikernelId)
  packetTc_sent : packetTc.sent = (packets.take (u.signed n)).map (Request.tc logNumTc)

/-- Filing one more packet. -/
theorem sent_putLane_take {α : Type} {packets : List Request} {g : Request → α}
    {f : BitVec logNumTc → Fifo α} {m : Nat} {p : Request} (hp : packets[m]? = some p)
    (h : ∀ c, (f c).sent = (lane (Request.tc logNumTc) (packets.take m) c).map g)
    (c : BitVec logNumTc) :
    (putLane f (p.tc logNumTc) (some (g p)) c).sent =
      (lane (Request.tc logNumTc) (packets.take (m + 1)) c).map g := by
  rw [sent_putLane, h c, lane_take_succ _ hp, List.map_append]
  by_cases hc : c = p.tc logNumTc <;> simp [hc]

/-- The number of packets filed is the same before and after a state that only reads. -/
theorem ParserInv.advance {packets : List Request} {u u' : Parser logNumTc} {n n' : Nat}
    {done done' : List AxiData} {parsedData : BitVec logNumTc → Fifo ParsedData}
    {sig : BitVec logNumTc → Fifo (List Byte)} {ids : BitVec logNumTc → Fifo (BitVec 6)}
    {packetTc : Fifo (BitVec logNumTc)}
    (h : ParserInv packets u n done parsedData sig ids packetTc) (hphase : ParserPhase packets u' n' done')
    (hshaped : Shaped u') (hfiled : u'.filed n' = u.filed n)
    (hsigned : u'.signed n' = u.signed n) :
    ParserInv packets u' n' done' parsedData sig ids packetTc where
  shaped := hshaped
  phase := hphase
  parsedData_sent := by rw [hfiled]; exact h.parsedData_sent
  sig_sent := by rw [hsigned]; exact h.sig_sent
  ids_sent := by rw [hsigned]; exact h.ids_sent
  packetTc_sent := by rw [hsigned]; exact h.packetTc_sent

section Parser

variable {packets : List Request} {u : Parser logNumTc} {metas : Fifo Metadata}
  {beats : Fifo AxiData} {parsedData : BitVec logNumTc → Fifo ParsedData}
  {sig : BitVec logNumTc → Fifo (List Byte)} {ids : BitVec logNumTc → Fifo (BitVec 6)}
  {packetTc : Fifo (BitVec logNumTc)} {d : AxiData}

/-- In the middle of a packet, the beat at the head of the stream is the next one of it. -/
theorem ParserPhase.head_eq {n : Nat} (h : ParserPhase packets u n beats.past)
    (hstate : u.inState ≠ .inMetadata) (hbeats : beats.sent <+: packets.flatMap Request.beats)
    (hd : beats.head = some d) :
    ∃ m p due, n = m + 1 ∧ packets[m]? = some p ∧ u.metadata = p.metadata ∧
      u.currTc = p.tc logNumTc ∧ Owed Request.beats packets n (beats.readIf true).past due ∧
      WordPhase u p (d :: due) := by
  rcases h with ⟨hu, -⟩ | ⟨m, p, due, hm, hp, hmeta, htc, howed, hphase⟩
  · exact absurd hu hstate
  · obtain ⟨y, due, rfl⟩ : ∃ y due', due = y :: due' := by
      apply List.exists_cons_of_ne_nil
      rintro rfl
      obtain ⟨b₀, b₁, b₂, b₃, b₄, rest, hb, hrest⟩ := p.exists_beats
      cases hu : u.inState <;> simp [WordPhase, hu, hb] at hphase
      exact absurd hphase (by decide)
    obtain rfl := howed.head_eq hbeats hd
    rw [beats.past_readIf_true hd]
    exact ⟨m, p, due, hm, hp, hmeta, htc, howed.advance, hphase⟩

/-- `IN_METADATA`: the next packet is taken up. -/
theorem parserPhase_metadata {m : Metadata} (hu : u.inState = .inMetadata)
    (h : ParserPhase packets u metas.past.length beats.past)
    (hmetas : metas.sent <+: packets.map Request.metadata) (hm : metas.head = some m) :
    ParserPhase packets
      { u with metadata := m, currTc := calcTc logNumTc m, inState := .firstWord }
      (metas.readIf true).past.length beats.past := by
  obtain ⟨p, hp, rfl⟩ := exists_item ((metas.past_snoc_prefix_sent hm).trans hmetas)
  have howed : Owed Request.beats packets metas.past.length beats.past [] := by
    rcases h with ⟨-, h⟩ | ⟨_, _, _, _, _, _, _, _, hphase⟩
    · exact h
    · simp [WordPhase, hu] at hphase
  rw [metas.length_past_readIf_true hm]
  exact .inr ⟨_, p, p.beats, rfl, hp, rfl, rfl, howed.start hp, rfl⟩

/-! What the registers hold after each of the five beats. -/

theorem shaped_second (hs : Shaped u) (d : AxiData) :
    Shaped { u with
      parsedData := { u.parsedData with
        firstWord := writeBytes u.parsedData.firstWord 37 ((bytesOf d.data).drop 30) }
      inState := .thirdWord } where
  length_first := by
    rw [length_writeBytes _ _ _ (by simp [hs.length_first])]
    exact hs.length_first
  header := by
    rw [take_writeBytes _ _ _ (Nat.le_refl _) (by simp [hs.length_first])]
    exact hs.header
  length_second := hs.length_second
  zeros := hs.zeros
  length_sig := hs.length_sig

theorem shaped_third (hs : Shaped u) (d : AxiData) :
    Shaped { u with
      parsedData :=
        { firstWord := writeBytes u.parsedData.firstWord 39 ((bytesOf d.data).take 25)
          secondWord := writeBytes u.parsedData.secondWord 0 ((bytesOf d.data).drop 25) }
      inState := .fourthWord } where
  length_first := by
    rw [length_writeBytes _ _ _ (by simp [hs.length_first])]
    exact hs.length_first
  header := by
    rw [take_writeBytes _ _ _ (by omega) (by simp [hs.length_first])]
    exact hs.header
  length_second := by
    rw [length_writeBytes _ _ _ (by simp [hs.length_second])]
    exact hs.length_second
  zeros := by
    rw [drop_writeBytes _ _ _ (by simp) (by simp)]
    exact hs.zeros
  length_sig := hs.length_sig

theorem shaped_fourth (hs : Shaped u) (d : AxiData) :
    Shaped { u with
      parsedData := { u.parsedData with
        secondWord := writeBytes u.parsedData.secondWord 7 ((bytesOf d.data).take 10) }
      sig := writeBytes u.sig 0 ((bytesOf d.data).drop 11)
      inState := .fifthWord } where
  length_first := hs.length_first
  header := hs.header
  length_second := by
    rw [length_writeBytes _ _ _ (by simp [hs.length_second])]
    exact hs.length_second
  zeros := by
    rw [drop_writeBytes _ _ _ (by simp) (by simp [hs.length_second])]
    exact hs.zeros
  length_sig := by
    rw [length_writeBytes _ _ _ (by simp [hs.length_sig])]
    exact hs.length_sig

/-- `SECOND_WORD`: the first two bytes of the body stand behind the header. -/
theorem firstWord_second {p : Request} {b₀ b₁ b₂ b₃ b₄ : AxiData} {rest : List AxiData}
    (hb : p.beats = b₀ :: b₁ :: b₂ :: b₃ :: b₄ :: rest) (hs : Shaped u) :
    (writeBytes u.parsedData.firstWord 37 ((bytesOf b₁.data).drop 30)).take 39 =
      p.token.take 39 := by
  have htake := take_writeBytes_end u.parsedData.firstWord 37 ((bytesOf b₁.data).drop 30)
    (by simp [hs.length_first])
  have h39 : 37 + ((bytesOf b₁.data).drop 30).length = 39 := by simp
  rw [h39, hs.header, ← Request.take_token_second hb] at htake
  exact htake

/-- `THIRD_WORD`: seven bytes of the body go into the second word. -/
theorem secondWord_third {p : Request} {b₀ b₁ b₂ b₃ b₄ : AxiData} {rest : List AxiData}
    (hb : p.beats = b₀ :: b₁ :: b₂ :: b₃ :: b₄ :: rest) :
    (writeBytes u.parsedData.secondWord 0 ((bytesOf b₂.data).drop 25)).take 7 =
      (p.token.drop 64).take 7 := by
  have htake := take_writeBytes_end u.parsedData.secondWord 0 ((bytesOf b₂.data).drop 25)
    (Nat.zero_le _)
  have h7 : 0 + ((bytesOf b₂.data).drop 25).length = 7 := by simp
  rw [h7, List.take_zero, List.nil_append] at htake
  rw [htake, Request.take_drop_token hb]

/-- `THIRD_WORD`: the first word is complete. -/
theorem firstWord_third {p : Request} {b₀ b₁ b₂ b₃ b₄ : AxiData} {rest : List AxiData}
    (hb : p.beats = b₀ :: b₁ :: b₂ :: b₃ :: b₄ :: rest) (hs : Shaped u)
    (h39 : u.parsedData.firstWord.take 39 = p.token.take 39) :
    writeBytes u.parsedData.firstWord 39 ((bytesOf b₂.data).take 25) = p.token.take 64 := by
  have hlen : (writeBytes u.parsedData.firstWord 39 ((bytesOf b₂.data).take 25)).length = 64 := by
    rw [length_writeBytes] <;> simp [hs.length_first]
  have htake := take_writeBytes_end u.parsedData.firstWord 39 ((bytesOf b₂.data).take 25)
    (by simp [hs.length_first])
  rw [List.take_of_length_le (by rw [hlen]; simp), h39] at htake
  rw [htake, Request.take_token_third hb]

/-- `FOURTH_WORD`: the second word is complete. -/
theorem secondWord_fourth {p : Request} {b₀ b₁ b₂ b₃ b₄ : AxiData} {rest : List AxiData}
    (hb : p.beats = b₀ :: b₁ :: b₂ :: b₃ :: b₄ :: rest) (hs : Shaped u)
    (h7 : u.parsedData.secondWord.take 7 = (p.token.drop 64).take 7) :
    writeBytes u.parsedData.secondWord 7 ((bytesOf b₃.data).take 10) =
      p.token.drop 64 ++ List.replicate 47 0 := by
  have htake := take_writeBytes_end u.parsedData.secondWord 7 ((bytesOf b₃.data).take 10)
    (by simp [hs.length_second])
  have hdrop := drop_writeBytes u.parsedData.secondWord 7 ((bytesOf b₃.data).take 10) (n := 17)
    (by simp) (by simp [hs.length_second])
  have h17 : 7 + ((bytesOf b₃.data).take 10).length = 17 := by simp
  rw [h17, h7, Request.take_drop_token hb, ← Request.drop_token hb] at htake
  rw [hs.zeros] at hdrop
  rw [← List.take_append_drop 17 (writeBytes _ _ _), htake, hdrop]

/-- `FIFTH_WORD`: the signature is complete. -/
theorem sig_fifth {p : Request} {b₀ b₁ b₂ b₃ b₄ : AxiData} {rest : List AxiData}
    (hb : p.beats = b₀ :: b₁ :: b₂ :: b₃ :: b₄ :: rest) (hs : Shaped u)
    (h21 : u.sig.take 21 = p.signature.take 21) :
    writeBytes u.sig 21 ((bytesOf b₄.data).take 22) = p.signature := by
  have hlen : (writeBytes u.sig 21 ((bytesOf b₄.data).take 22)).length = 43 := by
    rw [length_writeBytes] <;> simp [hs.length_sig]
  have htake := take_writeBytes_end u.sig 21 ((bytesOf b₄.data).take 22) (by simp [hs.length_sig])
  rw [List.take_of_length_le (by rw [hlen]; simp), h21, Request.take_signature hb] at htake
  rw [htake, Request.signature_eq hb]

/-- The invariant after a call that left the registers `r.1` and read and wrote `r.2`. -/
def ParserAfter (packets : List Request) (u : Parser logNumTc) (metas : Fifo Metadata)
    (beats : Fifo AxiData) (parsedData : BitVec logNumTc → Fifo ParsedData)
    (sig : BitVec logNumTc → Fifo (List Byte)) (ids : BitVec logNumTc → Fifo (BitVec 6))
    (packetTc : Fifo (BitVec logNumTc)) (r : Parser logNumTc × ParseIo logNumTc) : Prop :=
  ParserInv packets r.1 (metas.readIf r.2.readMetadata).past.length
    (beats.readIf r.2.readData).past (putLane parsedData u.currTc r.2.parsedData)
    (putLane sig u.currTc r.2.sig) (putLane ids u.currTc r.2.ikernelId)
    (packetTc.put r.2.packetTc)

/-- A call that only reads a beat of the packet. -/
theorem ParserAfter.of_read {u' : Parser logNumTc}
    (h : ParserInv packets u' metas.past.length (beats.readIf true).past parsedData sig ids packetTc) :
    ParserAfter packets u metas beats parsedData sig ids packetTc (u', { readData := true }) := by
  simpa [ParserAfter] using h

/-- **The parser**: a call of `parse_packet` takes the packets further in their order and files what it
completes. -/
theorem parserInv_parsePacket (full : ParseFull)
    (h : ParserInv packets u metas.past.length beats.past parsedData sig ids packetTc)
    (hmetas : metas.sent <+: packets.map Request.metadata)
    (hbeats : beats.sent <+: packets.flatMap Request.beats) :
    ParserAfter packets u metas beats parsedData sig ids packetTc
      (parsePacket full u metas.head beats.head) := by
  have hs := h.shaped
  -- a call that finds nothing to read, or no room to write, changes nothing
  have hwait : ParserAfter packets u metas beats parsedData sig ids packetTc (u, {}) := by
    simpa [ParserAfter] using h
  by_cases hu : u.inState = .inMetadata
  · simp only [parsePacket, hu]
    cases hm : metas.head with
    | none => exact hwait
    | some m =>
      have hphase := parserPhase_metadata hu h.phase hmetas hm
      have hlen := metas.length_past_readIf_true hm
      have hafter := h.advance hphase (hs.congr rfl rfl) (by simp [Parser.filed, hu, hlen]) (by simp [Parser.signed, hu, hlen])
      simpa [ParserAfter] using hafter
  · cases hd : beats.head with
    | none =>
      cases hu' : u.inState with
      | inMetadata => exact absurd hu' hu
      | _ => simpa only [parsePacket, hu'] using hwait
    | some d =>
      obtain ⟨m, p, due, hm, hp, hmeta, htc, howed, hphase⟩ := h.phase.head_eq hu hbeats hd
      obtain ⟨b₀, b₁, b₂, b₃, b₄, rest, hb, hrest⟩ := p.exists_beats
      have hnext : ∀ u' : Parser logNumTc, u'.metadata = u.metadata → u'.currTc = u.currTc →
          WordPhase u' p due →
          ParserPhase packets u' metas.past.length (beats.readIf true).past := by
        intro u' hmeta' htc' hphase'
        exact .inr ⟨m, p, due, hm, hp, hmeta'.trans hmeta, htc'.trans htc, howed, hphase'⟩
      cases hu' : u.inState with
      | inMetadata => exact absurd hu' hu
      | firstWord =>
        simp only [parsePacket, hu']
        simp only [WordPhase, hu', hb, List.cons.injEq] at hphase
        apply ParserAfter.of_read
        refine h.advance (hnext _ rfl rfl ?_) (hs.congr rfl rfl) (by simp [Parser.filed, hu'])
          (by simp [Parser.signed, hu'])
        simp [WordPhase, hb, hphase.2]
      | secondWord =>
        simp only [parsePacket, hu']
        simp only [WordPhase, hu', hb, List.drop_succ_cons, List.drop_zero,
          List.cons.injEq] at hphase
        obtain ⟨rfl, rfl⟩ := hphase
        apply ParserAfter.of_read
        refine h.advance (hnext _ rfl rfl ?_) (shaped_second hs d) (by simp [Parser.filed, hu'])
          (by simp [Parser.signed, hu'])
        simp only [WordPhase, hb, List.drop_succ_cons, List.drop_zero, true_and]
        exact firstWord_second hb hs
      | thirdWord =>
        simp only [parsePacket, hu']
        simp only [WordPhase, hu', hb, List.drop_succ_cons, List.drop_zero,
          List.cons.injEq] at hphase
        obtain ⟨⟨rfl, rfl⟩, h39⟩ := hphase
        have hfirst := firstWord_third hb hs h39
        apply ParserAfter.of_read
        refine h.advance (hnext _ rfl rfl ?_) (shaped_third hs d) (by simp [Parser.filed, hu'])
          (by simp [Parser.signed, hu'])
        simp only [WordPhase, hb, List.drop_succ_cons, List.drop_zero, true_and]
        exact ⟨hfirst, secondWord_third hb⟩
      | fourthWord =>
        simp only [parsePacket, hu']
        simp only [WordPhase, hu', hb, List.drop_succ_cons, List.drop_zero,
          List.cons.injEq] at hphase
        obtain ⟨⟨rfl, rfl⟩, hfirst, h7⟩ := hphase
        split
        · exact hwait
        · -- the token is complete and is filed
          have hparsed : (⟨u.parsedData.firstWord, writeBytes u.parsedData.secondWord 7
              ((bytesOf d.data).take 10)⟩ : ParsedData) = p.parsedData := by
            rw [hfirst, secondWord_fourth hb hs h7, Request.parsedData]
          have hsig : (writeBytes u.sig 0 ((bytesOf d.data).drop 11)).take 21 =
              p.signature.take 21 := by
            have htake := take_writeBytes_end u.sig 0 ((bytesOf d.data).drop 11) (Nat.zero_le _)
            have h21 : 0 + ((bytesOf d.data).drop 11).length = 21 := by simp
            rw [h21, List.take_zero, List.nil_append] at htake
            rw [htake, Request.take_signature hb]
          have hphase' := hnext { u with
            parsedData := { u.parsedData with
              secondWord := writeBytes u.parsedData.secondWord 7 ((bytesOf d.data).take 10) }
            sig := writeBytes u.sig 0 ((bytesOf d.data).drop 11)
            inState := .fifthWord } rfl rfl
            (by simp only [WordPhase, hb, List.drop_succ_cons, List.drop_zero]; exact ⟨trivial, hsig⟩)
          simp only [ParserAfter, putLane_none, Fifo.put_none]
          refine ⟨shaped_fourth hs d, hphase', ?_, ?_, ?_, ?_⟩
          · rw [hparsed, htc]
            simp only [Parser.filed, Fifo.past_readIf_false, hm]
            apply sent_putLane_take hp
            simpa [Parser.filed, hu', hm] using h.parsedData_sent
          · simpa [Parser.signed, hu'] using h.sig_sent
          · simpa [Parser.signed, hu'] using h.ids_sent
          · simpa [Parser.signed, hu'] using h.packetTc_sent
      | fifthWord =>
        simp only [parsePacket, hu']
        simp only [WordPhase, hu', hb, List.drop_succ_cons, List.drop_zero,
          List.cons.injEq] at hphase
        obtain ⟨⟨rfl, rfl⟩, h21⟩ := hphase
        split
        · exact hwait
        · -- the signature is complete; it is filed together with the ikernel id
          have hsig := sig_fifth hb hs h21
          have hphase' := hnext { u with
            sig := writeBytes u.sig 21 ((bytesOf d.data).take 22)
            inState := .otherWords } rfl rfl (p.isPacket_rest hb hrest)
          have hshaped : Shaped { u with
              sig := writeBytes u.sig 21 ((bytesOf d.data).take 22)
              inState := .otherWords } :=
            ⟨hs.length_first, hs.header, hs.length_second, hs.zeros, by
              rw [length_writeBytes _ _ _ (by simp [hs.length_sig])]; exact hs.length_sig⟩
          simp only [ParserAfter, putLane_none]
          refine ⟨hshaped, hphase', ?_, ?_, ?_, ?_⟩
          · simpa [Parser.filed, hu'] using h.parsedData_sent
          · rw [hsig, htc]
            simp only [Parser.signed, Fifo.past_readIf_false, hm]
            apply sent_putLane_take hp
            simpa [Parser.signed, hu', hm] using h.sig_sent
          · simp only [Parser.signed, Fifo.past_readIf_false, hm]
            rw [hmeta, htc]
            apply sent_putLane_take (g := fun p : Request => p.metadata.ikernelId) hp
            simpa [Parser.signed, hu', hm] using h.ids_sent
          · simp only [Parser.signed, Fifo.past_readIf_false, hm]
            rw [Fifo.sent_put, take_succ_eq hp, List.map_append, h.packetTc_sent]
            simp [Parser.signed, hu', hm, htc]
      | otherWords =>
        simp only [parsePacket, hu']
        simp only [WordPhase, hu'] at hphase
        split
        · exact hwait
        · apply ParserAfter.of_read
          refine h.advance ?_ (hs.congr rfl rfl) ?_ ?_
          · by_cases hl : d.last = true
            · obtain rfl := (isPacket_cons hphase).1 hl
              exact .inl ⟨if_pos hl, howed⟩
            · refine hnext _ rfl rfl ?_
              simp only [WordPhase, hl]
              exact (isPacket_cons hphase).2 (by simpa using hl)
          · by_cases hl : d.last = true <;> simp [Parser.filed, hu', hl]
          · by_cases hl : d.last = true <;> simp [Parser.signed, hu', hl]

end Parser

/-! ### Services -/

/-- A request of `read_key` together with the packet it was made for. -/
structure Service (logNumTc : Nat) where
  dispatch : Dispatch logNumTc
  packet : Request

namespace Service

/-- The class that was served. -/
def tc (x : Service logNumTc) : BitVec logNumTc := x.dispatch.tc

/-- The key that was read. -/
def key (x : Service logNumTc) : List Byte := x.dispatch.config.key x.dispatch.ikernelId

/-- The blocks for the first SHA unit. -/
def firstBlocks (x : Service logNumTc) : List ShaRequest := Coap.firstBlocks x.key x.packet

end Service

/-- Each service is for the packet whose turn it is in the class that was served. -/
def InLane (packets : List Request) (services : List (Service logNumTc)) : Prop :=
  ∀ n x, services[n]? = some x →
    (lane (Request.tc logNumTc) packets x.tc)[((services.map Service.tc).take n).count x.tc]? =
      some x.packet

/-- The next service of the class `d.tc` is for the packet at the place that has not been served. -/
theorem InLane.snoc {packets : List Request} {services : List (Service logNumTc)}
    (h : InLane packets services) {x : Service logNumTc}
    (hx : (lane (Request.tc logNumTc) packets x.tc)[(services.map Service.tc).count x.tc]? =
      some x.packet) : InLane packets (services ++ [x]) := by
  intro n y hy
  rcases Nat.lt_or_ge n services.length with hn | hn
  · rw [List.getElem?_append_left hn] at hy
    rw [List.map_append, List.take_append_of_le_length (by simpa using hn.le)]
    exact h n y hy
  · rw [List.getElem?_append_right hn, List.getElem?_singleton] at hy
    split at hy
    · obtain rfl : x = y := Option.some.inj hy
      obtain rfl : n = services.length := by omega
      rw [List.map_append, List.take_append_of_le_length (by simp), List.take_of_length_le (by simp)]
      exact hx
    · cases hy

/-! ### `read_key` -/

theorem passRequests_currTc (i : ReadKeyIn logNumTc) (u : ReadKey logNumTc)
    (id : Option (BitVec 6)) : (passRequests i u id).1.currTc = u.currTc := by
  unfold passRequests
  repeat' split
  all_goals rfl

theorem passRequests_id {i : ReadKeyIn logNumTc} {u : ReadKey logNumTc} {id : Option (BitVec 6)}
    {x : BitVec 6} (h : (passRequests i u id).2 = some x) : id = some x := by
  unfold passRequests at h
  repeat' split at h
  all_goals first | exact h | cases h

/-- A request is made for the ikernel id at the head of the queue of the class that is served. -/
theorem readKey_id {i : ReadKeyIn logNumTc} {u : ReadKey logNumTc}
    {ids : BitVec logNumTc → Option (BitVec 6)} {x : BitVec 6}
    (h : (readKey i u ids).2 = some x) : ids (readKey i u ids).1.currTc = some x := by
  unfold readKey at h ⊢
  split at h
  · cases h
  · rename_i hbusy
    rw [if_neg hbusy]
    split at h
    · split at h
      · cases h
      · rw [passRequests_currTc]
        exact passRequests_id h
    · rw [passRequests_currTc]
      exact passRequests_id h
    · cases h

theorem State.dispatch_eq {s : State logNumTc} {i : ReadKeyIn logNumTc} {d : Dispatch logNumTc}
    (h : s.dispatch i = some d) :
    (Coap.readKey i s.readKey (fun tc => (s.ikernelIdPerTc tc).head)).1.currTc = d.tc ∧
      (s.ikernelIdPerTc d.tc).head = some d.ikernelId := by
  obtain ⟨id, hid, rfl⟩ := Option.map_eq_some_iff.mp h
  exact ⟨rfl, readKey_id hid⟩

/-! ### The first pass -/

/-- How many tokens the first pass has read, after `n` keys. -/
def FirstPass.taken (u : FirstPass logNumTc) (n : Nat) : Nat :=
  match u.state with
  | .firstBlock => n - 1
  | _ => n

/-- The first pass has read `n` keys and sent the blocks `out`. -/
def FirstPassInv (services : List (Service logNumTc)) (u : FirstPass logNumTc) (n : Nat)
    (out : List ShaRequest) : Prop :=
  match u.state with
  | .readRequest => Owed Service.firstBlocks services n out []
  | .firstBlock => ∃ m x, n = m + 1 ∧ services[m]? = some x ∧ u.currTc = x.tc ∧
      Owed Service.firstBlocks services n out (x.firstBlocks.drop 1)
  | .secondBlock => ∃ m x, n = m + 1 ∧ services[m]? = some x ∧ u.data = x.packet.parsedData ∧
      Owed Service.firstBlocks services n out (x.firstBlocks.drop 2)

/-- **The first pass**: a call sends the next block of the inner hash of the service at hand. -/
theorem firstPassInv_firstPass {packets : List Request} {services : List (Service logNumTc)}
    {u : FirstPass logNumTc} {keys : Fifo (HmacKey logNumTc)}
    {data : BitVec logNumTc → Fifo ParsedData} {out : Fifo ShaRequest}
    (h : FirstPassInv services u keys.past.length out.sent)
    (hreads : Reads (services.map Service.tc) (u.taken keys.past.length) data)
    (hkeys : keys.sent = services.map (fun x => x.dispatch.key)) (hlane : InLane packets services)
    (hdata : ∀ c, (data c).sent <+:
      (lane (Request.tc logNumTc) packets c).map Request.parsedData) :
    FirstPassInv services (firstPass u keys.head (data u.currTc).head).1
        (keys.readIf (firstPass u keys.head (data u.currTc).head).2.readKey).past.length
        (out.put (firstPass u keys.head (data u.currTc).head).2.request).sent ∧
      Reads (services.map Service.tc)
        ((firstPass u keys.head (data u.currTc).head).1.taken
          (keys.readIf (firstPass u keys.head (data u.currTc).head).2.readKey).past.length)
        (readLane data u.currTc (firstPass u keys.head (data u.currTc).head).2.readData) := by
  cases hu : u.state with
  | readRequest =>
    cases hk : keys.head with
    | none => simpa [firstPass, hu] using And.intro h hreads
    | some key =>
      -- the key of the next service
      obtain ⟨x, hx, rfl⟩ := exists_item (hkeys ▸ keys.past_snoc_prefix_sent hk)
      simp only [FirstPassInv, hu] at h
      have hstart := h.start hx
      simp only [firstPass, hu, readLane_false, Fifo.sent_put, Option.toList_some]
      refine ⟨⟨keys.past.length, x, keys.length_past_readIf_true hk, hx, rfl, ?_⟩, ?_⟩
      · rw [keys.length_past_readIf_true hk]
        exact hstart.advance
      · simpa [FirstPass.taken, hu, keys.length_past_readIf_true hk] using hreads
  | firstBlock =>
    cases hd : (data u.currTc).head with
    | none => simpa [firstPass, hu] using And.intro h hreads
    | some d =>
      simp only [FirstPassInv, hu] at h
      obtain ⟨m, x, hm, hx, htc, howed⟩ := h
      simp only [FirstPass.taken, hu, hm, Nat.add_sub_cancel] at hreads
      -- the token at the head is the one of the packet that is served
      obtain ⟨p, hp, rfl⟩ := hreads.head_eq hd (hdata u.currTc)
      rw [htc, hlane m x hx, Option.some.injEq] at hp
      subst hp
      simp only [firstPass, hu, Fifo.past_readIf_false, Fifo.sent_put, Option.toList_some]
      refine ⟨⟨m, x, hm, hx, rfl, howed.advance⟩, ?_⟩
      simp only [FirstPass.taken, hm]
      exact hreads.next (by rw [List.getElem?_map, hx, htc]; rfl) hd
  | secondBlock =>
    simp only [FirstPassInv, hu] at h
    obtain ⟨m, x, hm, hx, hdata', howed⟩ := h
    simp only [firstPass, hu, Fifo.past_readIf_false, Fifo.sent_put, Option.toList_some,
      readLane_false, hdata', Request.padBlock_parsedData]
    refine ⟨howed.advance, ?_⟩
    simpa [FirstPass.taken, hu] using hreads

/-! ### The SHA units -/

/-- The requests of one message: the last one is marked. -/
def IsMessage : List ShaRequest → Prop
  | [] => False
  | [r] => r.last = true
  | r :: rs => r.last = false ∧ IsMessage rs

theorem IsMessage.ne_nil {rs : List ShaRequest} (h : IsMessage rs) : rs ≠ [] := by
  rintro rfl
  exact h

/-- A request ends its message exactly when no other follows. -/
theorem IsMessage.cons {r : ShaRequest} {rs : List ShaRequest} (h : IsMessage (r :: rs)) :
    (r.last = true → rs = []) ∧ (r.last = false → IsMessage rs) := by
  cases rs with
  | nil => exact ⟨fun _ => rfl, fun hr => by simp [IsMessage, hr] at h⟩
  | cons r' rs =>
    obtain ⟨hr, hrest⟩ := h
    exact ⟨fun hr' => by simp [hr] at hr', fun _ => hrest⟩

/-- A SHA unit that is given the messages `pieces x` of the services holds the blocks of the message
at hand and has answered those before it. -/
def ShaInv (hash : List (List Byte) → List Byte)
    (pieces : Service logNumTc → List ShaRequest) (services : List (Service logNumTc))
    (blocks : List (List Byte)) (done : List ShaRequest) (out : List (List Byte)) : Prop :=
  (blocks = [] ∧ Owed pieces services out.length done [] ∧
    out = (services.take out.length).map (fun x => hash ((pieces x).map (·.data)))) ∨
  ∃ x due, services[out.length]? = some x ∧ IsMessage due ∧
    Owed pieces services (out.length + 1) done due ∧
    blocks ++ due.map (·.data) = (pieces x).map (·.data) ∧
    out = (services.take out.length).map (fun x => hash ((pieces x).map (·.data)))

/-- **A SHA unit** answers the messages in the order in which they were sent. -/
theorem shaInv_shaUnit {hash : List (List Byte) → List Byte}
    {pieces : Service logNumTc → List ShaRequest} {services : List (Service logNumTc)}
    {blocks : List (List Byte)} {reqs : Fifo ShaRequest} {out : Fifo (List Byte)}
    (hpieces : ∀ x, IsMessage (pieces x)) (hreqs : reqs.sent <+: services.flatMap pieces)
    (h : ShaInv hash pieces services blocks reqs.past out.sent) :
    ShaInv hash pieces services (shaUnit hash blocks reqs.head).1 (reqs.readIf true).past
      (out.put (shaUnit hash blocks reqs.head).2).sent := by
  cases hr : reqs.head with
  | none =>
    have hpop : (reqs.readIf true).past = reqs.past := by
      rw [Fifo.head, List.head?_eq_none_iff] at hr
      simp [Fifo.readIf, Fifo.pop, hr]
    simpa [shaUnit, hpop] using h
  | some r =>
    -- the request belongs to the message at hand, or to the next one
    obtain ⟨x, due, hx, hmsg, howed, hblocks, hout⟩ : ∃ x due,
        services[out.sent.length]? = some x ∧ IsMessage (r :: due) ∧
        Owed pieces services (out.sent.length + 1) (reqs.readIf true).past due ∧
        blocks ++ (r :: due).map (·.data) = (pieces x).map (·.data) ∧
        out.sent = (services.take out.sent.length).map
          (fun x => hash ((pieces x).map (·.data))) := by
      rw [reqs.past_readIf_true hr]
      rcases h with ⟨rfl, howed, hout⟩ | ⟨x, due, hx, hmsg, howed, hblocks, hout⟩
      · obtain ⟨x, due, hx, hdue⟩ :=
          howed.exists_next hreqs (fun x _ => (hpieces x).ne_nil) hr
        have hstart := howed.start hx
        rw [hdue] at hstart
        exact ⟨x, due, hx, hdue ▸ hpieces x, hstart.advance, by rw [hdue]; rfl, hout⟩
      · obtain ⟨y, due, rfl⟩ := List.exists_cons_of_ne_nil hmsg.ne_nil
        obtain rfl := howed.head_eq hreqs hr
        exact ⟨x, due, hx, hmsg, howed.advance, hblocks, hout⟩
    by_cases hl : r.last = true
    · obtain rfl := hmsg.cons.1 hl
      simp only [shaUnit, hl, if_true, Fifo.sent_put, Option.toList_some]
      refine .inl ⟨rfl, ?_, ?_⟩
      · rw [List.length_append, List.length_singleton]
        exact howed
      · rw [List.length_append, List.length_singleton, take_succ_eq hx, List.map_append, ← hout,
          List.map_singleton, ← hblocks]
        rfl
    · have hl' : r.last = false := by simpa using hl
      simp only [shaUnit, hl', Fifo.sent_put, Option.toList_none, List.append_nil,
        Bool.false_eq_true, if_false]
      refine .inr ⟨x, due, hx, hmsg.cons.2 hl', howed, ?_, hout⟩
      rw [← hblocks, List.append_assoc]
      rfl

/-! ### The second pass -/

section

variable (hash : List (List Byte) → List Byte)

namespace Service

/-- The digest of the first SHA unit. -/
def firstDigest (x : Service logNumTc) : List Byte := Coap.firstDigest hash x.key x.packet

/-- The blocks for the second SHA unit. -/
def secondBlocks (x : Service logNumTc) : List ShaRequest := Coap.secondBlocks hash x.key x.packet

/-- The decision that is made for the service. -/
def decision (x : Service logNumTc) : Decision :=
  ⟨base64Encode (hmac hash x.key x.packet) == x.packet.signature,
    x.dispatch.config.ringId x.dispatch.ikernelId⟩

end Service

/-- The second pass has read `n` keys and `digests` answers of the first SHA unit, and sent the blocks
`out`. -/
def SecondPassInv (services : List (Service logNumTc)) (u : SecondPassState) (n digests : Nat)
    (out : List ShaRequest) : Prop :=
  match u with
  | .hashKey => digests = n ∧ Owed (Service.secondBlocks hash) services n out []
  | .hashFirstPass => ∃ m x, n = m + 1 ∧ digests = m ∧ services[m]? = some x ∧
      Owed (Service.secondBlocks hash) services n out ((x.secondBlocks hash).drop 1)

end

variable {hash : List (List Byte) → List Byte} {services : List (Service logNumTc)}

/-- **The second pass**: a call sends the next block of the outer hash of the service at hand. -/
theorem secondPassInv_secondPass {u : SecondPassState} {keys : Fifo (HmacKey logNumTc)}
    {digests : Fifo (List Byte)} {out : Fifo ShaRequest}
    (h : SecondPassInv hash services u keys.past.length digests.past.length out.sent)
    (hkeys : keys.sent = services.map (fun x => x.dispatch.key))
    (hdigests : digests.sent <+: services.map (Service.firstDigest hash)) :
    SecondPassInv hash services (secondPass u keys.head digests.head).1
      (keys.readIf (secondPass u keys.head digests.head).2.readKey).past.length
      (digests.readIf (secondPass u keys.head digests.head).2.readDigest).past.length
      (out.put (secondPass u keys.head digests.head).2.request).sent := by
  cases u with
  | hashKey =>
    cases hk : keys.head with
    | none => simpa [secondPass] using h
    | some key =>
      obtain ⟨x, hx, rfl⟩ := exists_item (hkeys ▸ keys.past_snoc_prefix_sent hk)
      obtain ⟨hlen, howed⟩ := h
      have hstart := howed.start hx
      simp only [secondPass, Fifo.past_readIf_false, Fifo.sent_put, Option.toList_some]
      refine ⟨keys.past.length, x, keys.length_past_readIf_true hk, hlen, hx, ?_⟩
      rw [keys.length_past_readIf_true hk]
      exact hstart.advance
  | hashFirstPass =>
    cases hd : digests.head with
    | none => simpa [secondPass] using h
    | some d =>
      obtain ⟨m, x, hm, hlen, hx, howed⟩ := h
      -- the digest at the head is the one of the service at hand
      obtain ⟨y, hy, rfl⟩ := exists_item ((digests.past_snoc_prefix_sent hd).trans hdigests)
      rw [hlen, hx, Option.some.injEq] at hy
      subst hy
      simp only [secondPass, Fifo.past_readIf_false, Fifo.sent_put, Option.toList_some]
      refine ⟨?_, howed.advance⟩
      rw [digests.length_past_readIf_true hd, hlen, hm]

/-! ### `verify_sig` -/

/-- **The comparison**: a decision is made from the digest, the ring and the signature of one service. -/
theorem verifySig_eq {packets : List Request} {requests : Fifo (VerifySigRequest logNumTc)}
    {digests : Fifo (List Byte)} {sig : BitVec logNumTc → Fifo (List Byte)}
    {req : VerifySigRequest logNumTc} {full : Bool} {d : Decision}
    (hlen : digests.past.length = requests.past.length)
    (hrequests : requests.sent = services.map (fun x => x.dispatch.request))
    (hdigests : digests.sent <+: services.map (fun x => hmac hash x.key x.packet))
    (hreads : Reads (services.map Service.tc) requests.past.length sig)
    (hlane : InLane packets services)
    (hsig : ∀ c, (sig c).sent <+: (lane (Request.tc logNumTc) packets c).map Request.signature)
    (hreq : requests.head = some req)
    (hd : verifySig full digests.head (some req) (sig req.tc).head = some d) :
    ∃ x, services[requests.past.length]? = some x ∧ d = x.decision hash ∧ req.tc = x.tc ∧
      (∃ y, digests.head = some y) ∧ ∃ y, (sig req.tc).head = some y := by
  obtain ⟨x, hx, rfl⟩ := exists_item (hrequests ▸ requests.past_snoc_prefix_sent hreq)
  cases hdig : digests.head with
  | none => simp [verifySig, hdig] at hd
  | some digest =>
    cases hs : (sig x.dispatch.request.tc).head with
    | none => simp [verifySig, hdig, hs] at hd
    | some signature =>
      obtain ⟨y, hy, rfl⟩ := exists_item ((digests.past_snoc_prefix_sent hdig).trans hdigests)
      rw [hlen, hx, Option.some.injEq] at hy
      subst hy
      obtain ⟨p, hp, rfl⟩ := hreads.head_eq hs (hsig _)
      rw [show x.dispatch.request.tc = x.tc from rfl, hlane _ x hx, Option.some.injEq] at hp
      subst hp
      refine ⟨x, hx, ?_, rfl, ⟨_, rfl⟩, ⟨_, rfl⟩⟩
      simp only [verifySig, hdig, hs] at hd
      split at hd
      · cases hd
      · exact (Option.some.inj hd).symm

/-! ### `action_resolution` -/

/-- The metadata that is written for a packet, if its action lets it pass. -/
def written (m : Metadata) (a : PacketAction) : Option Metadata :=
  if a.pass then some (outMetadata m a.ringId) else none

/-- **The pairing**: an action is made from the metadata and the decision at the heads, and lets the
packet pass only if the decision does. -/
theorem actionResolution_eq {i : ActionIn} {metadata : Option Metadata} {decision : Option Decision}
    {a : PacketAction} {out : Option Metadata}
    (h : actionResolution i metadata decision = some (a, out)) :
    ∃ m d, metadata = some m ∧ decision = some d ∧ (a.pass = true → d.pass = true) ∧
      a.ringId = d.ringId ∧ out = written m a := by
  match metadata, decision with
  | none, _ => simp [actionResolution] at h
  | some _, none => simp [actionResolution] at h
  | some m, some d =>
    simp only [actionResolution] at h
    split at h
    · cases h
    · obtain ⟨rfl, rfl⟩ := Prod.mk.inj (Option.some.inj h)
      refine ⟨m, d, rfl, rfl, ?_, rfl, rfl⟩
      intro hpass
      exact (Bool.and_eq_true_iff.mp hpass).1

/-! ### `drop_or_pass` -/

/-- The beats that are written for a packet with the action `a`. -/
def writtenBeats (setData : List Byte → AxiData) (x : Request × PacketAction) : List AxiData :=
  if x.2.pass then
    (if x.2.ringId != 0 then [senderBeat setData x.2] else []) ++ x.1.beats
  else []

/-- The dropper has read the actions `actions` and the beats `done`, and written `out`. -/
def DropperInv (setData : List Byte → AxiData) (packets : List Request) (u : Dropper)
    (actions : List PacketAction) (done out : List AxiData) : Prop :=
  match u.state with
  | .decision => Owed Request.beats packets actions.length done [] ∧
      out = (packets.zip actions).flatMap (writtenBeats setData)
  | .data => ∃ due, IsPacket due ∧ Owed Request.beats packets actions.length done due ∧
      out ++ (if u.action.pass then due else []) =
        (packets.zip actions).flatMap (writtenBeats setData)

/-- **The dropper** applies the actions to the packets in their order. -/
theorem dropperInv_dropOrPass {setData : List Byte → AxiData} {packets : List Request} {u : Dropper}
    {actions : Fifo PacketAction} {beats : Fifo AxiData} {out : List AxiData} (full : Bool)
    (h : DropperInv setData packets u actions.past beats.past out)
    (hactions : actions.sent.length ≤ packets.length)
    (hbeats : beats.sent <+: packets.flatMap Request.beats) :
    DropperInv setData packets (dropOrPass setData full u actions.head beats.head).1
      (actions.readIf (dropOrPass setData full u actions.head beats.head).2.readAction).past
      (beats.readIf (dropOrPass setData full u actions.head beats.head).2.readData).past
      (out ++ (dropOrPass setData full u actions.head beats.head).2.data.toList) := by
  have hwait : DropperInv setData packets u (actions.readIf false).past (beats.readIf false).past
      (out ++ []) := by
    simpa using h
  by_cases hfull : full = true
  · simpa [dropOrPass, hfull] using hwait
  · cases hu : u.state with
    | decision =>
      cases ha : actions.head with
      | none => simpa [dropOrPass, hfull, hu] using hwait
      | some a =>
        -- the action is for the next packet
        obtain ⟨p, hp⟩ : ∃ p, packets[actions.past.length]? = some p := by
          have hlen := (actions.past_snoc_prefix_sent ha).length_le
          rw [List.length_append, List.length_singleton] at hlen
          exact ⟨_, List.getElem?_eq_getElem (by omega)⟩
        simp only [DropperInv, hu] at h
        obtain ⟨howed, hout⟩ := h
        simp only [dropOrPass, hfull, hu, Bool.false_eq_true, if_false, DropperInv]
        rw [actions.past_readIf_true ha, List.length_append, List.length_singleton, zip_snoc hp a,
          List.flatMap_append, ← hout]
        refine ⟨p.beats, p.isPacket, howed.start hp, ?_⟩
        by_cases hpass : a.pass = true
        · by_cases hring : a.ringId = 0#7 <;> simp [writtenBeats, hpass, hring]
        · simp [writtenBeats, hpass]
    | data =>
      cases hb : beats.head with
      | none => simpa [dropOrPass, hfull, hu] using hwait
      | some d =>
        simp only [DropperInv, hu] at h
        obtain ⟨due, hpacket, howed, hout⟩ := h
        obtain ⟨y, due, rfl⟩ : ∃ y due', due = y :: due' := by
          apply List.exists_cons_of_ne_nil
          rintro rfl
          exact absurd hpacket (by decide)
        obtain rfl := howed.head_eq hbeats hb
        have hnext := howed.advance
        have hout' : out ++ (if u.action.pass then some d else none).toList ++
            (if u.action.pass then due else []) =
              (packets.zip actions.past).flatMap (writtenBeats setData) := by
          rw [← hout]
          by_cases hpass : u.action.pass = true <;> simp [hpass]
        simp only [dropOrPass, hfull, hu, Bool.false_eq_true, if_false, DropperInv,
          Fifo.past_readIf_false]
        rw [beats.past_readIf_true hb]
        by_cases hl : d.last = true
        · obtain rfl := (isPacket_cons hpacket).1 hl
          simp only [hl, if_true]
          exact ⟨hnext, by simpa using hout'⟩
        · simp only [hl, Bool.false_eq_true, if_false]
          exact ⟨due, (isPacket_cons hpacket).2 (by simpa using hl), hnext, hout'⟩

end Nica.Hls.Coap
