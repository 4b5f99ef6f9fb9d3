import Nica.Hls.CoapScheduler
import Nica.Hls.Equiv.CoapPairing

/-!
# What the parser takes for a packet

`parse_packet` does not look at `last` in the first five beats behind a metadata and then waits for a beat that ends a
packet, whichever it is.  `takenPackets` are the packets that it makes of two streams in this way, whatever they carry.
The units behind the parser see nothing else, so every run of the ikernel is, for them, one with these packets on the
network ports (`State.complete`, `taken_run`).  If every packet has at least six beats they are the packets that were
sent, and the last one may have five (`takenPackets_eq`).
-/

namespace Nica.Hls.Coap

open Nica.Lib

variable {logNumTc : Nat}

/-! ### Packets by the parser's rule -/

def clearLast (b : AxiData) : AxiData := { b with last := false }

/-- The beat that stands for whatever the parser waits for behind the first five. -/
def anyEnd : AxiData := ⟨0, 0, true⟩

/-- The metadata and the five beats behind it, as a packet. -/
def taken (m : Metadata) (beats : List AxiData) : Request where
  metadata := m
  beats := (List.range 5).map (fun i => clearLast (beats.getD i ⟨0, 0, false⟩)) ++ [anyEnd]
  isPacket := ⟨_, _, rfl, rfl, by simp [clearLast]⟩
  long := by simp

/-- The beats behind the next one that ends a packet. -/
def afterLast : List AxiData → List AxiData
  | [] => []
  | b :: bs => if b.last then bs else afterLast bs

/-- The packets that the parser makes of two streams. -/
def takenPackets : List Metadata → List AxiData → List Request
  | [], _ => []
  | m :: ms, beats => taken m beats :: takenPackets ms (afterLast (beats.drop 5))

theorem metadata_takenPackets (ms : List Metadata) (beats : List AxiData) :
    (takenPackets ms beats).map Request.metadata = ms := by
  induction ms generalizing beats with
  | nil => rfl
  | cons m ms ih => rw [takenPackets, List.map_cons, ih]; rfl

theorem length_takenPackets (ms : List Metadata) (beats : List AxiData) :
    (takenPackets ms beats).length = ms.length := by
  rw [← List.length_map Request.metadata, metadata_takenPackets]

theorem length_taken (m : Metadata) (beats : List AxiData) : (taken m beats).beats.length = 6 := rfl

/-- A beat of the first five is there with its data. -/
theorem taken_getElem? {m : Metadata} {beats : List AxiData} {j : ℕ} {d : AxiData} (hj : j < 5)
    (hd : beats[j]? = some d) : (taken m beats).beats[j]? = some (clearLast d) := by
  have hlen : j < ((List.range 5).map fun i => clearLast (beats.getD i ⟨0, 0, false⟩)).length := by simpa using hj
  show (((List.range 5).map fun i => clearLast (beats.getD i ⟨0, 0, false⟩)) ++ [anyEnd])[j]? = _
  rw [List.getElem?_append_left hlen, List.getElem?_map, List.getElem?_range hj, Option.map_some, List.getD_eq_getElem?_getD,
    hd]
  rfl

theorem drop_taken (m : Metadata) (beats : List AxiData) : (taken m beats).beats.drop 5 = [anyEnd] := rfl

/-! ### The parser -/

/-- The number of beats of its packet that the parser has read, up to the five that it looks at. -/
def InState.wordsRead : InState → ℕ
  | .inMetadata | .firstWord => 0
  | .secondWord => 1
  | .thirdWord => 2
  | .fourthWord => 3
  | .fifthWord => 4
  | .otherWords => 5

/-- In the first five beats the parser only looks at the data. -/
theorem parsePacket_clearLast (full : ParseFull) {u : Parser logNumTc} (hu : u.inState ≠ .otherWords)
    (m : Option Metadata) (d : AxiData) :
    parsePacket full u m (some (clearLast d)) = parsePacket full u m (some d) := by
  cases hs : u.inState with
  | otherWords => exact absurd hs hu
  | _ => simp only [parsePacket, hs, clearLast]

/-- A call on one of the first five beats reads it, or does nothing. -/
theorem parsePacket_word (full : ParseFull) {u : Parser logNumTc} (hmeta : u.inState ≠ .inMetadata)
    (hother : u.inState ≠ .otherWords) (m : Option Metadata) (d : Option AxiData) :
    (parsePacket full u m d = (u, {}) ∨
      d ≠ none ∧ (parsePacket full u m d).2.readData = true ∧ (parsePacket full u m d).2.readMetadata = false ∧
        (parsePacket full u m d).1.inState ≠ .inMetadata ∧ u.inState.wordsRead < 5 ∧
        (parsePacket full u m d).1.inState.wordsRead = u.inState.wordsRead + 1) := by
  cases d with
  | none =>
    left
    cases hs : u.inState with
    | inMetadata => exact absurd hs hmeta
    | _ => simp only [parsePacket, hs]
  | some d =>
    cases hs : u.inState with
    | inMetadata => exact absurd hs hmeta
    | otherWords => exact absurd hs hother
    | firstWord =>
      right
      simp [parsePacket, hs, InState.wordsRead]
    | secondWord =>
      right
      simp [parsePacket, hs, InState.wordsRead]
    | thirdWord =>
      right
      simp [parsePacket, hs, InState.wordsRead]
    | fourthWord =>
      cases hf : full.parsedData with
      | true =>
        left
        simp only [parsePacket, hs, hf, if_true]
      | false =>
        right
        simp [parsePacket, hs, hf, InState.wordsRead]
    | fifthWord =>
      cases hf : (full.sig || full.ikernelId || full.packetTc) with
      | true =>
        left
        simp only [parsePacket, hs, hf, if_true]
      | false =>
        right
        simp [parsePacket, hs, hf, InState.wordsRead]

/-- Where the parser is: it has read `n` metadata, `rest` is what it has not read of the data, and `done` are the
beats of `takenPackets` that it has gone through. -/
def Position (ms : List Metadata) (beats : List AxiData) (u : Parser logNumTc) (n : ℕ) (rest done : List AxiData) :
    Prop :=
  if u.inState = .inMetadata then
    (takenPackets ms beats).drop n = takenPackets (ms.drop n) rest ∧
      done = ((takenPackets ms beats).take n).flatMap Request.beats
  else
    ∃ k m start, n = k + 1 ∧ (takenPackets ms beats)[k]? = some (taken m start) ∧
      (takenPackets ms beats).drop n = takenPackets (ms.drop n) (afterLast (start.drop 5)) ∧
      done = ((takenPackets ms beats).take k).flatMap Request.beats ++
        (taken m start).beats.take u.inState.wordsRead ∧
      if u.inState = .otherWords then afterLast rest = afterLast (start.drop 5)
      else rest = start.drop u.inState.wordsRead

theorem position_init (ms : List Metadata) (beats : List AxiData) {u : Parser logNumTc}
    (hu : u.inState = .inMetadata) : Position ms beats u 0 beats [] := by
  rw [Position, if_pos hu]
  exact ⟨rfl, rfl⟩

section Position

variable {ms : List Metadata} {beats : List AxiData} {u u' : Parser logNumTc} {n : ℕ} {rest done : List AxiData}

/-- All beats of the packets. -/
def allBeats (ms : List Metadata) (beats : List AxiData) : List AxiData :=
  (takenPackets ms beats).flatMap Request.beats

theorem allBeats_eq {k : ℕ} {p : Request} (hp : (takenPackets ms beats)[k]? = some p) (j : ℕ) :
    allBeats ms beats = ((takenPackets ms beats).take k).flatMap Request.beats ++ p.beats.take j ++
      (p.beats.drop j ++ ((takenPackets ms beats).drop (k + 1)).flatMap Request.beats) := by
  have hsplit : takenPackets ms beats =
      (takenPackets ms beats).take k ++ p :: (takenPackets ms beats).drop (k + 1) := by
    obtain ⟨hk, rfl⟩ := List.getElem?_eq_some_iff.mp hp
    rw [← List.drop_eq_getElem_cons hk, List.take_append_drop]
  rw [allBeats]
  conv_lhs => rw [hsplit, List.flatMap_append, List.flatMap_cons, ← List.take_append_drop j p.beats]
  simp only [List.append_assoc]

theorem drop_eq_cons {α : Type} {l front back : List α} {x : α} (h : l = front ++ x :: back) :
    l.drop front.length = x :: l.drop (front.length + 1) := by
  rw [h, List.drop_left, ← List.tail_drop, List.drop_left]
  rfl

/-- A metadata is read: what the parser takes for its packet starts here. -/
theorem Position.metadata (h : Position ms beats u n rest done) (hu : u.inState = .inMetadata) {m : Metadata}
    (hm : ms[n]? = some m) (u' : Parser logNumTc) (hu' : u'.inState = .firstWord) : Position ms beats u' (n + 1) rest done := by
  rw [Position, if_pos hu] at h
  obtain ⟨hdrop, hdone⟩ := h
  obtain ⟨hn, hget⟩ := List.getElem?_eq_some_iff.mp hm
  rw [List.drop_eq_getElem_cons hn, hget, takenPackets] at hdrop
  have hpacket : (takenPackets ms beats)[n]? = some (taken m rest) := by
    rw [← List.head?_drop, hdrop]
    rfl
  rw [Position, if_neg (by rw [hu']; decide)]
  refine ⟨n, m, rest, rfl, hpacket, ?_, ?_, ?_⟩
  · rw [← List.tail_drop, hdrop, List.tail_cons]
  · rw [hu']
    exact hdone.trans (List.append_nil _).symm
  · rw [if_neg (by rw [hu']; decide), hu']
    rfl

/-- One of the five beats is read. -/
theorem Position.word {d : AxiData} (h : Position ms beats u n (d :: rest) done) (hmeta : u.inState ≠ .inMetadata)
    (hother : u.inState ≠ .otherWords) (hj : u.inState.wordsRead < 5) (hmeta' : u'.inState ≠ .inMetadata)
    (hwords : u'.inState.wordsRead = u.inState.wordsRead + 1) :
    Position ms beats u' n rest (done ++ [clearLast d]) ∧
      (allBeats ms beats).drop done.length = clearLast d :: (allBeats ms beats).drop (done.length + 1) := by
  rw [Position, if_neg hmeta] at h
  obtain ⟨k, m, start, hn, hp, hdrop, hdone, hrest⟩ := h
  rw [if_neg hother] at hrest
  have hget : start[u.inState.wordsRead]? = some d := by
    rw [← List.head?_drop, ← hrest]
    rfl
  have htaken := taken_getElem? (m := m) hj hget
  have hlt := (List.getElem?_eq_some_iff.mp htaken).1
  have hrest' : rest = start.drop (u.inState.wordsRead + 1) := by
    rw [← List.tail_drop, ← hrest, List.tail_cons]
  constructor
  · rw [Position, if_neg hmeta']
    refine ⟨k, m, start, hn, hp, hdrop, ?_, ?_⟩
    · rw [hwords, hdone, List.take_add_one, htaken, Option.toList_some, List.append_assoc]
    · split
      · rename_i hlast
        rw [hlast] at hwords
        have hfive : u.inState.wordsRead + 1 = 5 := hwords.symm
        rw [hrest', hfive]
      · rw [hwords]
        exact hrest'
  · have hall := allBeats_eq hp u.inState.wordsRead
    have hdropTaken : (taken m start).beats.drop u.inState.wordsRead =
        clearLast d :: (taken m start).beats.drop (u.inState.wordsRead + 1) := by
      rw [List.drop_eq_getElem_cons hlt]
      congr 1
      exact (List.getElem?_eq_some_iff.mp htaken).2
    rw [← hdone, hdropTaken, List.cons_append] at hall
    exact drop_eq_cons hall

/-- A beat behind the five is read. -/
theorem Position.other {d : AxiData} (h : Position ms beats u n (d :: rest) done) (hu : u.inState = .otherWords)
    (u' : Parser logNumTc) :
    (d.last = false → Position ms beats u n rest done) ∧
      (d.last = true → u'.inState = .inMetadata → Position ms beats u' n rest (done ++ [anyEnd]) ∧
        (allBeats ms beats).drop done.length = anyEnd :: (allBeats ms beats).drop (done.length + 1)) := by
  rw [Position, if_neg (by rw [hu]; decide)] at h
  obtain ⟨k, m, start, hn, hp, hdrop, hdone, hrest⟩ := h
  rw [if_pos hu] at hrest
  constructor
  · intro hl
    rw [afterLast, hl, if_neg (by decide)] at hrest
    rw [Position, if_neg (by rw [hu]; decide)]
    refine ⟨k, m, start, hn, hp, hdrop, hdone, ?_⟩
    rw [if_pos hu]
    exact hrest
  · intro hl hu'
    rw [afterLast, if_pos hl] at hrest
    rw [hu] at hdone
    have hfive : (taken m start).beats.take 5 ++ [anyEnd] = (taken m start).beats := by
      rw [← drop_taken m start, List.take_append_drop]
    constructor
    · rw [Position, if_pos hu', hrest]
      refine ⟨hdrop, ?_⟩
      rw [hdone, hn, take_succ_eq hp, List.flatMap_append, List.flatMap_singleton, List.append_assoc]
      exact congrArg _ hfive
    · have hall := allBeats_eq hp 5
      have hdone' : ((takenPackets ms beats).take k).flatMap Request.beats ++ (taken m start).beats.take 5 = done :=
        hdone.symm
      rw [hdone', drop_taken] at hall
      exact drop_eq_cons hall

end Position

/-! ### The ikernel on the packets that were taken -/

/-- The state with the packets that the parser makes of the data in the place of the data; `done` is what the parser
has gone through of them.  What becomes of the other copy of the data is left out. -/
def State.complete (all done : List AxiData) (s : State logNumTc) : State logNumTc :=
  { s with
    netData := ⟨all, []⟩
    parserData := ⟨done, all.drop done.length⟩
    bufferData := ⟨[], all⟩
    dropper := ⟨.decision, ⟨false, 0, 0, 0⟩⟩
    action := ⟨[], s.action.sent⟩
    dataOutput := [] }

section

variable (hash : List (List Byte) → List Byte) (setData : List Byte → AxiData)

/-- The units behind the parser have got where they would have got with the packets that were taken. -/
structure TakenInv (ms : List Metadata) (beats : List AxiData) (services : List (Service logNumTc))
    (done : List AxiData) (s : State logNumTc) : Prop where
  pairing : PairingInv hash setData (takenPackets ms beats) services (s.complete (allBeats ms beats) done)
  netData : s.netData.sent = beats
  parserData : s.parserData.sent = s.netData.past
  position : Position ms beats s.parser s.parserMetadata.past.length (beats.drop s.parserData.past.length) done

end

variable {hash : List (List Byte) → List Byte} {setData : List Byte → AxiData} {ms : List Metadata}
  {beats done : List AxiData} {services : List (Service logNumTc)} {s : State logNumTc}

theorem takenInv_init (c : Config) (packets : List Datagram) :
    TakenInv hash setData (packets.map Datagram.metadata) (packets.flatMap Datagram.beats) [] []
      (State.ofDatagrams c packets : State logNumTc) where
  pairing := by
    have hinit : PairingInv hash setData
        (takenPackets (packets.map Datagram.metadata) (packets.flatMap Datagram.beats)) []
        (State.init c _ : State logNumTc) := pairingInv_init c
    exact { hinit with
      netMetadata_sent := (metadata_takenPackets _ _).symm
      netData_sent := List.append_nil _
      parserData_sent := rfl
      bufferData_sent := rfl
      parser := { hinit.parser with } }
  netData := rfl
  parserData := rfl
  position := position_init _ _ rfl

/-- A step of a unit that does not touch what was replaced. -/
theorem TakenInv.of_complete {s' : State logNumTc} (a : Act logNumTc)
    (h : TakenInv hash setData ms beats services done s)
    (hstep : s'.complete (allBeats ms beats) done = step hash setData (s.complete (allBeats ms beats) done) a)
    (hnet : s'.netData = s.netData) (hdata : s'.parserData = s.parserData) (hparser : s'.parser = s.parser)
    (hmeta : s'.parserMetadata.past = s.parserMetadata.past) :
    ∃ services' done', TakenInv hash setData ms beats services' done' s' := by
  obtain ⟨services', hservices⟩ := pairingInv_step ⟨services, h.pairing⟩ a
  refine ⟨services', done, ?_, ?_, ?_, ?_⟩
  · rw [hstep]
    exact hservices
  · rw [hnet]
    exact h.netData
  · rw [hdata, hnet]
    exact h.parserData
  · rw [hparser, hmeta, hdata]
    exact h.position

theorem takenInv_dupData (h : TakenInv hash setData ms beats services done s) (full : Bool) :
    TakenInv hash setData ms beats services done (step hash setData s (.dupData full)) where
  pairing := h.pairing
  netData := by
    show (s.netData.readIf _).sent = _
    rw [Fifo.sent_readIf]
    exact h.netData
  parserData := by
    show (s.parserData.put _).sent = (s.netData.readIf _).past
    rw [Fifo.sent_put, h.parserData, past_readIf_dup]
  position := h.position

theorem takenInv_dropOrPass (h : TakenInv hash setData ms beats services done s) (full : Bool) :
    TakenInv hash setData ms beats services done (step hash setData s (.dropOrPass full)) where
  pairing := by
    have hsame : (step hash setData s (.dropOrPass full)).complete (allBeats ms beats) done =
        s.complete (allBeats ms beats) done := by
      simp only [State.complete, step, Fifo.sent_readIf]
    rw [hsame]
    exact h.pairing
  netData := h.netData
  parserData := h.parserData
  position := h.position

theorem takenInv_actionResolution (h : TakenInv hash setData ms beats services done s) (i : ActionIn) :
    ∃ services' done', TakenInv hash setData ms beats services' done' (step hash setData s (.actionResolution i)) := by
  refine h.of_complete (.actionResolution i) ?_ rfl rfl rfl rfl
  have hput : ∀ x : Option PacketAction, (⟨[], (s.action.put x).sent⟩ : Fifo PacketAction) =
      Fifo.put ⟨[], s.action.sent⟩ x := by
    intro x
    rw [Fifo.sent_put]
    rfl
  simp only [State.complete, step, hput]

theorem takenInv_verifySig (h : TakenInv hash setData ms beats services done s) (full : Bool) :
    ∃ services' done', TakenInv hash setData ms beats services' done' (step hash setData s (.verifySig full)) := by
  cases hreq : s.verifySigRequest.head with
  | none =>
    refine ⟨services, done, ?_⟩
    simpa only [step, hreq] using h
  | some req =>
    have hreq' : (s.complete (allBeats ms beats) done).verifySigRequest.head = some req := hreq
    refine h.of_complete (.verifySig full) ?_ ?_ ?_ ?_ ?_
    · simp only [step, hreq, hreq']
      rfl
    · simp only [step, hreq]
    · simp only [step, hreq]
    · simp only [step, hreq]
    · simp only [step, hreq]

/-- A call of the parser that does the same on the packets that were taken. -/
theorem complete_parsePacket {all : List AxiData} {full : ParseFull} (done' : List AxiData)
    (hsame : parsePacket full s.parser s.parserMetadata.head (⟨done, all.drop done.length⟩ : Fifo AxiData).head =
      parsePacket full s.parser s.parserMetadata.head s.parserData.head)
    (hread : (⟨done, all.drop done.length⟩ : Fifo AxiData).readIf
        (parsePacket full s.parser s.parserMetadata.head s.parserData.head).2.readData =
      ⟨done', all.drop done'.length⟩) :
    (step hash setData s (.parsePacket full)).complete all done' =
      step hash setData (s.complete all done) (.parsePacket full) := by
  show _ = step hash setData _ _
  simp only [State.complete, step]
  rw [hsame, hread]

theorem readIf_drop {all done : List AxiData} {x : AxiData}
    (h : all.drop done.length = x :: all.drop (done.length + 1)) :
    (⟨done, all.drop done.length⟩ : Fifo AxiData).readIf true = ⟨done ++ [x], all.drop (done ++ [x]).length⟩ := by
  rw [Fifo.readIf, if_pos rfl, Fifo.pop_of_queue_eq _ h, List.length_append, List.length_singleton]

theorem takenInv_parsePacket (h : TakenInv hash setData ms beats services done s) (full : ParseFull) :
    ∃ done', TakenInv hash setData ms beats services done' (step hash setData s (.parsePacket full)) := by
  have hprefix : s.parserData.sent <+: beats := by
    rw [h.parserData, ← h.netData]
    exact s.netData.past_prefix_sent
  -- a call that does nothing
  have hwait : parsePacket full s.parser s.parserMetadata.head s.parserData.head = (s.parser, {}) →
      ∃ done', TakenInv hash setData ms beats services done' (step hash setData s (.parsePacket full)) := by
    intro hnothing
    refine ⟨done, ?_⟩
    have hsame : step hash setData s (.parsePacket full) = s := by
      simp only [step, hnothing, putLane_none, Fifo.put_none]
      rfl
    rw [hsame]
    exact h
  by_cases hmeta : s.parser.inState = .inMetadata
  · cases hm : s.parserMetadata.head with
    | none =>
      apply hwait
      simp only [parsePacket, hmeta, hm]
    | some m =>
      have hcall : ∀ d, parsePacket full s.parser s.parserMetadata.head d =
          ({ s.parser with metadata := m, currTc := calcTc logNumTc m, inState := .firstWord },
            { readMetadata := true }) := by
        intro d
        simp only [parsePacket, hmeta, hm]
      have hget : ms[s.parserMetadata.past.length]? = some m := by
        have hsent : s.parserMetadata.past ++ [m] <+: ms := by
          have hmetas := h.pairing.netMetadata_sent
          rw [metadata_takenPackets] at hmetas
          rw [← hmetas]
          refine (s.parserMetadata.past_snoc_prefix_sent hm).trans ?_
          rw [show s.parserMetadata.sent = s.netMetadata.past from h.pairing.parserMetadata_sent]
          exact s.netMetadata.past_prefix_sent
        obtain ⟨more, hmore⟩ := hsent
        rw [← hmore, List.append_assoc, List.getElem?_append_right (Nat.le_refl _), Nat.sub_self]
        rfl
      have hpos := h.position.metadata hmeta hget
        { s.parser with metadata := m, currTc := calcTc logNumTc m, inState := .firstWord } rfl
      refine ⟨done, ?_, h.netData, ?_, ?_⟩
      · rw [complete_parsePacket done (by rw [hcall, hcall]) (by rw [hcall]; rfl)]
        exact pairingInv_parsePacket h.pairing full
      · simp only [step, hcall]
        exact h.parserData
      · simp only [step, hcall]
        rw [s.parserMetadata.length_past_readIf_true hm]
        exact hpos
  · cases hd : s.parserData.head with
    | none =>
      apply hwait
      cases hu : s.parser.inState with
      | inMetadata => exact absurd hu hmeta
      | _ => simp only [parsePacket, hu, hd]
    | some d =>
      have hrest : beats.drop s.parserData.past.length = d :: beats.drop (s.parserData.past.length + 1) := by
        obtain ⟨more, hmore⟩ := (s.parserData.past_snoc_prefix_sent hd).trans hprefix
        rw [List.append_assoc, List.singleton_append] at hmore
        exact drop_eq_cons hmore.symm
      have hlen := s.parserData.length_past_readIf_true hd
      have hposition := h.position
      rw [hrest] at hposition
      by_cases hother : s.parser.inState = .otherWords
      · cases hf : full.parsedPackets with
        | true =>
          apply hwait
          simp only [parsePacket, hother, hd, hf, if_true]
        | false =>
          have hcall : ∀ b, parsePacket full s.parser s.parserMetadata.head (some b) =
              ({ s.parser with inState := if b.last then .inMetadata else .otherWords }, { readData := true }) := by
            intro b
            simp only [parsePacket, hother, hf, Bool.false_eq_true, if_false]
          cases hl : d.last with
          | false =>
            -- the parser goes on waiting, and so it does on the packets that were taken
            have hsame : ({ s.parser with inState := .otherWords } : Parser logNumTc) = s.parser := by rw [← hother]
            have hnext := (hposition.other hother s.parser).1 hl
            refine ⟨done, ?_, h.netData, ?_, ?_⟩
            · have hcomplete : (step hash setData s (.parsePacket full)).complete (allBeats ms beats) done =
                  s.complete (allBeats ms beats) done := by
                simp only [State.complete, step, hd, hcall, hl, Bool.false_eq_true, if_false, hsame, putLane_none,
                  Fifo.put_none]
                rfl
              rw [hcomplete]
              exact h.pairing
            · simp only [step, hd, hcall, Fifo.sent_readIf]
              exact h.parserData
            · simp only [step, hd, hcall, hl, Bool.false_eq_true, if_false, hsame, hlen]
              exact hnext
          | true =>
            obtain ⟨hnext, hhead⟩ :=
              (hposition.other hother { s.parser with inState := .inMetadata }).2 hl rfl
            have hcompleted : (⟨done, (allBeats ms beats).drop done.length⟩ : Fifo AxiData).head = some anyEnd := by
              rw [hhead]
              rfl
            refine ⟨done ++ [anyEnd], ?_, h.netData, ?_, ?_⟩
            · rw [complete_parsePacket (done ++ [anyEnd])]
              · exact pairingInv_parsePacket h.pairing full
              · rw [hcompleted, hd, hcall, hcall, hl]
                rfl
              · rw [hd, hcall]
                exact readIf_drop hhead
            · simp only [step, hd, hcall, Fifo.sent_readIf]
              exact h.parserData
            · simp only [step, hd, hcall, hl, if_true, hlen]
              exact hnext
      · rcases parsePacket_word full hmeta hother s.parserMetadata.head s.parserData.head with
          hnothing | ⟨-, hreads, hreadMeta, hmeta', hj, hwords⟩
        · exact hwait hnothing
        · obtain ⟨hnext, hhead⟩ := hposition.word hmeta hother hj hmeta' hwords
          have hcompleted : (⟨done, (allBeats ms beats).drop done.length⟩ : Fifo AxiData).head = some (clearLast d) := by
            rw [hhead]
            rfl
          refine ⟨done ++ [clearLast d], ?_, h.netData, ?_, ?_⟩
          · rw [complete_parsePacket (done ++ [clearLast d])]
            · exact pairingInv_parsePacket h.pairing full
            · rw [hcompleted, hd, parsePacket_clearLast full hother]
            · rw [hreads]
              exact readIf_drop hhead
          · simp only [step, Fifo.sent_readIf]
            exact h.parserData
          · simp only [step, hreads, hreadMeta, hlen]
            exact hnext

theorem takenInv_step (h : ∃ services done, TakenInv hash setData ms beats services done s) (a : Act logNumTc) :
    ∃ services done, TakenInv hash setData ms beats services done (step hash setData s a) := by
  obtain ⟨services, done, h⟩ := h
  cases a with
  | dupData full => exact ⟨services, done, takenInv_dupData h full⟩
  | dropOrPass full => exact ⟨services, done, takenInv_dropOrPass h full⟩
  | parsePacket full => exact ⟨services, takenInv_parsePacket h full⟩
  | verifySig full => exact takenInv_verifySig h full
  | actionResolution i => exact takenInv_actionResolution h i
  | dupMetadata full => exact h.of_complete (.dupMetadata full) rfl rfl rfl rfl rfl
  | readKey i => exact h.of_complete (.readKey i) rfl rfl rfl rfl rfl
  | firstPass => exact h.of_complete .firstPass rfl rfl rfl rfl rfl
  | firstSha => exact h.of_complete .firstSha rfl rfl rfl rfl rfl
  | secondPass => exact h.of_complete .secondPass rfl rfl rfl rfl rfl
  | secondSha => exact h.of_complete .secondSha rfl rfl rfl rfl rfl

/-- In every run, on packets of any length, the units behind the parser work on the packets that were taken. -/
theorem takenInv_run (hash : List (List Byte) → List Byte) (setData : List Byte → AxiData) (c : Config)
    (packets : List Datagram) (acts : List (Act logNumTc)) :
    ∃ services done, TakenInv hash setData (packets.map Datagram.metadata) (packets.flatMap Datagram.beats) services
      done (run (step hash setData) (State.ofDatagrams c packets) acts) :=
  run_invariant (P := fun s => ∃ services done, TakenInv hash setData (packets.map Datagram.metadata)
    (packets.flatMap Datagram.beats) services done s) (fun _ a h => takenInv_step h a) acts _
    ⟨[], [], takenInv_init c packets⟩

/-! ### Packets that are long enough -/

/-- Behind any beat of a packet but the last one, its end is the next one. -/
theorem afterLast_drop {bs : List AxiData} (h : IsPacket bs) (more : List AxiData) {j : ℕ} (hj : j < bs.length) :
    afterLast ((bs ++ more).drop j) = more := by
  induction bs generalizing j with
  | nil => exact absurd hj (Nat.not_lt_zero j)
  | cons b bs ih =>
    obtain ⟨hend, hmore⟩ := isPacket_cons h
    cases hl : b.last with
    | true =>
      have hnil := hend hl
      subst hnil
      have hzero : j = 0 := Nat.lt_one_iff.mp hj
      rw [hzero, List.drop_zero, List.cons_append, afterLast, if_pos hl]
      rfl
    | false =>
      have hrest := hmore hl
      cases j with
      | zero =>
        rw [List.drop_zero, List.cons_append, afterLast, if_neg (by rw [hl]; decide)]
        exact ih hrest (List.length_pos_of_ne_nil hrest.ne_nil)
      | succ j =>
        rw [List.cons_append, List.drop_succ_cons]
        exact ih hrest (Nat.lt_of_succ_lt_succ hj)

theorem taken_append {bs : List AxiData} (h : 5 ≤ bs.length) (m : Metadata) (more : List AxiData) :
    taken m (bs ++ more) = taken m bs := by
  have hbeats : (List.range 5).map (fun i => clearLast ((bs ++ more).getD i ⟨0, 0, false⟩)) =
      (List.range 5).map fun i => clearLast (bs.getD i ⟨0, 0, false⟩) := by
    apply List.map_congr_left
    intro i hi
    have hlt : i < bs.length := by
      have := List.mem_range.mp hi
      omega
    rw [List.getD_eq_getElem?_getD, List.getD_eq_getElem?_getD, List.getElem?_append_left hlt]
  simp only [taken, hbeats]

/-- What the parser takes for a packet when it starts with its first beat. -/
def takenOf (p : Datagram) : Request := taken p.metadata p.beats

/-- If only the last packet may have less than six beats, the parser starts every packet with its first beat. -/
theorem takenPackets_eq {packets : List Datagram} (h : ∀ p ∈ packets.dropLast, 6 ≤ p.beats.length) :
    takenPackets (packets.map Datagram.metadata) (packets.flatMap Datagram.beats) = packets.map takenOf := by
  induction packets with
  | nil => rfl
  | cons p packets ih =>
    cases packets with
    | nil => simp [takenPackets, takenOf]
    | cons q packets =>
      have hp : 6 ≤ p.beats.length := h p (by rw [List.dropLast_cons_cons]; exact List.mem_cons_self ..)
      have hrest := ih fun p' hp' => h p' (by rw [List.dropLast_cons_cons]; exact List.mem_cons_of_mem p hp')
      rw [List.map_cons, List.flatMap_cons, takenPackets, afterLast_drop p.isPacket _ hp, hrest,
        taken_append (Nat.le_of_succ_le hp)]
      rfl

end Nica.Hls.Coap
