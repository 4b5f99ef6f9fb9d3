import Nica.Lib.Owed
import Nica.Hls.DropOrPass

/-!
# Units that read packets

A unit is told of an item (by its metadata, or by a decision about it) and then reads the beats of a packet, up to the
one with `last`.  If every item has exactly one packet of data, the beats it reads belong to the item it was told of last
(`Reading`).  `OwnData` is what this means for the streams, and also makes sense for items without data.
-/

namespace Nica.Hls

open Nica.Lib

variable {ι : Type} {f : ι → List AxiData} {items : List ι} {n : ℕ} {idle : Prop} {done : List AxiData}

/-- After `n` items, the beats `done` were read: none of a later item, and when the unit is idle, all of the `n`. -/
structure OwnData (f : ι → List AxiData) (items : List ι) (n : ℕ) (idle : Prop) (done : List AxiData) : Prop where
  within : done <+: (items.take n).flatMap f
  between : idle → done = (items.take n).flatMap f

/-- The unit is between two items, or in the middle of the data of the last one. -/
def Reading (f : ι → List AxiData) (items : List ι) (n : ℕ) (idle : Prop) (done : List AxiData) : Prop :=
  ∃ due, Owed f items n done due ∧ (idle → due = []) ∧ (¬idle → IsPacket due)

/-- What a call of such a unit reads: nothing, the next item if the unit is idle, or a beat if it is not. -/
def ReadingCall {α : Type} (idle idle' : Prop) (item : Option α) (beat : Option AxiData) (readItem readBeat : Bool) :
    Prop :=
  (readItem = false ∧ readBeat = false ∧ (idle' ↔ idle)) ∨
    (∃ m, item = some m ∧ idle ∧ readItem = true ∧ readBeat = false ∧ ¬idle') ∨
    ∃ d, beat = some d ∧ ¬idle ∧ readItem = false ∧ readBeat = true ∧ (idle' ↔ d.last = true)

namespace Reading

theorem zero (f : ι → List AxiData) (items : List ι) (hidle : idle) : Reading f items 0 idle [] :=
  ⟨[], .zero _ _, fun _ => rfl, fun h => absurd hidle h⟩

theorem ownData (h : Reading f items n idle done) : OwnData f items n idle done := by
  obtain ⟨due, howed, hidle, -⟩ := h
  refine ⟨⟨due, howed⟩, fun hi => ?_⟩
  rw [hidle hi] at howed
  exact (List.append_nil _).symm.trans howed

/-- Only the register that tells whether the unit is idle matters. -/
theorem congr {idle' : Prop} (h : Reading f items n idle done) (hidle : idle' ↔ idle) : Reading f items n idle' done := by
  obtain ⟨due, howed, hdue, hpacket⟩ := h
  exact ⟨due, howed, fun hi => hdue (hidle.mp hi), fun hi => hpacket fun hi' => hi (hidle.mpr hi')⟩

/-- The next item. -/
theorem start {idle' : Prop} (h : Reading f items n idle done) (hidle : idle) {i : ι} (hi : items[n]? = some i)
    (hpacket : IsPacket (f i)) (hidle' : ¬idle') : Reading f items (n + 1) idle' done := by
  obtain ⟨due, howed, hdue, -⟩ := h
  rw [hdue hidle] at howed
  exact ⟨f i, howed.start hi, fun h => absurd h hidle', fun _ => hpacket⟩

/-- The next beat. -/
theorem read {idle' : Prop} {beats : Fifo AxiData} {d : AxiData} (h : Reading f items n idle beats.past) (hidle : ¬idle)
    (hbeats : beats.sent <+: items.flatMap f) (hd : beats.head = some d) (hidle' : idle' ↔ d.last = true) :
    Reading f items n idle' (beats.readIf true).past := by
  obtain ⟨due, howed, -, hpacket⟩ := h
  obtain ⟨y, due, rfl⟩ := List.exists_cons_of_ne_nil (hpacket hidle).ne_nil
  obtain rfl := howed.head_eq hbeats hd
  obtain ⟨hend, hmore⟩ := isPacket_cons (hpacket hidle)
  rw [beats.past_readIf_true hd]
  refine ⟨due, howed.advance, fun hi => hend (hidle'.mp hi), fun hi => hmore ?_⟩
  rw [← Bool.not_eq_true]
  exact fun hl => hi (hidle'.mpr hl)

theorem call {α : Type} {idle' : Prop} {metas : Fifo α} {data : Fifo AxiData} {readMeta readData : Bool}
    (h : Reading f items metas.past.length idle data.past) (hpackets : ∀ i ∈ items, IsPacket (f i))
    (hmetas : metas.sent.length ≤ items.length) (hdata : data.sent <+: items.flatMap f)
    (hcall : ReadingCall idle idle' metas.head data.head readMeta readData) :
    Reading f items (metas.readIf readMeta).past.length idle' (data.readIf readData).past := by
  rcases hcall with ⟨rfl, rfl, hidle'⟩ | ⟨m, hm, hidle, rfl, rfl, hidle'⟩ | ⟨d, hd, hidle, rfl, rfl, hidle'⟩
  · exact h.congr hidle'
  · have hlt : metas.past.length < items.length := by
      have hle := (metas.past_snoc_prefix_sent hm).length_le
      rw [List.length_append, List.length_singleton] at hle
      omega
    rw [metas.length_past_readIf_true hm]
    exact h.start hidle (List.getElem?_eq_getElem hlt) (hpackets _ (List.getElem_mem hlt)) hidle'
  · exact h.read hidle hdata hd hidle'

/-- Items may be added at the end. -/
theorem extend (h : Reading f items n idle done) (hn : n ≤ items.length) (more : List ι) :
    Reading f (items ++ more) n idle done := by
  obtain ⟨due, howed, hdue, hpacket⟩ := h
  exact ⟨due, howed.extend hn more, hdue, hpacket⟩

end Reading

/-! ### Packets -/

/-- No packet is without data. -/
def NoneEmpty (packets : List Packet) : Prop := ∀ p ∈ packets, p.metadata.emptyPacket = false

theorem NoneEmpty.isPacket {packets : List Packet} (h : NoneEmpty packets) : ∀ p ∈ packets, IsPacket p.beats :=
  fun p hp => p.isPacket_beats (h p hp)

/-- The packet whose metadata is at the head of a stream. -/
theorem exists_packet {packets : List Packet} {f : Fifo Metadata} {m : Metadata}
    (hsent : f.sent <+: packets.map Packet.metadata) (hm : f.head = some m) :
    ∃ p, packets[f.past.length]? = some p ∧ p.metadata = m :=
  exists_item ((f.past_snoc_prefix_sent hm).trans hsent)

/-! ### `drop_or_pass` -/

/-- `STREAM` reads the next beat of the item that was decided. -/
theorem Reading.stream {u : DropOrPass} {data : Fifo AxiData} (h : Reading f items n (u.state = .decision) data.past)
    (hu : u.state = .stream) (hdata : data.sent <+: items.flatMap f) :
    Reading f items n ((u.stream data.head).1.state = .decision) (data.readIf (u.stream data.head).2.readData).past := by
  cases hd : data.head with
  | none => exact h
  | some d =>
    refine h.read (by rw [hu]; decide) hdata hd ?_
    simp only [DropOrPass.stream, hu]
    cases d.last <;> decide

/-- `filter` reads the data of an item for each decision. -/
theorem Reading.filter {u : DropOrPass} {decisions : Fifo Bool} {data : Fifo AxiData}
    (h : Reading f items decisions.past.length (u.state = .decision) data.past)
    (hpackets : ∀ i ∈ items, IsPacket (f i)) (hdecisions : decisions.sent.length ≤ items.length)
    (hdata : data.sent <+: items.flatMap f) :
    Reading f items (decisions.readIf (u.filter decisions.head data.head).2.readDecision).past.length
      ((u.filter decisions.head data.head).1.state = .decision)
      (data.readIf (u.filter decisions.head data.head).2.readData).past := by
  cases hu : u.state with
  | stream =>
    have hfilter : u.filter decisions.head data.head = u.stream data.head := by
      unfold DropOrPass.filter
      rw [hu]
    have hkeep : (u.stream data.head).2.readDecision = false := by
      unfold DropOrPass.stream
      split <;> rfl
    rw [hfilter, hkeep]
    exact h.stream hu hdata
  | decision =>
    cases hc : decisions.head with
    | none =>
      simp only [DropOrPass.filter, hu]
      exact h.congr (by simp only [hu])
    | some pass =>
      have hlt : decisions.past.length < items.length := by
        have hle := (decisions.past_snoc_prefix_sent hc).length_le
        rw [List.length_append, List.length_singleton] at hle
        omega
      have hstart : Reading f items (decisions.past.length + 1)
          ((⟨.stream, pass⟩ : DropOrPass).state = .decision) data.past :=
        h.start hu (List.getElem?_eq_getElem hlt) (hpackets _ (List.getElem_mem hlt))
          (fun h => by cases h)
      simp only [DropOrPass.filter, hu]
      rw [decisions.length_past_readIf_true hc]
      exact hstart.stream rfl hdata

/-- What is left of an item by its decision. -/
def passedData (f : ι → List AxiData) (pass : ι → Bool) (i : ι) : List AxiData := if pass i then f i else []

/-- After `n` decisions, `filter` has read the beats `done` and written `output`. -/
def Filtering (f : ι → List AxiData) (pass : ι → Bool) (items : List ι) (n : ℕ) (u : DropOrPass)
    (done output : List AxiData) : Prop :=
  ∃ due, Owed f items n done due ∧ (u.state = .decision → due = []) ∧ (u.state = .stream → IsPacket due) ∧
    Owed (passedData f pass) items n output (if u.pass then due else [])

section Filtering

variable {pass : ι → Bool} {u : DropOrPass} {output : List AxiData}

theorem Filtering.zero (f : ι → List AxiData) (pass : ι → Bool) (items : List ι) :
    Filtering f pass items 0 .init [] [] :=
  ⟨[], .zero _ _, fun _ => rfl, fun h => (by cases h), .zero _ _⟩

theorem Filtering.extend (h : Filtering f pass items n u done output) (hn : n ≤ items.length) (more : List ι) :
    Filtering f pass (items ++ more) n u done output := by
  obtain ⟨due, howed, hidle, hpacket, hout⟩ := h
  exact ⟨due, howed.extend hn more, hidle, hpacket, hout.extend hn more⟩

/-- `STREAM` copies the next beat of the item, or leaves it out. -/
theorem Filtering.stream {data : Fifo AxiData} (h : Filtering f pass items n u data.past output)
    (hu : u.state = .stream) (hdata : data.sent <+: items.flatMap f) :
    Filtering f pass items n (u.stream data.head).1 (data.readIf (u.stream data.head).2.readData).past
      (output ++ (u.stream data.head).2.data.toList) := by
  cases hd : data.head with
  | none =>
    simp only [DropOrPass.stream, Option.toList_none, List.append_nil, Fifo.past_readIf_false]
    exact h
  | some d =>
    obtain ⟨due, howed, -, hpacket, hout⟩ := h
    obtain ⟨y, due, rfl⟩ := List.exists_cons_of_ne_nil (hpacket hu).ne_nil
    obtain rfl := howed.head_eq hdata hd
    obtain ⟨hend, hmore⟩ := isPacket_cons (hpacket hu)
    simp only [DropOrPass.stream]
    rw [data.past_readIf_true hd]
    refine ⟨due, howed.advance, ?_, ?_, ?_⟩
    · intro hnext
      apply hend
      by_contra hl
      simp only [hl, hu] at hnext
      cases hnext
    · intro hnext
      apply hmore
      rw [← Bool.not_eq_true]
      intro hl
      simp only [hl, if_true] at hnext
      cases hnext
    · dsimp only
      cases hp : u.pass with
      | false =>
        simp only [hp, Bool.false_eq_true, if_false, Option.toList_none, List.append_nil] at hout ⊢
        exact hout
      | true =>
        simp only [hp, if_true, Option.toList_some] at hout ⊢
        exact hout.advance

/-- `filter` writes the data of the items that pass. -/
theorem Filtering.filter {decisions : Fifo Bool} {data : Fifo AxiData}
    (h : Filtering f pass items decisions.past.length u data.past output)
    (hpackets : ∀ i ∈ items, IsPacket (f i)) (hdecisions : decisions.sent <+: items.map pass)
    (hdata : data.sent <+: items.flatMap f) :
    Filtering f pass items (decisions.readIf (u.filter decisions.head data.head).2.readDecision).past.length
      (u.filter decisions.head data.head).1 (data.readIf (u.filter decisions.head data.head).2.readData).past
      (output ++ (u.filter decisions.head data.head).2.data.toList) := by
  cases hu : u.state with
  | stream =>
    have hfilter : u.filter decisions.head data.head = u.stream data.head := by
      unfold DropOrPass.filter
      rw [hu]
    have hkeep : (u.stream data.head).2.readDecision = false := by
      unfold DropOrPass.stream
      split <;> rfl
    rw [hfilter, hkeep]
    exact h.stream hu hdata
  | decision =>
    cases hc : decisions.head with
    | none =>
      simp only [DropOrPass.filter, hu, Option.toList_none, List.append_nil, Fifo.past_readIf_false]
      exact h
    | some p =>
      obtain ⟨i, hi, rfl⟩ := exists_item ((decisions.past_snoc_prefix_sent hc).trans hdecisions)
      obtain ⟨due, howed, hidle, -, hout⟩ := h
      obtain rfl := hidle hu
      rw [ite_self] at hout
      have hstart : Filtering f pass items (decisions.past.length + 1) ⟨.stream, pass i⟩ data.past output :=
        ⟨f i, howed.start hi, fun h => (by cases h), fun _ => hpackets i (List.mem_of_getElem? hi), hout.start hi⟩
      simp only [DropOrPass.filter, hu]
      rw [decisions.length_past_readIf_true hc]
      exact hstart.stream rfl hdata

end Filtering

end Nica.Hls
