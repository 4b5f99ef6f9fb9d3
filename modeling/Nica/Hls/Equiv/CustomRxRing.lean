import Nica.Hls.CustomRxRing
import Nica.Hls.Equiv.Merger
import Nica.Lib.Owed
import Mathlib.Data.List.Forall2

/-!
# What the custom ring unit sends

For a packet of a ring the unit sends a header of 12 bytes, the data and a trailer of 4 bytes.  It never adds a byte
of padding, but `gen_bth` counts the bytes that are missing to a multiple of four, in the header and in the length.
So a packet with data leaves as it should exactly when its length is a multiple of four and leaves room for header
and trailer (`encapsulated_iff`).  An empty packet of a ring is announced to `push_icrc` as a packet without data,
though the header is there.

Where all packets of rings are as they should be, the unit sends one after the other, whatever the stalls and the
commands of the gateway (`encapsulates_run`).
-/

namespace Nica.Hls.CustomRxRing

open Nica.Lib
open Nica.Hls.Udp (leadingKeep keptOf kept keptOf_leadingKeep)

/-! ### What has to be sent -/

/-- The queue pair number in the bytes of a header. -/
def qpnOf (bth : List (BitVec 8)) : BitVec 24 := bth.getD 5 0 ++ bth.getD 6 0 ++ bth.getD 7 0

/-- The packet sequence number. -/
def psnOf (bth : List (BitVec 8)) : BitVec 24 := bth.getD 9 0 ++ bth.getD 10 0 ++ bth.getD 11 0

/-- The pad count. -/
def padCountOf (bth : List (BitVec 8)) : BitVec 2 := (bth.getD 1 0).extractLsb' 4 2

/-- A packet that leaves the unit, with the context of its ring and the number of packets on the ring before. -/
structure Emission where
  served : Served
  metadata : Metadata
  beats : List AxiData

/-- A packet of a ring as it has to leave: addressed as the context says, between the header and the trailer, with
the pad bytes that the header counts, and with its number of bytes as its length. -/
structure Encapsulated (k : Packet) (e : Emission) : Prop where
  ethDst : (getPacketMetadata e.metadata).ethDst = e.served.context.ethDst
  ipDst : (getPacketMetadata e.metadata).ipDst = e.served.context.ipDst
  isPacket : IsPacket e.beats
  bytes : ∃ bth pad trailer, kept e.beats = bth ++ kept k.beats ++ pad ++ trailer ∧ bth.length = ibBthBytes ∧
    trailer.length = 4 ∧ qpnOf bth = e.served.context.destQpn ∧
    psnOf bth = e.served.context.psn + BitVec.ofNat 24 e.served.earlier ∧ (padCountOf bth).toNat = pad.length
  length : e.metadata.length.toNat = (kept e.beats).length

/-- A packet as it has to leave. -/
def Emitted (k : Packet) (e : Emission) : Prop :=
  if k.metadata.ringId = 0 then e.metadata = k.metadata ∧ e.beats = k.beats else Encapsulated k e

/-- The length of a packet is the number of bytes of its data, which are packed. -/
structure Counted (k : Packet) : Prop where
  packed : k.beats = [] ∨ Packed k.beats
  length : (kept k.beats).length = k.metadata.length.toNat

/-- A packet of a ring that needs no padding and leaves room for the header and the trailer in its length. -/
structure Aligned (k : Packet) : Prop where
  nonempty : k.metadata.emptyPacket = false
  multiple : k.metadata.length.toNat % 4 = 0
  fits : k.metadata.length.toNat ≤ 65516

/-! ### The bytes of the header -/

theorem extract_bthData (context : RingContext) (pad : BitVec 2) :
    (bthData context pad).extractLsb' 240 8 = pad.setWidth 8 <<< 4 ∧
    (bthData context pad).extractLsb' 192 24 = context.destQpn ∧
    (bthData context pad).extractLsb' 160 24 = context.psn := by
  unfold bthData
  refine ⟨?_, ?_, ?_⟩
  · rw [BitVec.extractLsb'_append_eq_of_le (by decide), BitVec.extractLsb'_append_eq_of_le (by decide),
      BitVec.extractLsb'_append_eq_of_le (by decide), BitVec.extractLsb'_append_eq_of_le (by decide),
      BitVec.extractLsb'_append_eq_of_le (by decide)]
    exact BitVec.extractLsb'_append_eq_right
  · rw [BitVec.extractLsb'_append_eq_of_le (by decide), BitVec.extractLsb'_append_eq_of_le (by decide)]
    exact BitVec.extractLsb'_append_eq_right
  · rw [BitVec.extractLsb'_append_eq_of_le (by decide), BitVec.extractLsb'_append_eq_of_add_le (by decide)]
    ext i hi
    have h32 : i < 32 := by omega
    simp [h32, BitVec.getLsbD_eq_getElem hi]

/-- Three bytes of a word in a row. -/
theorem three_bytesOf (d : BitVec 256) {i : ℕ} (hi : i + 2 < 12) :
    ((bytesOf d).take 12).getD i 0 ++ ((bytesOf d).take 12).getD (i + 1) 0 ++ ((bytesOf d).take 12).getD (i + 2) 0 =
      d.extractLsb' (8 * (29 - i)) 24 := by
  have hget : ∀ j < 12, ((bytesOf d).take 12).getD j 0 = d.extractLsb' (8 * (31 - j)) 8 := by
    intro j hj
    have hlen : j < ((bytesOf d).take 12).length := by
      rw [List.length_take, length_bytesOf]
      omega
    rw [List.getD_eq_getElem?_getD, List.getElem?_eq_getElem hlen, Option.getD_some, List.getElem_take,
      getElem_bytesOf]
  rw [hget i (by omega), hget (i + 1) (by omega), hget (i + 2) (by omega),
    BitVec.extractLsb'_append_extractLsb'_eq_extractLsb' (by omega),
    BitVec.extractLsb'_append_extractLsb'_eq_extractLsb' (by omega)]
  congr 1
  omega

/-- The bytes of the header. -/
theorem bytes_bthData (context : RingContext) (pad : BitVec 2) :
    qpnOf ((bytesOf (bthData context pad)).take 12) = context.destQpn ∧
    psnOf ((bytesOf (bthData context pad)).take 12) = context.psn ∧
    padCountOf ((bytesOf (bthData context pad)).take 12) = pad := by
  obtain ⟨hflags, hqpn, hpsn⟩ := extract_bthData context pad
  refine ⟨(three_bytesOf _ (i := 5) (by decide)).trans hqpn, (three_bytesOf _ (i := 9) (by decide)).trans hpsn, ?_⟩
  have hlen : 1 < ((bytesOf (bthData context pad)).take 12).length := by
    rw [List.length_take, length_bytesOf]
    decide
  rw [padCountOf, List.getD_eq_getElem?_getD, List.getElem?_eq_getElem hlen, Option.getD_some, List.getElem_take,
    getElem_bytesOf, hflags]
  have hbits : ∀ p : BitVec 2, (p.setWidth 8 <<< 4).extractLsb' 4 2 = p := by decide
  exact hbits pad

/-- The number of bytes that are missing to a multiple of four. -/
theorem toNat_padCount (len : BitVec 16) : (padCount len).toNat = (4 - len.toNat % 4) % 4 := by
  rw [padCount, BitVec.toNat_setWidth, BitVec.toNat_neg]
  have := len.isLt
  omega

/-! ### One packet -/

/-- The context from which the header is made: every packet has moved the sequence number on by one. -/
def Served.now (v : Served) : RingContext := { v.context with psn := v.context.psn + BitVec.ofNat 24 v.earlier }

/-- The header of a packet, if it gets one. -/
def bthOf (keepBytes : ℕ → BitVec 32) (m : Metadata) (v : Served) : List AxiData :=
  if m.ringId = 0 then [] else [(genBth keepBytes v.now m.length).1]

/-- The trailer of a packet, if it gets one. -/
def icrcOf (m : Metadata) : List (BitVec 32) := if m.ringId = 0 then [] else [0]

/-- What `push_bth` gets for a packet. -/
def bthJob (keepBytes : ℕ → BitVec 32) (k : Packet) (v : Served) : Merger.Job AxiData where
  enable := k.metadata.ringId ≠ 0
  empty := k.metadata.emptyPacket
  extra := bthOf keepBytes k.metadata v
  data := k.beats

/-- What `push_icrc` gets for a packet. -/
def icrcJob (keepBytes : ℕ → BitVec 32) (merge : Merger.Job AxiData → List AxiData) (k : Packet) (v : Served) :
    Merger.Job (BitVec 32) where
  enable := k.metadata.ringId ≠ 0
  empty := k.metadata.emptyPacket
  extra := icrcOf k.metadata
  data := merge (bthJob keepBytes k v)

/-- The metadata that is sent for a packet, with some source address if it is for a ring. -/
def HeaderOf (m : Metadata) (v : Served) (m' : Metadata) : Prop :=
  if m.ringId = 0 then m' = m
  else ∃ source, m' = ringMetadata source v.context (m.length + (padCount m.length).setWidth 16) m

variable {B : Merger AxiData} {C : Merger (BitVec 32)} {keepBytes : ℕ → BitVec 32}
  {mergeBth : Merger.Job AxiData → List AxiData} {mergeIcrc : Merger.Job (BitVec 32) → List AxiData}
  {k : Packet} {v : Served}

theorem framed_bthJob (keepBytes : ℕ → BitVec 32) (k : Packet) (v : Served) :
    (bthJob keepBytes k v).Framed IsPacket where
  extra := by
    by_cases hring : k.metadata.ringId = 0
    · simp [bthJob, bthOf, hring]
    · simp only [bthJob, bthOf, hring, ne_eq, not_false_eq_true, decide_true, if_true, if_false]
      exact ⟨[], _, rfl, rfl, by simp⟩
  data := k.framed

theorem framed_icrcJob (hB : B.Concatenates IsPacket mergeBth) (hring : k.metadata.ringId ≠ 0)
    (hdata : k.metadata.emptyPacket = false) : (icrcJob keepBytes mergeBth k v).Framed (·.length = 1) where
  extra := by
    have henable : (icrcJob keepBytes mergeBth k v).enable = true := decide_eq_true hring
    rw [henable, if_pos rfl]
    show (icrcOf k.metadata).length = 1
    rw [icrcOf, if_neg hring]
    rfl
  data := by
    have hempty : (icrcJob keepBytes mergeBth k v).empty = false := hdata
    rw [hempty, if_neg Bool.false_ne_true]
    exact hB.isPacket_merge _ (framed_bthJob keepBytes k v) (decide_eq_true hring)

/-- The bytes of the header of a packet. -/
def headerBytes (k : Packet) (v : Served) : List (BitVec 8) :=
  (bytesOf (bthData v.now (padCount k.metadata.length))).take 12

theorem length_headerBytes (k : Packet) (v : Served) : (headerBytes k v).length = 12 := by
  rw [headerBytes, List.length_take, length_bytesOf]
  rfl

/-- The bytes that are sent for a packet of a ring: nothing stands between the data and the trailer. -/
theorem kept_sent (hB : B.Concatenates IsPacket mergeBth) (hpushB : PushesHeader mergeBth)
    (hpushC : PushesSuffix mergeIcrc) (hkeep : keepBytes 12 = leadingKeep 12) (hring : k.metadata.ringId ≠ 0)
    (hdata : k.metadata.emptyPacket = false) (hpacked : k.beats = [] ∨ Packed k.beats) :
    kept (mergeIcrc (icrcJob keepBytes mergeBth k v)) = headerBytes k v ++ kept k.beats ++ trailerBytes 0 := by
  have henable : (bthJob keepBytes k v).enable = true := decide_eq_true hring
  have hextra : (bthJob keepBytes k v).extra =
      [⟨bthData v.now (padCount k.metadata.length), leadingKeep 12, true⟩] := by
    rw [← hkeep]
    exact if_neg hring
  have hbth : kept (bthJob keepBytes k v).extra = headerBytes k v := by
    rw [hextra, kept, List.flatMap_singleton]
    exact keptOf_leadingKeep (by decide) rfl
  have hmerged := hpushB _ (framed_bthJob keepBytes k v) henable
    (by rw [hextra]; exact ⟨[], _, 12, rfl, by simp, rfl, by decide, by decide⟩) hpacked
  have hsent := (hpushC _ (framed_icrcJob hB hring hdata) (decide_eq_true hring) (.inr hmerged.1)).2
  have htrailer : (icrcJob keepBytes mergeBth k v).extra.flatMap trailerBytes = trailerBytes 0 := by
    show (icrcOf k.metadata).flatMap trailerBytes = trailerBytes 0
    rw [icrcOf, if_neg hring, List.flatMap_singleton]
  rw [hsent, htrailer]
  show kept (mergeBth (bthJob keepBytes k v)) ++ _ = _
  rw [hmerged.2, hbth]
  rfl

/-- A packet of a ring that has data leaves as it should exactly if it needs no padding and its length has room. -/
theorem encapsulated_iff (hB : B.Concatenates IsPacket mergeBth) (hpushB : PushesHeader mergeBth)
    (hC : C.Concatenates (·.length = 1) mergeIcrc) (hpushC : PushesSuffix mergeIcrc)
    (hkeep : keepBytes 12 = leadingKeep 12) (hring : k.metadata.ringId ≠ 0)
    (hdata : k.metadata.emptyPacket = false) (hcount : Counted k) {m : Metadata} (hm : HeaderOf k.metadata v m) :
    Encapsulated k ⟨v, m, mergeIcrc (icrcJob keepBytes mergeBth k v)⟩ ↔ Aligned k := by
  have hkept := kept_sent hB hpushB hpushC hkeep hring hdata hcount.packed (v := v)
  obtain ⟨source, rfl⟩ : ∃ source, m = ringMetadata source v.context _ k.metadata := by
    rwa [HeaderOf, if_neg hring] at hm
  obtain ⟨hqpn, hpsn, hpad⟩ := bytes_bthData v.now (padCount k.metadata.length)
  have hpadNat := toNat_padCount k.metadata.length
  have hlen : (kept (mergeIcrc (icrcJob keepBytes mergeBth k v))).length = k.metadata.length.toNat + 16 := by
    rw [hkept, List.length_append, List.length_append, length_headerBytes, hcount.length]
    show 12 + k.metadata.length.toNat + 4 = _
    omega
  -- the length that is sent counts the missing bytes as well
  have hsum : (k.metadata.length + (padCount k.metadata.length).setWidth 16 +
      BitVec.ofNat 16 (ibBthBytes + 4)).toNat =
      (k.metadata.length.toNat + (padCount k.metadata.length).toNat + 16) % 65536 := by
    simp [BitVec.toNat_add, ibBthBytes]
  constructor
  · intro h
    obtain ⟨bth, pad, trailer, hbytes, hbth, htrailer, -, -, hcounted⟩ := h.bytes
    have htotal := congrArg List.length hbytes
    rw [hlen] at htotal
    simp only [List.length_append, hbth, htrailer, hcount.length, ibBthBytes] at htotal
    have hfirst : bth = headerBytes k v := by
      have heq := hbytes.symm.trans hkept
      rw [List.append_assoc, List.append_assoc, List.append_assoc] at heq
      exact (List.append_inj heq (hbth.trans (length_headerBytes k v).symm)).1
    have hzero : (padCount k.metadata.length).toNat = 0 := by
      rw [← hpad]
      show (padCountOf (headerBytes k v)).toNat = 0
      rw [← hfirst, hcounted]
      omega
    have hlength : (k.metadata.length + (padCount k.metadata.length).setWidth 16 +
        BitVec.ofNat 16 (ibBthBytes + 4)).toNat = k.metadata.length.toNat + 16 := h.length.trans hlen
    rw [hsum] at hlength
    exact ⟨hdata, by omega, by omega⟩
  · intro h
    have hzero : (padCount k.metadata.length).toNat = 0 := by
      rw [hpadNat, h.multiple]
    refine ⟨rfl, rfl, ?_, ⟨headerBytes k v, [], trailerBytes 0, ?_, length_headerBytes k v, rfl, hqpn, hpsn, ?_⟩, ?_⟩
    · exact hC.isPacket_merge _ (framed_icrcJob hB hring hdata) (decide_eq_true hring)
    · rw [List.append_nil]
      exact hkept
    · rw [← hpad] at hzero
      exact hzero
    · refine Eq.trans ?_ hlen.symm
      refine hsum.trans ?_
      have hfits := h.fits
      omega

/-! ### The invariant -/

/-- The units have done their part for the packets that were taken, up to what waits in the streams between them. -/
structure Inv (keepBytes : ℕ → BitVec 32) (s : State B C) : Prop where
  bthReachable : Reachable Merger.step (Merger.State.init B) s.bthMerger
  icrcReachable : Reachable Merger.step (Merger.State.init C) s.icrcMerger
  served : s.served.length = s.hdrIn.past.length
  contexts : ∀ slot, s.contexts slot = Served.now ⟨s.written slot, s.since slot⟩
  bths : s.bth.sent = (s.hdrIn.past.zip s.served).flatMap fun p => bthOf keepBytes p.1 p.2
  icrcs : s.icrc.sent = s.hdrIn.past.flatMap icrcOf
  headers : List.Forall₂ (fun p => HeaderOf p.1 p.2) (s.hdrIn.past.zip s.served) s.hdrOut.sent
  empties : s.emptyPacket.sent = s.hdrIn.past.map Metadata.emptyPacket
  enables : s.enableStream.sent = s.hdrIn.past.map fun m => decide (m.ringId ≠ 0)
  emptiesBth : s.emptyPacketBth.sent = s.emptyPacket.past
  emptiesIcrc : s.emptyPacketIcrc.sent = s.emptyPacket.past
  enablesBth : s.enableBth.sent = s.enableStream.past
  enablesIcrc : s.enableIcrc.sent = s.enableStream.past

theorem inv_init (keepBytes : ℕ → BitVec 32) (contexts : ℤ → RingContext) :
    Inv keepBytes (State.init B C contexts) where
  bthReachable := .refl _ _
  icrcReachable := .refl _ _
  served := rfl
  contexts := by
    intro slot
    simp [State.init, Served.now]
  bths := rfl
  icrcs := rfl
  headers := .nil
  empties := rfl
  enables := rfl
  emptiesBth := rfl
  emptiesIcrc := rfl
  enablesBth := rfl
  enablesIcrc := rfl

variable {s : State B C}

theorem inv_carryOut (h : Inv keepBytes s) (c : GatewayCommand) : Inv keepBytes (carryOut s c) := by
  cases c with
  | query => exact h
  | set slot context =>
    exact { h with
      contexts := by
        intro slot'
        show Function.update s.contexts slot context slot' =
          Served.now ⟨Function.update s.written slot context slot', Function.update s.since slot 0 slot'⟩
        by_cases hslot : slot' = slot
        · subst hslot
          simp [Served.now]
        · rw [Function.update_of_ne hslot, Function.update_of_ne hslot, Function.update_of_ne hslot]
          exact h.contexts slot' }

/-- A packet on a ring moves the sequence number of its context on by one. -/
theorem now_nextPacket (hcontexts : ∀ slot, s.contexts slot = Served.now ⟨s.written slot, s.since slot⟩)
    (ring : RingId) (slot : ℤ) :
    (nextPacket s.contexts ring).2 slot = Served.now
      ⟨s.written slot, Function.update s.since (ringIndex ring) (s.since (ringIndex ring) + 1) slot⟩ := by
  show Function.update s.contexts (ringIndex ring) _ slot = _
  by_cases hslot : slot = ringIndex ring
  · subst hslot
    rw [Function.update_self, Function.update_self, hcontexts]
    simp only [Served.now, RingContext.mk.injEq, true_and]
    rw [BitVec.add_assoc]
    congr 1
    simp [BitVec.ofNat_add]
  · rw [Function.update_of_ne hslot, Function.update_of_ne hslot]
    exact hcontexts slot

theorem inv_takeHdr (h : Inv keepBytes s) {m : Metadata} (hhead : s.hdrIn.head = some m) :
    Inv keepBytes (takeHdr keepBytes m s) := by
  have hpast := s.hdrIn.past_readIf_true hhead
  have hzip : (s.hdrIn.readIf true).past.zip
      (s.served ++ [⟨s.written (ringIndex m.ringId), s.since (ringIndex m.ringId)⟩]) =
      s.hdrIn.past.zip s.served ++ [(m, ⟨s.written (ringIndex m.ringId), s.since (ringIndex m.ringId)⟩)] := by
    rw [hpast, List.zip_append h.served.symm]
    rfl
  have hcontext := h.contexts (ringIndex m.ringId)
  exact {
    bthReachable := by
      have hfeed := Merger.reachable_feed h.bthReachable
        (if decide (m.ringId ≠ 0) then some (genBth keepBytes (s.contexts (ringIndex m.ringId)) m.length).1 else none)
        none none none false
      simp only [Fifo.put_none] at hfeed
      exact hfeed
    icrcReachable := by
      have hfeed := Merger.reachable_feed h.icrcReachable (if decide (m.ringId ≠ 0) then some 0 else none)
        none none none false
      simp only [Fifo.put_none] at hfeed
      exact hfeed
    served := by
      show (s.served ++ [_]).length = (s.hdrIn.readIf true).past.length
      rw [List.length_append, h.served, hpast, List.length_append]
      rfl
    contexts := by
      intro slot
      show (if decide (m.ringId ≠ 0) then (nextPacket s.contexts m.ringId).2 else s.contexts) slot =
        Served.now ⟨s.written slot, (if decide (m.ringId ≠ 0) then
          Function.update s.since (ringIndex m.ringId) (s.since (ringIndex m.ringId) + 1) else s.since) slot⟩
      by_cases hring : m.ringId = 0
      · rw [decide_eq_false (not_not_intro hring), if_neg Bool.false_ne_true, if_neg Bool.false_ne_true]
        exact h.contexts slot
      · rw [decide_eq_true hring, if_pos rfl, if_pos rfl]
        exact now_nextPacket h.contexts m.ringId slot
    bths := by
      show (s.bth.put (if decide (m.ringId ≠ 0) then
        some (genBth keepBytes (s.contexts (ringIndex m.ringId)) m.length).1 else none)).sent =
        ((s.hdrIn.readIf true).past.zip (s.served ++ [_])).flatMap _
      rw [hzip, Fifo.sent_put, h.bths, List.flatMap_append, List.flatMap_singleton, bthOf, ← hcontext]
      by_cases hring : m.ringId = 0
      · rw [decide_eq_false (not_not_intro hring), if_neg Bool.false_ne_true, if_pos hring]
        rfl
      · rw [decide_eq_true hring, if_pos rfl, if_neg hring]
        rfl
    icrcs := by
      show (s.icrc.put (if decide (m.ringId ≠ 0) then some 0 else none)).sent = (s.hdrIn.readIf true).past.flatMap icrcOf
      rw [hpast, Fifo.sent_put, h.icrcs, List.flatMap_append, List.flatMap_singleton, icrcOf]
      by_cases hring : m.ringId = 0
      · rw [decide_eq_false (not_not_intro hring), if_neg Bool.false_ne_true, if_pos hring]
        rfl
      · rw [decide_eq_true hring, if_pos rfl, if_neg hring]
        rfl
    headers := by
      show List.Forall₂ _ ((s.hdrIn.readIf true).past.zip (s.served ++ [_])) (s.hdrOut.write _).sent
      rw [hzip, Fifo.sent_write]
      refine List.rel_append h.headers (.cons ?_ .nil)
      show HeaderOf m ⟨s.written (ringIndex m.ringId), s.since (ringIndex m.ringId)⟩ _
      rw [HeaderOf]
      by_cases hring : m.ringId = 0
      · rw [if_pos hring, decide_eq_false (not_not_intro hring)]
        rfl
      · rw [if_neg hring, decide_eq_true hring]
        refine ⟨s.metadata, ?_⟩
        show ringMetadata s.metadata (s.contexts (ringIndex m.ringId)) _ m = _
        rw [hcontext]
        rfl
    empties := by
      show (s.emptyPacket.write _).sent = (s.hdrIn.readIf true).past.map _
      rw [hpast, Fifo.sent_write, h.empties, List.map_append]
      rfl
    enables := by
      show (s.enableStream.write _).sent = (s.hdrIn.readIf true).past.map _
      rw [hpast, Fifo.sent_write, h.enables, List.map_append]
      rfl
    emptiesBth := h.emptiesBth
    emptiesIcrc := h.emptiesIcrc
    enablesBth := h.enablesBth
    enablesIcrc := h.enablesIcrc }

theorem inv_ringHdrs (h : Inv keepBytes s) (command : Option GatewayCommand) (full : Bool) :
    Inv keepBytes (ringHdrs keepBytes command full s) := by
  have hupdate : Inv keepBytes (readUpdate s) := { h with }
  cases command with
  | some c => exact inv_carryOut hupdate c
  | none =>
    simp only [ringHdrs]
    cases hhead : (readUpdate s).hdrIn.head with
    | none =>
      simp only
      exact hupdate
    | some m =>
      simp only
      cases full with
      | true => exact hupdate
      | false => exact inv_takeHdr hupdate hhead

theorem inv_dupEnable (h : Inv keepBytes s) (full : Bool) : Inv keepBytes (dupEnable full s) := by
  have hpast := past_readIf_dup s.enableStream full
  exact { h with
    bthReachable := by
      have hfeed := Merger.reachable_feed h.bthReachable none none (dup full s.enableStream.head) none false
      simp only [Fifo.put_none] at hfeed
      exact hfeed
    icrcReachable := by
      have hfeed := Merger.reachable_feed h.icrcReachable none none (dup full s.enableStream.head) none false
      simp only [Fifo.put_none] at hfeed
      exact hfeed
    enables := (Fifo.sent_readIf _ _).trans h.enables
    enablesBth := by
      refine (Fifo.sent_put _ _).trans ?_
      rw [h.enablesBth]
      exact hpast.symm
    enablesIcrc := by
      refine (Fifo.sent_put _ _).trans ?_
      rw [h.enablesIcrc]
      exact hpast.symm }

theorem inv_dupEmpty (h : Inv keepBytes s) (full : Bool) : Inv keepBytes (dupEmpty full s) := by
  have hpast := past_readIf_dup s.emptyPacket full
  exact { h with
    bthReachable := by
      have hfeed := Merger.reachable_feed h.bthReachable none (dup full s.emptyPacket.head) none none false
      simp only [Fifo.put_none] at hfeed
      exact hfeed
    icrcReachable := by
      have hfeed := Merger.reachable_feed h.icrcReachable none (dup full s.emptyPacket.head) none none false
      simp only [Fifo.put_none] at hfeed
      exact hfeed
    empties := (Fifo.sent_readIf _ _).trans h.empties
    emptiesBth := by
      refine (Fifo.sent_put _ _).trans ?_
      rw [h.emptiesBth]
      exact hpast.symm
    emptiesIcrc := by
      refine (Fifo.sent_put _ _).trans ?_
      rw [h.emptiesIcrc]
      exact hpast.symm }

theorem inv_reorderBth (h : Inv keepBytes s) (full : Bool) : Inv keepBytes (reorderBth full s) := by
  exact { h with
    bthReachable := h.bthReachable.next (.reorder full)
    icrcReachable := by
      have hfeed := Merger.reachable_feed h.icrcReachable none none none
        (B.reorder s.pushBth s.bth.head s.emptyPacketBth.head s.enableBth.head s.dataIn.head full).2.out false
      simp only [Fifo.put_none] at hfeed
      exact hfeed
    bths := (Fifo.sent_readIf _ _).trans h.bths
    emptiesBth := (Fifo.sent_readIf _ _).trans h.emptiesBth
    enablesBth := (Fifo.sent_readIf _ _).trans h.enablesBth }

theorem inv_reorderIcrc (h : Inv keepBytes s) (full : Bool) : Inv keepBytes (reorderIcrc full s) := by
  exact { h with
    bthReachable := by
      have hfeed := Merger.reachable_feed h.bthReachable none none none none
        (C.reorder s.pushIcrc s.icrc.head s.emptyPacketIcrc.head s.enableIcrc.head s.dataBthToIcrc.head full).2.readData
      simp only [Fifo.put_none] at hfeed
      exact hfeed
    icrcReachable := h.icrcReachable.next (.reorder full)
    icrcs := (Fifo.sent_readIf _ _).trans h.icrcs
    emptiesIcrc := (Fifo.sent_readIf _ _).trans h.emptiesIcrc
    enablesIcrc := (Fifo.sent_readIf _ _).trans h.enablesIcrc }

theorem inv_step (h : Inv keepBytes s) (a : Act) : Inv keepBytes (step keepBytes s a) := by
  cases a with
  | call c =>
    cases c with
    | ringHdrs command full => exact inv_ringHdrs h command full
    | dupEnable full => exact inv_dupEnable h full
    | dupEmpty full => exact inv_dupEmpty h full
    | reorderBth full => exact inv_reorderBth h full
    | reorderIcrc full => exact inv_reorderIcrc h full
  | arriveHdr m => exact { h with }
  | arriveData b => exact { h with bthReachable := h.bthReachable.next (.data b) }
  | updateMetadata p => exact { h with }

theorem inv_run (contexts : ℤ → RingContext) (acts : List Act) :
    Inv keepBytes (run (step keepBytes) (State.init B C contexts) acts) :=
  run_invariant (P := Inv keepBytes) (fun _ a h => inv_step h a) acts _ (inv_init keepBytes contexts)

/-! ### Runs -/

/-- What arrived is a prefix of the packets, metadata and data separately. -/
def Delivers (ps : List Packet) (s : State B C) : Prop :=
  s.hdrIn.sent <+: ps.map Packet.metadata ∧ s.dataIn.sent <+: ps.flatMap Packet.beats

/-- No unit can move before something arrives. -/
def Settled (keepBytes : ℕ → BitVec 32) (s : State B C) : Prop :=
  ringHdrs keepBytes none false s = s ∧ dupEnable false s = s ∧ dupEmpty false s = s ∧ reorderBth false s = s ∧
    reorderIcrc false s = s

/-- Everything has arrived, and no unit can move. -/
structure Finished (keepBytes : ℕ → BitVec 32) (ps : List Packet) (s : State B C) : Prop where
  settled : Settled keepBytes s
  metas : s.hdrIn.sent = ps.map Packet.metadata
  data : s.dataIn.sent = ps.flatMap Packet.beats

/-- The unit sends the packets as they have to leave, one after the other, and all of them if nothing stops it. -/
def Encapsulates (keepBytes : ℕ → BitVec 32) (ps : List Packet) (s : State B C) : Prop :=
  ∃ es : List Emission, List.Forall₂ Emitted ps es ∧ s.served <+: es.map Emission.served ∧
    s.hdrOut.sent <+: es.map Emission.metadata ∧ s.dataOut.sent <+: es.flatMap Emission.beats ∧
    (Finished keepBytes ps s →
      s.hdrOut.sent = es.map Emission.metadata ∧ s.dataOut.sent = es.flatMap Emission.beats)

/-- The packets with their contexts: those that were taken with the ones they were given. -/
structure Matches (ps : List Packet) (items : List (Packet × Served)) (s : State B C) : Prop where
  packets : items.map Prod.fst = ps
  past : s.hdrIn.past = (items.take s.served.length).map fun p => p.1.metadata
  served : s.served = (items.take s.served.length).map Prod.snd

theorem exists_matches {ps : List Packet} (h : Inv keepBytes s) (hdel : Delivers ps s) :
    ∃ items, Matches ps items s := by
  have hpast : s.hdrIn.past <+: ps.map Packet.metadata := s.hdrIn.past_prefix_sent.trans hdel.1
  have hle : s.served.length ≤ ps.length := by
    rw [h.served]
    exact hpast.length_le.trans_eq (List.length_map _)
  -- the contexts of the packets that were not taken yet do not matter
  obtain ⟨more, hmore⟩ : ∃ more : List Served, (s.served ++ more).length = ps.length := by
    refine ⟨List.replicate (ps.length - s.served.length) ⟨⟨0, 0, 0, 0⟩, 0⟩, ?_⟩
    rw [List.length_append, List.length_replicate]
    omega
  refine ⟨ps.zip (s.served ++ more), List.map_fst_zip hmore.ge, ?_, ?_⟩
  · have hmap : (ps.zip (s.served ++ more)).map (fun p => p.1.metadata) = ps.map Packet.metadata := by
      rw [← List.map_fst_zip hmore.ge, List.map_map, List.map_fst_zip hmore.ge]
      rfl
    rw [List.map_take, hmap, h.served]
    exact List.prefix_iff_eq_take.mp hpast
  · rw [List.map_take, List.map_snd_zip hmore.le]
    exact List.take_left.symm

variable {ps : List Packet} {items : List (Packet × Served)}

namespace Matches

theorem zip_eq (hm : Matches ps items s) :
    s.hdrIn.past.zip s.served = (items.take s.served.length).map fun p => (p.1.metadata, p.2) := by
  refine Eq.trans ?_ List.zip_map'
  rw [← hm.past, ← hm.served]

/-- The headers that were sent are those of the packets that were taken. -/
theorem headers (hm : Matches ps items s) (h : Inv keepBytes s) :
    List.Forall₂ (fun p => HeaderOf p.1.metadata p.2) (items.take s.served.length) s.hdrOut.sent := by
  have hall := h.headers
  rw [hm.zip_eq, List.forall₂_map_left_iff] at hall
  exact hall

theorem flatMap_beats (hm : Matches ps items s) : ps.flatMap Packet.beats = items.flatMap fun p => p.1.beats := by
  rw [← hm.packets, List.flatMap_map]

/-- What has arrived at `push_bth` belongs to the packets. -/
theorem delivers_bth (hm : Matches ps items s) (h : Inv keepBytes s) (hdel : Delivers ps s) :
    Merger.Delivers (items.map fun p => bthJob keepBytes p.1 p.2) s.bthMerger where
  extra := by
    show s.bth.sent <+: _
    rw [h.bths, hm.zip_eq, List.flatMap_map, List.flatMap_map]
    exact (List.take_prefix _ _).flatMap _
  empty := by
    show s.emptyPacketBth.sent <+: _
    rw [h.emptiesBth, List.map_map]
    refine s.emptyPacket.past_prefix_sent.trans ?_
    rw [h.empties, hm.past, List.map_map]
    exact (List.take_prefix _ _).map _
  enable := by
    show s.enableBth.sent <+: _
    rw [h.enablesBth, List.map_map]
    refine s.enableStream.past_prefix_sent.trans ?_
    rw [h.enables, hm.past, List.map_map]
    exact (List.take_prefix _ _).map _
  data := by
    rw [List.flatMap_map]
    exact hdel.2.trans (hm.flatMap_beats ▸ List.prefix_refl _)

end Matches

/-- A packet that is not for a ring goes through both mergers. -/
theorem sent_of_ringId_eq_zero (hB : B.Concatenates IsPacket mergeBth) (hC : C.Concatenates (·.length = 1) mergeIcrc)
    (hring : k.metadata.ringId = 0) : mergeIcrc (icrcJob keepBytes mergeBth k v) = k.beats := by
  have henable : decide (k.metadata.ringId ≠ 0) = false := decide_eq_false (not_not_intro hring)
  rw [hC.merge_of_disabled _ henable]
  exact hB.merge_of_disabled _ henable

theorem framed_icrcJob_of_nonempty (hB : B.Concatenates IsPacket mergeBth)
    (hdata : k.metadata.ringId ≠ 0 → k.metadata.emptyPacket = false) :
    (icrcJob keepBytes mergeBth k v).Framed (·.length = 1) := by
  by_cases hring : k.metadata.ringId = 0
  · have henable : decide (k.metadata.ringId ≠ 0) = false := decide_eq_false (not_not_intro hring)
    refine ⟨?_, ?_⟩
    · rw [icrcJob, henable, if_neg Bool.false_ne_true]
      exact if_pos hring
    · show if k.metadata.emptyPacket then mergeBth (bthJob keepBytes k v) = [] else IsPacket (mergeBth (bthJob keepBytes k v))
      rw [hB.merge_of_disabled _ henable]
      exact k.framed
  · exact framed_icrcJob hB hring (hdata hring)

section Contract

variable (hB : B.Concatenates IsPacket mergeBth) (hC : C.Concatenates (·.length = 1) mergeIcrc)
  (hdata : ∀ k ∈ ps, k.metadata.ringId ≠ 0 → k.metadata.emptyPacket = false)

theorem framed_bthJobs (keepBytes : ℕ → BitVec 32) (items : List (Packet × Served)) :
    ∀ j ∈ items.map fun p => bthJob keepBytes p.1 p.2, j.Framed IsPacket := by
  intro j hj
  obtain ⟨p, -, rfl⟩ := List.mem_map.mp hj
  exact framed_bthJob keepBytes p.1 p.2

include hB hdata in
theorem Matches.framed_icrcJobs (hm : Matches ps items s) (keepBytes : ℕ → BitVec 32) :
    ∀ j ∈ items.map fun p => icrcJob keepBytes mergeBth p.1 p.2, j.Framed (·.length = 1) := by
  intro j hj
  obtain ⟨p, hp, rfl⟩ := List.mem_map.mp hj
  refine framed_icrcJob_of_nonempty hB (hdata p.1 ?_)
  rw [← hm.packets]
  exact List.mem_map_of_mem hp

include hB in
/-- What has arrived at `push_icrc` belongs to the packets. -/
theorem Matches.delivers_icrc (hm : Matches ps items s) (h : Inv keepBytes s) (hdel : Delivers ps s) :
    Merger.Delivers (items.map fun p => icrcJob keepBytes mergeBth p.1 p.2) s.icrcMerger where
  extra := by
    show s.icrc.sent <+: _
    rw [h.icrcs, hm.past, List.flatMap_map, List.flatMap_map]
    exact (List.take_prefix _ _).flatMap _
  empty := by
    show s.emptyPacketIcrc.sent <+: _
    rw [h.emptiesIcrc, List.map_map]
    refine s.emptyPacket.past_prefix_sent.trans ?_
    rw [h.empties, hm.past, List.map_map]
    exact (List.take_prefix _ _).map _
  enable := by
    show s.enableIcrc.sent <+: _
    rw [h.enablesIcrc, List.map_map]
    refine s.enableStream.past_prefix_sent.trans ?_
    rw [h.enables, hm.past, List.map_map]
    exact (List.take_prefix _ _).map _
  data := by
    have hbth := hB.sent_prefix h.bthReachable (framed_bthJobs keepBytes items) (hm.delivers_bth h hdel)
    rw [List.flatMap_map] at hbth ⊢
    exact hbth

include hB hC hdata in
/-- The data that was sent is that of one packet after the other. -/
theorem Matches.dataOut_prefix (hm : Matches ps items s) (h : Inv keepBytes s) (hdel : Delivers ps s) :
    s.dataOut.sent <+: items.flatMap fun p => mergeIcrc (icrcJob keepBytes mergeBth p.1 p.2) := by
  have hout := hC.sent_prefix h.icrcReachable (hm.framed_icrcJobs hB hdata keepBytes) (hm.delivers_icrc hB h hdel)
  rwa [List.flatMap_map] at hout

end Contract

/-! ### Progress -/

namespace Settled

theorem hdrIn (h : Settled keepBytes s) : s.hdrIn.head = none := by
  have hstep := h.1
  simp only [ringHdrs] at hstep
  cases hhead : s.hdrIn.head with
  | none => rfl
  | some m =>
    have hm : (readUpdate s).hdrIn.head = some m := hhead
    rw [hm] at hstep
    rw [← hhead]
    exact Fifo.head_eq_none_of_readIf _ (congrArg State.hdrIn hstep)

theorem bthMerger (h : Settled keepBytes s) : Merger.step s.bthMerger (.reorder false) = s.bthMerger :=
  congrArg State.bthMerger h.2.2.2.1

theorem icrcMerger (h : Settled keepBytes s) : Merger.step s.icrcMerger (.reorder false) = s.icrcMerger :=
  congrArg State.icrcMerger h.2.2.2.2

/-- The flags of all packets that were taken have reached the mergers. -/
theorem flags (h : Settled keepBytes s) :
    s.emptyPacket.past = s.emptyPacket.sent ∧ s.enableStream.past = s.enableStream.sent :=
  ⟨Fifo.past_eq_sent _ (head_eq_none_of_dup (congrArg State.emptyPacket h.2.2.1)),
    Fifo.past_eq_sent _ (head_eq_none_of_dup (congrArg State.enableStream h.2.1))⟩

end Settled

namespace Matches

/-- Every packet was taken. -/
theorem take_served (hm : Matches ps items s) (h : Inv keepBytes s) (hf : Finished keepBytes ps s) :
    items.take s.served.length = items := by
  apply List.take_of_length_le
  rw [h.served, Fifo.past_eq_sent _ hf.settled.hdrIn, hf.metas, List.length_map, ← hm.packets, List.length_map]

theorem arrived_bth (hm : Matches ps items s) (h : Inv keepBytes s) (hf : Finished keepBytes ps s) :
    Merger.Arrived (items.map fun p => bthJob keepBytes p.1 p.2) s.bthMerger where
  extra := by
    show s.bth.sent = _
    rw [h.bths, hm.zip_eq, hm.take_served h hf, List.flatMap_map, List.flatMap_map]
    rfl
  empty := by
    show s.emptyPacketBth.sent = _
    rw [h.emptiesBth, hf.settled.flags.1, h.empties, hm.past, hm.take_served h hf, List.map_map, List.map_map]
    rfl
  enable := by
    show s.enableBth.sent = _
    rw [h.enablesBth, hf.settled.flags.2, h.enables, hm.past, hm.take_served h hf, List.map_map, List.map_map]
    rfl
  data := by
    show s.dataIn.sent = _
    rw [hf.data, hm.flatMap_beats, List.flatMap_map]
    rfl

variable (hB : B.Concatenates IsPacket mergeBth) (hC : C.Concatenates (·.length = 1) mergeIcrc)
  (hdata : ∀ k ∈ ps, k.metadata.ringId ≠ 0 → k.metadata.emptyPacket = false)

include hB in
theorem arrived_icrc (hm : Matches ps items s) (h : Inv keepBytes s) (hf : Finished keepBytes ps s) :
    Merger.Arrived (items.map fun p => icrcJob keepBytes mergeBth p.1 p.2) s.icrcMerger where
  extra := by
    show s.icrc.sent = _
    rw [h.icrcs, hm.past, hm.take_served h hf, List.flatMap_map, List.flatMap_map]
    rfl
  empty := by
    show s.emptyPacketIcrc.sent = _
    rw [h.emptiesIcrc, hf.settled.flags.1, h.empties, hm.past, hm.take_served h hf, List.map_map, List.map_map]
    rfl
  enable := by
    show s.enableIcrc.sent = _
    rw [h.enablesIcrc, hf.settled.flags.2, h.enables, hm.past, hm.take_served h hf, List.map_map, List.map_map]
    rfl
  data := by
    have hbth := hB.sent_eq h.bthReachable (framed_bthJobs keepBytes items) (hm.arrived_bth h hf) hf.settled.bthMerger
    rw [List.flatMap_map] at hbth ⊢
    exact hbth

include hB hC hdata in
/-- When everything has arrived and no unit can move, the data of every packet was sent. -/
theorem dataOut_eq (hm : Matches ps items s) (h : Inv keepBytes s) (hf : Finished keepBytes ps s) :
    s.dataOut.sent = items.flatMap fun p => mergeIcrc (icrcJob keepBytes mergeBth p.1 p.2) := by
  have hout := hC.sent_eq h.icrcReachable (hm.framed_icrcJobs hB hdata keepBytes) (hm.arrived_icrc hB h hf)
    hf.settled.icrcMerger
  rwa [List.flatMap_map] at hout

end Matches

/-! ### The packets that are sent -/

theorem exists_header (m : Metadata) (v : Served) : ∃ m', HeaderOf m v m' := by
  by_cases hring : m.ringId = 0
  · exact ⟨m, by rw [HeaderOf, if_pos hring]⟩
  · refine ⟨ringMetadata ⟨0, 0, 0, 0, 0, 0⟩ v.context (m.length + (padCount m.length).setWidth 16) m, ?_⟩
    rw [HeaderOf, if_neg hring]
    exact ⟨_, rfl⟩

/-- Headers for the packets that were not taken yet. -/
theorem exists_headers {n : ℕ} {ms : List Metadata}
    (h : List.Forall₂ (fun p => HeaderOf p.1.metadata p.2) (items.take n) ms) :
    ∃ more, List.Forall₂ (fun p => HeaderOf p.1.metadata p.2) items (ms ++ more) ∧ (items.take n = items → more = []) := by
  have hexists : ∀ rest : List (Packet × Served), ∃ more : List Metadata,
      List.Forall₂ (fun p => HeaderOf p.1.metadata p.2) rest more := by
    intro rest
    induction rest with
    | nil => exact ⟨[], .nil⟩
    | cons p rest ih =>
      obtain ⟨more, hmore⟩ := ih
      obtain ⟨m, hm⟩ := exists_header p.1.metadata p.2
      exact ⟨m :: more, .cons hm hmore⟩
  obtain ⟨more, hmore⟩ := hexists (items.drop n)
  refine ⟨more, ?_, ?_⟩
  · have hall : List.Forall₂ (fun p => HeaderOf p.1.metadata p.2) (items.take n ++ items.drop n) (ms ++ more) :=
      List.rel_append h hmore
    rwa [List.take_append_drop] at hall
  · intro hn
    have hlen := congrArg List.length hn
    rw [List.length_take] at hlen
    rw [List.drop_of_length_le (by omega)] at hmore
    exact List.forall₂_nil_left_iff.mp hmore

/-- What is sent for packets of which those for rings are as they should be. -/
theorem exists_emissions (hB : B.Concatenates IsPacket mergeBth) (hpushB : PushesHeader mergeBth)
    (hC : C.Concatenates (·.length = 1) mergeIcrc) (hpushC : PushesSuffix mergeIcrc)
    (hkeep : keepBytes 12 = leadingKeep 12) {ms : List Metadata}
    (hms : List.Forall₂ (fun p => HeaderOf p.1.metadata p.2) items ms)
    (hitems : ∀ p ∈ items, p.1.metadata.ringId ≠ 0 → Counted p.1 ∧ Aligned p.1) :
    ∃ es : List Emission,
      List.Forall₂ (fun k e => HeaderOf k.metadata e.served e.metadata ∧ Emitted k e) (items.map Prod.fst) es ∧
      es.map Emission.served = items.map Prod.snd ∧ es.map Emission.metadata = ms ∧
      es.flatMap Emission.beats = items.flatMap fun p => mergeIcrc (icrcJob keepBytes mergeBth p.1 p.2) := by
  induction hms with
  | nil => exact ⟨[], .nil, rfl, rfl, rfl⟩
  | @cons p m items ms hm _ ih =>
    obtain ⟨es, hes, hserved, hmetas, hbeats⟩ := ih fun q hq => hitems q (List.mem_cons_of_mem _ hq)
    refine ⟨⟨p.2, m, mergeIcrc (icrcJob keepBytes mergeBth p.1 p.2)⟩ :: es, .cons ⟨hm, ?_⟩ hes, ?_, ?_, ?_⟩
    · by_cases hring : p.1.metadata.ringId = 0
      · rw [Emitted, if_pos hring]
        rw [HeaderOf, if_pos hring] at hm
        exact ⟨hm, sent_of_ringId_eq_zero hB hC hring⟩
      · obtain ⟨hcount, hal⟩ := hitems p (List.mem_cons_self ..) hring
        rw [Emitted, if_neg hring]
        exact (encapsulated_iff hB hpushB hC hpushC hkeep hring hal.nonempty hcount hm).mpr hal
    · rw [List.map_cons, List.map_cons, hserved]
    · rw [List.map_cons, hmetas]
    · rw [List.flatMap_cons, List.flatMap_cons, hbeats]

/-- What the unit sends in a state of its invariant, with the metadata that it makes for each packet. -/
theorem exists_sent (hB : B.Concatenates IsPacket mergeBth) (hpushB : PushesHeader mergeBth)
    (hC : C.Concatenates (·.length = 1) mergeIcrc) (hpushC : PushesSuffix mergeIcrc)
    (hkeep : keepBytes 12 = leadingKeep 12) {ps : List Packet}
    (hcount : ∀ k ∈ ps, k.metadata.ringId ≠ 0 → Counted k) (hal : ∀ k ∈ ps, k.metadata.ringId ≠ 0 → Aligned k)
    (h : Inv keepBytes s) (hdel : Delivers ps s) :
    ∃ es : List Emission, List.Forall₂ (fun k e => HeaderOf k.metadata e.served e.metadata ∧ Emitted k e) ps es ∧
      s.served <+: es.map Emission.served ∧ s.hdrOut.sent <+: es.map Emission.metadata ∧
      s.dataOut.sent <+: es.flatMap Emission.beats ∧
      (Finished keepBytes ps s →
        s.hdrOut.sent = es.map Emission.metadata ∧ s.dataOut.sent = es.flatMap Emission.beats) := by
  obtain ⟨items, hm⟩ := exists_matches h hdel
  have hdata : ∀ k ∈ ps, k.metadata.ringId ≠ 0 → k.metadata.emptyPacket = false :=
    fun k hk hring => (hal k hk hring).nonempty
  obtain ⟨more, hmore, hnone⟩ := exists_headers (hm.headers h)
  have hitems : ∀ p ∈ items, p.1.metadata.ringId ≠ 0 → Counted p.1 ∧ Aligned p.1 := by
    intro p hp hring
    have hmem : p.1 ∈ ps := by
      rw [← hm.packets]
      exact List.mem_map_of_mem hp
    exact ⟨hcount p.1 hmem hring, hal p.1 hmem hring⟩
  obtain ⟨es, hes, hserved, hmetas, hbeats⟩ := exists_emissions hB hpushB hC hpushC hkeep hmore hitems
  refine ⟨es, hm.packets ▸ hes, ?_, ?_, ?_, ?_⟩
  · rw [hserved, hm.served, List.map_take]
    exact List.take_prefix _ _
  · rw [hmetas]
    exact List.prefix_append _ _
  · rw [hbeats]
    exact hm.dataOut_prefix hB hC hdata h hdel
  · intro hf
    rw [hmetas, hnone (hm.take_served h hf), List.append_nil, hbeats]
    exact ⟨rfl, hm.dataOut_eq hB hC hdata h hf⟩

/-- **Encapsulation**: if the length of every packet of a ring is the number of its bytes, at least one, a multiple of
four, and leaves room for the header and the trailer, then in every run the unit sends every packet as it has to. -/
theorem encapsulates_run (hB : B.Concatenates IsPacket mergeBth) (hpushB : PushesHeader mergeBth)
    (hC : C.Concatenates (·.length = 1) mergeIcrc) (hpushC : PushesSuffix mergeIcrc)
    (hkeep : keepBytes 12 = leadingKeep 12) (ps : List Packet)
    (hcount : ∀ k ∈ ps, k.metadata.ringId ≠ 0 → Counted k) (hal : ∀ k ∈ ps, k.metadata.ringId ≠ 0 → Aligned k)
    (contexts : ℤ → RingContext) (acts : List Act)
    (hdel : Delivers ps (run (step keepBytes) (State.init B C contexts) acts)) :
    Encapsulates keepBytes ps (run (step keepBytes) (State.init B C contexts) acts) := by
  obtain ⟨es, hes, hsent⟩ := exists_sent hB hpushB hC hpushC hkeep hcount hal (inv_run contexts acts) hdel
  exact ⟨es, hes.imp fun _ _ h => h.2, hsent⟩

/-! ### Two runs -/

/-- A packet of one beat, of the first `n` bytes. -/
def shortPacket (ring : RingId) (n : Fin 32) : Packet where
  metadata := ⟨0, 0, 0, .inl ⟨0, 0, 0, 0, 0, 0⟩, ring, 0, BitVec.ofNat 16 (n.val + 1)⟩
  beats := [⟨0, leadingKeep (n.val + 1), true⟩]
  framed := by
    have hlength : ∀ n : Fin 32, (BitVec.ofNat 16 (n.val + 1) == 0) = false := by decide
    show if BitVec.ofNat 16 (n.val + 1) == 0 then _ else IsPacket _
    rw [hlength, if_neg Bool.false_ne_true]
    exact ⟨[], _, rfl, rfl, by simp⟩

/-- A packet without data. -/
def emptyPacket (ring : RingId) : Packet where
  metadata := ⟨0, 0, 0, .inl ⟨0, 0, 0, 0, 0, 0⟩, ring, 0, 0⟩
  beats := []
  framed := Packet.framed_nil rfl

/-- Packets arrive, and every unit is called often enough. -/
def actsFor (ps : List Packet) : List Act :=
  ps.map (fun k => .arriveHdr k.metadata) ++ (ps.flatMap Packet.beats).map .arriveData ++
    (List.replicate 4 [.ringHdrs none false, .dupEnable false, .dupEmpty false, .reorderBth false, .reorderBth false,
      .reorderIcrc false, .reorderIcrc false]).flatten.map .call

/-- The state of the unit then. -/
def endFor (ps : List Packet) : State buffering bufferingSuffix :=
  run (step leadingKeep) (State.init buffering bufferingSuffix fun _ => ⟨1, 2, 3, 4⟩) (actsFor ps)

/-- A packet of four bytes on a ring, and one of a byte that is for no ring. -/
theorem encapsulates_run_fourBytes :
    Encapsulates leadingKeep [shortPacket 1 3, shortPacket 0 0] (endFor [shortPacket 1 3, shortPacket 0 0]) ∧
    (endFor [shortPacket 1 3, shortPacket 0 0]).dataOut.sent.length = 2 := by
  refine ⟨encapsulates_run concatenates_buffering pushesHeader_pushHeader concatenates_bufferingSuffix
    pushesSuffix_pushSuffix rfl _ ?_ ?_ _ _ ⟨by decide +kernel, by decide +kernel⟩, by decide +kernel⟩
  · intro k hk _
    simp only [List.mem_cons, List.not_mem_nil, or_false] at hk
    rcases hk with rfl | rfl
    · exact ⟨.inr ⟨[], _, 4, rfl, by simp, rfl, by decide, by decide⟩, by decide⟩
    · exact ⟨.inr ⟨[], _, 1, rfl, by simp, rfl, by decide, by decide⟩, by decide⟩
  · intro k hk hring
    simp only [List.mem_cons, List.not_mem_nil, or_false] at hk
    rcases hk with rfl | rfl
    · exact ⟨by decide, by decide, by decide⟩
    · exact absurd rfl hring

/-- A packet of one byte on a ring is sent with a length of 20, but 17 bytes; and of a packet without data only the
trailer is sent as the packet. -/
theorem not_encapsulates_oneByte :
    (Counted (shortPacket 1 0) ∧ Delivers [shortPacket 1 0] (endFor [shortPacket 1 0]) ∧
      ¬Encapsulates leadingKeep [shortPacket 1 0] (endFor [shortPacket 1 0])) ∧
    Counted (emptyPacket 1) ∧ Delivers [emptyPacket 1] (endFor [emptyPacket 1]) ∧
      ¬Encapsulates leadingKeep [emptyPacket 1] (endFor [emptyPacket 1]) := by
  refine ⟨⟨⟨.inr ⟨[], _, 1, rfl, by simp, rfl, by decide, by decide⟩, by decide⟩,
    ⟨by decide +kernel, by decide +kernel⟩, ?_⟩, ⟨.inl rfl, by decide⟩, ⟨by decide +kernel, by decide +kernel⟩, ?_⟩
  · rintro ⟨es, hes, -, hmetas, hbeats, -⟩
    obtain ⟨e, es', he, hnil, rfl⟩ := List.forall₂_cons_left_iff.mp hes
    cases hnil
    have hring : Encapsulated (shortPacket 1 0) e := he
    rw [List.flatMap_singleton] at hbeats
    have hlast : IsPacket (endFor [shortPacket 1 0]).dataOut.sent := by decide +kernel
    have hkept : (kept (endFor [shortPacket 1 0]).dataOut.sent).length = 17 := by decide +kernel
    have hlen := hring.length
    rw [← hlast.eq_of_prefix hring.isPacket hbeats, hkept] at hlen
    have hhdr : (endFor [shortPacket 1 0]).hdrOut.sent.map (fun m => m.length.toNat) = [20] := by decide +kernel
    have hpre := hmetas.map fun m => m.length.toNat
    rw [hhdr, List.map_singleton, List.map_singleton, hlen] at hpre
    exact absurd hpre (by decide)
  · rintro ⟨es, hes, -, -, hbeats, -⟩
    obtain ⟨e, es', he, hnil, rfl⟩ := List.forall₂_cons_left_iff.mp hes
    cases hnil
    have hring : Encapsulated (emptyPacket 1) e := he
    rw [List.flatMap_singleton] at hbeats
    have hlast : IsPacket (endFor [emptyPacket 1]).dataOut.sent := by decide +kernel
    have hkept : (kept (endFor [emptyPacket 1]).dataOut.sent).length = 4 := by decide +kernel
    obtain ⟨bth, pad, trailer, hbytes, hbth, htrailer, -⟩ := hring.bytes
    have hlen := congrArg List.length hbytes
    rw [← hlast.eq_of_prefix hring.isPacket hbeats, hkept] at hlen
    simp only [List.length_append, hbth, htrailer, ibBthBytes] at hlen
    omega

end Nica.Hls.CustomRxRing
