import Nica.Hls.Equiv.RawCopies
import Nica.Hls.Equiv.Egress
import Nica.Hls.Equiv.Merger
import Nica.Hls.Equiv.Padding

/-!
# When raw passthrough is transparent

A `RawFrame` is a frame of 2 to 64 beats with the decision whether it passes raw.  `Transparent` is the property:
everything that leaves the network port belongs to a raw frame or to a packet of an ikernel, each leaves once and
in its order, and a raw frame leaves as it arrived.

What the wrapper makes of a frame is one packet of the last traffic class (`RawFrame.packet`), and what the builder
transmits for that has the fields `user` and `id` zero and a second beat padded to 60 bytes in all.  So a frame is
`Unaltered` exactly when these were its values already (`sameBeats_iff`).
-/

namespace Nica.Hls.PassthroughWrapper

open Nica.Lib

/-! ### Frames -/

/-- A frame of the network port: 2 to 64 beats, and whether it passes raw. -/
structure RawFrame where
  beats : List Axi4s
  pass : Bool
  framed : IsPacket (beats.map rawToData)
  two_le : 2 ≤ beats.length
  le_64 : beats.length ≤ 64

namespace RawFrame

variable (f : RawFrame)

/-- The metadata of the frame. -/
def metadata : Metadata := rawMetadata (BitVec.ofNat 16 f.beats.length)

theorem metadata_nonempty : f.metadata.emptyPacket = false := by
  have h₁ := f.two_le
  have h₂ := f.le_64
  have hlen : (BitVec.ofNat 16 f.beats.length <<< 5).toNat = 32 * f.beats.length := by
    rw [BitVec.toNat_shiftLeft, BitVec.toNat_ofNat, Nat.shiftLeft_eq]
    omega
  have hne : BitVec.ofNat 16 f.beats.length <<< 5 ≠ 0 := by
    intro h0
    rw [h0] at hlen
    change 0 = _ at hlen
    omega
  exact beq_eq_false_iff_ne.mpr hne

/-- The packet of the last traffic class that the wrapper makes of the frame. -/
def packet : Packet where
  metadata := f.metadata
  beats := f.beats.map rawToData
  framed := by
    rw [f.metadata_nonempty]
    exact f.framed

theorem beats_packet : f.packet.beats = f.beats.map rawToData := rfl

/-- The beats that the wrapper writes for the frame. -/
def rawBeats : List AxiData := if f.pass then f.packet.beats else []

end RawFrame

/-- The frames that pass raw. -/
def passing (frames : List RawFrame) : List RawFrame := frames.filter (·.pass)

theorem flatMap_rawBeats (frames : List RawFrame) :
    frames.flatMap RawFrame.rawBeats = ((passing frames).map RawFrame.packet).flatMap Packet.beats := by
  induction frames with
  | nil => rfl
  | cons f frames ih =>
    rw [List.flatMap_cons, ih]
    cases hf : f.pass with
    | true =>
      have hpass : passing (f :: frames) = f :: passing frames := List.filter_cons_of_pos hf
      rw [hpass, List.map_cons, List.flatMap_cons, RawFrame.rawBeats, if_pos hf]
    | false =>
      have hpass : passing (f :: frames) = passing frames := List.filter_cons_of_neg (by simp [hf])
      rw [hpass, RawFrame.rawBeats, hf]
      rfl

/-- A raw frame is what the wrapper takes for a frame. -/
theorem framed_rawFrames (frames : List RawFrame) : Framed RawFrame.beats frames :=
  fun f _ => ⟨f.framed, f.two_le⟩

/-! ### The last traffic class -/

variable {k : ℕ} {N : Arbiter.Ntl (k + 1)} {M : Merger AxiData} {keepBytes : ℕ → BitVec 32}
  {sched : N.Sched} {frames : List RawFrame} {s : State k N M}

/-- The frames and decisions that arrived at the wrapper are those of `frames`. -/
def Input (frames : List RawFrame) (s : State k N M) : Prop :=
  s.rawIn.sent <+: frames.flatMap RawFrame.beats ∧ s.passStream.sent <+: frames.map RawFrame.pass

theorem Input.exists_turn (hin : Input frames s) (hs : Reachable (step keepBytes) (State.init M sched) s) :
    ∃ due, Turn RawFrame.beats RawFrame.pass frames s due :=
  PassthroughWrapper.exists_turn hs (framed_rawFrames frames) ⟨hin.1, hin.2⟩

/-- Everything has arrived at the wrapper and it cannot move. -/
structure WrapperDone (frames : List RawFrame) (s : State k N M) : Prop where
  rawIn : s.rawIn.sent = frames.flatMap RawFrame.beats
  passStream : s.passStream.sent = frames.map RawFrame.pass
  settled : (s.state = .idle ∧ (s.passStream.head = none ∨ s.rawIn.head = none)) ∨
    (s.state = .stream ∧ s.rawIn.head = none)

theorem metadata_packets (frames : List RawFrame) :
    ((passing frames).map RawFrame.packet).map Packet.metadata =
      (frames.filter RawFrame.pass).map (described RawFrame.beats) := by
  rw [List.map_map]
  rfl

theorem delivers_last (hin : Input frames s) (hs : Reachable (step keepBytes) (State.init M sched) s) :
    (s.egress.arbiter.tcMeta (Fin.last k)).sent <+: ((passing frames).map RawFrame.packet).map Packet.metadata ∧
      (s.egress.arbiter.tcData (Fin.last k)).sent <+: ((passing frames).map RawFrame.packet).flatMap Packet.beats := by
  obtain ⟨due, hturn⟩ := hin.exists_turn hs
  rw [metadata_packets, ← flatMap_rawBeats]
  exact ⟨hturn.metas_prefix, hturn.data_prefix⟩

theorem arrived_last (hin : Input frames s) (hs : Reachable (step keepBytes) (State.init M sched) s)
    (hdone : WrapperDone frames s) :
    (s.egress.arbiter.tcMeta (Fin.last k)).sent = ((passing frames).map RawFrame.packet).map Packet.metadata ∧
      (s.egress.arbiter.tcData (Fin.last k)).sent = ((passing frames).map RawFrame.packet).flatMap Packet.beats := by
  obtain ⟨due, hturn⟩ := hin.exists_turn hs
  have hfinished : Finished RawFrame.beats RawFrame.pass frames s :=
    ⟨hdone.rawIn, hdone.passStream, hdone.settled⟩
  rw [metadata_packets, ← flatMap_rawBeats]
  exact hfinished.complete (framed_rawFrames frames) hturn

/-! ### What is transmitted for a raw frame -/

/-- A beat that leaves as another one arrived: the side-band fields, and every byte that is kept. -/
structure Same (b c : Axi4s) : Prop where
  keep : c.keep = b.keep
  last : c.last = b.last
  user : c.user = b.user
  id : c.id = b.id
  data : ∀ i < 32, b.keep.getLsbD i = true → c.data.extractLsb' (8 * i) 8 = b.data.extractLsb' (8 * i) 8

/-- A frame that keeps its fields: `user` and `id` are zero already, and the second of two beats is long enough. -/
structure RawFrame.Unaltered (f : RawFrame) : Prop where
  user : ∀ b ∈ f.beats, b.user = 0
  id : ∀ b ∈ f.beats, b.id = 0
  long : ∀ b₀ b₁, f.beats = [b₀, b₁] → b₁.keep ||| 0xfffffff0 = b₁.keep

/-- The beat with the fields of the network port that the builder gives it. -/
def zeroed (b : Axi4s) : Axi4s := { b with user := 0, id := 0 }

theorem same_zeroed_iff (b : Axi4s) : Same b (zeroed b) ↔ b.user = 0 ∧ b.id = 0 := by
  constructor
  · intro h
    exact ⟨h.user.symm, h.id.symm⟩
  · rintro ⟨hu, hid⟩
    exact ⟨rfl, rfl, hu.symm, hid.symm, fun _ _ _ => rfl⟩

/-- The second of two beats, padded. -/
def padded (b : Axi4s) : Axi4s :=
  { zeroed b with data := Builder.padOne b.data b.keep, keep := b.keep ||| 0xfffffff0 }

theorem same_padded_iff (b : Axi4s) :
    Same b (padded b) ↔ (b.user = 0 ∧ b.id = 0) ∧ b.keep ||| 0xfffffff0 = b.keep := by
  constructor
  · intro h
    exact ⟨⟨h.user.symm, h.id.symm⟩, h.keep⟩
  · rintro ⟨⟨hu, hid⟩, hk⟩
    refine ⟨hk, rfl, hu.symm, hid.symm, ?_⟩
    intro i hi hkeep
    show (Builder.padOne b.data b.keep).extractLsb' (8 * i) 8 = _
    rw [Builder.extractLsb'_padOne _ _ hi, if_pos hkeep]

section Transmitted

variable {merge : Merger.Job AxiData → List AxiData} (hM : M.Concatenates IsPacket merge)
include hM

/-- Behind the merger a raw frame has its own beats. -/
theorem joined_packet (keepBytes : ℕ → BitVec 32) (f : RawFrame) :
    Builder.joined keepBytes merge f.packet = f.beats.map zeroed := by
  have hraw : (Builder.job keepBytes f.packet).enable = false := rfl
  rw [Builder.joined, hM.merge_of_disabled _ hraw]
  show (f.beats.map rawToData).map _ = _
  rw [List.map_map]
  rfl

/-- What is transmitted for a raw frame of two beats, and for a longer one. -/
theorem transmitted_packet (keepBytes : ℕ → BitVec 32) (f : RawFrame) :
    (∃ b₀ b₁, f.beats = [b₀, b₁] ∧ Builder.transmitted keepBytes merge f.packet = [zeroed b₀, padded b₁]) ∨
      (f.beats.length ≠ 2 ∧ Builder.transmitted keepBytes merge f.packet = f.beats.map zeroed) := by
  rw [Builder.transmitted, joined_packet hM]
  obtain ⟨front, final, hbeats, hlast, hfront⟩ := f.framed
  have htwo := f.two_le
  have hle := f.le_64
  by_cases hlen : f.beats.length = 2
  · left
    obtain ⟨b₀, b₁, hb⟩ := List.length_eq_two.mp hlen
    refine ⟨b₀, b₁, hb, ?_⟩
    rw [hb] at hbeats ⊢
    have hsplit : [rawToData b₀] ++ [rawToData b₁] = front ++ [final] := hbeats
    obtain ⟨hfr, hfi⟩ := List.append_inj' hsplit rfl
    have h₀ : b₀.last = false := hfront (rawToData b₀) (by rw [← hfr]; exact List.mem_singleton_self _)
    have h₁ : b₁.last = true := by
      have : (rawToData b₁).last = true := by rw [(List.cons.inj hfi).1]; exact hlast
      exact this
    have h₀' : (zeroed b₀).last = false := h₀
    have h₁' : (zeroed b₁).last = true := h₁
    exact Builder.padFrom_two h₀' h₁'
  · right
    refine ⟨hlen, ?_⟩
    obtain ⟨init, last, hsnoc⟩ : ∃ init last, f.beats = init ++ [last] := by
      rcases List.eq_nil_or_concat f.beats with hnil | ⟨init, last, hsnoc⟩
      · rw [hnil, List.length_nil] at htwo
        omega
      · exact ⟨init, last, hsnoc.trans List.concat_eq_append⟩
    have hinit : ∀ b ∈ init.map zeroed, b.last = false := by
      intro b hb
      obtain ⟨b', hb', rfl⟩ := List.mem_map.mp hb
      rw [hsnoc, List.map_append] at hbeats
      obtain ⟨hfr, -⟩ := List.append_inj' hbeats rfl
      exact hfront (rawToData b') (by rw [← hfr]; exact List.mem_map_of_mem hb')
    rw [hsnoc, List.length_append, List.length_singleton] at hlen hle
    rw [hsnoc, List.map_append]
    apply Builder.padFrom_eq_self hinit
    · show 0 + (init.map zeroed).length < 64
      rw [List.length_map]
      omega
    · show 0 + (init.map zeroed).length ≠ 1
      rw [List.length_map]
      omega

/-- A raw frame leaves as it arrived exactly when it is `Unaltered`. -/
theorem sameBeats_iff (keepBytes : ℕ → BitVec 32) (f : RawFrame) :
    List.Forall₂ Same f.beats (Builder.transmitted keepBytes merge f.packet) ↔ f.Unaltered := by
  rcases transmitted_packet hM keepBytes f with ⟨b₀, b₁, hb, ht⟩ | ⟨hlen, ht⟩
  · rw [ht, hb, List.forall₂_cons, List.forall₂_cons, same_zeroed_iff, same_padded_iff]
    constructor
    · rintro ⟨⟨hu₀, hi₀⟩, ⟨⟨hu₁, hi₁⟩, hk⟩, -⟩
      refine ⟨?_, ?_, ?_⟩
      · intro b hmem
        rw [hb] at hmem
        rcases List.mem_pair.mp hmem with rfl | rfl
        · exact hu₀
        · exact hu₁
      · intro b hmem
        rw [hb] at hmem
        rcases List.mem_pair.mp hmem with rfl | rfl
        · exact hi₀
        · exact hi₁
      · intro c₀ c₁ hc
        rw [hb] at hc
        cases hc
        exact hk
    · intro h
      have h₀ : b₀ ∈ f.beats := by rw [hb]; simp
      have h₁ : b₁ ∈ f.beats := by rw [hb]; simp
      exact ⟨⟨h.user b₀ h₀, h.id b₀ h₀⟩, ⟨⟨h.user b₁ h₁, h.id b₁ h₁⟩, h.long b₀ b₁ hb⟩, .nil⟩
  · rw [ht, List.forall₂_map_right_iff, List.forall₂_same]
    constructor
    · intro h
      refine ⟨?_, ?_, ?_⟩
      · intro b hb
        exact ((same_zeroed_iff b).mp (h b hb)).1
      · intro b hb
        exact ((same_zeroed_iff b).mp (h b hb)).2
      · intro b₀ b₁ hb
        rw [hb] at hlen
        exact absurd rfl hlen
    · intro h b hb
      exact (same_zeroed_iff b).mpr ⟨h.user b hb, h.id b hb⟩

end Transmitted

/-! ### Transparency -/

/-- What leaves the network port: a raw frame, or a packet of the traffic class of an ikernel. -/
abbrev Departure (k : ℕ) := RawFrame ⊕ Fin k × Packet

/-- The raw frames among what leaves. -/
def rawFrames (ds : List (Departure k)) : List RawFrame := ds.filterMap Sum.getLeft?

/-- The packets of one class of the ikernels among what leaves. -/
def ikernelPackets (p : Fin k) (ds : List (Departure k)) : List Packet :=
  ((ds.filterMap Sum.getRight?).filter (·.1 = p)).map (·.2)

/-- The packets that arrived at the traffic classes of the ikernels are those of `pkts`. -/
def IkernelInput (pkts : Fin k → List Packet) (s : State k N M) : Prop :=
  ∀ p : Fin k, (s.egress.arbiter.tcMeta p.castSucc).sent <+: (pkts p).map Packet.metadata ∧
    (s.egress.arbiter.tcData p.castSucc).sent <+: (pkts p).flatMap Packet.beats

/-- Everything has arrived, and no unit has anything left to do. -/
structure Done (keepBytes : ℕ → BitVec 32) (frames : List RawFrame) (pkts : Fin k → List Packet) (s : State k N M) :
    Prop where
  wrapper : WrapperDone frames s
  ikernels : ∀ p : Fin k, (s.egress.arbiter.tcMeta p.castSucc).sent = (pkts p).map Packet.metadata ∧
    (s.egress.arbiter.tcData p.castSucc).sent = (pkts p).flatMap Packet.beats
  arbiter : Arbiter.Quiet s.egress.arbiter
  builder : Builder.Settled keepBytes s.egress.builder

/-- **Raw passthrough is transparent**: the output is made of raw frames and of packets of the ikernels, each of
them once and in its order; a raw frame leaves as it arrived; and every one has left in the end. -/
def Transparent (keepBytes : ℕ → BitVec 32) (frames : List RawFrame) (pkts : Fin k → List Packet)
    (s : State k N M) : Prop :=
  ∃ departed : List (Departure k × List Axi4s),
    rawFrames (departed.map Prod.fst) <+: passing frames ∧
    (∀ p, ikernelPackets p (departed.map Prod.fst) <+: pkts p) ∧
    s.egress.builder.out <+: departed.flatMap Prod.snd ∧
    (∀ d ∈ departed, ∀ f, d.1 = .inl f → List.Forall₂ Same f.beats d.2) ∧
    (Done keepBytes frames pkts s → rawFrames (departed.map Prod.fst) = passing frames ∧
      s.egress.builder.out = departed.flatMap Prod.snd)

/-- The port and the packet of what leaves. -/
def Departure.served : Departure k → Fin (k + 1) × Packet
  | .inl f => (Fin.last k, f.packet)
  | .inr (p, q) => (p.castSucc, q)

/-- The packets that the arbiter served are the frames and the packets of the ikernels. -/
theorem exists_departures (served : List (Fin (k + 1) × Packet)) : ∀ fs : List RawFrame,
    Arbiter.ofPort (Fin.last k) served <+: fs.map RawFrame.packet →
    ∃ ds : List (Departure k), ds.map Departure.served = served ∧ rawFrames ds <+: fs ∧
      (rawFrames ds).length = (Arbiter.ofPort (Fin.last k) served).length ∧
      ∀ p : Fin k, ikernelPackets p ds = Arbiter.ofPort p.castSucc served := by
  induction served with
  | nil =>
    intro fs _
    exact ⟨[], rfl, List.nil_prefix, rfl, fun _ => rfl⟩
  | cons q served ih =>
    intro fs hpre
    obtain ⟨port, k'⟩ := q
    induction port using Fin.lastCases with
    | last =>
      -- the next of the frames
      have hcons : Arbiter.ofPort (Fin.last k) ((Fin.last k, k') :: served) =
          k' :: Arbiter.ofPort (Fin.last k) served := by
        simp [Arbiter.ofPort]
      rw [hcons] at hpre
      cases fs with
      | nil => exact absurd hpre (by simp)
      | cons f fs =>
        rw [List.map_cons, List.cons_prefix_cons] at hpre
        obtain ⟨rfl, hpre⟩ := hpre
        obtain ⟨ds, hserved, hraw, hlen, hik⟩ := ih fs hpre
        refine ⟨.inl f :: ds, ?_, ?_, ?_, ?_⟩
        · rw [List.map_cons, hserved]
          rfl
        · show f :: rawFrames ds <+: f :: fs
          exact List.cons_prefix_cons.mpr ⟨rfl, hraw⟩
        · rw [hcons, List.length_cons, ← hlen]
          rfl
        · intro p
          have hskip : Arbiter.ofPort p.castSucc ((Fin.last k, f.packet) :: served) =
              Arbiter.ofPort p.castSucc served := by
            have hne : Fin.last k ≠ p.castSucc := (Fin.castSucc_lt_last p).ne'
            simp [Arbiter.ofPort, hne]
          rw [hskip, ← hik p]
          rfl
    | cast port =>
      have hskip : Arbiter.ofPort (Fin.last k) ((port.castSucc, k') :: served) =
          Arbiter.ofPort (Fin.last k) served := by
        have hne : port.castSucc ≠ Fin.last k := (Fin.castSucc_lt_last port).ne
        simp [Arbiter.ofPort, hne]
      rw [hskip] at hpre
      obtain ⟨ds, hserved, hraw, hlen, hik⟩ := ih fs hpre
      refine ⟨.inr (port, k') :: ds, ?_, hraw, ?_, ?_⟩
      · rw [List.map_cons, hserved]
        rfl
      · rw [hskip, ← hlen]
        rfl
      · intro p
        have hunfold : ikernelPackets p ((.inr (port, k') : Departure k) :: ds) =
            (if port = p then [k'] else []) ++ ikernelPackets p ds := by
          by_cases hp : port = p
          · simp [ikernelPackets, hp]
          · simp [ikernelPackets, hp]
        have hport : Arbiter.ofPort p.castSucc ((port.castSucc, k') :: served) =
            (if port = p then [k'] else []) ++ Arbiter.ofPort p.castSucc served := by
          by_cases hp : port = p
          · simp [Arbiter.ofPort, hp]
          · have hne : port.castSucc ≠ p.castSucc := fun h => hp (Fin.castSucc_injective k h)
            simp [Arbiter.ofPort, hp, hne]
        rw [hunfold, hport, hik p]

/-- A packet of an ikernel that the builder can be given. -/
def UdpPacket (q : Packet) : Prop := Builder.isUdp q = true ∧ q.metadata.length.toNat ≤ 65527

theorem sendable_packet (f : RawFrame) : Builder.Sendable f.packet :=
  ⟨(by intro h; cases h), fun _ => f.metadata_nonempty⟩

theorem UdpPacket.sendable {q : Packet} (h : UdpPacket q) : Builder.Sendable q :=
  ⟨fun _ => h.2, (by intro hu; rw [h.1] at hu; cases hu)⟩

/-- The packets of every traffic class. -/
def allPackets (frames : List RawFrame) (pkts : Fin k → List Packet) : Fin (k + 1) → List Packet :=
  Fin.lastCases ((passing frames).map RawFrame.packet) pkts

theorem delivers_allPackets (hin : Input frames s) (hs : Reachable (step keepBytes) (State.init M sched) s)
    {pkts : Fin k → List Packet} (hik : IkernelInput pkts s) :
    Arbiter.Delivers (allPackets frames pkts) s.egress.arbiter := by
  intro p
  induction p using Fin.lastCases with
  | last =>
    rw [allPackets, Fin.lastCases_last]
    exact delivers_last hin hs
  | cast p =>
    rw [allPackets, Fin.lastCases_castSucc]
    exact hik p

theorem arrived_allPackets (hin : Input frames s) (hs : Reachable (step keepBytes) (State.init M sched) s)
    (hdone : WrapperDone frames s) {pkts : Fin k → List Packet}
    (hik : ∀ p : Fin k, (s.egress.arbiter.tcMeta p.castSucc).sent = (pkts p).map Packet.metadata ∧
      (s.egress.arbiter.tcData p.castSucc).sent = (pkts p).flatMap Packet.beats) :
    Arbiter.Arrived (allPackets frames pkts) s.egress.arbiter := by
  intro p
  induction p using Fin.lastCases with
  | last =>
    rw [allPackets, Fin.lastCases_last]
    exact arrived_last hin hs hdone
  | cast p =>
    rw [allPackets, Fin.lastCases_castSucc]
    exact hik p

theorem sendable_allPackets (frames : List RawFrame) {pkts : Fin k → List Packet}
    (hpkts : ∀ p, ∀ q ∈ pkts p, UdpPacket q) (p : Fin (k + 1)) : ∀ q ∈ allPackets frames pkts p, Builder.Sendable q := by
  induction p using Fin.lastCases with
  | last =>
    rw [allPackets, Fin.lastCases_last]
    intro q hq
    obtain ⟨f, -, rfl⟩ := List.mem_map.mp hq
    exact sendable_packet f
  | cast p =>
    rw [allPackets, Fin.lastCases_castSucc]
    intro q hq
    exact (hpkts p q hq).sendable

/-- In every run in which the frames that pass raw are `Unaltered`, raw passthrough is transparent, whatever the
traffic of the ikernels, the order of the steps and the stalls. -/
theorem transparent_run (keepBytes : ℕ → BitVec 32) {merge : Merger.Job AxiData → List AxiData}
    (hM : M.Concatenates IsPacket merge) (hN : N.Lawful) (hwork : N.WorkConserving) (sched : N.Sched)
    (frames : List RawFrame) (pkts : Fin k → List Packet) (hudp : ∀ p, ∀ q ∈ pkts p, UdpPacket q)
    (hframes : ∀ f ∈ passing frames, f.Unaltered) (acts : List (Act k))
    (hin : Input frames (run (step keepBytes) (State.init M sched) acts))
    (hik : IkernelInput pkts (run (step keepBytes) (State.init M sched) acts)) :
    Transparent keepBytes frames pkts (run (step keepBytes) (State.init M sched) acts) := by
  generalize hs : run (step keepBytes) (State.init M sched) acts = s at hin hik ⊢
  have hreach : Reachable (step keepBytes) (State.init M sched) s := ⟨acts, hs.symm⟩
  obtain ⟨served, hdep⟩ := Egress.exists_departs hM hN hwork (reachable_egress hreach) (sendable_allPackets frames hudp)
    (delivers_allPackets hin hreach hik)
  have hlast := hdep.order (Fin.last k)
  rw [allPackets, Fin.lastCases_last] at hlast
  obtain ⟨ds, hserved, hraw, hlen, hpk⟩ := exists_departures served (passing frames) hlast
  have hfst : (ds.map fun d => (d, Builder.transmitted keepBytes merge d.served.2)).map Prod.fst = ds := by
    rw [List.map_map]
    exact List.map_id _
  have hout : (ds.map fun d => (d, Builder.transmitted keepBytes merge d.served.2)).flatMap Prod.snd =
      served.flatMap fun q => Builder.transmitted keepBytes merge q.2 := by
    rw [← hserved, List.flatMap_map, List.flatMap_map]
  refine ⟨ds.map fun d => (d, Builder.transmitted keepBytes merge d.served.2), ?_, ?_, ?_, ?_, ?_⟩
  · rw [hfst]
    exact hraw
  · intro p
    rw [hfst, hpk p]
    have hp := hdep.order p.castSucc
    rwa [allPackets, Fin.lastCases_castSucc] at hp
  · rw [hout]
    exact hdep.out
  · intro d hd f hf
    obtain ⟨d', hd', rfl⟩ := List.mem_map.mp hd
    have hf' : d' = .inl f := hf
    subst hf'
    have hmem : f ∈ rawFrames ds := List.mem_filterMap.mpr ⟨.inl f, hd', rfl⟩
    exact (sameBeats_iff hM keepBytes f).mpr (hframes f (hraw.subset hmem))
  · intro hdone
    obtain ⟨hports, hall⟩ := hdep.complete hdone.arbiter hdone.builder
      (arrived_allPackets hin hreach hdone.wrapper hdone.ikernels)
    rw [hfst, hout]
    refine ⟨?_, hall⟩
    have hlast' := hports (Fin.last k)
    rw [allPackets, Fin.lastCases_last] at hlast'
    apply hraw.eq_of_length
    rw [hlen, hlast', List.length_map]

/-! ### Two runs -/

/-- A frame of two full beats with the given `id` that passes raw. -/
def frameOfId (id : BitVec 3) : RawFrame where
  beats := [⟨1, 0xffffffff, false, 0, id⟩, ⟨2, 0xffffffff, true, 0, id⟩]
  pass := true
  framed := ⟨[⟨1, 0xffffffff, false⟩], ⟨2, 0xffffffff, true⟩, rfl, rfl, by simp⟩
  two_le := Nat.le_refl 2
  le_64 := Nat.le_of_ble_eq_true rfl

/-- A UDP packet of an ikernel with four bytes of payload. -/
def ikernelPacket : Packet :=
  ⟨⟨Builder.pktTypeUdp, 1, 0, .inl ⟨1, 2, 3, 4, 5, 6⟩, 0, 7, 4⟩, [⟨0xabcdef, 0xf0000000, true⟩], by decide⟩

/-- The packet of the ikernel arrives and is served. -/
def ikernelActs : List (Act 1) :=
  let go : Arbiter.TxMetaStalls := ⟨false, false, false⟩
  let port0 : Fin 2 := ⟨0, Nat.zero_lt_two⟩
  ([.arriveMeta port0 ikernelPacket.metadata, .arriveData port0 ⟨0xabcdef, 0xf0000000, true⟩, .updatePeek,
    .schedulePorts false, .schedulePorts false, .pickNextPacket none false, .txMeta go, .txMeta go, .txMeta go,
    .txData false, .txData false] : List (Arbiter.Act 2)).map fun a => .egress (.arbiter a)

/-- A frame of two beats arrives and is served, with a stall here and there. -/
def frameActs (beats : List Axi4s) : List (Act 1) :=
  let go : Arbiter.TxMetaStalls := ⟨false, false, false⟩
  beats.map .arriveRaw ++ [.arrivePass true, .wrapperStep false, .wrapperStep true, .wrapperStep false] ++
    ([.updatePeek, .schedulePorts false, .schedulePorts false, .pickNextPacket none false, .txMeta go, .txMeta go,
      .txData false, .txData false, .txData true, .txData false] : List (Arbiter.Act 2)).map
      fun a => .egress (.arbiter a)

/-- The builder takes two packets through. -/
def builderActs : List (Act 1) :=
  ([.hdrToMlx false, .hdrToMlx false, .hdrToMlx false, .reorder false, .reorder false, .reorder false, .reorder false,
    .reorder false, .reorder false, .reorder false, .reorder false] ++
    (List.replicate 6 [.joinPacketMetadata false, .link false, .link false, .pad true, .pad false]).flatten :
    List Builder.Call).map fun c => .egress (.builder c)

/-- The state behind the acts, with two traffic classes and a scheduler that serves them in turn. -/
def endOf (acts : List (Act 1)) : State 1 (Arbiter.roundRobin 2 64) buffering :=
  run (step Udp.leadingKeep) (State.init buffering []) acts

theorem workConserving_roundRobin (n : ℕ) (quantum : BitVec 32) : (Arbiter.roundRobin n quantum).WorkConserving := by
  intro line p hp
  cases line with
  | nil => cases hp
  | cons q line => exact Option.some_ne_none _

/-- The frame leaves in front of the packet of the ikernel, which was served first. -/
theorem transparent_run_frameOfId :
    Transparent Udp.leadingKeep [frameOfId 0] (fun _ => [ikernelPacket])
      (endOf (frameActs (frameOfId 0).beats ++ ikernelActs ++ builderActs)) ∧
    (endOf (frameActs (frameOfId 0).beats ++ ikernelActs ++ builderActs)).egress.builder.out.length = 4 := by
  refine ⟨transparent_run Udp.leadingKeep concatenates_buffering (Arbiter.lawful_roundRobin 2 64)
    (workConserving_roundRobin 2 64) [] [frameOfId 0] (fun _ => [ikernelPacket]) ?_ ?_ _ ?_ ?_, ?_⟩
  · intro p q hq
    rw [List.mem_singleton.mp hq]
    exact ⟨by decide, by decide⟩
  · intro f hf
    have hf' : f = frameOfId 0 := List.mem_singleton.mp hf
    subst hf'
    refine ⟨by decide, by decide, ?_⟩
    intro b₀ b₁ hb
    cases hb
    decide
  · exact ⟨by decide +kernel, by decide +kernel⟩
  · intro p
    exact ⟨by decide +revert +kernel, by decide +revert +kernel⟩
  · decide +kernel

/-- A frame with an `id` of 1 leaves with an `id` of 0. -/
theorem not_transparent_frameOfId :
    Input [frameOfId 1] (endOf (frameActs (frameOfId 1).beats ++ builderActs)) ∧
    IkernelInput (fun _ => []) (endOf (frameActs (frameOfId 1).beats ++ builderActs)) ∧
    ¬Transparent Udp.leadingKeep [frameOfId 1] (fun _ => [])
      (endOf (frameActs (frameOfId 1).beats ++ builderActs)) := by
  have hout : (endOf (frameActs (frameOfId 1).beats ++ builderActs)).egress.builder.out =
      [⟨1, 0xffffffff, false, 0, 0⟩, ⟨2, 0xffffffff, true, 0, 0⟩] := by decide +kernel
  refine ⟨⟨by decide +kernel, by decide +kernel⟩, ?_, ?_⟩
  · intro p
    exact ⟨by decide +revert +kernel, by decide +revert +kernel⟩
  · rintro ⟨departed, hraw, hik, hpre, hsame, -⟩
    rw [hout] at hpre
    cases departed with
    | nil => exact absurd hpre (by simp)
    | cons d departed =>
      obtain ⟨d, beats⟩ := d
      cases d with
      | inl f =>
        -- the first frame to leave is the one that arrived, and its first beat has lost its `id`
        have hf : f = frameOfId 1 := (List.cons_prefix_cons.mp hraw).1
        subst hf
        have hfirst := hsame _ (List.mem_cons_self ..) _ rfl
        obtain ⟨c, cs, hc, -, hcs⟩ := List.forall₂_cons_left_iff.mp hfirst
        have hid := hc.id
        have hbeats : beats = c :: cs := hcs
        rw [List.flatMap_cons, hbeats, List.cons_append] at hpre
        rw [← (List.cons_prefix_cons.mp hpre).1] at hid
        exact absurd hid (by decide)
      | inr q =>
        obtain ⟨p, q⟩ := q
        have hp := hik p
        have hmem : q ∈ ikernelPackets p ((((.inr (p, q) : Departure 1), beats) :: departed).map Prod.fst) := by
          simp [ikernelPackets]
        exact absurd (hp.subset hmem) List.not_mem_nil

end Nica.Hls.PassthroughWrapper
