import Nica.Hls.Builder
import Nica.Lib.Owed

/-!
# What the builder transmits

For every packet the merger has one job (`job`), and what leaves the network port for it are the merged beats
with the fields of the network port, padded (`transmitted`).  The output is that of one packet after the other,
whatever the stalls (`sent_prefix`), and a builder that cannot move has transmitted everything that arrived
(`sent_eq`).
-/

namespace Nica.Hls.Builder

open Nica.Lib

variable {M : Merger AxiData}

/-! ### What is transmitted for a packet -/

/-- Whether the packet is a UDP packet, for which headers are made. -/
def isUdp (k : Packet) : Bool := k.metadata.pktType = pktTypeUdp

/-- The two beats of the headers of a packet. -/
def headerBeats (keepBytes : ℕ → BitVec 32) (k : Packet) : List AxiData :=
  let hdr := (metadataToHeader k.metadata).toBits
  [firstBeat hdr, secondBeat keepBytes (hdr.extractLsb' 0 80)]

/-- The beats of the headers behind the first one. -/
def headerRest (keepBytes : ℕ → BitVec 32) (k : Packet) : List AxiData :=
  if isUdp k then [secondBeat keepBytes ((metadataToHeader k.metadata).toBits.extractLsb' 0 80)] else []

/-- What the merger gets for a packet. -/
def job (keepBytes : ℕ → BitVec 32) (k : Packet) : Merger.Job AxiData where
  enable := isUdp k
  empty := isUdp k && (metadataToHeader k.metadata).udp.emptyPacket
  extra := if isUdp k then headerBeats keepBytes k else []
  data := k.beats

/-- A packet the builder can be given: the length of a UDP packet leaves room for its header, and a raw packet
has data. -/
structure Sendable (k : Packet) : Prop where
  udp : isUdp k = true → k.metadata.length.toNat ≤ 65527
  raw : isUdp k = false → k.metadata.emptyPacket = false

theorem emptyPacket_header {k : Packet} (h : k.metadata.length.toNat ≤ 65527) :
    (metadataToHeader k.metadata).udp.emptyPacket = k.metadata.emptyPacket := by
  have hlen : (8 + k.metadata.length : BitVec 16).toNat = 8 + k.metadata.length.toNat := by
    rw [BitVec.toNat_add]
    show (8 + k.metadata.length.toNat) % 65536 = _
    omega
  have hle : ((8 + k.metadata.length : BitVec 16) ≤ 8) ↔ k.metadata.length = 0 := by
    rw [BitVec.le_def, hlen, ← BitVec.toNat_inj]
    show 8 + k.metadata.length.toNat ≤ 8 ↔ k.metadata.length.toNat = 0
    omega
  rw [Bool.eq_iff_iff]
  exact decide_eq_true_iff.trans (hle.trans beq_iff_eq.symm)

theorem isPacket_headerBeats (keepBytes : ℕ → BitVec 32) (k : Packet) : IsPacket (headerBeats keepBytes k) := by
  refine ⟨[firstBeat (metadataToHeader k.metadata).toBits], _, rfl, rfl, ?_⟩
  intro b hb
  rw [List.mem_singleton.mp hb]
  rfl

theorem framed_job (keepBytes : ℕ → BitVec 32) {k : Packet} (h : Sendable k) :
    (job keepBytes k).Framed IsPacket where
  extra := by
    cases hu : isUdp k with
    | true => simpa [job, hu] using isPacket_headerBeats keepBytes k
    | false => simp [job, hu]
  data := by
    cases hu : isUdp k with
    | true =>
      have hempty : (job keepBytes k).empty = k.metadata.emptyPacket := by
        rw [job, hu, Bool.true_and]
        exact emptyPacket_header (h.udp hu)
      rw [hempty]
      exact k.framed
    | false =>
      have hempty : (job keepBytes k).empty = false := by rw [job, hu, Bool.false_and]
      rw [hempty]
      exact k.isPacket_beats (h.raw hu)

/-- What `pad` writes for the beats `bs` when its count is `c`. -/
def padFrom : BitVec 6 → List Axi4s → List Axi4s
  | _, [] => []
  | c, b :: bs => padBeat c b :: padFrom (nextCount c b) bs

variable (keepBytes : ℕ → BitVec 32) (merge : Merger.Job AxiData → List AxiData)

/-- The beats of a packet behind the merger, with the fields of the network port. -/
def joined (k : Packet) : List Axi4s := (merge (job keepBytes k)).map (joinMetadata ⟨0, 0⟩)

/-- The beats that leave the network port for a packet. -/
def transmitted (k : Packet) : List Axi4s := padFrom 0 (joined keepBytes merge k)

/-! ### Padding -/

theorem padFrom_append (c : BitVec 6) (xs ys : List Axi4s) :
    padFrom c (xs ++ ys) = padFrom c xs ++ padFrom (xs.foldl nextCount c) ys := by
  induction xs generalizing c with
  | nil => rfl
  | cons x xs ih => rw [List.cons_append, padFrom, ih, padFrom, List.foldl_cons, List.cons_append]

theorem padFrom_prefix {c : BitVec 6} {xs ys : List Axi4s} (h : xs <+: ys) : padFrom c xs <+: padFrom c ys := by
  obtain ⟨zs, rfl⟩ := h
  rw [padFrom_append]
  exact List.prefix_append _ _

/-- The count starts again behind a packet. -/
theorem foldl_nextCount {bs : List AxiData} (h : IsPacket bs) (m : MlxMetadata) (c : BitVec 6) :
    (bs.map (joinMetadata m)).foldl nextCount c = 0 := by
  obtain ⟨front, final, rfl, hlast, -⟩ := h
  rw [List.map_append, List.foldl_append, List.map_singleton, List.foldl_cons, List.foldl_nil]
  exact if_pos hlast

theorem padFrom_flatMap {f : Packet → List AxiData} {pkts : List Packet} (hf : ∀ k ∈ pkts, IsPacket (f k))
    (m : MlxMetadata) :
    padFrom 0 (pkts.flatMap fun k => (f k).map (joinMetadata m)) =
      pkts.flatMap fun k => padFrom 0 ((f k).map (joinMetadata m)) := by
  induction pkts with
  | nil => rfl
  | cons k pkts ih =>
    rw [List.flatMap_cons, List.flatMap_cons, padFrom_append, foldl_nextCount (hf k (List.mem_cons_self ..)),
      ih fun k' hk' => hf k' (List.mem_cons_of_mem _ hk')]

/-! ### The invariant -/

/-- What arrived is a prefix of the packets, metadata and data separately. -/
def Delivers (pkts : List Packet) (s : State M) : Prop :=
  s.headerIn.sent <+: pkts.map Packet.metadata ∧ s.merge.data.sent <+: pkts.flatMap Packet.beats

/-- What `hdrToMlx` has made of the metadata it has taken; `due` are the beats of headers still to come. -/
structure HdrTurn (pkts : List Packet) (s : State M) (due : List AxiData) : Prop where
  owed : Owed (fun k => (job keepBytes k).extra) pkts s.headerIn.past.length s.merge.extra.sent due
  idle : s.hdrState = .idle → due = []
  second : s.hdrState = .second → due = [secondBeat keepBytes s.buffer]

/-- What `joinPacketMetadata` has taken from the merger; `due` are the beats of its packet still to come. -/
structure JoinTurn (pkts : List Packet) (s : State M) (due : List AxiData) : Prop where
  owed : Owed (fun k => merge (job keepBytes k)) pkts s.mlxMetadata.past.length s.merge.out.past due
  idle : s.joinState = .idle → due = []
  stream : s.joinState = .stream → IsPacket due

structure Inv (pkts : List Packet) (s : State M) : Prop where
  reachable : Reachable Merger.step (Merger.State.init M) s.merge
  empties : s.merge.empty.sent = (pkts.take s.headerIn.past.length).map fun k => (job keepBytes k).empty
  enables : s.merge.enable.sent = (pkts.take s.headerIn.past.length).map fun k => (job keepBytes k).enable
  zeros : ∀ x ∈ s.mlxMetadata.sent, x = ⟨0, 0⟩
  metas : s.mlxMetadata.sent.length = s.headerIn.past.length
  hdrTurn : ∃ due, HdrTurn keepBytes pkts s due
  joinTurn : ∃ due, JoinTurn keepBytes merge pkts s due
  m : s.m = ⟨0, 0⟩
  registers : s.rawReorderToReg.sent = s.merge.out.past.map (joinMetadata ⟨0, 0⟩)
  linked : s.rawBuilderToPad.sent ++ s.reg.toList = s.rawReorderToReg.past
  out : s.out = padFrom 0 s.rawBuilderToPad.past
  beatCount : s.beatCount = s.rawBuilderToPad.past.foldl nextCount 0

theorem inv_init (pkts : List Packet) : Inv keepBytes merge pkts (State.init M) where
  reachable := .refl _ _
  empties := rfl
  enables := rfl
  zeros := by intro x hx; cases hx
  metas := rfl
  hdrTurn := ⟨[], Owed.zero _ _, fun _ => rfl, fun h => by cases h⟩
  joinTurn := ⟨[], Owed.zero _ _, fun _ => rfl, fun h => by cases h⟩
  m := rfl
  registers := rfl
  linked := rfl
  out := rfl
  beatCount := rfl

variable {keepBytes merge} {pkts : List Packet} {s : State M}

/-- The merger gets the jobs of the packets. -/
theorem Inv.delivers (h : Inv keepBytes merge pkts s) (hdel : Delivers pkts s) :
    Merger.Delivers (pkts.map (job keepBytes)) s.merge where
  extra := by
    obtain ⟨due, hturn⟩ := h.hdrTurn
    rw [List.flatMap_map]
    exact hturn.owed.done_prefix_pieces
  empty := by
    rw [h.empties, List.map_map]
    exact map_take_isPrefix _ _ _
  enable := by
    rw [h.enables, List.map_map]
    exact map_take_isPrefix _ _ _
  data := by
    rw [List.flatMap_map]
    exact hdel.2

theorem framed_jobs (hsend : ∀ k ∈ pkts, Sendable k) : ∀ j ∈ pkts.map (job keepBytes), j.Framed IsPacket := by
  intro j hj
  obtain ⟨k, hk, rfl⟩ := List.mem_map.mp hj
  exact framed_job keepBytes (hsend k hk)

section Contract

variable (hM : M.Concatenates IsPacket merge) (hsend : ∀ k ∈ pkts, Sendable k)
include hM hsend

theorem Inv.merged_prefix (h : Inv keepBytes merge pkts s) (hdel : Delivers pkts s) :
    s.merge.out.sent <+: pkts.flatMap fun k => merge (job keepBytes k) := by
  have hpre := hM.sent_prefix h.reachable (framed_jobs hsend) (h.delivers hdel)
  rwa [List.flatMap_map] at hpre

/-- There are merged beats for every packet. -/
theorem isPacket_merged (keepBytes : ℕ → BitVec 32) {k : Packet} (hk : k ∈ pkts) :
    IsPacket (merge (job keepBytes k)) := by
  cases hu : isUdp k with
  | true => exact hM.isPacket_merge _ (framed_job keepBytes (hsend k hk)) hu
  | false =>
    rw [hM.merge_of_disabled _ hu]
    exact k.isPacket_beats ((hsend k hk).raw hu)

end Contract

/-! ### The steps -/

theorem JoinTurn.congr {s' : State M} {due : List AxiData} (h : JoinTurn keepBytes merge pkts s due)
    (hmetas : s'.mlxMetadata.past = s.mlxMetadata.past) (hout : s'.merge.out.past = s.merge.out.past)
    (hstate : s'.joinState = s.joinState) : JoinTurn keepBytes merge pkts s' due where
  owed := by rw [hmetas, hout]; exact h.owed
  idle := by rw [hstate]; exact h.idle
  stream := by rw [hstate]; exact h.stream

theorem HdrTurn.congr {s' : State M} {due : List AxiData} (h : HdrTurn keepBytes pkts s due)
    (hpast : s'.headerIn.past = s.headerIn.past) (hextra : s'.merge.extra.sent = s.merge.extra.sent)
    (hstate : s'.hdrState = s.hdrState) (hbuffer : s'.buffer = s.buffer) : HdrTurn keepBytes pkts s' due where
  owed := by rw [hpast, hextra]; exact h.owed
  idle := by rw [hstate]; exact h.idle
  second := by rw [hstate, hbuffer]; exact h.second

/-- What `hdrToMlx` writes to the merger when it takes a metadata. -/
theorem reachable_hdrToMlx {t : Merger.State M} (h : Reachable Merger.step (Merger.State.init M) t)
    (x : Option AxiData) (e n : Bool) :
    Reachable Merger.step (Merger.State.init M)
      { t with extra := t.extra.put x, empty := t.empty.write e, enable := t.enable.write n } := by
  cases x with
  | none =>
    rw [Fifo.put_none]
    exact (h.next (.empty e)).next (.enable n)
  | some x => exact ((h.next (.extra x)).next (.empty e)).next (.enable n)

/-- The beats of the headers that are due once the first one is written. -/
theorem hdrTurn_start {k : Packet} {n : ℕ} (hk : pkts[n]? = some k) {done : List AxiData}
    (howed : Owed (fun k => (job keepBytes k).extra) pkts n done []) :
    Owed (fun k => (job keepBytes k).extra) pkts (n + 1)
      (done ++ (if isUdp k then some (firstBeat (metadataToHeader k.metadata).toBits) else none).toList)
      (headerRest keepBytes k) := by
  have hstart := howed.start hk
  unfold headerRest
  cases hu : isUdp k with
  | true =>
    have hextra : (job keepBytes k).extra = headerBeats keepBytes k := by rw [job, hu, if_pos rfl]
    rw [hextra] at hstart
    exact hstart.advance
  | false =>
    have hextra : (job keepBytes k).extra = [] := by rw [job, hu]; rfl
    rw [hextra] at hstart
    simpa using hstart

theorem inv_hdrToMlx (hdel : Delivers pkts s) (h : Inv keepBytes merge pkts s) (full : Bool) :
    Inv keepBytes merge pkts (hdrToMlx keepBytes full s) := by
  obtain ⟨due, hturn⟩ := h.hdrTurn
  obtain ⟨jdue, hjoin⟩ := h.joinTurn
  unfold hdrToMlx
  cases hstate : s.hdrState with
  | idle =>
    cases hhead : s.headerIn.head with
    | none => exact h
    | some m =>
      cases full with
      | true => exact h
      | false =>
        have hlen := s.headerIn.length_past_readIf_true hhead
        obtain ⟨k, hk, rfl⟩ := exists_item ((s.headerIn.past_snoc_prefix_sent hhead).trans hdel.1)
        have hdue := hturn.idle hstate
        subst hdue
        have hstart := hdrTurn_start hk hturn.owed
        exact { h with
          reachable := reachable_hdrToMlx h.reachable _ _ _
          empties := by
            show (s.merge.empty.write _).sent = (pkts.take (s.headerIn.readIf true).past.length).map _
            rw [Fifo.sent_write, h.empties, hlen, take_succ_eq hk, List.map_append]
            rfl
          enables := by
            show (s.merge.enable.write _).sent = (pkts.take (s.headerIn.readIf true).past.length).map _
            rw [Fifo.sent_write, h.enables, hlen, take_succ_eq hk, List.map_append]
            rfl
          zeros := by
            intro x hx
            have hx' : x ∈ s.mlxMetadata.sent ++ [⟨0, 0⟩] := by rwa [← Fifo.sent_write]
            rcases List.mem_append.mp hx' with hx' | hx'
            · exact h.zeros x hx'
            · exact List.mem_singleton.mp hx'
          metas := by
            show (s.mlxMetadata.write _).sent.length = (s.headerIn.readIf true).past.length
            rw [Fifo.sent_write, List.length_append, h.metas, hlen, List.length_singleton]
          hdrTurn := by
            refine ⟨headerRest keepBytes k, ?_, ?_, ?_⟩
            · show Owed _ pkts (s.headerIn.readIf true).past.length (s.merge.extra.put _).sent _
              rw [hlen, Fifo.sent_put]
              exact hstart
            · intro hidle
              change (if isUdp k then HdrState.second else HdrState.idle) = HdrState.idle at hidle
              cases hu : isUdp k with
              | true => rw [hu] at hidle; cases hidle
              | false => rw [headerRest, hu]; rfl
            · intro hsecond
              change (if isUdp k then HdrState.second else HdrState.idle) = HdrState.second at hsecond
              cases hu : isUdp k with
              | true => rw [headerRest, hu]; rfl
              | false => rw [hu] at hsecond; cases hsecond
          joinTurn := ⟨jdue, hjoin.congr rfl rfl rfl⟩ }
  | second =>
    cases full with
    | true => exact h
    | false =>
      have hdue := hturn.second hstate
      subst hdue
      exact { h with
        reachable := h.reachable.next (.extra _)
        hdrTurn := by
          refine ⟨[], ?_, fun _ => rfl, fun hc => by cases hc⟩
          show Owed _ pkts s.headerIn.past.length (s.merge.extra.write _).sent []
          rw [Fifo.sent_write]
          exact hturn.owed.advance
        joinTurn := ⟨jdue, hjoin.congr rfl rfl rfl⟩ }

theorem inv_reorder (h : Inv keepBytes merge pkts s) (full : Bool) :
    Inv keepBytes merge pkts { s with merge := Merger.step s.merge (.reorder full) } := by
  obtain ⟨due, hturn⟩ := h.hdrTurn
  obtain ⟨jdue, hjoin⟩ := h.joinTurn
  exact { h with
    reachable := h.reachable.next (.reorder full)
    empties := (Fifo.sent_readIf _ _).trans h.empties
    enables := (Fifo.sent_readIf _ _).trans h.enables
    hdrTurn := ⟨due, hturn.congr rfl (Fifo.sent_readIf _ _) rfl rfl⟩
    joinTurn := ⟨jdue, hjoin.congr rfl rfl rfl⟩ }

theorem inv_joinPacketMetadata (hM : M.Concatenates IsPacket merge) (hsend : ∀ k ∈ pkts, Sendable k)
    (hdel : Delivers pkts s) (h : Inv keepBytes merge pkts s) (full : Bool) :
    Inv keepBytes merge pkts (joinPacketMetadata full s) := by
  obtain ⟨due, hturn⟩ := h.hdrTurn
  obtain ⟨jdue, hjoin⟩ := h.joinTurn
  unfold joinPacketMetadata
  cases hstate : s.joinState with
  | idle =>
    cases hhead : s.mlxMetadata.head with
    | none => exact h
    | some m =>
      have hlen := s.mlxMetadata.length_past_readIf_true hhead
      have hmem : m ∈ s.mlxMetadata.sent :=
        (s.mlxMetadata.past_snoc_prefix_sent hhead).subset (List.mem_append_right _ (List.mem_singleton_self m))
      -- the metadata that it takes was made for a packet
      have hlt : s.mlxMetadata.past.length < pkts.length := by
        have h₁ := (s.mlxMetadata.past_snoc_prefix_sent hhead).length_le
        have h₂ := (s.headerIn.past_prefix_sent.trans hdel.1).length_le
        rw [List.length_append, List.length_singleton, h.metas] at h₁
        rw [List.length_map] at h₂
        omega
      have hk := List.getElem?_eq_getElem hlt
      have hdue := hjoin.idle hstate
      subst hdue
      exact { h with
        zeros := by
          intro x hx
          exact h.zeros x (by rwa [← Fifo.sent_readIf s.mlxMetadata true])
        metas := by
          show (s.mlxMetadata.readIf true).sent.length = _
          rw [Fifo.sent_readIf]
          exact h.metas
        m := h.zeros m hmem
        hdrTurn := ⟨due, hturn.congr rfl rfl rfl rfl⟩
        joinTurn := by
          refine ⟨merge (job keepBytes pkts[s.mlxMetadata.past.length]), ?_, (by intro hc; cases hc), fun _ => ?_⟩
          · show Owed _ pkts (s.mlxMetadata.readIf true).past.length s.merge.out.past _
            rw [hlen]
            exact hjoin.owed.start hk
          · exact isPacket_merged hM hsend keepBytes (List.getElem_mem hlt) }
  | stream =>
    cases hhead : s.merge.out.head with
    | none => exact h
    | some d =>
      cases full with
      | true => exact h
      | false =>
        have hpacket := hjoin.stream hstate
        obtain ⟨b, jdue, rfl⟩ := List.exists_cons_of_ne_nil hpacket.ne_nil
        have hd := hjoin.owed.head_eq (h.merged_prefix hM hsend hdel) hhead
        subst hd
        have hpast := s.merge.out.past_readIf_true hhead
        exact { h with
          reachable := h.reachable.next .takeOut
          registers := by
            show (s.rawReorderToReg.write _).sent = (s.merge.out.readIf true).past.map _
            rw [Fifo.sent_write, h.registers, hpast, List.map_append, h.m]
            rfl
          hdrTurn := ⟨due, hturn.congr rfl rfl rfl rfl⟩
          joinTurn := by
            refine ⟨jdue, ?_, ?_, ?_⟩
            · show Owed _ pkts s.mlxMetadata.past.length (s.merge.out.readIf true).past jdue
              rw [hpast]
              exact hjoin.owed.advance
            · intro hidle
              cases hl : d.last with
              | true => exact (isPacket_cons hpacket).1 hl
              | false => simp [hl] at hidle
            · intro hstream
              cases hl : d.last with
              | true => simp [hl] at hstream
              | false => exact (isPacket_cons hpacket).2 hl }

theorem inv_link (h : Inv keepBytes merge pkts s) (full : Bool) : Inv keepBytes merge pkts (link full s) := by
  obtain ⟨due, hturn⟩ := h.hdrTurn
  obtain ⟨jdue, hjoin⟩ := h.joinTurn
  unfold link
  split_ifs with hwait
  · exact h
  · exact { h with
      registers := (Fifo.sent_readIf _ _).trans h.registers
      linked := by
        show (s.rawBuilderToPad.put s.reg).sent ++ s.rawReorderToReg.head.toList = _
        rw [Fifo.sent_put, h.linked]
        exact (past_readIf_dup s.rawReorderToReg false).symm
      hdrTurn := ⟨due, hturn.congr rfl rfl rfl rfl⟩
      joinTurn := ⟨jdue, hjoin.congr rfl rfl rfl⟩ }

theorem inv_pad (h : Inv keepBytes merge pkts s) (full : Bool) : Inv keepBytes merge pkts (pad full s) := by
  obtain ⟨due, hturn⟩ := h.hdrTurn
  obtain ⟨jdue, hjoin⟩ := h.joinTurn
  unfold pad
  cases hhead : s.rawBuilderToPad.head with
  | none => exact h
  | some beat =>
    cases full with
    | true => exact h
    | false =>
      have hpast := s.rawBuilderToPad.past_readIf_true hhead
      exact { h with
        linked := by
          show (s.rawBuilderToPad.readIf true).sent ++ _ = _
          rw [Fifo.sent_readIf]
          exact h.linked
        out := by
          show s.out ++ [padBeat s.beatCount beat] = padFrom 0 (s.rawBuilderToPad.readIf true).past
          rw [hpast, padFrom_append, ← h.beatCount, h.out]
          rfl
        beatCount := by
          show nextCount s.beatCount beat = (s.rawBuilderToPad.readIf true).past.foldl nextCount 0
          rw [hpast, List.foldl_append, ← h.beatCount]
          rfl
        hdrTurn := ⟨due, hturn.congr rfl rfl rfl rfl⟩
        joinTurn := ⟨jdue, hjoin.congr rfl rfl rfl⟩ }

theorem inv_step (hM : M.Concatenates IsPacket merge) (hsend : ∀ k ∈ pkts, Sendable k) (hdel : Delivers pkts s)
    (h : Inv keepBytes merge pkts s) (a : Act) : Inv keepBytes merge pkts (step keepBytes s a) := by
  obtain ⟨due, hturn⟩ := h.hdrTurn
  obtain ⟨jdue, hjoin⟩ := h.joinTurn
  cases a with
  | call c =>
    cases c with
    | hdrToMlx full => exact inv_hdrToMlx hdel h full
    | reorder full => exact inv_reorder h full
    | joinPacketMetadata full => exact inv_joinPacketMetadata hM hsend hdel h full
    | link full => exact inv_link h full
    | pad full => exact inv_pad h full
  | arriveMeta m =>
    exact { h with
      hdrTurn := ⟨due, hturn.congr rfl rfl rfl rfl⟩
      joinTurn := ⟨jdue, hjoin.congr rfl rfl rfl⟩ }
  | arriveData b =>
    exact { h with
      reachable := h.reachable.next (.data b)
      hdrTurn := ⟨due, hturn.congr rfl rfl rfl rfl⟩
      joinTurn := ⟨jdue, hjoin.congr rfl rfl rfl⟩ }

/-! ### Progress -/

/-- No unit can move before something arrives. -/
def Settled (keepBytes : ℕ → BitVec 32) (s : State M) : Prop :=
  hdrToMlx keepBytes false s = s ∧ Merger.step s.merge (.reorder false) = s.merge ∧
    joinPacketMetadata false s = s ∧ link false s = s ∧ pad false s = s

namespace Settled

theorem hdrToMlx (h : Settled keepBytes s) : s.hdrState = .idle ∧ s.headerIn.head = none := by
  have hstep := h.1
  unfold Builder.hdrToMlx at hstep
  cases hstate : s.hdrState with
  | idle =>
    refine ⟨rfl, ?_⟩
    cases hhead : s.headerIn.head with
    | none => rfl
    | some m =>
      simp only [hstate, hhead] at hstep
      rw [← hhead]
      exact Fifo.head_eq_none_of_readIf _ (congrArg State.headerIn hstep)
  | second =>
    simp only [hstate] at hstep
    have hidle : HdrState.idle = s.hdrState := congrArg State.hdrState hstep
    rw [hstate] at hidle
    cases hidle

/-- `joinPacketMetadata` waits for a packet or for its beats. -/
theorem joinPacketMetadata (h : Settled keepBytes s) :
    (s.joinState = .idle ∧ s.mlxMetadata.head = none) ∨ (s.joinState = .stream ∧ s.merge.out.head = none) := by
  have hstep := h.2.2.1
  unfold Builder.joinPacketMetadata at hstep
  cases hstate : s.joinState with
  | idle =>
    refine .inl ⟨rfl, ?_⟩
    cases hhead : s.mlxMetadata.head with
    | none => rfl
    | some m =>
      simp only [hstate, hhead] at hstep
      rw [← hhead]
      exact Fifo.head_eq_none_of_readIf _ (congrArg State.mlxMetadata hstep)
  | stream =>
    refine .inr ⟨rfl, ?_⟩
    cases hhead : s.merge.out.head with
    | none => rfl
    | some d =>
      simp only [hstate, hhead] at hstep
      rw [← hhead]
      exact Fifo.head_eq_none_of_readIf _ (congrArg (fun t => t.merge.out) hstep)

theorem link (h : Settled keepBytes s) : s.reg = none ∧ s.rawReorderToReg.head = none := by
  have hstep := h.2.2.2.1
  rw [Builder.link, Bool.and_false, if_neg Bool.false_ne_true] at hstep
  have hhead : s.rawReorderToReg.head = none := by
    cases hhead : s.rawReorderToReg.head with
    | none => rfl
    | some beat =>
      rw [hhead] at hstep
      rw [← hhead]
      exact Fifo.head_eq_none_of_readIf _ (congrArg State.rawReorderToReg hstep)
  exact ⟨(congrArg State.reg hstep).symm.trans hhead, hhead⟩

theorem pad (h : Settled keepBytes s) : s.rawBuilderToPad.head = none := by
  have hstep := h.2.2.2.2
  unfold Builder.pad at hstep
  cases hhead : s.rawBuilderToPad.head with
  | none => rfl
  | some beat =>
    simp only [hhead] at hstep
    rw [← hhead]
    exact Fifo.head_eq_none_of_readIf _ (congrArg State.rawBuilderToPad hstep)

end Settled

section Contract

variable (hM : M.Concatenates IsPacket merge) (hsend : ∀ k ∈ pkts, Sendable k)
include hM hsend

/-- What was written is that of one packet after the other. -/
theorem Inv.out_prefix (h : Inv keepBytes merge pkts s) (hdel : Delivers pkts s) :
    s.out <+: pkts.flatMap (transmitted keepBytes merge) := by
  have hpad : s.rawBuilderToPad.past <+: s.rawReorderToReg.past := by
    rw [← h.linked]
    exact s.rawBuilderToPad.past_prefix_sent.trans (List.prefix_append _ _)
  have hjoin : s.rawReorderToReg.sent <+: pkts.flatMap (joined keepBytes merge) := by
    rw [h.registers]
    have hmap := (s.merge.out.past_prefix_sent.trans (h.merged_prefix hM hsend hdel)).map
      (joinMetadata (⟨0, 0⟩ : MlxMetadata))
    rwa [List.map_flatMap] at hmap
  have hall := padFrom_prefix (c := 0) (hpad.trans (s.rawReorderToReg.past_prefix_sent.trans hjoin))
  rw [← h.out] at hall
  have heq := padFrom_flatMap (fun k hk => isPacket_merged hM hsend keepBytes hk) ⟨0, 0⟩
  exact hall.trans (heq ▸ List.prefix_refl _)

/-- When everything has arrived and no unit can move, every packet was transmitted. -/
theorem Inv.out_eq (h : Inv keepBytes merge pkts s) (hset : Settled keepBytes s)
    (hmetas : s.headerIn.sent = pkts.map Packet.metadata) (hdata : s.merge.data.sent = pkts.flatMap Packet.beats) :
    s.out = pkts.flatMap (transmitted keepBytes merge) := by
  have hdel : Delivers pkts s := ⟨hmetas ▸ List.prefix_refl _, hdata ▸ List.prefix_refl _⟩
  obtain ⟨hidle, hhead⟩ := hset.hdrToMlx
  have hlen : s.headerIn.past.length = pkts.length := by
    rw [Fifo.past_eq_sent _ hhead, hmetas, List.length_map]
  obtain ⟨due, hturn⟩ := h.hdrTurn
  have hdue := hturn.idle hidle
  subst hdue
  have harrived : Merger.Arrived (pkts.map (job keepBytes)) s.merge :=
    { extra := by
        rw [List.flatMap_map]
        exact hturn.owed.done_eq hlen.ge
      empty := by rw [h.empties, hlen, List.take_length, List.map_map]; rfl
      enable := by rw [h.enables, hlen, List.take_length, List.map_map]; rfl
      data := by rw [List.flatMap_map]; exact hdata }
  have hmerged : s.merge.out.sent = pkts.flatMap fun k => merge (job keepBytes k) := by
    have heq := hM.sent_eq h.reachable (framed_jobs hsend) harrived hset.2.1
    rwa [List.flatMap_map] at heq
  -- the join has taken every beat of the merger
  have hpast : s.merge.out.past = pkts.flatMap fun k => merge (job keepBytes k) := by
    obtain ⟨jdue, hjoin⟩ := h.joinTurn
    rcases hset.joinPacketMetadata with ⟨hstate, hnone⟩ | ⟨hstate, hnone⟩
    · have hdue := hjoin.idle hstate
      subst hdue
      have htaken : pkts.length ≤ s.mlxMetadata.past.length := by
        rw [Fifo.past_eq_sent _ hnone, h.metas, hlen]
      exact hjoin.owed.done_eq htaken
    · rw [Fifo.past_eq_sent _ hnone, hmerged]
  obtain ⟨hreg, hnone⟩ := hset.link
  have hpad : s.rawBuilderToPad.past = pkts.flatMap (joined keepBytes merge) := by
    have hlinked := h.linked
    rw [hreg, Option.toList_none, List.append_nil, Fifo.past_eq_sent _ hnone, h.registers, hpast,
      List.map_flatMap] at hlinked
    rw [Fifo.past_eq_sent _ hset.pad]
    exact hlinked
  rw [h.out, hpad]
  exact padFrom_flatMap (fun k hk => isPacket_merged hM hsend keepBytes hk) ⟨0, 0⟩

end Contract

/-! ### Runs -/

/-- A call does not change what arrived. -/
theorem sent_call (keepBytes : ℕ → BitVec 32) (s : State M) (c : Call) :
    (call keepBytes s c).headerIn.sent = s.headerIn.sent ∧
      (call keepBytes s c).merge.data.sent = s.merge.data.sent := by
  cases c with
  | hdrToMlx full =>
    simp only [call, hdrToMlx]
    split
    · split
      · exact ⟨rfl, rfl⟩
      · split
        · exact ⟨rfl, rfl⟩
        · exact ⟨Fifo.sent_readIf _ _, rfl⟩
    · split <;> exact ⟨rfl, rfl⟩
  | reorder full => exact ⟨rfl, Fifo.sent_readIf _ _⟩
  | joinPacketMetadata full =>
    simp only [call, joinPacketMetadata]
    split
    · split <;> exact ⟨rfl, rfl⟩
    · split
      · exact ⟨rfl, rfl⟩
      · split <;> exact ⟨rfl, rfl⟩
  | link full =>
    simp only [call, link]
    split <;> exact ⟨rfl, rfl⟩
  | pad full =>
    simp only [call, pad]
    split
    · exact ⟨rfl, rfl⟩
    · split <;> exact ⟨rfl, rfl⟩

/-- What arrived before a step arrived after it. -/
theorem sent_prefix_step (keepBytes : ℕ → BitVec 32) (s : State M) (a : Act) :
    s.headerIn.sent <+: (step keepBytes s a).headerIn.sent ∧
      s.merge.data.sent <+: (step keepBytes s a).merge.data.sent := by
  cases a with
  | call c =>
    obtain ⟨hmetas, hdata⟩ := sent_call keepBytes s c
    exact ⟨hmetas ▸ List.prefix_refl _, hdata ▸ List.prefix_refl _⟩
  | arriveMeta m => exact ⟨by simp [step], List.prefix_refl _⟩
  | arriveData b => exact ⟨List.prefix_refl _, by simp [step, Merger.step]⟩

theorem Delivers.of_step (a : Act) (h : Delivers pkts (step keepBytes s a)) : Delivers pkts s :=
  ⟨(sent_prefix_step keepBytes s a).1.trans h.1, (sent_prefix_step keepBytes s a).2.trans h.2⟩

/-- The invariant holds in every state of a run to which packets are delivered. -/
theorem inv_of_reachable (hM : M.Concatenates IsPacket merge) (hsend : ∀ k ∈ pkts, Sendable k)
    (hs : Reachable (step keepBytes) (State.init M) s) (hdel : Delivers pkts s) :
    Inv keepBytes merge pkts s := by
  obtain ⟨acts, rfl⟩ := hs
  revert hdel
  apply run_invariant (P := fun s => Delivers pkts s → Inv keepBytes merge pkts s)
  · intro s a ih h
    have hbefore := h.of_step a
    exact inv_step hM hsend hbefore (ih hbefore) a
  · intro _
    exact inv_init keepBytes merge pkts

end Nica.Hls.Builder
