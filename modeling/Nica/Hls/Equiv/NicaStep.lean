import Nica.Hls.NicaStep
import Nica.Hls.Equiv.ArbiterOrder
import Nica.Hls.Equiv.Demux
import Nica.Hls.Equiv.Egress
import Nica.Hls.Equiv.SteeringWhole

/-!
# The streams of one direction

`Lane.Carries` says that a stream through the ikernel is what was read from it at the wrapper.  `Linked` says the same of
every stream between two units of `nica_step`: each unit has taken steps of its own only, and what arrived at it is what
the one before it has written, or what the link between them has read there.  Every step keeps it (`linked_step`).
-/

namespace Nica.Hls.NicaStep

open Nica.Lib

/-! ### The streams of the ikernel -/

section Lanes

variable {α : Type}

@[simp]
theorem sent_run_write (f : Fifo α) (xs : List α) : (run Fifo.write f xs).sent = f.sent ++ xs := by
  induction xs generalizing f with
  | nil => exact (List.append_nil _).symm
  | cons x xs ih => rw [run_cons, ih, Fifo.sent_write, List.append_assoc, List.singleton_append]

@[simp]
theorem past_run_write (f : Fifo α) (xs : List α) : (run Fifo.write f xs).past = f.past := by
  induction xs generalizing f with
  | nil => rfl
  | cons x xs ih => exact ih (f.write x)

namespace Lane

/-- Each stream is what was read from the one before it; `out` is what the last link has written. -/
structure Carries (l : Lane α) (out : List α) : Prop where
  input : l.input.sent ++ l.linkInput.toList = l.bufInput.past
  output : l.output.sent ++ l.held.toList = l.input.past
  written : out ++ l.linkOutput.toList = l.output.past

theorem carries_init : (init : Lane α).Carries [] := ⟨rfl, rfl, rfl⟩

variable {l : Lane α} {out : List α}

/-- What arrives at the wrapper has not been read. -/
theorem Carries.arrive (h : l.Carries out) {f : Fifo α} (hf : f.past = l.bufInput.past) :
    { l with bufInput := f }.Carries out :=
  ⟨h.input.trans hf.symm, h.output, h.written⟩

theorem Carries.callLinkInput (h : l.Carries out) (full : Bool) : (l.callLinkInput full).Carries out := by
  unfold Lane.callLinkInput
  split_ifs
  · exact h
  · refine ⟨?_, h.output, h.written⟩
    show (l.input.put l.linkInput).sent ++ _ = (l.bufInput.readIf _).past
    rw [Fifo.sent_put, h.input, past_readIf_head]

theorem Carries.copy (h : l.Carries out) (full : Bool) : (l.copy full).1.Carries out := by
  unfold Lane.copy
  cases hheld : l.held with
  | none =>
    have houtput := h.output
    rw [hheld, Option.toList_none, List.append_nil] at houtput
    refine ⟨?_, ?_, h.written⟩
    · show (l.input.readIf _).sent ++ _ = _
      rw [Fifo.sent_readIf]
      exact h.input
    · show l.output.sent ++ _ = (l.input.readIf _).past
      rw [houtput, past_readIf_head]
  | some x =>
    cases full with
    | true => exact h
    | false =>
      refine ⟨h.input, ?_, h.written⟩
      show (l.output.write x).sent ++ [] = l.input.past
      rw [Fifo.sent_write, List.append_nil, ← h.output, hheld]
      rfl

theorem Carries.callLinkOutput (h : l.Carries out) (full : Bool) :
    (l.callLinkOutput full).1.Carries (out ++ (l.callLinkOutput full).2.toList) := by
  unfold Lane.callLinkOutput
  split_ifs
  · rw [Option.toList_none, List.append_nil]
    exact h
  · refine ⟨h.input, ?_, ?_⟩
    · show (l.output.readIf _).sent ++ _ = _
      rw [Fifo.sent_readIf]
      exact h.output
    · show (out ++ _) ++ _ = (l.output.readIf _).past
      rw [h.written, past_readIf_head]

theorem Carries.out_prefix (h : l.Carries out) : out <+: l.bufInput.sent := by
  have h₁ : out <+: l.output.past := ⟨_, h.written⟩
  have h₂ : l.output.sent <+: l.input.past := ⟨_, h.output⟩
  have h₃ : l.input.sent <+: l.bufInput.past := ⟨_, h.input⟩
  have h₄ := l.output.past_prefix_sent.trans (h₂.trans (l.input.past_prefix_sent.trans h₃))
  exact h₁.trans (h₄.trans l.bufInput.past_prefix_sent)

/-- Nothing is left on the way. -/
structure Empty (l : Lane α) : Prop where
  bufInput : l.bufInput.head = none
  linkInput : l.linkInput = none
  input : l.input.head = none
  held : l.held = none
  output : l.output.head = none
  linkOutput : l.linkOutput = none

theorem Carries.out_eq (h : l.Carries out) (hempty : l.Empty) : out = l.bufInput.sent := by
  obtain ⟨hinput, houtput, hwritten⟩ := h
  rw [hempty.linkInput, Option.toList_none, List.append_nil, l.bufInput.past_eq_sent hempty.bufInput] at hinput
  rw [hempty.held, Option.toList_none, List.append_nil, l.input.past_eq_sent hempty.input] at houtput
  rw [hempty.linkOutput, Option.toList_none, List.append_nil, l.output.past_eq_sent hempty.output] at hwritten
  rw [hwritten, houtput, hinput]

end Lane

end Lanes

/-! ### The ports of the traffic classes -/

section Ports

variable {k : ℕ} {N : Arbiter.Ntl (k + 1)} {M : Merger AxiData}

/-- The same has arrived at the ports of the ikernels. -/
def SamePorts (e e' : Egress.State (k + 1) N M) : Prop :=
  ∀ p : Fin k, (e'.arbiter.tcMeta p.castSucc).sent = (e.arbiter.tcMeta p.castSucc).sent ∧
    (e'.arbiter.tcData p.castSucc).sent = (e.arbiter.tcData p.castSucc).sent

theorem SamePorts.refl (e : Egress.State (k + 1) N M) : SamePorts e e := fun _ => ⟨rfl, rfl⟩

/-- Only an arrival changes what has arrived. -/
theorem samePorts_egress (keepBytes : ℕ → BitVec 32) (e : Egress.State (k + 1) N M) {a : Egress.Act (k + 1)}
    (ha : isTcArrival (.wrapper (.egress a)) = false) : SamePorts e (Egress.step keepBytes e a) := by
  intro p
  cases a with
  | builder c => exact ⟨rfl, rfl⟩
  | arbiter a =>
    cases a with
    | pickNextPacket gateway full => exact Arbiter.sameSent_pickNextPacket gateway full e.arbiter p.castSucc
    | schedulePorts full => exact Arbiter.sameSent_schedulePorts full e.arbiter p.castSucc
    | updatePeek => exact Arbiter.sameSent_updatePeek e.arbiter p.castSucc
    | txMeta st => exact Arbiter.sameSent_txMeta st e.arbiter p.castSucc
    | txData full => exact Arbiter.sameSent_txData full e.arbiter p.castSucc
    | arriveMeta p m => cases ha
    | arriveData p word => cases ha

/-- `passthrough_wrapper` writes to the last class. -/
theorem samePorts_writeTc (keepBytes : ℕ → BitVec 32) (data : Option AxiData) (meta_ : Option Metadata)
    (e : Egress.State (k + 1) N M) : SamePorts e (PassthroughWrapper.writeTc keepBytes data meta_ e) := by
  intro p
  have hne : p.castSucc ≠ Fin.last k := (Fin.castSucc_lt_last p).ne
  obtain ⟨hdata, hmeta⟩ := PassthroughWrapper.sent_writeTc keepBytes data meta_ e p.castSucc
  rw [if_neg hne, List.append_nil] at hdata hmeta
  exact ⟨hmeta, hdata⟩

theorem samePorts_wrapperStep (keepBytes : ℕ → BitVec 32) (full : Bool) (s : PassthroughWrapper.State k N M) :
    SamePorts s.egress (PassthroughWrapper.wrapperStep keepBytes full s).egress := by
  unfold PassthroughWrapper.wrapperStep
  split
  · split
    · cases full with
      | true => exact .refl _
      | false => exact samePorts_writeTc keepBytes _ _ s.egress
    · exact .refl _
  · split
    · cases full with
      | true => exact .refl _
      | false => exact samePorts_writeTc keepBytes _ _ s.egress
    · exact .refl _

theorem samePorts_wrapper (keepBytes : ℕ → BitVec 32) (s : PassthroughWrapper.State k N M) {a : PassthroughWrapper.Act k}
    (ha : isTcArrival (.wrapper a) = false) : SamePorts s.egress (PassthroughWrapper.step keepBytes s a).egress := by
  cases a with
  | arriveRaw w => exact .refl _
  | arrivePass pass => exact .refl _
  | wrapperStep full => exact samePorts_wrapperStep keepBytes full s
  | egress a =>
    simp only [PassthroughWrapper.step]
    split_ifs
    · exact .refl _
    · exact samePorts_egress keepBytes _ ha

variable {n : ℕ} {E : Steering.EnumFirst} (keepBytes : ℕ → BitVec 32) (table : FlowTable.Table)

/-- What reaches the wrapper from the steering leaves the units behind it alone. -/
theorem egress_arrivals (s : PassthroughWrapper.State k N M) (ws : List Axi4s) (bs : List Bool) :
    (run (PassthroughWrapper.step keepBytes) s (ws.map .arriveRaw)).egress = s.egress ∧
      (run (PassthroughWrapper.step keepBytes) s (bs.map .arrivePass)).egress = s.egress := by
  constructor
  · induction ws generalizing s with
    | nil => rfl
    | cons w ws ih => exact ih { s with rawIn := s.rawIn.write w }
  · induction bs generalizing s with
    | nil => rfl
    | cons b bs ih => exact ih { s with passStream := s.passStream.write b }

theorem samePorts_steering (s : Steering.State 1 k E N M) {a : Steering.Act 1 k} (ha : isTcArrival a = false) :
    SamePorts s.wrapper.egress (Steering.step keepBytes table s a).wrapper.egress := by
  cases a with
  | arrive w => exact .refl _
  | rawDup2 full =>
    have hsame := (egress_arrivals keepBytes s.wrapper (dup full s.port.head).toList []).1
    show SamePorts _ (run (PassthroughWrapper.step keepBytes) s.wrapper _).egress
    rw [hsame]
    exact .refl _
  | enumFirst full =>
    simp only [Steering.step]
    split <;> exact .refl _
  | ftWrapper lFull rFull => exact .refl _
  | hashTable full => exact .refl _
  | updateStatsActions mFull pFull =>
    have hsame := (egress_arrivals keepBytes s.wrapper []
      ((Udp.updateStatsActions mFull pFull s.udp.ftResults.head).map (·.2)).toList).2
    show SamePorts _ (run (PassthroughWrapper.step keepBytes) s.wrapper _).egress
    rw [hsame]
    exact .refl _
  | udp a =>
    simp only [Steering.step]
    split_ifs <;> exact .refl _
  | wrapper a =>
    simp only [Steering.step]
    split_ifs
    · exact .refl _
    · exact samePorts_wrapper keepBytes s.wrapper ha

/-- What a link writes to a port arrives at the port, and nothing else happens. -/
theorem wrapper_arriveMeta (s : PassthroughWrapper.State k N M) (p : Fin k) (word : Option Metadata) :
    let t := run (PassthroughWrapper.step keepBytes) s
      (word.toList.map fun m => .egress (.arbiter (.arriveMeta p.castSucc m)))
    t.egress.arbiter.tcData = s.egress.arbiter.tcData ∧
      t.egress.arbiter.tcMeta = putLane s.egress.arbiter.tcMeta p.castSucc word := by
  intro t
  have hne : p.castSucc ≠ Fin.last k := (Fin.castSucc_lt_last p).ne
  cases word with
  | none => exact ⟨rfl, (putLane_none _ _).symm⟩
  | some m =>
    have hown : PassthroughWrapper.ownArrival (.arbiter (.arriveMeta p.castSucc m)) = false := decide_eq_false hne
    have ht : t = { s with egress := Egress.step keepBytes s.egress (.arbiter (.arriveMeta p.castSucc m)) } := by
      show PassthroughWrapper.step keepBytes s (.egress (.arbiter (.arriveMeta p.castSucc m))) = _
      simp only [PassthroughWrapper.step, hown]
      rfl
    rw [ht]
    exact ⟨rfl, rfl⟩

theorem wrapper_arriveData (s : PassthroughWrapper.State k N M) (p : Fin k) (word : Option AxiData) :
    let t := run (PassthroughWrapper.step keepBytes) s
      (word.toList.map fun b => .egress (.arbiter (.arriveData p.castSucc b)))
    t.egress.arbiter.tcMeta = s.egress.arbiter.tcMeta ∧
      t.egress.arbiter.tcData = putLane s.egress.arbiter.tcData p.castSucc word := by
  intro t
  have hne : p.castSucc ≠ Fin.last k := (Fin.castSucc_lt_last p).ne
  cases word with
  | none => exact ⟨rfl, (putLane_none _ _).symm⟩
  | some b =>
    have hown : PassthroughWrapper.ownArrival (.arbiter (.arriveData p.castSucc b)) = false := decide_eq_false hne
    have ht : t = { s with egress := Egress.step keepBytes s.egress (.arbiter (.arriveData p.castSucc b)) } := by
      show PassthroughWrapper.step keepBytes s (.egress (.arbiter (.arriveData p.castSucc b))) = _
      simp only [PassthroughWrapper.step, hown]
      rfl
    rw [ht]
    exact ⟨rfl, rfl⟩

theorem steering_arriveMeta (s : Steering.State 1 k E N M) (p : Fin k) (word : Option Metadata) :
    let t := run (Steering.step keepBytes table) s
      (word.toList.map fun m => .wrapper (.egress (.arbiter (.arriveMeta p.castSucc m))))
    t.udp = s.udp ∧ t.wrapper.egress.arbiter.tcData = s.wrapper.egress.arbiter.tcData ∧
      t.wrapper.egress.arbiter.tcMeta = putLane s.wrapper.egress.arbiter.tcMeta p.castSucc word := by
  have hwrapper := wrapper_arriveMeta keepBytes s.wrapper p word
  cases word with
  | none => exact ⟨rfl, hwrapper⟩
  | some m => exact ⟨rfl, hwrapper⟩

theorem steering_arriveData (s : Steering.State 1 k E N M) (p : Fin k) (word : Option AxiData) :
    let t := run (Steering.step keepBytes table) s
      (word.toList.map fun b => .wrapper (.egress (.arbiter (.arriveData p.castSucc b))))
    t.udp = s.udp ∧ t.wrapper.egress.arbiter.tcMeta = s.wrapper.egress.arbiter.tcMeta ∧
      t.wrapper.egress.arbiter.tcData = putLane s.wrapper.egress.arbiter.tcData p.castSucc word := by
  have hwrapper := wrapper_arriveData keepBytes s.wrapper p word
  cases word with
  | none => exact ⟨rfl, hwrapper⟩
  | some b => exact ⟨rfl, hwrapper⟩

/-- The ports of the ikernels are not the last one at the arbiter. -/
theorem sent_putLane_castSucc {α : Type} (f : Fin (k + 1) → Fifo α) (p q : Fin k) (x : Option α) :
    (putLane f p.castSucc x q.castSucc).sent = (f q.castSucc).sent ++ if q = p then x.toList else [] := by
  rw [sent_putLane]
  by_cases hq : q = p
  · rw [if_pos hq, if_pos (congrArg Fin.castSucc hq)]
  · rw [if_neg hq, if_neg fun hc => hq (Fin.castSucc_injective k hc)]

end Ports

/-! ### What the units have written -/

section Written

theorem outputs_grow_udp {n : ℕ} (keepBytes : ℕ → BitVec 32) (s : Udp.State n) (a : Udp.Act n) (e : Fin n) :
    s.metadataOut e <+: (Udp.step keepBytes s a).metadataOut e ∧ s.dataOut e <+: (Udp.step keepBytes s a).dataOut e := by
  have happend : ∀ {α : Type} (f : Fin n → List α) (o : Option (Fin n × α)), f e <+: Udp.appendAt f o e := by
    intro α f o
    rw [Udp.appendAt_eq]
    exact List.prefix_append _ _
  cases a with
  | crossbar hFull dFull buf => exact ⟨List.prefix_rfl, happend _ _⟩
  | splitUdpHdrStream e' full => exact ⟨happend _ _, List.prefix_rfl⟩
  | _ => exact ⟨List.prefix_rfl, List.prefix_rfl⟩

theorem outputs_grow_steering {n k : ℕ} {E : Steering.EnumFirst} {N : Arbiter.Ntl (k + 1)} {M : Merger AxiData}
    (keepBytes : ℕ → BitVec 32) (table : FlowTable.Table) (s : Steering.State n k E N M) (a : Steering.Act n k) (e : Fin n) :
    s.udp.metadataOut e <+: (Steering.step keepBytes table s a).udp.metadataOut e ∧
      s.udp.dataOut e <+: (Steering.step keepBytes table s a).udp.dataOut e := by
  have hsame : s.udp.metadataOut e <+: s.udp.metadataOut e ∧ s.udp.dataOut e <+: s.udp.dataOut e :=
    ⟨List.prefix_rfl, List.prefix_rfl⟩
  cases a with
  | enumFirst full =>
    simp only [Steering.step]
    cases dup full s.rawInToUdp.head with
    | none => exact hsame
    | some w => exact outputs_grow_udp keepBytes s.udp (.arrive (E.call s.enumFirst w).1 w) e
  | updateStatsActions mFull pFull => exact outputs_grow_udp keepBytes s.udp (.updateStatsActions mFull pFull) e
  | udp a =>
    simp only [Steering.step]
    split_ifs
    · exact hsame
    · exact outputs_grow_udp keepBytes s.udp a e
  | wrapper a =>
    simp only [Steering.step]
    split_ifs <;> exact hsame
  | _ => exact hsame

variable (cfg : Demux.Config)

theorem sent_prefix_putPort {α : Type} (f : ℕ → Fifo α) (port : ℕ) (x : Option α) (c : ℕ) :
    (f c).sent <+: (Demux.putPort cfg f port x c).sent := by
  unfold Demux.putPort
  split_ifs
  · rw [sent_putLane]
    exact List.prefix_append _ _
  · exact List.prefix_rfl

theorem ports_grow_demux (s : Demux.State) (a : Demux.Act) (c : ℕ) :
    (s.tcMeta c).sent <+: ((Demux.step cfg s a).tcMeta c).sent ∧
      (s.tcData c).sent <+: ((Demux.step cfg s a).tcData c).sent := by
  cases a with
  | demuxMeta full =>
    refine ⟨?_, ?_⟩
    all_goals simp only [Demux.step, Demux.demuxMeta]
    · split
      · split <;> exact List.prefix_rfl
      · split
        · exact List.prefix_rfl
        · cases full with
          | true => exact List.prefix_rfl
          | false => exact sent_prefix_putPort cfg _ _ _ _
    · split
      · split <;> exact List.prefix_rfl
      · split
        · exact List.prefix_rfl
        · cases full <;> exact List.prefix_rfl
  | demuxData full =>
    refine ⟨?_, ?_⟩
    all_goals simp only [Demux.step, Demux.demuxData]
    · split
      · split <;> exact List.prefix_rfl
      · split
        · exact List.prefix_rfl
        · cases full <;> exact List.prefix_rfl
    · split
      · split <;> exact List.prefix_rfl
      · split
        · exact List.prefix_rfl
        · cases full with
          | true => exact List.prefix_rfl
          | false => exact sent_prefix_putPort cfg _ _ _ _
  | _ => exact ⟨List.prefix_rfl, List.prefix_rfl⟩

/-- A call of the demultiplexer writes nothing that it reads itself. -/
theorem sent_demux (s : Demux.State) {a : Demux.Act} (ha : isDemuxArrival a = false) :
    (Demux.step cfg s a).metadataIn.sent = s.metadataIn.sent ∧ (Demux.step cfg s a).dataIn.sent = s.dataIn.sent := by
  cases a with
  | arriveMeta m => cases ha
  | arriveData b => cases ha
  | dupMeta full => exact ⟨Fifo.sent_readIf _ _, rfl⟩
  | portSelector full => exact ⟨rfl, rfl⟩
  | dupPorts full => exact ⟨rfl, rfl⟩
  | demuxMeta full =>
    simp only [Demux.step, Demux.demuxMeta]
    split
    · split <;> exact ⟨rfl, rfl⟩
    · split
      · exact ⟨rfl, rfl⟩
      · cases full <;> exact ⟨rfl, rfl⟩
  | demuxData full =>
    simp only [Demux.step, Demux.demuxData]
    split
    · split <;> exact ⟨rfl, rfl⟩
    · split
      · exact ⟨rfl, rfl⟩
      · cases full with
        | true => exact ⟨rfl, rfl⟩
        | false => exact ⟨rfl, Fifo.sent_readIf _ _⟩

/-- What the wrapper writes arrives at the demultiplexer, and nothing else happens. -/
theorem demux_arriveMeta (s : Demux.State) (word : Option Metadata) :
    run (Demux.step cfg) s (word.toList.map .arriveMeta) = { s with metadataIn := s.metadataIn.put word } := by
  cases word with
  | none => rw [Fifo.put_none]; rfl
  | some m => rfl

theorem demux_arriveData (s : Demux.State) (word : Option AxiData) :
    run (Demux.step cfg) s (word.toList.map .arriveData) = { s with dataIn := s.dataIn.put word } := by
  cases word with
  | none => rw [Fifo.put_none]; rfl
  | some b => rfl

/-- What the links write arrives at the wrapper. -/
theorem wrapper_writeMetadata (s : IkernelWrapper.State 1) (word : Option Metadata) :
    run IkernelWrapper.step s (word.toList.map (.writeMetadata ikernel)) =
      { s with metadataOutput := putLane s.metadataOutput ikernel word } := by
  cases word with
  | none => rw [putLane_none]; rfl
  | some m => rfl

theorem wrapper_writeData (s : IkernelWrapper.State 1) (word : Option AxiData) :
    run IkernelWrapper.step s (word.toList.map (.writeData ikernel)) =
      { s with dataOutput := putLane s.dataOutput ikernel word } := by
  cases word with
  | none => rw [putLane_none]; rfl
  | some b => rfl

/-- A call of `count` reads what it writes. -/
theorem wrapper_count (s : IkernelWrapper.State 1) (full : Bool) :
    (IkernelWrapper.count ikernel full s).metadataOutput =
        readLane s.metadataOutput ikernel (dup full (s.metadataOutput ikernel).head).isSome ∧
      (IkernelWrapper.count ikernel full s).dataOutput = s.dataOutput := by
  unfold IkernelWrapper.count
  dsimp only
  cases hm : (s.metadataOutput ikernel).head with
  | none => cases full <;> exact ⟨(readLane_false _ _).symm, rfl⟩
  | some m =>
    cases full with
    | true => exact ⟨(readLane_false _ _).symm, rfl⟩
    | false => exact ⟨rfl, rfl⟩

theorem wrapper_linkFifo (s : IkernelWrapper.State 1) (full : Bool) :
    (IkernelWrapper.linkFifo ikernel full s).dataOutput =
        readLane s.dataOutput ikernel (dup full (s.dataOutput ikernel).head).isSome ∧
      (IkernelWrapper.linkFifo ikernel full s).metadataOutput = s.metadataOutput := by
  unfold IkernelWrapper.linkFifo
  cases hb : (s.dataOutput ikernel).head with
  | none => cases full <;> exact ⟨(readLane_false _ _).symm, rfl⟩
  | some b =>
    cases full with
    | true => exact ⟨(readLane_false _ _).symm, rfl⟩
    | false => exact ⟨rfl, rfl⟩

end Written

/-! ### The links -/

section Links

variable {k : ℕ} {E : Steering.EnumFirst} {N : Arbiter.Ntl (k + 1)} {M : Merger AxiData}
  {cfg : Demux.Config} {keepBytes : ℕ → BitVec 32} {table : FlowTable.Table} {sched : N.Sched}

/-- Each unit has taken steps of its own, and what arrived at it is what the one before it has written, or what a link
has read. -/
structure Linked (cfg : Demux.Config) (keepBytes : ℕ → BitVec 32) (table : FlowTable.Table) (sched : N.Sched)
    (s : State k E N M) : Prop where
  steering : Reachable (Steering.step keepBytes table) (Steering.State.init 1 E M sched) s.steering
  metadataIn : s.metadata.bufInput.sent = s.steering.udp.metadataOut ikernel
  dataIn : s.dataUdpToIkernel.sent = s.steering.udp.dataOut ikernel
  axiStream : s.data.bufInput.sent = s.dataUdpToIkernel.past
  metadata : s.metadata.Carries (s.wrapper.metadataOutput ikernel).sent
  data : s.data.Carries (s.wrapper.dataOutput ikernel).sent
  demux : Reachable (Demux.step cfg) Demux.State.init s.demux
  counted : s.demux.metadataIn.sent = (s.wrapper.metadataOutput ikernel).past
  copied : s.demux.dataIn.sent = (s.wrapper.dataOutput ikernel).past
  tcMeta : ∀ p, (s.tcMeta p).sent = (s.demux.tcMeta p).sent
  tcData : ∀ p, (s.tcData p).sent = (s.demux.tcData p).sent
  portMeta : ∀ p : Fin k, (s.steering.wrapper.egress.arbiter.tcMeta p.castSucc).sent = (s.tcMeta p).past
  portData : ∀ p : Fin k, (s.steering.wrapper.egress.arbiter.tcData p.castSucc).sent = (s.tcData p).past

theorem linked_init (cfg : Demux.Config) (keepBytes : ℕ → BitVec 32) (table : FlowTable.Table) (sched : N.Sched) :
    Linked cfg keepBytes table sched (State.init E M sched : State k E N M) where
  steering := .refl _ _
  metadataIn := rfl
  dataIn := rfl
  axiStream := rfl
  metadata := Lane.carries_init
  data := Lane.carries_init
  demux := .refl _ _
  counted := rfl
  copied := rfl
  tcMeta _ := rfl
  tcData _ := rfl
  portMeta _ := rfl
  portData _ := rfl

variable {s : State k E N M}

theorem past_readLane {α : Type} (f : Fin k → Fifo α) (p : Fin k) (full : Bool) (q : Fin k) :
    (readLane f p (dup full (f p).head).isSome q).past =
      (f q).past ++ if q = p then (dup full (f p).head).toList else [] := by
  by_cases hq : q = p
  · subst hq
    rw [if_pos rfl, readLane, Function.update_self]
    cases full with
    | true => exact (List.append_nil _).symm
    | false => exact past_readIf_head _
  · rw [if_neg hq, List.append_nil, readLane, Function.update_of_ne hq]

theorem past_dup {α : Type} (f : Fifo α) (full : Bool) :
    (f.readIf (dup full f.head).isSome).past = f.past ++ (dup full f.head).toList := by
  cases full with
  | true => exact (List.append_nil _).symm
  | false => exact past_readIf_head f

theorem linked_steering (h : Linked cfg keepBytes table sched s) {a : Steering.Act 1 k} (ha : isTcArrival a = false) :
    Linked cfg keepBytes table sched (steeringStep keepBytes table s a) := by
  obtain ⟨hmetas, hdata⟩ := outputs_grow_steering keepBytes table s.steering a ikernel
  have hports := samePorts_steering keepBytes table s.steering ha
  refine { h with
    steering := h.steering.next a
    metadataIn := ?_
    dataIn := ?_
    axiStream := ?_
    metadata := h.metadata.arrive (past_run_write _ _)
    portMeta := fun p => (hports p).1.trans (h.portMeta p)
    portData := fun p => (hports p).2.trans (h.portData p) }
  · refine (sent_run_write _ _).trans ?_
    rw [h.metadataIn]
    exact Egress.append_drop_of_prefix hmetas
  · refine (sent_run_write _ _).trans ?_
    rw [h.dataIn]
    exact Egress.append_drop_of_prefix hdata
  · exact h.axiStream.trans (past_run_write _ _).symm

theorem linked_linkAxiStream (h : Linked cfg keepBytes table sched s) (full : Bool) :
    Linked cfg keepBytes table sched (linkAxiStream full s) := by
  refine { h with
    dataIn := (Fifo.sent_readIf _ _).trans h.dataIn
    axiStream := ?_
    data := h.data.arrive rfl }
  show (s.data.bufInput.put _).sent = (s.dataUdpToIkernel.readIf _).past
  rw [Fifo.sent_put, h.axiStream, past_dup]

theorem linked_passPackets (h : Linked cfg keepBytes table sched s) (full : Bool) :
    Linked cfg keepBytes table sched (passPackets full s) := by
  have hbuf : ∀ {α : Type} (l : Lane α), (l.copy full).1.bufInput = l.bufInput := by
    intro α l
    unfold Lane.copy
    split
    · rfl
    · split_ifs <;> rfl
  unfold passPackets
  split_ifs
  · refine { h with data := h.data.copy full, axiStream := ?_ }
    exact (congrArg Fifo.sent (hbuf s.data)).trans h.axiStream
  · refine { h with metadata := h.metadata.copy full, metadataIn := ?_ }
    exact (congrArg Fifo.sent (hbuf s.metadata)).trans h.metadataIn

theorem sent_callLinkInput {α : Type} (l : Lane α) (full : Bool) :
    (l.callLinkInput full).bufInput.sent = l.bufInput.sent := by
  unfold Lane.callLinkInput
  split_ifs
  · rfl
  · exact Fifo.sent_readIf _ _

theorem bufInput_callLinkOutput {α : Type} (l : Lane α) (full : Bool) :
    (l.callLinkOutput full).1.bufInput = l.bufInput := by
  unfold Lane.callLinkOutput
  split_ifs <;> rfl

theorem linked_linkMetadataOutput (h : Linked cfg keepBytes table sched s) (full : Bool) :
    Linked cfg keepBytes table sched (linkMetadataOutput full s) := by
  have hstep : linkMetadataOutput full s =
      { s with
        metadata := (s.metadata.callLinkOutput full).1
        wrapper := { s.wrapper with
          metadataOutput := putLane s.wrapper.metadataOutput ikernel (s.metadata.callLinkOutput full).2 } } := by
    rw [← wrapper_writeMetadata]
    rfl
  rw [hstep]
  refine { h with
    metadataIn := (congrArg Fifo.sent (bufInput_callLinkOutput s.metadata full)).trans h.metadataIn
    metadata := ?_
    counted := h.counted.trans (past_putLane _ _ _ _).symm }
  show Lane.Carries _ (putLane s.wrapper.metadataOutput ikernel _ ikernel).sent
  rw [sent_putLane, if_pos rfl]
  exact h.metadata.callLinkOutput full

theorem linked_linkDataOutput (h : Linked cfg keepBytes table sched s) (full : Bool) :
    Linked cfg keepBytes table sched (linkDataOutput full s) := by
  have hstep : linkDataOutput full s =
      { s with
        data := (s.data.callLinkOutput full).1
        wrapper := { s.wrapper with
          dataOutput := putLane s.wrapper.dataOutput ikernel (s.data.callLinkOutput full).2 } } := by
    rw [← wrapper_writeData]
    rfl
  rw [hstep]
  refine { h with
    axiStream := (congrArg Fifo.sent (bufInput_callLinkOutput s.data full)).trans h.axiStream
    data := ?_
    copied := h.copied.trans (past_putLane _ _ _ _).symm }
  show Lane.Carries _ (putLane s.wrapper.dataOutput ikernel _ ikernel).sent
  rw [sent_putLane, if_pos rfl]
  exact h.data.callLinkOutput full

theorem linked_count (h : Linked cfg keepBytes table sched s) (full : Bool) :
    Linked cfg keepBytes table sched (count cfg full s) := by
  obtain ⟨hmeta, hdata⟩ := wrapper_count s.wrapper full
  have hstep : count cfg full s =
      { s with
        wrapper := IkernelWrapper.count ikernel full s.wrapper
        demux := { s.demux with
          metadataIn := s.demux.metadataIn.put (dup full (s.wrapper.metadataOutput ikernel).head) } } := by
    rw [← demux_arriveMeta cfg]
    rfl
  rw [hstep]
  refine { h with metadata := ?_, data := ?_, demux := ?_, counted := ?_, copied := ?_ }
  · rw [hmeta, sent_readLane]
    exact h.metadata
  · rw [hdata]
    exact h.data
  · rw [← demux_arriveMeta cfg]
    exact h.demux.run _
  · rw [hmeta, past_readLane, if_pos rfl, ← h.counted]
    exact Fifo.sent_put _ _
  · rw [hdata]
    exact h.copied

theorem linked_linkFifo (h : Linked cfg keepBytes table sched s) (full : Bool) :
    Linked cfg keepBytes table sched (linkFifo cfg full s) := by
  obtain ⟨hdata, hmeta⟩ := wrapper_linkFifo s.wrapper full
  have hstep : linkFifo cfg full s =
      { s with
        wrapper := IkernelWrapper.linkFifo ikernel full s.wrapper
        demux := { s.demux with
          dataIn := s.demux.dataIn.put (dup full (s.wrapper.dataOutput ikernel).head) } } := by
    rw [← demux_arriveData cfg]
    rfl
  rw [hstep]
  refine { h with metadata := ?_, data := ?_, demux := ?_, counted := ?_, copied := ?_ }
  · rw [hmeta]
    exact h.metadata
  · rw [hdata, sent_readLane]
    exact h.data
  · rw [← demux_arriveData cfg]
    exact h.demux.run _
  · rw [hmeta]
    exact h.counted
  · rw [hdata, past_readLane, if_pos rfl, ← h.copied]
    exact Fifo.sent_put _ _

theorem linked_demux (h : Linked cfg keepBytes table sched s) {a : Demux.Act} (ha : isDemuxArrival a = false) :
    Linked cfg keepBytes table sched (demuxStep cfg s a) := by
  obtain ⟨hmeta, hdata⟩ := sent_demux cfg s.demux ha
  refine { h with
    demux := h.demux.next a
    counted := hmeta.trans h.counted
    copied := hdata.trans h.copied
    tcMeta := fun p => ?_
    tcData := fun p => ?_
    portMeta := fun p => (h.portMeta p).trans (past_run_write _ _).symm
    portData := fun p => (h.portData p).trans (past_run_write _ _).symm }
  · refine (sent_run_write _ _).trans ?_
    rw [h.tcMeta p]
    exact Egress.append_drop_of_prefix (ports_grow_demux cfg s.demux a p).1
  · refine (sent_run_write _ _).trans ?_
    rw [h.tcData p]
    exact Egress.append_drop_of_prefix (ports_grow_demux cfg s.demux a p).2

theorem linked_linkTcMeta (h : Linked cfg keepBytes table sched s) (p : Fin k) (full : Bool) :
    Linked cfg keepBytes table sched (linkTcMeta keepBytes table p full s) := by
  obtain ⟨hudp, hdata, hmeta⟩ := steering_arriveMeta keepBytes table s.steering p (dup full (s.tcMeta p).head)
  refine { h with
    steering := h.steering.run _
    metadataIn := h.metadataIn.trans (congrArg (·.metadataOut ikernel) hudp).symm
    dataIn := h.dataIn.trans (congrArg (·.dataOut ikernel) hudp).symm
    tcMeta := fun q => ?_
    portMeta := fun q => ?_
    portData := fun q => (congrArg (fun f => (f q.castSucc).sent) hdata).trans (h.portData q) }
  · exact (sent_readLane _ _ _ _).trans (h.tcMeta q)
  · refine (congrArg (fun f => (f q.castSucc).sent) hmeta).trans ?_
    show (putLane _ _ _ q.castSucc).sent = (readLane s.tcMeta p _ q).past
    rw [sent_putLane_castSucc, past_readLane, h.portMeta q]

theorem linked_linkTcData (h : Linked cfg keepBytes table sched s) (p : Fin k) (full : Bool) :
    Linked cfg keepBytes table sched (linkTcData keepBytes table p full s) := by
  obtain ⟨hudp, hmeta, hdata⟩ := steering_arriveData keepBytes table s.steering p (dup full (s.tcData p).head)
  refine { h with
    steering := h.steering.run _
    metadataIn := h.metadataIn.trans (congrArg (·.metadataOut ikernel) hudp).symm
    dataIn := h.dataIn.trans (congrArg (·.dataOut ikernel) hudp).symm
    tcData := fun q => ?_
    portMeta := fun q => (congrArg (fun f => (f q.castSucc).sent) hmeta).trans (h.portMeta q)
    portData := fun q => ?_ }
  · exact (sent_readLane _ _ _ _).trans (h.tcData q)
  · refine (congrArg (fun f => (f q.castSucc).sent) hdata).trans ?_
    show (putLane _ _ _ q.castSucc).sent = (readLane s.tcData p _ q).past
    rw [sent_putLane_castSucc, past_readLane, h.portData q]

theorem linked_step (h : Linked cfg keepBytes table sched s) (a : Act k) :
    Linked cfg keepBytes table sched (step cfg keepBytes table s a) := by
  cases a with
  | steering a =>
    cases ha : isTcArrival a with
    | true => rw [step, ha]; exact h
    | false => rw [step, ha]; exact linked_steering h ha
  | linkAxiStream full => exact linked_linkAxiStream h full
  | linkMetadataInput full =>
    exact { h with
      metadataIn := (sent_callLinkInput s.metadata full).trans h.metadataIn
      metadata := h.metadata.callLinkInput full }
  | linkDataInput full =>
    exact { h with
      axiStream := (sent_callLinkInput s.data full).trans h.axiStream
      data := h.data.callLinkInput full }
  | passPackets full => exact linked_passPackets h full
  | linkMetadataOutput full => exact linked_linkMetadataOutput h full
  | linkDataOutput full => exact linked_linkDataOutput h full
  | count full => exact linked_count h full
  | linkFifo full => exact linked_linkFifo h full
  | demux a =>
    cases ha : isDemuxArrival a with
    | true => rw [step, ha]; exact h
    | false => rw [step, ha]; exact linked_demux h ha
  | tcMeta p full => exact linked_linkTcMeta h p full
  | tcData p full => exact linked_linkTcData h p full

theorem linked_run (cfg : Demux.Config) (keepBytes : ℕ → BitVec 32) (table : FlowTable.Table) (sched : N.Sched)
    (acts : List (Act k)) :
    Linked cfg keepBytes table sched (run (step cfg keepBytes table) (State.init E M sched : State k E N M) acts) :=
  run_invariant (P := Linked cfg keepBytes table sched) (fun _ a h => linked_step h a) acts _
    (linked_init cfg keepBytes table sched)

end Links

end Nica.Hls.NicaStep
