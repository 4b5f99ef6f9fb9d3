import Nica.Hls.Equiv.PktgenBursts

/-!
# What the packet generator sends

`Emits` says that what left is a list of departures, each with the metadata and the beats of one packet.  If every
ikernel receives its next packet when the burst before it is complete, they are the bursts of the packets in their
order (`exactBursts_run`).  Packets may come in during a burst as well, and then each copy is one of a single packet
and the last burst of every ikernel is complete in the end, if no command is waiting for an ikernel whose packet is
being received (`wholeCopies_run`).  Such a command is executed with the beats of the new packet and the context of
the old one, which it then puts in the place of the new one (`not_emits_staleCommand`).
-/

namespace Nica.Hls.Pktgen

open Nica.Lib

variable {S : Scheduler (BitVec 6)} {B : BitVec 6 → BitVec 32} {ps : List Datagram} {ds : List Departure}
  {ordered : Prop} {r : BitVec 6 → ℕ} {s : State S} {due : List AxiData}

/-- What left are the departures `ds`, and the packets among them are those that were read. -/
structure Emits (ps : List Datagram) (ds : List Departure) (s : State S) : Prop where
  packets : ∀ d ∈ ds, d.packet ∈ ps
  inputs : inputs ds = ps.take s.metadataInput.past.length
  metadataOutput : s.metadataOutput = ds.map Departure.metadata
  dataOutput : s.dataOutput <+: ds.flatMap Departure.beats
  complete : s.state = .idle → s.dataOutput = ds.flatMap Departure.beats

/-- All streams are empty and nothing goes on. -/
structure Quiescent (s : State S) : Prop where
  metadataInput : s.metadataInput.queue = []
  dataInput : s.dataInput.queue = []
  contextUpdates : s.contextUpdates.queue = []
  transmitCommands : s.transmitCommands.queue = []
  state : s.state = .idle
  active : ∀ i, ¬S.active s.sched i

theorem Inv.emits (h : Inv ordered B ps ds r due s) : Emits ps ds s := by
  obtain ⟨left, hleft, hleaving⟩ := h.leaving
  refine ⟨h.core.history.mem, h.core.history.inputs, h.core.metadataOutput, ⟨left, hleft⟩, ?_⟩
  intro hstate
  rw [Leaving, hstate] at hleaving
  rw [← hleft, hleaving, List.append_nil]

/-- When nothing goes on, no copy is to come. -/
theorem Inv.done_of_quiescent (h : Inv ordered B ps ds r due s) (hq : Quiescent s) (i : BitVec 6) : r i = 0 := by
  have hsound := h.core.sound i
  have hrec : ¬(place (handOf s) (currentOf s) s i).receiving := by
    intro hc
    have hc : (currentOf s).map Prod.fst = some i := hc
    rw [currentOf, hq.state] at hc
    cases hc
  have hpending : (place (handOf s) (currentOf s) s i).pending = [] := by
    show lane Context.id s.contextUpdates.queue i = []
    rw [hq.contextUpdates]
    rfl
  exact not_not.mp fun hr => hq.active i (hsound.awake hrec hpending hr)

/-- The invariant holds in every run that meets the condition on the packets during a burst. -/
theorem inv_run (ordered : Prop) (hS : S.Lawful) (B dataLength : BitVec 6 → BitVec 32) (ps : List Datagram)
    (hps : ∀ p ∈ ps, p.beats.length ≤ dataSize) (acts : List Act) (hB : ∀ a ∈ acts, Programmed B a)
    (hstale : ¬ordered → Along step NoStaleCommand (State.init S B dataLength) acts)
    (hdone : ordered → Along step (Orderly B) (State.init S B dataLength) acts)
    (hin : Input ps (run step (State.init S B dataLength) acts)) :
    ∃ ds r due, Inv ordered B ps ds r due (run step (State.init S B dataLength) acts) := by
  have halong : Along step
      (fun s a => Programmed B a ∧ (¬ordered → NoStaleCommand s a) ∧ (ordered → Orderly B s a))
      (State.init S B dataLength) acts := by
    have hprog : Along step (fun _ a => Programmed B a) (State.init S B dataLength) acts :=
      along_of_forall acts _ hB
    by_cases ho : ordered
    · exact Along.mono (fun s a h => ⟨h.1, fun hn => absurd ho hn, fun _ => h.2⟩) _ _
        (along_and _ _ hprog (hdone ho))
    · exact Along.mono (fun s a h => ⟨h.1, fun _ => h.2, fun hc => absurd hc ho⟩) _ _
        (along_and _ _ hprog (hstale ho))
  have hinv := run_induction (P := fun s => Input ps s → ∃ ds r due, Inv ordered B ps ds r due s)
    (fun s a hC ih h => by
      have hbefore := h.of_step
      obtain ⟨ds, r, due, hs⟩ := ih hbefore
      exact hs.step hS hps hbefore a hC.1 hC.2.1 hC.2.2)
    acts (State.init S B dataLength) halong (fun _ => ⟨[], fun _ => 0, [], inv_init hS dataLength⟩)
  exact hinv hin

/-! ### Packets in turn -/

/-- If every ikernel receives its packets one burst after the other, what leaves for it are these bursts, each with
all its copies, numbered from the burst size down to 1; and a copy is only begun with the quota for it. -/
theorem exactBursts_run (hS : S.Lawful) (B dataLength : BitVec 6 → BitVec 32) (ps : List Datagram)
    (hps : ∀ p ∈ ps, p.beats.length ≤ dataSize) (acts : List Act) (hB : ∀ a ∈ acts, Programmed B a)
    (hdone : Along step (Orderly B) (State.init S B dataLength) acts)
    (hin : Input ps (run step (State.init S B dataLength) acts)) :
    ∃ ds, Emits ps ds (run step (State.init S B dataLength) acts) ∧
      (∀ i, lane Departure.id ds i <+: (lane Datagram.id (inputs ds) i).flatMap (burst B)) ∧
      (Quiescent (run step (State.init S B dataLength) acts) →
        ∀ i, lane Departure.id ds i = (lane Datagram.id (inputs ds) i).flatMap (burst B)) ∧
      ((run step (State.init S B dataLength) acts).state = .duplicate →
        (run step (State.init S B dataLength) acts).context.dataLength ≤
          (run step (State.init S B dataLength) acts).quota) := by
  obtain ⟨ds, r, due, h⟩ := inv_run True hS B dataLength ps hps acts hB (fun hn => absurd trivial hn)
    (fun _ => hdone) hin
  have hexact := h.core.exact trivial
  rw [ExactHistory, ← h.core.history.inputs] at hexact
  refine ⟨ds, h.emits, ?_, ?_, ?_⟩
  · intro i
    obtain ⟨rest, hrest, -⟩ := hexact i
    exact ⟨rest, hrest⟩
  · intro hq i
    obtain ⟨rest, hrest, hlen, -⟩ := hexact i
    have hnil : rest = [] := List.length_eq_zero_iff.mp (hlen.trans (h.done_of_quiescent hq i))
    rw [← hrest, hnil, List.append_nil]
  · intro hstate
    obtain ⟨left, -, hleaving⟩ := h.leaving
    rw [Leaving, hstate] at hleaving
    exact hleaving.1

instance (B : BitVec 6 → BitVec 32) : (a : Act) → Decidable (Programmed B a)
  | .schedWrapper (some (.burstSize id value)) _ => inferInstanceAs (Decidable (value = B id))
  | .schedWrapper (some (.curPacket _ _)) _ => isFalse not_false
  | .schedWrapper (some .read) _ => isTrue trivial
  | .schedWrapper none _ => isTrue trivial
  | .arriveMetadata _ => isTrue trivial
  | .arriveData _ => isTrue trivial
  | .dataPlane _ => isTrue trivial

instance (B : BitVec 6 → BitVec 32) (s : State S) : (a : Act) → Decidable (Orderly B s a)
  | .dataPlane _ =>
    have (i : BitVec 6) : Decidable (BurstDone B s i) := inferInstanceAs (Decidable (_ = _))
    have : Decidable (∀ m ∈ s.metadataInput.head, BurstDone B s m.ikernelId) :=
      Option.decidableForallMem _
    inferInstanceAs (Decidable (s.state = .idle → _))
  | .schedWrapper _ _ => isTrue trivial
  | .arriveMetadata _ => isTrue trivial
  | .arriveData _ => isTrue trivial

/-- A packet of ikernel `id` with these data. -/
def packetOf (id : BitVec 6) (front : List (BitVec 256)) (final : BitVec 256) : Datagram where
  metadata := { Metadata.init with ikernelId := id, length := BitVec.ofNat 16 (32 * (front.length + 1)) }
  beats := front.map (⟨·, 0xffffffff, false⟩) ++ [⟨final, 0xffffffff, true⟩]
  isPacket := ⟨_, _, rfl, rfl, by simp⟩

def arrive (p : Datagram) : List Act := .arriveMetadata p.metadata :: p.beats.map .arriveData

/-- Calls of the two units in turn. -/
def turns (n : ℕ) : List Act := (List.replicate n [.dataPlane true, .schedWrapper none false]).flatten

/-- Two packets of ikernel 1, the second when the burst of the first is complete, and one of ikernel 2. -/
def threePackets : List Datagram := [packetOf 1 [10] 11, packetOf 2 [] 20, packetOf 1 [] 12]

def threePacketsActs : List Act :=
  arrive (packetOf 1 [10] 11) ++ arrive (packetOf 2 [] 20) ++ turns 16 ++ arrive (packetOf 1 [] 12) ++ turns 10

def threePacketsEnd : State (Scheduler.inTurn (BitVec 6) 100) :=
  run step (State.init (Scheduler.inTurn (BitVec 6) 100) (fun _ => 2) fun _ => 0) threePacketsActs

/-- Three bursts of two copies. -/
theorem exactBursts_run_threePackets :
    (∃ ds, Emits threePackets ds threePacketsEnd ∧
      (∀ i, lane Departure.id ds i <+: (lane Datagram.id (inputs ds) i).flatMap (burst fun _ => 2))) ∧
      threePacketsEnd.metadataOutput.map (fun m => (m.ikernelId, m.ipIdentification)) =
        [(1, 0), (2, 0), (1, 2), (1, 1), (2, 2), (2, 1), (1, 0), (1, 2), (1, 1)] := by
  refine ⟨?_, by decide +kernel⟩
  obtain ⟨ds, hds, hlanes, -⟩ := exactBursts_run (Scheduler.lawful_inTurn (BitVec 6) 100) (fun _ => 2) (fun _ => 0)
    threePackets (by decide +kernel) threePacketsActs (by decide +kernel) (by decide +kernel)
    ⟨by decide +kernel, by decide +kernel⟩
  exact ⟨ds, hds, hlanes⟩

/-! ### Packets during a burst -/

/-- If no command is waiting for an ikernel whose packet is being received, every copy has the beats and the metadata
of one packet, and when nothing goes on, all copies of the last packet of every ikernel have left behind it. -/
theorem wholeCopies_run (hS : S.Lawful) (B dataLength : BitVec 6 → BitVec 32) (ps : List Datagram)
    (hps : ∀ p ∈ ps, p.beats.length ≤ dataSize) (acts : List Act) (hB : ∀ a ∈ acts, Programmed B a)
    (hstale : Along step NoStaleCommand (State.init S B dataLength) acts)
    (hin : Input ps (run step (State.init S B dataLength) acts)) :
    ∃ ds, Emits ps ds (run step (State.init S B dataLength) acts) ∧
      (Quiescent (run step (State.init S B dataLength) acts) →
        ∀ i p, (lane Datagram.id (inputs ds) i).getLast? = some p →
          ∃ earlier, lane Departure.id ds i = earlier ++ burst B p) := by
  obtain ⟨ds, r, due, h⟩ := inv_run False hS B dataLength ps hps acts hB (fun _ => hstale)
    (fun ho => absurd ho not_false) hin
  refine ⟨ds, h.emits, ?_⟩
  intro hq i p hp
  rw [h.core.history.inputs] at hp
  obtain ⟨earlier, hearlier⟩ := h.core.history.last i p hp
  rw [h.done_of_quiescent hq i, copies, List.append_nil] at hearlier
  exact ⟨earlier, hearlier⟩

instance (s : State S) : (a : Act) → Decidable (NoStaleCommand s a)
  | .dataPlane _ =>
    have : Decidable (∀ m ∈ s.metadataInput.head, ∀ c ∈ s.transmitCommands.queue, c.1.id ≠ m.ikernelId) :=
      Option.decidableForallMem _
    inferInstanceAs (Decidable (s.state = .idle → _))
  | .schedWrapper none false =>
    inferInstanceAs (Decidable (s.state = .inputPacket → commandFor s ≠ some s.metadata.ikernelId))
  | .schedWrapper none true => isTrue trivial
  | .schedWrapper (some _) _ => isTrue trivial
  | .arriveMetadata _ => isTrue trivial
  | .arriveData _ => isTrue trivial

/-- Two packets of ikernel 1. -/
def twoPackets : List Datagram := [packetOf 1 [] 10, packetOf 1 [20] 21]

/-- The second packet is taken in the middle of the burst of the first one, after the update of the context. -/
def duringBurstActs : List Act :=
  arrive (packetOf 1 [] 10) ++ turns 2 ++ [.dataPlane false] ++ arrive (packetOf 1 [20] 21) ++ turns 10

def duringBurstEnd : State (Scheduler.inTurn (BitVec 6) 100) :=
  run step (State.init (Scheduler.inTurn (BitVec 6) 100) (fun _ => 1) fun _ => 0) duringBurstActs

/-- The burst of the first packet is given up for that of the second. -/
theorem wholeCopies_run_duringBurst :
    (∃ ds, Emits twoPackets ds duringBurstEnd) ∧
      duringBurstEnd.metadataOutput.map (fun m => (m.length, m.ipIdentification)) = [(32, 0), (64, 0), (64, 1)] := by
  refine ⟨?_, by decide +kernel⟩
  obtain ⟨ds, hds, -⟩ := wholeCopies_run (Scheduler.lawful_inTurn (BitVec 6) 100) (fun _ => 1) (fun _ => 0)
    twoPackets (by decide +kernel) duringBurstActs (by decide +kernel) (by decide +kernel)
    ⟨by decide +kernel, by decide +kernel⟩
  exact ⟨ds, hds⟩

theorem countP_last_of_isPacket {beats : List AxiData} (h : IsPacket beats) : beats.countP AxiData.last = 1 := by
  obtain ⟨front, final, rfl, hfinal, hfront⟩ := h
  have hnone : front.countP AxiData.last = 0 := by
    rw [List.countP_eq_zero]
    intro b hb
    rw [hfront b hb]
    decide
  rw [List.countP_append, hnone, List.countP_singleton, if_pos hfinal]

/-- Every departure ends once. -/
theorem Emits.countP_last (h : Emits ps ds s) (hstate : s.state = .idle) :
    s.dataOutput.countP AxiData.last = s.metadataOutput.length := by
  have hone : ds.map (fun d => d.beats.countP AxiData.last) = ds.map fun _ => 1 := by
    apply List.map_congr_left
    intro d _
    exact countP_last_of_isPacket d.packet.isPacket
  rw [h.complete hstate, h.metadataOutput, List.countP_flatMap, List.length_map]
  show (ds.map fun d => d.beats.countP AxiData.last).sum = ds.length
  rw [hone, List.map_const', List.sum_replicate_nat, Nat.mul_one]

/-- The second packet is taken when the command for a copy of the first one is in the queue. -/
def staleCommandActs : List Act :=
  arrive (packetOf 1 [] 10) ++ turns 1 ++ [.schedWrapper none false] ++ arrive (packetOf 1 [20] 21) ++ turns 10

def staleCommandEnd : State (Scheduler.inTurn (BitVec 6) 100) :=
  run step (State.init (Scheduler.inTurn (BitVec 6) 100) (fun _ => 1) fun _ => 0) staleCommandActs

/-- The copy has the length of the first packet and the beats of the second, which is not copied itself. -/
theorem not_emits_staleCommand :
    Input twoPackets staleCommandEnd ∧ Quiescent staleCommandEnd ∧ ¬(∃ ds, Emits twoPackets ds staleCommandEnd) ∧
      staleCommandEnd.metadataOutput.map (fun m => (m.length, m.ipIdentification)) = [(32, 0), (64, 0), (32, 1)] ∧
      staleCommandEnd.dataOutput.map (fun d => (d.data, d.last)) =
        [(10, true), (20, false), (21, true), (20, false)] := by
  refine ⟨⟨by decide +kernel, by decide +kernel⟩, ⟨?_, ?_, ?_, ?_, ?_, ?_⟩, ?_, ?_, ?_⟩
  · decide +kernel
  · decide +kernel
  · decide +kernel
  · decide +kernel
  · decide +kernel
  · show ∀ i, ¬Scheduler.Turns.active staleCommandEnd.sched i = true
    decide +kernel
  · rintro ⟨ds, hds⟩
    have hcount := hds.countP_last (by decide +kernel)
    revert hcount
    decide +kernel
  · decide +kernel
  · decide +kernel

end Nica.Hls.Pktgen
