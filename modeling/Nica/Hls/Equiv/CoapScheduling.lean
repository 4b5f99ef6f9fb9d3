import Nica.Hls.CoapScheduler

/-!
# Which requests of the CoAP ikernel are served

A class whose queue is not empty will be served if its wake-up is still to be read, if the scheduler has it active,
or if `read_key` is serving it (`Awake`).  `read_key` hands a class back with the flag `_tc_empty` where the arbiter
and the packet generator say whether the flow stays active.  So a class that is handed back because its quota is used
up goes to sleep with the requests that are left, and only the wake-up of a later packet helps (`KeepsAwake`,
`noneStranded_iff`).
-/

namespace Nica.Hls.Coap

open Nica.Lib

variable {logNumTc : Nat} {S : Scheduler (BitVec logNumTc)} {hash : List (List Byte) → List Byte}
  {setData : List Byte → AxiData} {s s' : Scheduled S}

/-- A wake-up of the class is still to be read, or the class is active or being served. -/
def Awake (s : Scheduled S) (tc : BitVec logNumTc) : Prop :=
  tc ∈ s.unit.parsedPacketTc.queue ∨ S.active s.sched tc ∨
    s.unit.readKey.state ≠ .findNextIkernel ∧ s.unit.readKey.currTc = tc

/-- No class has requests waiting and nothing that leads to them. -/
def NoneStranded (s : Scheduled S) : Prop := ∀ tc, (s.unit.ikernelIdPerTc tc).queue ≠ [] → Awake s tc

/-- When a class is handed back, it was found empty, or it is empty now, or another wake-up of it is waiting. -/
def KeepsAwake (s : Scheduled S) : Act logNumTc → Prop
  | .readKey i => (S.update s.sched).1 = false → i.updates = [] → s.unit.readKey.state = .updateQuota →
    s.unit.readKey.tcEmpty = true ∨ (s.unit.ikernelIdPerTc s.unit.readKey.currTc).queue = [] ∨
      s.unit.readKey.currTc ∈ s.unit.parsedPacketTc.queue.tail
  | _ => True

theorem noneStranded_init (config : Config) (packets : List Datagram) :
    NoneStranded (Scheduled.init S config packets) := by
  intro tc htc
  exact absurd rfl htc

/-- What a unit does that leaves the queues, the wake-ups and `read_key` alone. -/
theorem NoneStranded.congr (h : NoneStranded s) (hids : s'.unit.ikernelIdPerTc = s.unit.ikernelIdPerTc)
    (htcs : s'.unit.parsedPacketTc = s.unit.parsedPacketTc) (hkey : s'.unit.readKey = s.unit.readKey)
    (hactive : ∀ tc, S.active s.sched tc → S.active s'.sched tc) : NoneStranded s' := by
  intro tc htc
  rw [hids] at htc
  unfold Awake
  rw [htcs, hkey]
  rcases h tc htc with hwake | hact | hserve
  · exact .inl hwake
  · exact .inr (.inl (hactive tc hact))
  · exact .inr (.inr hserve)

/-- The id of a packet and its wake-up are written together. -/
theorem parsePacket_ids (full : ParseFull) (u : Parser logNumTc) (metadata : Option Metadata) (data : Option AxiData) :
    (parsePacket full u metadata data).2.ikernelId = none ∧ (parsePacket full u metadata data).2.packetTc = none ∨
      (parsePacket full u metadata data).2.packetTc = some u.currTc := by
  unfold parsePacket
  split
  · split
    · exact .inl ⟨rfl, rfl⟩
    · exact .inl ⟨rfl, rfl⟩
  · split
    · exact .inl ⟨rfl, rfl⟩
    · exact .inl ⟨rfl, rfl⟩
  · split
    · exact .inl ⟨rfl, rfl⟩
    · exact .inl ⟨rfl, rfl⟩
  · split
    · exact .inl ⟨rfl, rfl⟩
    · exact .inl ⟨rfl, rfl⟩
  · split
    · exact .inl ⟨rfl, rfl⟩
    · split
      · exact .inl ⟨rfl, rfl⟩
      · exact .inl ⟨rfl, rfl⟩
  · split
    · exact .inl ⟨rfl, rfl⟩
    · split
      · exact .inl ⟨rfl, rfl⟩
      · exact .inr rfl
  · split
    · exact .inl ⟨rfl, rfl⟩
    · split
      · exact .inl ⟨rfl, rfl⟩
      · exact .inl ⟨rfl, rfl⟩

theorem noneStranded_parsePacket (h : NoneStranded s) (full : ParseFull) :
    NoneStranded (scheduledStep hash setData s (.parsePacket full)) := by
  intro tc htc
  have hio := parsePacket_ids full s.unit.parser s.unit.parserMetadata.head s.unit.parserData.head
  simp only [scheduledStep, step] at htc
  unfold Awake
  simp only [scheduledStep, step]
  rcases hio with ⟨hid, hwake⟩ | hwake
  · rw [hid, putLane_none] at htc
    rw [hwake, Fifo.put_none]
    exact h tc htc
  · rw [hwake]
    by_cases hcurr : tc = s.unit.parser.currTc
    · left
      rw [hcurr]
      exact List.mem_append_right _ (List.mem_singleton_self _)
    · rw [putLane, Function.update_of_ne hcurr] at htc
      rcases h tc htc with hin | hrest
      · exact .inl (List.mem_append_left _ hin)
      · exact .inr hrest

/-! ### `read_key` -/

theorem queue_readLane_ne_nil {α : Type} {f : BitVec logNumTc → Fifo α} {c tc : BitVec logNumTc} {b : Bool}
    (h : (readLane f c b tc).queue ≠ []) : (f tc).queue ≠ [] := by
  intro hnil
  apply h
  by_cases hc : tc = c
  · subst hc
    rw [readLane, Function.update_self]
    cases b with
    | false => exact hnil
    | true => rw [Fifo.readIf, if_pos rfl, Fifo.pop, hnil]; exact hnil
  · rw [readLane, Function.update_of_ne hc]
    exact hnil

theorem queue_readIf_true {α : Type} (f : Fifo α) : (f.readIf true).queue = f.queue.tail := by
  rw [Fifo.readIf, if_pos rfl]
  cases hq : f.queue with
  | nil => rw [Fifo.pop, hq]; exact hq
  | cons x q => exact f.queue_pop hq

/-- A wake-up that is read makes its class active. -/
theorem wake_spec (hS : S.TracksActivity) {σ : S.State} {f : Fifo (BitVec logNumTc)} {tc : BitVec logNumTc}
    (h : tc ∈ f.queue ∨ S.active σ tc) : tc ∈ (f.readIf true).queue ∨ S.active (wake S σ f.head) tc := by
  rw [queue_readIf_true, Fifo.head]
  cases hq : f.queue with
  | nil =>
    rw [hq] at h
    exact .inr (h.resolve_left List.not_mem_nil)
  | cons first rest =>
    rw [hq] at h
    show tc ∈ rest ∨ S.active (S.schedule σ first) tc
    by_cases hfirst : tc = first
    · rw [hfirst]
      exact .inr (hS.active_schedule σ first)
    · rcases h with hin | hact
      · exact .inl ((List.mem_cons.mp hin).resolve_left hfirst)
      · exact .inr ((hS.active_schedule_other hfirst).mpr hact)

theorem passRequests_spec (i : ReadKeyIn logNumTc) (u : ReadKey logNumTc) (id : Option (BitVec 6))
    (hu : u.state ≠ .findNextIkernel) :
    (passRequests i u id).1.state ≠ .findNextIkernel ∧ (passRequests i u id).1.currTc = u.currTc := by
  unfold passRequests
  split
  · exact ⟨(by intro hc; cases hc), rfl⟩
  · split
    · exact ⟨(by intro hc; cases hc), rfl⟩
    · split
      · exact ⟨hu, rfl⟩
      · exact ⟨hu, rfl⟩

/-- A call that applies an update leaves the requests alone. -/
theorem readKey_busy {i : ReadKeyIn logNumTc} (hi : i.busy = true) (u : ReadKey logNumTc)
    (ids : BitVec logNumTc → Option (BitVec 6)) : readKey i u ids = (u, none) := if_pos hi

/-- What the classes are told by a call: `tcs` are the wake-ups that are left, `u` and `σ` the registers and the
scheduler after it. -/
theorem noneStranded_of_call {unit : State logNumTc} {i : ReadKeyIn logNumTc} (hi : i.busy = false) {σ : S.State} :
    NoneStranded (S := S) ⟨step hash setData unit (.readKey i), σ⟩ ↔
      ∀ tc, ((step hash setData unit (.readKey i)).ikernelIdPerTc tc).queue ≠ [] →
        tc ∈ (unit.parsedPacketTc.readIf true).queue ∨ S.active σ tc ∨
          (readKey i unit.readKey fun tc => (unit.ikernelIdPerTc tc).head).1.state ≠ .findNextIkernel ∧
            (readKey i unit.readKey fun tc => (unit.ikernelIdPerTc tc).head).1.currTc = tc := by
  unfold NoneStranded Awake
  simp only [step, hi, Bool.not_false]

theorem noneStranded_readKey (hS : S.TracksActivity) (h : NoneStranded s) (i : ReadKeyIn logNumTc) :
    NoneStranded (scheduledStep hash setData s (.readKey i)) ↔ KeepsAwake s (.readKey i) := by
  show NoneStranded (scheduledReadKey hash setData i s) ↔ _
  unfold scheduledReadKey
  generalize hi : ({ i with schedUpdate := (S.update s.sched).1, nextFlow := none } : ReadKeyIn logNumTc) = i'
  have hactive : ∀ tc, S.active (S.update s.sched).2 tc ↔ S.active s.sched tc := fun tc => hS.active_update _ _
  have hbusy : i'.busy = false ↔ (S.update s.sched).1 = false ∧ i.updates = [] := by
    rw [← hi, ReadKeyIn.busy, Bool.or_eq_false_iff, Bool.not_eq_false', List.isEmpty_iff]
  dsimp only
  rw [hi]
  split
  · -- the call only applies an update
    rename_i hb
    have hkeeps : KeepsAwake s (.readKey i) := by
      intro hupdate hnil
      rw [hbusy.mpr ⟨hupdate, hnil⟩] at hb
      cases hb
    refine iff_of_true ?_ hkeeps
    apply h.congr
    · simp only [step, State.dispatch, readKey_busy hb, Option.map_none, Option.isSome_none, readLane_false]
    · simp only [step, hb, Bool.not_true]
      rfl
    · simp only [step, readKey_busy hb]
    · exact fun tc hact => (hactive tc).mpr hact
  · rename_i hb
    have hb : i'.busy = false := Bool.eq_false_iff.mpr hb
    have hnext : i'.nextFlow = none := by rw [← hi]
    have hwake : ∀ tc, (s.unit.ikernelIdPerTc tc).queue ≠ [] →
        (tc ∈ (s.unit.parsedPacketTc.readIf true).queue ∨
          S.active (wake S (S.update s.sched).2 s.unit.parsedPacketTc.head) tc) ∨
          s.unit.readKey.state ≠ .findNextIkernel ∧ s.unit.readKey.currTc = tc := by
      intro tc htc
      rcases h tc htc with hin | hact | hserve
      · exact .inl (wake_spec hS (.inl hin))
      · exact .inl (wake_spec hS (.inr ((hactive tc).mpr hact)))
      · exact .inr hserve
    have hqueue : ∀ {i : ReadKeyIn logNumTc} {tc : BitVec logNumTc},
        ((step hash setData s.unit (.readKey i)).ikernelIdPerTc tc).queue ≠ [] →
          (s.unit.ikernelIdPerTc tc).queue ≠ [] := queue_readLane_ne_nil
    cases hstate : s.unit.readKey.state with
    | findNextIkernel =>
      have hkeeps : KeepsAwake s (.readKey i) := by
        intro _ _ hc
        rw [hstate] at hc
        cases hc
      have hwaiting : ∀ tc, (s.unit.ikernelIdPerTc tc).queue ≠ [] →
          tc ∈ (s.unit.parsedPacketTc.readIf true).queue ∨
            S.active (wake S (S.update s.sched).2 s.unit.parsedPacketTc.head) tc := by
        intro tc htc
        exact (hwake tc htc).resolve_right fun hc => hc.1 hstate
      dsimp only
      split
      · refine iff_of_true ((noneStranded_of_call hb).mpr ?_) hkeeps
        intro tc htc
        exact (hwaiting tc (hqueue htc)).imp_right .inl
      · -- the class that the scheduler returns is served now
        rename_i p quota σ hflow
        generalize hj : ({ i with schedUpdate := (S.update s.sched).1, nextFlow := some (p, quota) } :
          ReadKeyIn logNumTc) = j
        have hb' : j.busy = false := by
          rw [← hj]
          rw [← hi] at hb
          exact hb
        have hserve : (readKey j s.unit.readKey fun tc => (s.unit.ikernelIdPerTc tc).head).1.state ≠
              .findNextIkernel ∧
            (readKey j s.unit.readKey fun tc => (s.unit.ikernelIdPerTc tc).head).1.currTc = p := by
          unfold readKey
          rw [if_neg (by rw [hb']; decide), hstate, ← hj]
          exact passRequests_spec _ _ _ (by intro hc; cases hc)
        refine iff_of_true ((noneStranded_of_call hb').mpr ?_) hkeeps
        intro tc htc
        by_cases hp : tc = p
        · rw [hp]
          exact .inr (.inr hserve)
        · rcases hwaiting tc (hqueue htc) with hin | hact
          · exact .inl hin
          · exact .inr (.inl ((hS.active_nextFlow_other hflow hp).mpr hact))
    | passRequests =>
      have hkeeps : KeepsAwake s (.readKey i) := by
        intro _ _ hc
        rw [hstate] at hc
        cases hc
      have hserve : (readKey i' s.unit.readKey fun tc => (s.unit.ikernelIdPerTc tc).head).1.state ≠
            .findNextIkernel ∧
          (readKey i' s.unit.readKey fun tc => (s.unit.ikernelIdPerTc tc).head).1.currTc =
            s.unit.readKey.currTc := by
        unfold readKey
        rw [if_neg (by rw [hb]; decide), hstate]
        exact passRequests_spec _ _ _ (by rw [hstate]; decide)
      refine iff_of_true ((noneStranded_of_call hb).mpr ?_) hkeeps
      intro tc htc
      rcases hwake tc (hqueue htc) with (hin | hact) | hold
      · exact .inl hin
      · exact .inr (.inl hact)
      · exact .inr (.inr ⟨hserve.1, hserve.2.trans hold.2⟩)
    | updateQuota =>
      have hcall : (readKey i' s.unit.readKey fun tc => (s.unit.ikernelIdPerTc tc).head) =
          ({ s.unit.readKey with state := .findNextIkernel }, none) := by
        unfold readKey
        rw [if_neg (by rw [hb]; decide), hstate]
      have hids : (step hash setData s.unit (.readKey i')).ikernelIdPerTc = s.unit.ikernelIdPerTc := by
        simp only [step, State.dispatch, hcall, Option.map_none, Option.isSome_none, readLane_false]
      have hkeeps : KeepsAwake s (.readKey i) ↔ (s.unit.readKey.tcEmpty = true ∨
          (s.unit.ikernelIdPerTc s.unit.readKey.currTc).queue = [] ∨
            s.unit.readKey.currTc ∈ s.unit.parsedPacketTc.queue.tail) := by
        constructor
        · intro hk
          obtain ⟨hupdate, hnil⟩ := hbusy.mp hb
          exact hk hupdate hnil hstate
        · intro hk _ _ _
          exact hk
      dsimp only
      rw [noneStranded_of_call hb, hids, hkeeps, hcall, queue_readIf_true]
      have hidle : ∀ tc, ¬(SchedState.findNextIkernel ≠ .findNextIkernel ∧ s.unit.readKey.currTc = tc) :=
        fun tc hc => hc.1 rfl
      constructor
      · -- the class that is handed back
        intro hall
        by_cases hq : (s.unit.ikernelIdPerTc s.unit.readKey.currTc).queue = []
        · exact .inr (.inl hq)
        · rcases hall _ hq with hin | hact | hserve
          · exact .inr (.inr hin)
          · exact .inl ((hS.active_updateFlow _ _ _ _).mp hact)
          · exact absurd hserve (hidle _)
      · intro hk tc htc
        by_cases hcurr : tc = s.unit.readKey.currTc
        · subst hcurr
          rcases hk with hempty | hnil | hin
          · exact .inr (.inl ((hS.active_updateFlow _ _ _ _).mpr hempty))
          · exact absurd hnil htc
          · exact .inl hin
        · rcases hwake tc htc with (hin | hact) | hold
          · rw [queue_readIf_true] at hin
            exact .inl hin
          · exact .inr (.inl ((hS.active_updateFlow_other _ _ hcurr).mpr hact))
          · exact absurd hold.2.symm hcurr

theorem noneStranded_step (hS : S.TracksActivity) (s : Scheduled S) (a : Act logNumTc) (h : NoneStranded s) :
    NoneStranded (scheduledStep hash setData s a) ↔ KeepsAwake s a := by
  cases a with
  | readKey i => exact noneStranded_readKey hS h i
  | parsePacket full => exact iff_of_true (noneStranded_parsePacket h full) trivial
  | verifySig full =>
    refine iff_of_true ?_ trivial
    show NoneStranded { s with unit := step hash setData s.unit (.verifySig full) }
    unfold step
    dsimp only
    split
    · exact h
    · exact h
  | dupMetadata _ | dupData _ | firstPass | firstSha | secondPass | secondSha | actionResolution _ | dropOrPass _ =>
    exact iff_of_true (h.congr rfl rfl rfl fun _ hact => hact) trivial

/-- No request is stranded in any state of a run exactly when `read_key` only hands back classes that it found empty,
or that have no request or another wake-up. -/
theorem noneStranded_iff (hS : S.TracksActivity) (hash : List (List Byte) → List Byte)
    (setData : List Byte → AxiData) (config : Config) (packets : List Datagram) (acts : List (Act logNumTc)) :
    Along (scheduledStep hash setData) KeepsAwake (Scheduled.init S config packets) acts ↔
      ∀ n, NoneStranded (run (scheduledStep hash setData) (Scheduled.init S config packets) (acts.take n)) :=
  along_iff_forall_prefix (fun s a h => noneStranded_step hS s a h) acts _ (noneStranded_init config packets)

instance (s : Scheduled S) : (a : Act logNumTc) → Decidable (KeepsAwake s a)
  | .readKey i => inferInstanceAs (Decidable ((S.update s.sched).1 = false → i.updates = [] →
      s.unit.readKey.state = .updateQuota → _))
  | .dupMetadata _ | .dupData _ | .parsePacket _ | .firstPass | .firstSha | .secondPass | .secondSha
  | .verifySig _ | .actionResolution _ | .dropOrPass _ => isTrue trivial

/-! ### Two requests of one class -/

/-- A packet of six beats of zeros. -/
def sixBeats (ikernelId : BitVec 6) : Datagram where
  metadata := ⟨0, 0, ikernelId, .inl ⟨0, 0, 0, 0, 0, 0⟩, 0, 0, 192⟩
  beats := List.replicate 5 ⟨0, -1, false⟩ ++ [⟨0, -1, true⟩]
  isPacket := ⟨_, _, rfl, rfl, by simp⟩

/-- Both packets are parsed, then `read_key` is called. -/
def twoRequestsActs : List (Act 3) :=
  [List.replicate 2 (.dupMetadata false), List.replicate 12 (.dupData false),
    List.replicate 14 (.parsePacket ⟨false, false, false, false, false⟩),
    List.replicate 4 (.readKey ⟨false, [], none, false, false, false⟩)].flatten

/-- The end of the run, when the scheduler gives every class the same quantum. -/
def twoRequestsEnd (quantum : BitVec 32) (acts : List (Act 3)) : Scheduled (Scheduler.inTurn (BitVec 3) quantum) :=
  run (scheduledStep (fun _ => []) fun _ => ⟨0, 0, false⟩)
    (Scheduled.init _ ⟨fun _ _ => 0, fun _ => 0⟩ [sixBeats 0, sixBeats 8]) acts

/-- With a quantum of eight the class is served until it is empty. -/
theorem noneStranded_iff_twoRequests :
    NoneStranded (twoRequestsEnd 8 (twoRequestsActs.take 31)) ∧
      NoneStranded (twoRequestsEnd 8 (twoRequestsActs.take 32)) := by
  have hall : ∀ n, NoneStranded (twoRequestsEnd 8 (twoRequestsActs.take n)) :=
    (noneStranded_iff (Scheduler.lawful_inTurn (BitVec 3) 8).tracksActivity _ _ _ _ twoRequestsActs).mp
      (by decide +kernel)
  exact ⟨hall 31, hall 32⟩

/-- With a quantum of one it is put to sleep after the first request. -/
theorem not_noneStranded_twoRequests :
    ¬NoneStranded (twoRequestsEnd 1 (twoRequestsActs.take 31)) ∧
      ((twoRequestsEnd 1 (twoRequestsActs.take 31)).unit.ikernelIdPerTc 0).queue = [8] := by
  refine ⟨?_, by decide +kernel⟩
  intro h
  rcases h 0 (by decide +kernel) with hin | hact | hserve
  · revert hin
    decide +kernel
  · have hact : Scheduler.Turns.active (twoRequestsEnd 1 (twoRequestsActs.take 31)).sched 0 = true := hact
    revert hact
    decide +kernel
  · revert hserve
    decide +kernel

end Nica.Hls.Coap
