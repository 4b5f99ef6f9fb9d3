import Nica.Hls.Pktgen
import Nica.Lib.Owed

/-!
# The buffers of the packet generator

`Receiving` is what `data_plane` has read: the packets in their order, and of the one it is in the middle of the
beats that are still due.  Nothing limits the offset but the end of a packet, so the accesses stay in bounds
(`InBounds`) if no packet has more than `data_size` beats (`inBounds_run`).  A packet that has more is written into
the buffer of the next ikernel (`not_inBounds_sixtyFive`).
-/

namespace Nica.Hls.Pktgen

open Nica.Lib

variable {S : Scheduler (BitVec 6)} {ps : List Datagram} {s s' : State S} {due : List AxiData}

/-- What arrived from the host is a prefix of `ps`. -/
def Input (ps : List Datagram) (s : State S) : Prop :=
  s.metadataInput.sent <+: ps.map Datagram.metadata ∧ s.dataInput.sent <+: ps.flatMap Datagram.beats

/-- What `data_plane` has read of `ps`, with the beats of its packet that are still due. -/
structure Receiving (ps : List Datagram) (s : State S) (due : List AxiData) : Prop where
  owed : Owed Datagram.beats ps s.metadataInput.past.length s.dataInput.past due
  resting : s.state ≠ .inputPacket → due = []
  receiving : s.state = .inputPacket → ∃ k p front, s.metadataInput.past.length = k + 1 ∧ ps[k]? = some p ∧
    s.metadata = p.metadata ∧ p.beats = front ++ due ∧ front.length = s.dataOffset ∧ IsPacket due

/-! ### Receiving a packet -/

theorem receiving_init (burst dataLength : BitVec 6 → BitVec 32) :
    Receiving ps (State.init S burst dataLength) [] :=
  ⟨Owed.zero _ _, fun _ => rfl, fun h => by cases h⟩

theorem Receiving.congr (h : Receiving ps s due) (hmeta : s'.metadataInput.past = s.metadataInput.past)
    (hdata : s'.dataInput.past = s.dataInput.past) (hstate : s'.state = s.state)
    (hmetadata : s'.metadata = s.metadata) (hoffset : s'.dataOffset = s.dataOffset) : Receiving ps s' due where
  owed := by rw [hmeta, hdata]; exact h.owed
  resting := by rw [hstate]; exact h.resting
  receiving := by rw [hstate, hmeta, hmetadata, hoffset]; exact h.receiving

/-- A unit that is not in the middle of a packet goes on with something else. -/
theorem Receiving.rest (h : Receiving ps s due) (hmeta : s'.metadataInput.past = s.metadataInput.past)
    (hdata : s'.dataInput.past = s.dataInput.past) (hstate : s.state ≠ .inputPacket)
    (hstate' : s'.state ≠ .inputPacket) : Receiving ps s' due where
  owed := by rw [hmeta, hdata]; exact h.owed
  resting _ := h.resting hstate
  receiving hc := absurd hc hstate'

theorem Receiving.takeMetadata (h : Receiving ps s due) (hin : Input ps s) (hstate : s.state = .idle) {m : Metadata}
    (hm : s.metadataInput.head = some m) :
    ∃ p, ps[s.metadataInput.past.length]? = some p ∧ p.metadata = m ∧
      Receiving ps (Pktgen.takeMetadata m s) p.beats := by
  obtain ⟨p, hp, hpm⟩ := exists_item ((s.metadataInput.past_snoc_prefix_sent hm).trans hin.1)
  have hlen := s.metadataInput.length_past_readIf_true hm
  have hdue : due = [] := h.resting (by rw [hstate]; decide)
  subst hdue
  refine ⟨p, hp, hpm, ?_, ?_, ?_⟩
  · show Owed _ ps (s.metadataInput.readIf true).past.length s.dataInput.past p.beats
    rw [hlen]
    exact h.owed.start hp
  · intro hc
    exact absurd rfl hc
  · intro _
    exact ⟨_, p, [], hlen, hp, hpm.symm, rfl, rfl, p.isPacket⟩

/-- The beat that is read is the next one of the packet. -/
theorem Receiving.head_eq (h : Receiving ps s due) (hin : Input ps s) (hstate : s.state = .inputPacket)
    {d : AxiData} (hd : s.dataInput.head = some d) :
    ∃ rest, due = d :: rest ∧ (d.last = true → rest = []) ∧ (d.last = false → IsPacket rest) := by
  obtain ⟨k, p, front, -, -, -, -, -, hpacket⟩ := h.receiving hstate
  obtain ⟨b, rest, hdue⟩ := List.exists_cons_of_ne_nil hpacket.ne_nil
  rw [hdue] at hpacket
  have howed := h.owed
  rw [hdue] at howed
  have hb : d = b := howed.head_eq hin.2 hd
  subst hb
  exact ⟨rest, hdue, isPacket_cons hpacket⟩

theorem Receiving.beat (h : Receiving ps s due) (hin : Input ps s) (hstate : s.state = .inputPacket) {d : AxiData}
    (hd : s.dataInput.head = some d) : ∃ rest, due = d :: rest ∧ Receiving ps (Pktgen.inputPacket s) rest := by
  obtain ⟨rest, rfl, hend, hmore⟩ := h.head_eq hin hstate hd
  obtain ⟨k, p, front, hk, hp, hm, hbeats, hoffset, -⟩ := h.receiving hstate
  refine ⟨rest, rfl, ?_, ?_, ?_⟩
  · simp only [Pktgen.inputPacket, hd]
    rw [s.dataInput.past_readIf_true hd]
    exact h.owed.advance
  · simp only [Pktgen.inputPacket, hd]
    intro hc
    cases hl : d.last with
    | true => exact hend hl
    | false => simp [hl] at hc
  · simp only [Pktgen.inputPacket, hd]
    intro hc
    have hl : d.last = false := by
      cases hl : d.last with
      | false => rfl
      | true => simp [hl] at hc
    refine ⟨k, p, front ++ [d], hk, hp, hm, ?_, ?_, hmore hl⟩
    · rw [hbeats, List.append_assoc, List.singleton_append]
    · rw [List.length_append, List.length_singleton, hoffset]

theorem inputPacket_none (hd : s.dataInput.head = none) : inputPacket s = s := by
  rw [inputPacket, hd]

theorem Receiving.inputPacket (h : Receiving ps s due) (hin : Input ps s) (hstate : s.state = .inputPacket) :
    ∃ due', Receiving ps (Pktgen.inputPacket s) due' := by
  cases hd : s.dataInput.head with
  | none =>
    rw [inputPacket_none hd]
    exact ⟨due, h⟩
  | some d =>
    obtain ⟨rest, -, hrest⟩ := h.beat hin hstate hd
    exact ⟨rest, hrest⟩

theorem receiving_checkQuantumComplete (canTransmit : Bool) (h : Receiving ps s due)
    (hstate : s.state ≠ .inputPacket) : Receiving ps (checkQuantumComplete canTransmit s) due := by
  unfold checkQuantumComplete
  split
  · exact h.rest rfl rfl hstate (by intro hc; cases hc)
  · exact h.rest rfl rfl hstate (by intro hc; cases hc)

/-- A copy is made of what is there. -/
theorem beginCopy_same (s : State S) :
    (beginCopy s).metadataInput = s.metadataInput ∧ (beginCopy s).dataInput = s.dataInput ∧
      (beginCopy s).state = s.state ∧ (beginCopy s).dataOffset = s.dataOffset ∧
      (beginCopy s).contexts = s.contexts ∧ (beginCopy s).sched = s.sched ∧
      (beginCopy s).contextUpdates = s.contextUpdates ∧ (beginCopy s).transmitCommands = s.transmitCommands ∧
      (beginCopy s).schedulerState = s.schedulerState ∧ (beginCopy s).schedIkernelId = s.schedIkernelId ∧
      (beginCopy s).context.dataLength = s.context.dataLength ∧ (beginCopy s).context.id = s.context.id := by
  unfold beginCopy
  split
  · exact ⟨rfl, rfl, rfl, rfl, rfl, rfl, rfl, rfl, rfl, rfl, rfl, rfl⟩
  · exact ⟨rfl, rfl, rfl, rfl, rfl, rfl, rfl, rfl, rfl, rfl, rfl, rfl⟩

theorem receiving_duplicate (canTransmit : Bool) (h : Receiving ps s due) (hstate : s.state = .duplicate) :
    Receiving ps (duplicate canTransmit s) due := by
  obtain ⟨hm, hd, hs, -⟩ := beginCopy_same s
  rw [hstate] at hs
  have hne : (beginCopy s).state ≠ .inputPacket := by rw [hs]; decide
  have hcopy : Receiving ps (sendBeat (beginCopy s)) due := by
    apply h.rest
    · exact congrArg Fifo.past hm
    · exact congrArg Fifo.past hd
    · rw [hstate]
      decide
    · exact hne
  unfold duplicate
  dsimp only
  split
  · exact receiving_checkQuantumComplete canTransmit (hcopy.rest rfl rfl hne hne) hne
  · exact hcopy

theorem receiving_dataPlane (canTransmit : Bool) (h : Receiving ps s due) (hin : Input ps s) :
    ∃ due', Receiving ps (dataPlane canTransmit s) due' := by
  unfold dataPlane
  cases hstate : s.state with
  | idle =>
    dsimp only
    cases hm : s.metadataInput.head with
    | some m =>
      obtain ⟨p, -, -, hp⟩ := h.takeMetadata hin hstate hm
      refine hp.inputPacket ⟨?_, hin.2⟩ rfl
      show (s.metadataInput.readIf true).sent <+: _
      rw [Fifo.sent_readIf]
      exact hin.1
    | none =>
      dsimp only
      cases hc : s.transmitCommands.head with
      | none => exact ⟨due, h⟩
      | some c =>
        refine ⟨due, receiving_checkQuantumComplete canTransmit ?_ ?_⟩
        · exact h.rest rfl rfl (by rw [hstate]; decide) (by rw [takeCommand, hstate]; decide)
        · rw [takeCommand, hstate]
          decide
  | inputPacket => exact h.inputPacket hin hstate
  | duplicate => exact ⟨due, receiving_duplicate canTransmit h hstate⟩

/-- What `sched_wrapper` leaves alone. -/
structure SameData (s s' : State S) : Prop where
  metadataInput : s'.metadataInput = s.metadataInput
  dataInput : s'.dataInput = s.dataInput
  state : s'.state = s.state
  metadata : s'.metadata = s.metadata
  context : s'.context = s.context
  dataOffset : s'.dataOffset = s.dataOffset
  quota : s'.quota = s.quota
  data : s'.data = s.data
  metadataOutput : s'.metadataOutput = s.metadataOutput
  dataOutput : s'.dataOutput = s.dataOutput

theorem sameData_schedWrapper (gateway : Option GatewayCmd) (full : Bool) (s : State S) :
    SameData s (schedWrapper gateway full s) := by
  have hcommand : ∀ t : State S, SameData s t → SameData s (transmitCommand full t) := by
    intro t ht
    unfold transmitCommand
    split
    · exact ht
    · exact ⟨ht.1, ht.2, ht.3, ht.4, ht.5, ht.6, ht.7, ht.8, ht.9, ht.10⟩
  unfold schedWrapper
  cases gateway with
  | some cmd => exact ⟨rfl, rfl, rfl, rfl, rfl, rfl, rfl, rfl, rfl, rfl⟩
  | none =>
    dsimp only
    split
    · exact ⟨rfl, rfl, rfl, rfl, rfl, rfl, rfl, rfl, rfl, rfl⟩
    · unfold serve
      split
      · exact ⟨rfl, rfl, rfl, rfl, rfl, rfl, rfl, rfl, rfl, rfl⟩
      · split
        · split
          · exact ⟨rfl, rfl, rfl, rfl, rfl, rfl, rfl, rfl, rfl, rfl⟩
          · exact hcommand _ ⟨rfl, rfl, rfl, rfl, rfl, rfl, rfl, rfl, rfl, rfl⟩
        · exact hcommand _ ⟨rfl, rfl, rfl, rfl, rfl, rfl, rfl, rfl, rfl, rfl⟩

theorem SameData.receiving (hs : SameData s s') (h : Receiving ps s due) : Receiving ps s' due :=
  h.congr (by rw [hs.metadataInput]) (by rw [hs.dataInput]) hs.state hs.metadata hs.dataOffset

theorem receiving_step (h : Receiving ps s due) (hin : Input ps s) (a : Act) :
    ∃ due', Receiving ps (step s a) due' := by
  cases a with
  | arriveMetadata m => exact ⟨due, h.congr rfl rfl rfl rfl rfl⟩
  | arriveData d => exact ⟨due, h.congr rfl rfl rfl rfl rfl⟩
  | schedWrapper gateway full => exact ⟨due, (sameData_schedWrapper gateway full s).receiving h⟩
  | dataPlane canTransmit => exact receiving_dataPlane canTransmit h hin

theorem sent_inputPacket (s : State S) :
    (inputPacket s).metadataInput.sent = s.metadataInput.sent ∧
      (inputPacket s).dataInput.sent = s.dataInput.sent := by
  unfold inputPacket
  split
  · exact ⟨rfl, rfl⟩
  · exact ⟨rfl, s.dataInput.sent_readIf true⟩

theorem sent_dataPlane (canTransmit : Bool) (s : State S) :
    (dataPlane canTransmit s).metadataInput.sent = s.metadataInput.sent ∧
      (dataPlane canTransmit s).dataInput.sent = s.dataInput.sent := by
  have hcheck : ∀ t : State S, t.metadataInput = s.metadataInput → t.dataInput = s.dataInput →
      (checkQuantumComplete canTransmit t).metadataInput.sent = s.metadataInput.sent ∧
        (checkQuantumComplete canTransmit t).dataInput.sent = s.dataInput.sent := by
    intro t hm hd
    rw [← hm, ← hd]
    unfold checkQuantumComplete
    split
    · exact ⟨rfl, rfl⟩
    · exact ⟨rfl, rfl⟩
  unfold dataPlane
  split
  · split
    · rename_i m _
      obtain ⟨hm, hd⟩ := sent_inputPacket (takeMetadata m s)
      exact ⟨hm.trans (s.metadataInput.sent_readIf true), hd⟩
    · split
      · exact ⟨rfl, rfl⟩
      · exact hcheck _ rfl rfl
  · exact sent_inputPacket s
  · obtain ⟨hm, hd, -⟩ := beginCopy_same s
    unfold duplicate
    dsimp only
    split
    · exact hcheck _ hm hd
    · exact ⟨congrArg Fifo.sent hm, congrArg Fifo.sent hd⟩

theorem Input.of_step {a : Act} (h : Input ps (step s a)) : Input ps s := by
  cases a with
  | arriveMetadata m =>
    have hm : (s.metadataInput.write m).sent <+: _ := h.1
    rw [Fifo.sent_write] at hm
    exact ⟨(List.prefix_append _ _).trans hm, h.2⟩
  | arriveData d =>
    have hd : (s.dataInput.write d).sent <+: _ := h.2
    rw [Fifo.sent_write] at hd
    exact ⟨h.1, (List.prefix_append _ _).trans hd⟩
  | schedWrapper gateway full =>
    have hs := sameData_schedWrapper gateway full s
    unfold Input at h
    simp only [step] at h
    rw [hs.metadataInput, hs.dataInput] at h
    exact h
  | dataPlane canTransmit =>
    obtain ⟨hm, hd⟩ := sent_dataPlane canTransmit s
    unfold Input at h
    simp only [step] at h
    rw [hm, hd] at h
    exact h

/-! ### The lengths -/

/-- A context that an update has set: its length fits the buffer. -/
def Known (s : State S) (id : BitVec 6) : Prop :=
  (s.contexts id).dataLength.toNat ≤ dataSize ∧ (s.contexts id).id = id

/-- A copy of a context that may be executed. -/
def Fits (s : State S) (c : Context) : Prop := c.dataLength.toNat ≤ dataSize ∧ Known s c.id

/-- Every length on its way fits the buffers. -/
structure Lengths (s : State S) : Prop where
  active : ∀ id, S.active s.sched id → Known s id
  selected : s.schedulerState = .transmitCommand → Known s s.schedIkernelId
  updates : ∀ c ∈ s.contextUpdates.queue, c.dataLength.toNat ≤ dataSize
  commands : ∀ c ∈ s.transmitCommands.queue, Fits s c.1

/-- And so does the length of the copy that is made. -/
structure Bounded (s : State S) : Prop extends Lengths s where
  duplicate : s.state = .duplicate → Fits s s.context ∧ s.dataOffset < dataSize

theorem bounded_init (hS : S.Lawful) (burst dataLength : BitVec 6 → BitVec 32) :
    Bounded (State.init S burst dataLength) where
  active id h := absurd h (hS.not_active_start id)
  selected h := by cases h
  updates c h := absurd h List.not_mem_nil
  commands c h := absurd h List.not_mem_nil
  duplicate h := by cases h

theorem mem_queue_write {α : Type} {f : Fifo α} {x y : α} (h : y ∈ (f.write x).queue) : y ∈ f.queue ∨ y = x := by
  rw [Fifo.queue_write, List.mem_append, List.mem_singleton] at h
  exact h

theorem mem_queue_readIf {α : Type} {f : Fifo α} {y : α} (h : y ∈ (f.readIf true).queue) : y ∈ f.queue := by
  cases hx : f.queue with
  | nil => rwa [Fifo.readIf, if_pos rfl, Fifo.pop, hx, hx] at h
  | cons x q =>
    rw [Fifo.readIf, if_pos rfl, f.queue_pop hx] at h
    exact List.mem_cons_of_mem x h

theorem mem_queue_of_head {α : Type} {f : Fifo α} {x : α} (h : f.head = some x) : x ∈ f.queue := by
  obtain ⟨q, hq⟩ := f.queue_eq_of_head h
  rw [hq]
  exact List.mem_cons_self ..

theorem bounded_gateway (h : Bounded s) (cmd : GatewayCmd) :
    Bounded { s with contexts := cmd.apply s.contexts } := by
  have hknown : ∀ id, Known s id → Known { s with contexts := cmd.apply s.contexts } id := by
    intro id hid
    have hsame : ∀ (i : BitVec 6) (c : Context), c.dataLength = (s.contexts i).dataLength →
        c.id = (s.contexts i).id →
        (Function.update s.contexts i c id).dataLength.toNat ≤ dataSize ∧
          (Function.update s.contexts i c id).id = id := by
      intro i c hlen hcid
      by_cases hi : id = i
      · subst hi
        rw [Function.update_self, hlen, hcid]
        exact hid
      · rw [Function.update_of_ne hi]
        exact hid
    cases cmd with
    | read => exact hid
    | burstSize i value => exact hsame i _ rfl rfl
    | curPacket i value => exact hsame i _ rfl rfl
  exact {
    active := fun id hid => hknown id (h.active id hid)
    selected := fun hs => hknown _ (h.selected hs)
    updates := h.updates
    commands := fun c hc => ⟨(h.commands c hc).1, hknown _ (h.commands c hc).2⟩
    duplicate := fun hd => ⟨⟨(h.duplicate hd).1.1, hknown _ (h.duplicate hd).1.2⟩, (h.duplicate hd).2⟩ }

theorem bounded_update (hS : S.Lawful) (h : Bounded s) : Bounded { s with sched := (S.update s.sched).2 } :=
  { h with active := fun id hid => h.active id ((hS.active_update _ _).mp hid) }

theorem bounded_applyUpdate (hS : S.Lawful) (h : Bounded s) {c : Context} (hc : c.dataLength.toNat ≤ dataSize) :
    Bounded (applyUpdate c s) := by
  have hself : Known (applyUpdate c s) c.id := by
    unfold Known applyUpdate
    dsimp only
    rw [Function.update_self]
    exact ⟨hc, rfl⟩
  have hknown : ∀ id, Known s id → Known (applyUpdate c s) id := by
    intro id hid
    by_cases hi : id = c.id
    · rw [hi]
      exact hself
    · unfold Known applyUpdate
      dsimp only
      rw [Function.update_of_ne hi]
      exact hid
  refine ⟨⟨?_, fun hs => hknown _ (h.selected hs), h.updates, ?_⟩, ?_⟩
  · intro id hid
    by_cases hi : id = c.id
    · rw [hi]
      exact hself
    · apply hknown
      apply h.active
      have hact : S.active (if stdMin c.curPacket (s.contexts c.id).burstSize ≠ 0 then S.schedule s.sched c.id
        else s.sched) id := hid
      split at hact
      · exact (hS.active_schedule_other hi).mp hact
      · exact hact
  · exact fun c' hc' => ⟨(h.commands c' hc').1, hknown _ (h.commands c' hc').2⟩
  · exact fun hd => ⟨⟨(h.duplicate hd).1.1, hknown _ (h.duplicate hd).1.2⟩, (h.duplicate hd).2⟩

theorem bounded_transmitCommand (h : Bounded s) (full : Bool) (hs : Known s s.schedIkernelId) :
    Bounded (transmitCommand full s) := by
  unfold transmitCommand
  split
  · exact h
  · refine ⟨⟨h.active, (by intro hc; cases hc), h.updates, ?_⟩, h.duplicate⟩
    intro c hc
    rcases mem_queue_write hc with hc | rfl
    · exact h.commands c hc
    · refine ⟨hs.1, ?_⟩
      show Known s (s.contexts s.schedIkernelId).id
      rw [hs.2]
      exact hs

theorem bounded_serve (hS : S.Lawful) (h : Bounded s) (full : Bool) : Bounded (serve full s) := by
  unfold serve
  split
  · rename_i c hc
    have hread : Bounded { s with contextUpdates := s.contextUpdates.readIf true } :=
      { h with updates := fun c' hc' => h.updates c' (mem_queue_readIf hc') }
    exact bounded_applyUpdate hS hread (h.updates c (mem_queue_of_head hc))
  · split
    · split
      · exact h
      · rename_i id quota sched hnext
        have hid : Known s id := h.active id (hS.active_of_queued (hS.queued_of_nextFlow hnext))
        have hselect : Bounded (select id quota sched s) :=
          { h with
            active := fun i hi => h.active i ((hS.active_nextFlow i hnext).mp hi)
            selected := fun _ => hid }
        exact bounded_transmitCommand hselect full hid
    · rename_i hstate
      exact bounded_transmitCommand h full (h.selected hstate)

theorem bounded_schedWrapper (hS : S.Lawful) (h : Bounded s) (gateway : Option GatewayCmd) (full : Bool) :
    Bounded (schedWrapper gateway full s) := by
  unfold schedWrapper
  cases gateway with
  | some cmd => exact bounded_gateway h cmd
  | none =>
    dsimp only
    split
    · exact bounded_update hS h
    · exact bounded_serve hS (bounded_update hS h) full

/-- A context goes back to the table, or its packet is sent once more. -/
theorem bounded_checkQuantumComplete (hS : S.Lawful) (canTransmit : Bool) (h : Lengths s) (hc : Fits s s.context) :
    Bounded (checkQuantumComplete canTransmit s) := by
  unfold checkQuantumComplete
  split
  · exact ⟨⟨h.active, h.selected, h.updates, h.commands⟩, fun _ => ⟨hc, Nat.zero_lt_succ 63⟩⟩
  · refine ⟨⟨?_, h.selected, ?_, h.commands⟩, (by intro hd; cases hd)⟩
    · intro id hid
      by_cases hi : id = s.context.id
      · rw [hi]
        exact hc.2
      · exact h.active id ((hS.active_updateFlow_other _ _ hi).mp hid)
    · intro c hc'
      rcases mem_queue_write hc' with hc' | rfl
      · exact h.updates c hc'
      · exact hc.1

theorem bounded_inputPacket (h : Bounded s) (hrec : Receiving ps s due) (hin : Input ps s)
    (hstate : s.state = .inputPacket) (hps : ∀ p ∈ ps, p.beats.length ≤ dataSize) : Bounded (inputPacket s) := by
  unfold inputPacket
  cases hd : s.dataInput.head with
  | none => exact h
  | some d =>
    obtain ⟨rest, rfl, hend, -⟩ := hrec.head_eq hin hstate hd
    obtain ⟨k, p, front, -, hp, -, hbeats, hoffset, -⟩ := hrec.receiving hstate
    refine ⟨⟨h.active, h.selected, ?_, h.commands⟩, ?_⟩
    · dsimp only
      split
      · rename_i hl
        intro c hc
        rcases mem_queue_write hc with hc | rfl
        · exact h.updates c hc
        · have hlen := hps p (List.mem_of_getElem? hp)
          rw [hbeats, hend hl, List.length_append, List.length_singleton, hoffset] at hlen
          rw [BitVec.toNat_ofNat]
          exact (Nat.mod_le _ _).trans hlen
      · exact h.updates
    · dsimp only
      intro hc
      split at hc
      · cases hc
      · cases hc

/-- What does not touch the contexts and their copies. -/
theorem Lengths.congr (h : Lengths s) (hcontexts : s'.contexts = s.contexts) (hsched : s'.sched = s.sched)
    (hstate : s'.schedulerState = s.schedulerState) (hid : s'.schedIkernelId = s.schedIkernelId)
    (hupdates : s'.contextUpdates = s.contextUpdates) (hcommands : s'.transmitCommands = s.transmitCommands) :
    Lengths s' := by
  have hknown : ∀ id, Known s id → Known s' id := by
    intro id hk
    unfold Known
    rw [hcontexts]
    exact hk
  refine ⟨?_, ?_, ?_, ?_⟩
  · rw [hsched]
    exact fun id hact => hknown id (h.active id hact)
  · rw [hstate, hid]
    exact fun hs => hknown _ (h.selected hs)
  · rw [hupdates]
    exact h.updates
  · rw [hcommands]
    exact fun c hc => ⟨(h.commands c hc).1, hknown _ (h.commands c hc).2⟩

theorem bounded_duplicate (hS : S.Lawful) (canTransmit : Bool) (h : Bounded s) (hstate : s.state = .duplicate) :
    Bounded (duplicate canTransmit s) := by
  obtain ⟨hfits, hoffset⟩ := h.duplicate hstate
  obtain ⟨-, -, -, hoff, hcs, hsched, hcu, htc, hss, hsid, hlen, hid⟩ := beginCopy_same s
  have hfits' : Fits (sendBeat (beginCopy s)) (sendBeat (beginCopy s)).context := by
    unfold Fits Known
    show (beginCopy s).context.dataLength.toNat ≤ dataSize ∧
      ((beginCopy s).contexts (beginCopy s).context.id).dataLength.toNat ≤ dataSize ∧
      ((beginCopy s).contexts (beginCopy s).context.id).id = (beginCopy s).context.id
    rw [hlen, hid, hcs]
    exact hfits
  have hsend : Lengths (sendBeat (beginCopy s)) := h.toLengths.congr hcs hsched hss hsid hcu htc
  unfold duplicate
  dsimp only
  split
  · exact bounded_checkQuantumComplete hS canTransmit (hsend.congr rfl rfl rfl rfl rfl rfl) hfits'
  · rename_i hmore
    have hle : (sendBeat (beginCopy s)).context.dataLength.toNat ≤ dataSize := hfits'.1
    exact ⟨hsend, fun _ => ⟨hfits', by omega⟩⟩

theorem bounded_dataPlane (hS : S.Lawful) (canTransmit : Bool) (h : Bounded s) (hrec : Receiving ps s due)
    (hin : Input ps s) (hps : ∀ p ∈ ps, p.beats.length ≤ dataSize) : Bounded (dataPlane canTransmit s) := by
  unfold dataPlane
  cases hstate : s.state with
  | idle =>
    dsimp only
    cases hm : s.metadataInput.head with
    | some m =>
      obtain ⟨p, -, -, hp⟩ := hrec.takeMetadata hin hstate hm
      have htake : Bounded (takeMetadata m s) :=
        ⟨h.toLengths.congr rfl rfl rfl rfl rfl rfl, (by intro hc; cases hc)⟩
      refine bounded_inputPacket htake hp ⟨?_, hin.2⟩ rfl hps
      show (s.metadataInput.readIf true).sent <+: _
      rw [Fifo.sent_readIf]
      exact hin.1
    | none =>
      dsimp only
      cases hc : s.transmitCommands.head with
      | none => exact h
      | some c =>
        apply bounded_checkQuantumComplete hS canTransmit
        · exact ⟨h.active, h.selected, h.updates, fun c' hc' => h.commands c' (mem_queue_readIf hc')⟩
        · exact h.commands c (mem_queue_of_head hc)
  | inputPacket => exact bounded_inputPacket h hrec hin hstate hps
  | duplicate => exact bounded_duplicate hS canTransmit h hstate

theorem bounded_step (hS : S.Lawful) (h : Bounded s) (hrec : Receiving ps s due) (hin : Input ps s)
    (hps : ∀ p ∈ ps, p.beats.length ≤ dataSize) (a : Act) : Bounded (step s a) := by
  cases a with
  | arriveMetadata m => exact ⟨h.toLengths.congr rfl rfl rfl rfl rfl rfl, h.duplicate⟩
  | arriveData d => exact ⟨h.toLengths.congr rfl rfl rfl rfl rfl rfl, h.duplicate⟩
  | schedWrapper gateway full => exact bounded_schedWrapper hS h gateway full
  | dataPlane canTransmit => exact bounded_dataPlane hS canTransmit h hrec hin hps

/-! ### The accesses -/

/-- The element of `data` that the next call of `data_plane` accesses, if it accesses one. -/
def access (s : State S) : Option (BitVec 6 × ℕ) :=
  match s.state with
  | .idle =>
    match s.metadataInput.head, s.dataInput.head with
    | some m, some _ => some (m.ikernelId, 0)
    | _, _ => none
  | .inputPacket => s.dataInput.head.map fun _ => (s.metadata.ikernelId, s.dataOffset)
  | .duplicate => some (s.context.id, s.dataOffset)

/-- The next access is to the buffer of its ikernel. -/
def InBounds (s : State S) : Prop := ∀ a ∈ access s, a.2 < dataSize

instance (s : State S) : Decidable (InBounds s) :=
  match h : access s with
  | none => isTrue fun a ha => by rw [h] at ha; cases ha
  | some a =>
    if hlt : a.2 < dataSize then isTrue fun b hb => by rw [h] at hb; cases hb; exact hlt
    else isFalse fun hc => hlt (hc a h)

theorem Bounded.inBounds (h : Bounded s) (hrec : Receiving ps s due) (hin : Input ps s)
    (hps : ∀ p ∈ ps, p.beats.length ≤ dataSize) : InBounds s := by
  intro a ha
  unfold access at ha
  cases hstate : s.state with
  | idle =>
    rw [hstate] at ha
    dsimp only at ha
    split at ha
    · cases ha
      exact Nat.zero_lt_succ 63
    · cases ha
  | inputPacket =>
    rw [hstate] at ha
    obtain ⟨d, hd, rfl⟩ := Option.map_eq_some_iff.mp ha
    obtain ⟨rest, rfl, -⟩ := hrec.head_eq hin hstate hd
    obtain ⟨k, p, front, -, hp, -, hbeats, hoffset, -⟩ := hrec.receiving hstate
    have hlen := hps p (List.mem_of_getElem? hp)
    rw [hbeats, List.length_append, List.length_cons] at hlen
    show s.dataOffset < dataSize
    omega
  | duplicate =>
    rw [hstate] at ha
    cases ha
    exact (h.duplicate hstate).2

/-- Packets of at most `data_size` beats stay in the buffers of their ikernels, in every run: whatever the commands
of the gateway, the scheduler and the backpressure. -/
theorem inBounds_run (hS : S.Lawful) (burst dataLength : BitVec 6 → BitVec 32) (ps : List Datagram)
    (hps : ∀ p ∈ ps, p.beats.length ≤ dataSize) (acts : List Act)
    (hin : Input ps (run step (State.init S burst dataLength) acts)) :
    InBounds (run step (State.init S burst dataLength) acts) := by
  have hinv : Input ps (run step (State.init S burst dataLength) acts) →
      Bounded (run step (State.init S burst dataLength) acts) ∧
        ∃ due, Receiving ps (run step (State.init S burst dataLength) acts) due := by
    apply run_invariant (P := fun s => Input ps s → Bounded s ∧ ∃ due, Receiving ps s due)
    · intro s a ih h
      have hbefore := h.of_step
      obtain ⟨hb, due, hrec⟩ := ih hbefore
      exact ⟨bounded_step hS hb hrec hbefore hps a, receiving_step hrec hbefore a⟩
    · intro _
      exact ⟨bounded_init hS burst dataLength, [], receiving_init burst dataLength⟩
  obtain ⟨hb, due, hrec⟩ := hinv hin
  exact hb.inBounds hrec hin hps

/-! ### Two runs -/

/-- A packet of `n + 1` beats. -/
def longPacket (n : ℕ) : Datagram where
  metadata := { Metadata.init with length := 32 }
  beats := List.replicate n ⟨1, 0xffffffff, false⟩ ++ [⟨2, 0xffffffff, true⟩]
  isPacket := ⟨_, _, rfl, rfl, by simp⟩

/-- The packet arrives and `n` beats of it are read. -/
def longPacketActs (n : ℕ) : List Act :=
  .arriveMetadata (longPacket n).metadata ::
    ((longPacket n).beats.map .arriveData ++ List.replicate n (.dataPlane true))

/-- The state behind them, with a burst of one packet for every ikernel. -/
def longPacketEnd (n : ℕ) : State (Scheduler.inTurn (BitVec 6) 100) :=
  run step (State.init (Scheduler.inTurn (BitVec 6) 100) (fun _ => 1) fun _ => 0) (longPacketActs n)

/-- The last of 64 beats is stored at the end of the buffer. -/
theorem inBounds_run_sixtyFour : InBounds (longPacketEnd 63) ∧ access (longPacketEnd 63) = some (0, 63) := by
  refine ⟨inBounds_run (Scheduler.lawful_inTurn _ _) _ _ [longPacket 63] ?_ (longPacketActs 63) ?_, ?_⟩
  · intro p hp
    rw [List.mem_singleton.mp hp]
    exact Nat.le_refl 64
  · exact ⟨by decide +kernel, by decide +kernel⟩
  · decide +kernel

/-- The last of 65 beats is stored in the buffer of the next ikernel. -/
theorem not_inBounds_sixtyFive :
    Input [longPacket 64] (longPacketEnd 64) ∧ ¬InBounds (longPacketEnd 64) ∧
      (step (longPacketEnd 64) (.dataPlane true)).data (address 1 0) = ⟨2, 0xffffffff, true⟩ := by
  exact ⟨⟨by decide +kernel, by decide +kernel⟩, by decide +kernel, by decide +kernel⟩

end Nica.Hls.Pktgen
