import Nica.Hls.Equiv.Checksum
import Nica.Lib.Owed

/-!
# Runs of the checksum unit

The unit takes up one packet after the other, and its accumulators are those of the beats it has read of the current one
(`Working`).  So what it puts out is, packet by packet, the result of the accumulators of the whole packet
(`Working.checksum_eq`), and `computesChecksums_iff` says for which packets that is right.

* `Input`: the headers and the beats that arrive are those of the packets;
* `ComputesChecksums`: the checksums are those of the standards, in order and without an overflow, for all packets in the
  end, and a packet that was sent with its checksums is accepted.
-/

namespace Nica.Hls.Checksum

open Nica.Lib
open Nica.Hls.Udp (leadingKeep)

variable {packets : List UdpPacket} {s : State} {due : List AxiData}

/-- Headers and beats arrive in order. -/
def Input (packets : List UdpPacket) (s : State) : Prop :=
  s.hdrIn.sent <+: packets.map UdpPacket.buf ∧ s.dataIn.sent <+: packets.flatMap UdpPacket.beats

/-- What the unit has done: `due` are the beats of its packet that are still to come. -/
structure Working (packets : List UdpPacket) (s : State) (due : List AxiData) : Prop where
  owed : Owed UdpPacket.beats packets s.hdrIn.past.length s.dataIn.past due
  idle : s.state = .idle → due = [] ∧ s.curChecksum.Exact ∧
    s.intermediateStream.sent = (packets.take s.hdrIn.past.length).map UdpPacket.result
  data : s.state = .data → ∃ k p front, s.hdrIn.past.length = k + 1 ∧ packets[k]? = some p ∧ p.beats = front ++ due ∧
    IsPacket due ∧ s.curChecksum = accumulate p.hdr front ∧
    s.intermediateStream.sent = (packets.take k).map UdpPacket.result
  written : s.checksum = s.intermediateStream.past.map finishChecksum

theorem working_init : Working packets State.init [] where
  owed := Owed.zero _ _
  idle _ := ⟨rfl, ⟨fun _ => rfl, fun _ => rfl⟩, rfl⟩
  data h := by cases h
  written := rfl

/-! ### Steps -/

/-- A header is read: the packet begins, and is over at once if it has no payload. -/
theorem Working.header (h : Working packets s due) (hin : Input packets s) (hstate : s.state = .idle)
    {buf : HeaderBuffer} (hbuf : s.hdrIn.head = some buf) :
    ∃ due', Working packets (checksumHeaderAndData false s) due' := by
  obtain ⟨rfl, -, hsent⟩ := h.idle hstate
  obtain ⟨p, hp, rfl⟩ := exists_item ((s.hdrIn.past_snoc_prefix_sent hbuf).trans hin.1)
  have hlen := s.hdrIn.length_past_readIf_true hbuf
  have howed : Owed UdpPacket.beats packets (s.hdrIn.readIf true).past.length s.dataIn.past p.beats := by
    rw [hlen]
    exact h.owed.start hp
  have hcur : headerChecksum p.buf.parse s.curChecksum = accumulate p.hdr [] := by
    rw [headerChecksum_eq, accumulate_nil]
    rfl
  rcases p.beats_cases with ⟨hempty, hbeats⟩ | ⟨hempty, hpacket⟩
  · have hstep : checksumHeaderAndData false s = { s with
        hdrIn := s.hdrIn.readIf true
        curChecksum := accumulate p.hdr []
        intermediateStream := s.intermediateStream.write (accumulate p.hdr []) } := by
      rw [UdpPacket.hdr] at hempty
      rw [← hcur]
      simp only [checksumHeaderAndData, hstate, hbuf, hempty, if_true, Bool.false_eq_true, if_false]
    have hresult : p.result = accumulate p.hdr [] := by rw [UdpPacket.result, hbeats]
    rw [hbeats] at howed
    rw [hstep]
    refine ⟨[], howed, fun _ => ⟨rfl, exact_accumulate _ (Nat.zero_le _), ?_⟩, ?_, h.written⟩
    · show (s.intermediateStream.write _).sent = _
      rw [Fifo.sent_write, hsent, hlen, take_succ_eq hp, List.map_append, List.map_singleton, hresult]
    · intro hc
      rw [hstate] at hc
      cases hc
  · have hstep : checksumHeaderAndData false s = { s with
        hdrIn := s.hdrIn.readIf true
        curChecksum := accumulate p.hdr []
        state := .data } := by
      rw [UdpPacket.hdr] at hempty
      rw [← hcur]
      simp only [checksumHeaderAndData, hstate, hbuf, hempty, Bool.false_eq_true, if_false]
    rw [hstep]
    refine ⟨p.beats, howed, (fun hc => by cases hc), fun _ => ?_, h.written⟩
    exact ⟨_, p, [], hlen, hp, rfl, hpacket, rfl, hsent⟩

/-- A beat is read: the next one of the packet, and the packet is over with the last one. -/
theorem Working.beat (h : Working packets s due) (hin : Input packets s) (hstate : s.state = .data) {word : AxiData}
    (hword : s.dataIn.head = some word) : ∃ due', Working packets (checksumHeaderAndData false s) due' := by
  obtain ⟨k, p, front, hk, hp, hbeats, hpacket, hcur, hsent⟩ := h.data hstate
  obtain ⟨b, rest, rfl⟩ := List.exists_cons_of_ne_nil hpacket.ne_nil
  obtain rfl : word = b := h.owed.head_eq hin.2 hword
  obtain ⟨hend, hmore⟩ := isPacket_cons hpacket
  have hnext : checksumData s.curChecksum word = accumulate p.hdr (front ++ [word]) := by
    rw [hcur, accumulate_snoc]
  have howed : Owed UdpPacket.beats packets s.hdrIn.past.length (s.dataIn.readIf true).past rest := by
    rw [s.dataIn.past_readIf_true hword]
    exact h.owed.advance
  have hsplit : p.beats = front ++ [word] ++ rest := by
    rw [hbeats, List.append_assoc, List.singleton_append]
  cases hlast : word.last with
  | true =>
    obtain rfl := hend hlast
    rw [List.append_nil] at hsplit
    have hstep : checksumHeaderAndData false s = { s with
        dataIn := s.dataIn.readIf true
        curChecksum := p.result
        intermediateStream := s.intermediateStream.write p.result
        state := .idle } := by
      rw [UdpPacket.result, hsplit, ← hnext]
      simp only [checksumHeaderAndData, hstate, hword, hlast, if_true, Bool.false_eq_true, if_false]
    rw [hstep]
    refine ⟨[], howed, fun _ => ⟨rfl, exact_accumulate _ p.length_beats_le, ?_⟩, (fun hc => by cases hc), h.written⟩
    show (s.intermediateStream.write _).sent = _
    rw [Fifo.sent_write, hsent, hk, take_succ_eq hp, List.map_append, List.map_singleton]
  | false =>
    have hstep : checksumHeaderAndData false s = { s with
        dataIn := s.dataIn.readIf true
        curChecksum := accumulate p.hdr (front ++ [word]) } := by
      rw [← hnext]
      simp only [checksumHeaderAndData, hstate, hword, hlast, Bool.false_eq_true, if_false]
    rw [hstep]
    refine ⟨rest, howed, ?_, fun _ => ?_, h.written⟩
    · intro hc
      rw [hstate] at hc
      cases hc
    · exact ⟨k, p, front ++ [word], hk, hp, hsplit, hmore hlast, rfl, hsent⟩

/-- Otherwise the first function does nothing. -/
theorem checksumHeaderAndData_eq_or (full : Bool) (s : State) :
    checksumHeaderAndData full s = s ∨ checksumHeaderAndData full s = checksumHeaderAndData false s ∧
      (s.state = .idle ∧ (∃ buf, s.hdrIn.head = some buf) ∨ s.state = .data ∧ ∃ word, s.dataIn.head = some word) := by
  cases hstate : s.state with
  | idle =>
    cases hbuf : s.hdrIn.head with
    | none =>
      left
      simp only [checksumHeaderAndData, hstate, hbuf]
    | some buf =>
      cases full with
      | true =>
        left
        simp only [checksumHeaderAndData, hstate, hbuf, if_true]
      | false => exact .inr ⟨rfl, .inl ⟨rfl, buf, rfl⟩⟩
  | data =>
    cases hword : s.dataIn.head with
    | none =>
      left
      simp only [checksumHeaderAndData, hstate, hword]
    | some word =>
      cases full with
      | true =>
        left
        simp only [checksumHeaderAndData, hstate, hword, if_true]
      | false => exact .inr ⟨rfl, .inr ⟨rfl, word, rfl⟩⟩

theorem Working.checksumHeaderAndData (full : Bool) (h : Working packets s due) (hin : Input packets s) :
    ∃ due', Working packets (checksumHeaderAndData full s) due' := by
  rcases checksumHeaderAndData_eq_or full s with heq | ⟨heq, hread⟩
  · rw [heq]
    exact ⟨due, h⟩
  · rw [heq]
    rcases hread with ⟨hstate, buf, hbuf⟩ | ⟨hstate, word, hword⟩
    · exact h.header hin hstate hbuf
    · exact h.beat hin hstate hword

theorem Working.finishStep (full : Bool) (h : Working packets s due) : Working packets (finishStep full s) due := by
  unfold Checksum.finishStep
  split
  · exact h
  · rename_i cur hcur
    split
    · exact h
    · refine ⟨h.owed, ?_, ?_, ?_⟩
      · intro hstate
        rw [Fifo.sent_readIf]
        exact h.idle hstate
      · intro hstate
        simp only [Fifo.sent_readIf]
        exact h.data hstate
      · simp only [s.intermediateStream.past_readIf_true hcur, List.map_append, List.map_singleton, h.written]

/-! ### Runs -/

/-- Reading does not change what was sent. -/
theorem sent_checksumHeaderAndData (full : Bool) (s : State) :
    (checksumHeaderAndData full s).hdrIn.sent = s.hdrIn.sent ∧
      (checksumHeaderAndData full s).dataIn.sent = s.dataIn.sent := by
  rcases checksumHeaderAndData_eq_or full s with heq | ⟨heq, ⟨hstate, buf, hbuf⟩ | ⟨hstate, word, hword⟩⟩
  · rw [heq]
    exact ⟨rfl, rfl⟩
  · rw [heq]
    simp only [checksumHeaderAndData, hstate, hbuf, Bool.false_eq_true, if_false]
    split
    · exact ⟨s.hdrIn.sent_readIf true, rfl⟩
    · exact ⟨s.hdrIn.sent_readIf true, rfl⟩
  · rw [heq]
    simp only [checksumHeaderAndData, hstate, hword, Bool.false_eq_true, if_false]
    split
    · exact ⟨rfl, s.dataIn.sent_readIf true⟩
    · exact ⟨rfl, s.dataIn.sent_readIf true⟩

theorem finishStep_inputs (full : Bool) (s : State) :
    (finishStep full s).hdrIn = s.hdrIn ∧ (finishStep full s).dataIn = s.dataIn := by
  unfold finishStep
  split
  · exact ⟨rfl, rfl⟩
  · split
    · exact ⟨rfl, rfl⟩
    · exact ⟨rfl, rfl⟩

theorem input_of_step {a : Act} (h : Input packets (step s a)) : Input packets s := by
  cases a with
  | arriveHeader buf => exact ⟨List.IsPrefix.trans ⟨[buf], (s.hdrIn.sent_write buf).symm⟩ h.1, h.2⟩
  | arriveData word => exact ⟨h.1, List.IsPrefix.trans ⟨[word], (s.dataIn.sent_write word).symm⟩ h.2⟩
  | checksumHeaderAndData full =>
    obtain ⟨hhdr, hdata⟩ := sent_checksumHeaderAndData full s
    rw [Input, ← hhdr, ← hdata]
    exact h
  | finishChecksum full =>
    obtain ⟨hhdr, hdata⟩ := finishStep_inputs full s
    rw [Input, ← hhdr, ← hdata]
    exact h

theorem Working.step {a : Act} (h : Working packets s due) (hin : Input packets s) :
    ∃ due', Working packets (step s a) due' := by
  cases a with
  | arriveHeader buf => exact ⟨due, h.owed, h.idle, h.data, h.written⟩
  | arriveData word => exact ⟨due, h.owed, h.idle, h.data, h.written⟩
  | checksumHeaderAndData full => exact h.checksumHeaderAndData full hin
  | finishChecksum full => exact ⟨due, h.finishStep full⟩

theorem working_run (packets : List UdpPacket) (acts : List Act) (hin : Input packets (run step .init acts)) :
    ∃ due, Working packets (run step .init acts) due := by
  have hstep : ∀ s a, (Input packets s → ∃ due, Working packets s due) →
      Input packets (step s a) → ∃ due, Working packets (step s a) due := by
    intro s a hs hin
    obtain ⟨due, h⟩ := hs (input_of_step hin)
    exact h.step (input_of_step hin)
  exact run_invariant hstep acts .init (fun _ => ⟨[], working_init⟩) hin

/-! ### The output -/

/-- The accumulators that were written are those of the first packets. -/
theorem Working.sent_eq (h : Working packets s due) :
    ∃ k, s.intermediateStream.sent = (packets.take k).map UdpPacket.result := by
  cases hstate : s.state with
  | idle => exact ⟨_, (h.idle hstate).2.2⟩
  | data =>
    obtain ⟨k, p, front, -, -, -, -, -, hsent⟩ := h.data hstate
    exact ⟨k, hsent⟩

theorem Working.checksum_eq (h : Working packets s due) :
    s.checksum = (packets.take s.checksum.length).map fun p => finishChecksum p.result := by
  obtain ⟨k, hsent⟩ := h.sent_eq
  have hpre : s.checksum <+: packets.map fun p => finishChecksum p.result := by
    rw [h.written]
    have hsents : s.intermediateStream.sent.map finishChecksum
        = (packets.take k).map fun p => finishChecksum p.result := by
      rw [hsent, List.map_map, Function.comp_def]
    have hpast := s.intermediateStream.past_prefix_sent.map finishChecksum
    rw [hsents] at hpast
    exact hpast.trans (map_take_isPrefix (fun p : UdpPacket => finishChecksum p.result) packets k)
  rw [List.map_take]
  exact List.prefix_iff_eq_take.mp hpre

/-- No accumulator has lost a carry. -/
theorem Working.exact (h : Working packets s due) :
    s.curChecksum.Exact ∧ ∀ c ∈ s.intermediateStream.sent, c.Exact := by
  constructor
  · cases hstate : s.state with
    | idle => exact (h.idle hstate).2.1
    | data =>
      obtain ⟨k, p, front, -, -, hbeats, -, hcur, -⟩ := h.data hstate
      have hle := p.length_beats_le
      rw [hbeats, List.length_append] at hle
      rw [hcur]
      exact exact_accumulate _ (by omega)
  · intro c hc
    obtain ⟨k, hsent⟩ := h.sent_eq
    rw [hsent] at hc
    obtain ⟨p, -, rfl⟩ := List.mem_map.mp hc
    exact exact_accumulate _ p.length_beats_le

/-! ### Progress -/

/-- All headers and beats have arrived. -/
def Arrived (packets : List UdpPacket) (s : State) : Prop :=
  s.hdrIn.sent = packets.map UdpPacket.buf ∧ s.dataIn.sent = packets.flatMap UdpPacket.beats

theorem Arrived.input (h : Arrived packets s) : Input packets s := by
  rw [Input, h.1, h.2]
  exact ⟨List.prefix_refl _, List.prefix_refl _⟩

/-- A unit that finds nothing to read has put out a result for every packet. -/
theorem Working.length_checksum (h : Working packets s due) (hall : Arrived packets s)
    (hread : ¬(s.state = .idle ∧ (∃ buf, s.hdrIn.head = some buf) ∨ s.state = .data ∧ ∃ word, s.dataIn.head = some word))
    (hfinish : s.intermediateStream.head = none) : s.checksum.length = packets.length := by
  cases hstate : s.state with
  | idle =>
    have hnone : s.hdrIn.head = none := by
      cases hbuf : s.hdrIn.head with
      | none => rfl
      | some buf => exact absurd (.inl ⟨hstate, buf, hbuf⟩) hread
    have hpast : s.hdrIn.past.length = packets.length := by
      rw [s.hdrIn.past_eq_sent hnone, hall.1, List.length_map]
    obtain ⟨-, -, hsent⟩ := h.idle hstate
    rw [h.written, s.intermediateStream.past_eq_sent hfinish, hsent, hpast, List.take_length, List.length_map,
      List.length_map]
  | data =>
    exfalso
    obtain ⟨k, p, front, -, -, -, hpacket, -⟩ := h.data hstate
    have hnone : s.dataIn.head = none := by
      cases hword : s.dataIn.head with
      | none => rfl
      | some word => exact absurd (.inr ⟨hstate, word, hword⟩) hread
    have hle := h.owed.all_prefix_pieces.length_le
    rw [s.dataIn.past_eq_sent hnone, hall.2, List.length_append] at hle
    exact hpacket.ne_nil (List.length_eq_zero_iff.mp (by omega))

/-- What the two functions still have to read. -/
def remaining (s : State) : ℕ :=
  2 * (s.hdrIn.queue.length + s.dataIn.queue.length) + s.intermediateStream.queue.length

theorem length_queue_readIf_true {α : Type} {f : Fifo α} {x : α} (h : f.head = some x) :
    (f.readIf true).queue.length + 1 = f.queue.length := by
  obtain ⟨q, hq⟩ := f.queue_eq_of_head h
  rw [Fifo.readIf, if_pos rfl, f.queue_pop hq, hq, List.length_cons]

theorem remaining_checksumHeaderAndData
    (hread : s.state = .idle ∧ (∃ buf, s.hdrIn.head = some buf) ∨ s.state = .data ∧ ∃ word, s.dataIn.head = some word) :
    remaining (checksumHeaderAndData false s) < remaining s := by
  rcases hread with ⟨hstate, buf, hbuf⟩ | ⟨hstate, word, hword⟩
  · have hlen := length_queue_readIf_true hbuf
    simp only [checksumHeaderAndData, hstate, hbuf, Bool.false_eq_true, if_false, remaining]
    split
    · simp only [Fifo.queue_write, List.length_append, List.length_singleton]
      omega
    · simp only
      omega
  · have hlen := length_queue_readIf_true hword
    simp only [checksumHeaderAndData, hstate, hword, Bool.false_eq_true, if_false, remaining]
    split
    · simp only [Fifo.queue_write, List.length_append, List.length_singleton]
      omega
    · simp only
      omega

theorem remaining_finishStep {cur : Intermediate} (hcur : s.intermediateStream.head = some cur) :
    remaining (finishStep false s) < remaining s := by
  have hlen := length_queue_readIf_true hcur
  simp only [finishStep, hcur, Bool.false_eq_true, if_false, remaining]
  omega

/-- Once everything has arrived, calls of the two functions put out a result for every packet. -/
theorem Working.exists_calls (h : Working packets s due) (hall : Arrived packets s) :
    ∃ calls : List Act, (∀ a ∈ calls, a = .checksumHeaderAndData false ∨ a = .finishChecksum false) ∧
      (run Checksum.step s calls).checksum.length = packets.length := by
  -- by induction on what is left to read
  induction hn : remaining s using Nat.strongRecOn generalizing s due with
  | _ n ih =>
    by_cases hread : s.state = .idle ∧ (∃ buf, s.hdrIn.head = some buf) ∨
        s.state = .data ∧ ∃ word, s.dataIn.head = some word
    · obtain ⟨due', h'⟩ := h.checksumHeaderAndData false hall.input
      obtain ⟨hhdr, hdata⟩ := sent_checksumHeaderAndData false s
      have hlt := remaining_checksumHeaderAndData hread
      obtain ⟨calls, hcalls, hlen⟩ := ih _ (hn ▸ hlt) h' ⟨hhdr.trans hall.1, hdata.trans hall.2⟩ rfl
      exact ⟨.checksumHeaderAndData false :: calls, List.forall_mem_cons.mpr ⟨.inl rfl, hcalls⟩, hlen⟩
    · cases hcur : s.intermediateStream.head with
      | none => exact ⟨[], fun a ha => absurd ha List.not_mem_nil, h.length_checksum hall hread hcur⟩
      | some cur =>
        obtain ⟨hhdr, hdata⟩ := finishStep_inputs false s
        have hlt := remaining_finishStep hcur
        have hall' : Arrived packets (Checksum.finishStep false s) := by
          rw [Arrived, hhdr, hdata]
          exact hall
        obtain ⟨calls, hcalls, hlen⟩ := ih _ (hn ▸ hlt) (h.finishStep false) hall' rfl
        exact ⟨.finishChecksum false :: calls, List.forall_mem_cons.mpr ⟨.inr rfl, hcalls⟩, hlen⟩

/-! ### The checksums -/

/-- The packet carries the checksums of the standards; a UDP checksum of 0 says that there is none. -/
def UdpPacket.CorrectlyChecksummed (p : UdpPacket) : Prop :=
  p.hdr.ip.check = p.checksums.ipChecksum ∧ (p.hdr.udp.checksum = p.checksums.udpChecksum ∨ p.hdr.udp.checksum = 0)

/-- The unit puts out the checksums of the packets. -/
structure ComputesChecksums (packets : List UdpPacket) (s : State) : Prop where
  outputs : s.checksum <+: packets.map UdpPacket.checksums
  exact : s.curChecksum.Exact ∧ ∀ c ∈ s.intermediateStream.sent, c.Exact
  accepts : ∀ x ∈ packets.zip s.checksum, x.1.CorrectlyChecksummed → checksumValidate x.2 x.1.buf = true
  delivers : Arrived packets s → ∃ calls : List Act,
    (∀ a ∈ calls, a = .checksumHeaderAndData false ∨ a = .finishChecksum false) ∧
      (run step s calls).checksum.length = packets.length

/-- The checksums of a packet pass its validation if they are those it carries. -/
theorem checksumValidate_of_correct {p : UdpPacket} (h : p.CorrectlyChecksummed) :
    checksumValidate p.checksums p.buf = true := by
  obtain ⟨hip, hudp⟩ := h
  rw [UdpPacket.hdr] at hip hudp
  simp only [checksumValidate, Bool.and_eq_true, Bool.or_eq_true, beq_iff_eq]
  exact ⟨hip.symm, hudp.imp Eq.symm id⟩

/-- **The checksums are right exactly for packets whose deviations cancel.** -/
theorem computesChecksums_iff (packets : List UdpPacket) (acts : List Act)
    (hin : Input packets (run step .init acts)) :
    ComputesChecksums packets (run step .init acts) ↔
      ∀ p ∈ packets.take (run step .init acts).checksum.length, p.Cancels := by
  obtain ⟨due, h⟩ := working_run packets acts hin
  generalize run step .init acts = s at h hin
  have hout := h.checksum_eq
  constructor
  · intro hc p hp
    have hright : s.checksum = (packets.take s.checksum.length).map UdpPacket.checksums := by
      rw [List.map_take]
      exact List.prefix_iff_eq_take.mp hc.outputs
    have hboth := hout.symm.trans hright
    exact p.finishChecksum_result_iff.mp (List.map_inj_left.mp hboth p hp)
  · intro hcancels
    have hright : s.checksum = (packets.take s.checksum.length).map UdpPacket.checksums :=
      hout.trans (List.map_congr_left fun p hp => p.finishChecksum_result_iff.mpr (hcancels p hp))
    have hpre : s.checksum <+: packets.map UdpPacket.checksums := by
      rw [hright]
      exact map_take_isPrefix _ _ _
    refine ⟨hpre, h.exact, ?_, h.exists_calls⟩
    rintro ⟨p, sum⟩ hx hcorrect
    obtain ⟨more, hmore⟩ := hpre
    have hzip : packets.zip (packets.map UdpPacket.checksums) = packets.map fun p => (p, p.checksums) := by
      have hzip := List.zip_map' (f := id) (g := UdpPacket.checksums) (l := packets)
      rwa [List.map_id] at hzip
    have hmem := (zip_isPrefix_zip_append packets s.checksum more).subset hx
    rw [hmore, hzip, List.mem_map] at hmem
    obtain ⟨q, -, hq⟩ := hmem
    obtain ⟨rfl, rfl⟩ := Prod.mk.inj hq
    exact checksumValidate_of_correct hcorrect

/-! ### Two packets -/

/-- The headers of a datagram from 10.0.0.1 to 10.0.0.2 with a UDP length. -/
def headersOfLength (length : BitVec 16) : HeaderParser where
  eth := ⟨0x020000000002, 0x020000000001, ethPIp⟩
  ip := ⟨4, 5, 0, 20 + length, 0, 0, 64, ipprotoUdp, 0, 0x0a000001, 0x0a000002⟩
  udp := ⟨1000, 2000, length, 0⟩

def bufferOfLength (length : BitVec 16) : HeaderBuffer := ⟨(headersOfLength length).toBits, 0, 0, false⟩

/-- A payload of one byte: 17, which is also what the last byte of the beat is. -/
def seventeens : UdpPacket where
  buf := bufferOfLength 9
  beats := [⟨17#8 ++ 0#240 ++ 17#8, leadingKeep 1, true⟩]
  length_ge := by decide +kernel
  framed := .inr ⟨[], ⟨17#8 ++ 0#240 ++ 17#8, leadingKeep 1, true⟩, 1, rfl, by simp, rfl, rfl, by decide, by decide,
    by decide +kernel⟩

/-- A datagram without a payload. -/
def emptyDatagram : UdpPacket where
  buf := bufferOfLength 8
  beats := []
  length_ge := by decide +kernel
  framed := .inl ⟨by decide +kernel, rfl⟩

/-- The packet arrives and is worked off. -/
def actsOf (p : UdpPacket) : List Act :=
  .arriveHeader p.buf :: p.beats.map .arriveData ++
    List.replicate (p.beats.length + 1) (.checksumHeaderAndData false) ++ [.finishChecksum false]

/-- The misplaced protocol and the wrong byte cancel. -/
theorem computesChecksums_seventeens : ComputesChecksums [seventeens] (run step .init (actsOf seventeens)) := by
  have hin : Input [seventeens] (run step .init (actsOf seventeens)) := ⟨List.prefix_refl _, List.prefix_refl _⟩
  rw [computesChecksums_iff [seventeens] (actsOf seventeens) hin]
  intro p hp
  obtain rfl := List.mem_singleton.mp (List.mem_of_mem_take hp)
  decide +kernel

/-- The checksum of a datagram without a payload is wrong. -/
theorem not_computesChecksums_emptyDatagram :
    Input [emptyDatagram] (run step .init (actsOf emptyDatagram)) ∧
      ¬ComputesChecksums [emptyDatagram] (run step .init (actsOf emptyDatagram)) := by
  refine ⟨⟨List.prefix_refl _, List.prefix_refl _⟩, fun h => ?_⟩
  have hwrong : ¬(run step .init (actsOf emptyDatagram)).checksum <+: [emptyDatagram.checksums] := by
    decide +kernel
  exact hwrong h.outputs

end Nica.Hls.Checksum
