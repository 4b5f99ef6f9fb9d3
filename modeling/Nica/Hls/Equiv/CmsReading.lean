import Nica.Hls.CmsReading
import Nica.Lib.Run

/-!
# What the host reads from the heap

Every pair that the heap gives up reaches the host once, in order, the entity before the frequency, whatever the order
of the calls is; and the heap gives up `k_value` pairs for each request.

* `Passing`: a pair is on the stream, or the host has read its entity, or both its words.
* `Counting`: how many pairs were taken, against the requests that were.
* `answers_run`: both, for all runs.
-/

namespace Nica.Hls.CmsReading

open Nica.Lib
open Nica.Hls.Cms (ValueAndFrequency)

/-- What the host gets for some pairs. -/
def wordsOf (kvs : List ValueAndFrequency) : List (BitVec 32) := kvs.flatMap fun kv => [kv.entity, kv.frequency]

theorem wordsOf_append (kvs kvs' : List ValueAndFrequency) : wordsOf (kvs ++ kvs') = wordsOf kvs ++ wordsOf kvs' :=
  List.flatMap_append

/-- The answers so far are those for the pairs that were taken from the stream, up to the frequency of the last one. -/
structure Passing (s : State) (answers : List (BitVec 32)) : Prop where
  notEntity : s.readState ≠ .entity
  initial : s.readState = .initial → answers = wordsOf s.topKValues.past
  frequency : s.readState = .frequency → answers ++ [s.nextTopKPair.frequency] = wordsOf s.topKValues.past
  sent : s.topKValues.sent = s.heapOut.past

/-- The pairs taken so far: `k_value` for each request, but for those that the current one still has to take. -/
structure Counting (kValue : BitVec 32) (s : State) : Prop where
  reading : s.readingHeap = true → s.readingIndex.toNat ≤ kValue.toNat ∧
    s.heapOut.past.length + kValue.toNat = kValue.toNat * s.topKReadRequest.past.length + s.readingIndex.toNat
  idle : s.readingHeap = false → s.heapOut.past.length = kValue.toNat * s.topKReadRequest.past.length

section Steps

variable {kValue : BitVec 32} {s : State} {answers : List (BitVec 32)}

theorem passing_sampleK (h : Passing s answers) : Passing (sampleK kValue s) answers := by
  unfold sampleK
  split
  · exact h
  · exact ⟨h.notEntity, h.initial, h.frequency, h.sent⟩

theorem passing_takeRequest (h : Passing s answers) : Passing (takeRequest s) answers := by
  unfold takeRequest
  split
  · exact ⟨h.notEntity, h.initial, h.frequency, h.sent⟩
  · exact h

theorem passing_movePair (h : Passing s answers) (valuesFull : Bool) : Passing (movePair kValue valuesFull s) answers := by
  unfold movePair
  split
  · exact ⟨h.notEntity, h.initial, h.frequency, h.sent⟩
  · split
    · exact h
    · rename_i kv hkv
      split
      · refine ⟨h.notEntity, h.initial, h.frequency, ?_⟩
        show (s.topKValues.write kv).sent = (s.heapOut.readIf true).past
        rw [Fifo.sent_write, h.sent, Fifo.past_readIf_true _ hkv]
      · exact h

/-- A call of the host. -/
theorem passing_regRead (h : Passing s answers) (address : ℤ) :
    Passing (regRead address s).1 (answers ++ answer s (.regRead address)) := by
  by_cases ha : address = topKReadNextValue
  · have hk : address ≠ readKValue := by rw [ha]; decide
    match hs : s.readState with
    | .initial =>
      cases hkv : s.topKValues.head with
      | none =>
        have hread : regRead address s = (s, none, .busy) := by simp [regRead, ha, hs, hkv, topKReadNextValue, readKValue]
        simpa [answer, hread] using h
      | some kv =>
        -- the entity of the next pair
        have hread : regRead address s =
            ({ s with topKValues := s.topKValues.readIf true, nextTopKPair := kv, readState := .frequency },
              some kv.entity, .done) := by
          simp [regRead, ha, hs, hkv, topKReadNextValue, readKValue]
        have hanswer : answer s (.regRead address) = [kv.entity] := by
          rw [answer, hread]
          exact if_pos ⟨ha, rfl⟩
        have hpast := s.topKValues.past_readIf_true hkv
        rw [hread, hanswer]
        refine ⟨by simp, by simp, fun _ => ?_, ?_⟩
        · show answers ++ [kv.entity] ++ [kv.frequency] = wordsOf (s.topKValues.readIf true).past
          rw [hpast, wordsOf_append, h.initial hs, List.append_assoc]
          rfl
        · show (s.topKValues.readIf true).sent = _
          rw [Fifo.sent_readIf, h.sent]
    | .frequency =>
      have hread : regRead address s = ({ s with readState := .initial }, some s.nextTopKPair.frequency, .done) := by
        simp [regRead, ha, hs, topKReadNextValue, readKValue]
      have hanswer : answer s (.regRead address) = [s.nextTopKPair.frequency] := by
        rw [answer, hread]
        exact if_pos ⟨ha, rfl⟩
      rw [hread, hanswer]
      exact ⟨by simp, fun _ => h.frequency hs, by simp, h.sent⟩
    | .entity => exact absurd hs h.notEntity
  · have hread : (regRead address s).1 = s := by
      unfold regRead
      by_cases hk : address = readKValue
      · rw [if_pos hk]
      · rw [if_neg hk, if_pos ha]
    have hanswer : answer s (.regRead address) = [] := if_neg fun h => ha h.1
    rw [hread, hanswer, List.append_nil]
    exact h

theorem passing_step (h : Passing s answers) (a : Act) : Passing (step kValue s a) (answers ++ answer s a) := by
  match a with
  | .readHeap valuesFull =>
    show Passing (readHeap kValue valuesFull s) (answers ++ [])
    rw [List.append_nil]
    exact passing_movePair (passing_takeRequest (passing_sampleK h)) valuesFull
  | .regWrite address =>
    show Passing (regWrite address s) (answers ++ [])
    rw [List.append_nil, regWrite]
    split
    · exact ⟨h.notEntity, h.initial, h.frequency, h.sent⟩
    · exact h
  | .regRead address => exact passing_regRead h address
  | .arrive kv =>
    show Passing { s with heapOut := s.heapOut.write kv } (answers ++ [])
    rw [List.append_nil]
    exact ⟨h.notEntity, h.initial, h.frequency, h.sent⟩

/-! ### Counting -/

theorem counting_sampleK (h : Counting kValue s) : Counting kValue (sampleK kValue s) := by
  unfold sampleK
  split
  · exact h
  · exact ⟨h.reading, h.idle⟩

theorem counting_takeRequest (h : Counting kValue s) : Counting kValue (takeRequest s) := by
  unfold takeRequest
  split
  · rename_i hcond
    rw [Bool.and_eq_true, Bool.not_eq_true' (b := s.readingHeap)] at hcond
    obtain ⟨x, hx⟩ := s.topKReadRequest.exists_head hcond.1
    have hidle := h.idle hcond.2
    refine ⟨fun _ => ⟨Nat.zero_le _, ?_⟩, fun hfalse => Bool.noConfusion hfalse⟩
    show s.heapOut.past.length + kValue.toNat =
      kValue.toNat * (s.topKReadRequest.readIf true).past.length + 0
    rw [Fifo.length_past_readIf_true _ hx, hidle, Nat.mul_succ, Nat.add_zero]
  · exact h

theorem counting_movePair (h : Counting kValue s) (valuesFull : Bool) : Counting kValue (movePair kValue valuesFull s) := by
  unfold movePair
  split
  · rename_i hk
    refine ⟨fun hfalse => Bool.noConfusion hfalse, fun _ => ?_⟩
    show s.heapOut.past.length = kValue.toNat * s.topKReadRequest.past.length
    cases hr : s.readingHeap with
    | false => exact h.idle hr
    | true =>
      have hcount := (h.reading hr).2
      rw [hk] at hcount
      omega
  · rename_i hk
    split
    · exact h
    · rename_i kv hkv
      split
      · rename_i hcond
        rw [Bool.and_eq_true] at hcond
        obtain ⟨hle, hcount⟩ := h.reading hcond.1
        have hne : s.readingIndex.toNat ≠ kValue.toNat := fun heq => hk (BitVec.eq_of_toNat_eq heq)
        have hlt := kValue.isLt
        have hsucc : (s.readingIndex + 1).toNat = s.readingIndex.toNat + 1 := by
          rw [BitVec.toNat_add, show (1 : BitVec 32).toNat = 1 from rfl]
          omega
        refine ⟨fun _ => ?_, fun hfalse => ?_⟩
        · show (s.readingIndex + 1).toNat ≤ kValue.toNat ∧ (s.heapOut.readIf true).past.length + kValue.toNat =
            kValue.toNat * s.topKReadRequest.past.length + (s.readingIndex + 1).toNat
          rw [hsucc, Fifo.length_past_readIf_true _ hkv]
          omega
        · exact Bool.noConfusion (hcond.1.symm.trans hfalse)
      · exact h

theorem counting_step (h : Counting kValue s) (a : Act) : Counting kValue (step kValue s a) := by
  match a with
  | .readHeap valuesFull => exact counting_movePair (counting_takeRequest (counting_sampleK h)) valuesFull
  | .regWrite address =>
    rw [step, regWrite]
    split
    · exact ⟨h.reading, h.idle⟩
    · exact h
  | .regRead address =>
    have hread : (regRead address s).1.readingHeap = s.readingHeap ∧
        (regRead address s).1.readingIndex = s.readingIndex ∧ (regRead address s).1.heapOut = s.heapOut ∧
        (regRead address s).1.topKReadRequest = s.topKReadRequest := by
      unfold regRead
      split
      · exact ⟨rfl, rfl, rfl, rfl⟩
      · split
        · exact ⟨rfl, rfl, rfl, rfl⟩
        · split
          · split <;> exact ⟨rfl, rfl, rfl, rfl⟩
          · exact ⟨rfl, rfl, rfl, rfl⟩
          · exact ⟨rfl, rfl, rfl, rfl⟩
    obtain ⟨h₁, h₂, h₃, h₄⟩ := hread
    refine ⟨?_, ?_⟩ <;> rw [step, h₁, h₃, h₄]
    · rw [h₂]
      exact h.reading
    · exact h.idle
  | .arrive kv => exact ⟨h.reading, h.idle⟩

end Steps

/-! ### Runs -/

/-- What the host has got in a run from the start. -/
abbrev answers (kValue : BitVec 32) (acts : List Act) : List (BitVec 32) := trace (step kValue) answer .init acts

/-- **What the host reads**: for every order of the calls and the arrivals, the host has got the words of the pairs that
the heap gave up, in order and each once, up to those that are still on their way; and the heap has given up `k_value`
pairs for each request, but for those that the current one still has to take. -/
theorem answers_run (kValue : BitVec 32) (acts : List Act) :
    let s := run (step kValue) .init acts
    answers kValue acts <+: wordsOf s.heapOut.past ∧
      (s.topKValues.queue = [] → s.readState = .initial → answers kValue acts = wordsOf s.heapOut.past) ∧
      s.heapOut.past.length ≤ kValue.toNat * s.topKReadRequest.past.length ∧
      (s.readingHeap = false → s.heapOut.past.length = kValue.toNat * s.topKReadRequest.past.length) ∧
      (s.readingHeap = true → s.heapOut.past.length + kValue.toNat =
        kValue.toNat * s.topKReadRequest.past.length + s.readingIndex.toNat) := by
  intro s
  have hpassing : Passing s (answers kValue acts) :=
    run_trace_induction (C := fun _ _ => True) (P := Passing) (fun _ a _ _ h => passing_step h a) acts _ []
      (along_of_forall acts _ fun _ _ => trivial) ⟨by decide, fun _ => rfl, nofun, rfl⟩
  have hcounting : Counting kValue s :=
    run_invariant (P := Counting kValue) (fun _ a h => counting_step h a) acts _ ⟨nofun, fun _ => rfl⟩
  have hpast : wordsOf s.topKValues.past <+: wordsOf s.heapOut.past := by
    rw [← hpassing.sent, Fifo.sent, wordsOf_append]
    exact List.prefix_append _ _
  refine ⟨?_, fun hq hs => ?_, ?_, hcounting.idle, fun hr => (hcounting.reading hr).2⟩
  · cases hs : s.readState with
    | initial =>
      rw [hpassing.initial hs]
      exact hpast
    | frequency =>
      refine List.IsPrefix.trans ?_ hpast
      rw [← hpassing.frequency hs]
      exact List.prefix_append _ _
    | entity => exact absurd hs hpassing.notEntity
  · rw [hpassing.initial hs, ← hpassing.sent, Fifo.sent, hq, List.append_nil]
  · cases hr : s.readingHeap with
    | false => exact (hcounting.idle hr).le
    | true =>
      obtain ⟨hle, hcount⟩ := hcounting.reading hr
      omega

end Nica.Hls.CmsReading
