import Mathlib.Data.List.Forall2
import Nica.Hls.Equiv.Merger
import Nica.Hls.Equiv.Padding
import Nica.Hls.Equiv.UdpBytes

/-!
# Ethernet padding, for every sequence of frames

The padding unit on its own: beats arrive and `pad` is called, in any order.  `Pads` is what it is for: frames
come out as they went in, except that a frame of two beats below 60 bytes is filled up, and its count is the
position in the frame.  The count has 6 bits, so it does this for frames of at most 64 beats (`pads_iff`).
-/

namespace Nica.Hls.Builder

open Nica.Lib

/-! ### Frames -/

/-- A frame: its last beat keeps a run of bytes from the first one on. -/
structure Frame where
  front : List Axi4s
  final : Axi4s
  ones : ℕ
  front_last : ∀ b ∈ front, b.last = false
  final_last : final.last = true
  ones_le : ones ≤ 32
  final_keep : final.keep = Udp.leadingKeep ones

namespace Frame

def beats (k : Frame) : List Axi4s := k.front ++ [k.final]

/-- The length in bytes. -/
def size (k : Frame) : ℕ := 32 * k.front.length + k.ones

/-- Two beats, and below 60 bytes. -/
def short (k : Frame) : Bool := k.front.length = 1 ∧ k.size < 60

/-- The kept bytes. -/
def bytes (k : Frame) : List (BitVec 8) := Udp.kept (k.beats.map fun b => (splitMetadata b).2)

/-- The frame `k'` is what the padding of `k` has to be. -/
structure Padded (k k' : Frame) : Prop where
  front : k'.front = k.front
  sideband : k'.final.user = k.final.user ∧ k'.final.id = k.final.id
  size : k'.size = if k.short then 60 else k.size
  bytes : k'.bytes = k.bytes ++ if k.short then List.replicate (60 - k.size) 0 else []

end Frame

/-- The beats of the frames. -/
def beatsOf (frames : List Frame) : List Axi4s := frames.flatMap Frame.beats

/-! ### The unit -/

variable {M : Merger AxiData}

/-- A beat arrives, or `pad` is called. -/
inductive PadAct
  | beat (b : Axi4s)
  | pad (outFull : Bool)
deriving DecidableEq, Repr

def padStep (s : State M) : PadAct → State M
  | .beat b => { s with rawBuilderToPad := s.rawBuilderToPad.write b }
  | .pad outFull => pad outFull s

/-- The beats that arrive. -/
def arrived : List PadAct → List Axi4s
  | [] => []
  | .beat b :: acts => b :: arrived acts
  | .pad _ :: acts => arrived acts

/-- The unit after `acts`. -/
abbrev padRun (M : Merger AxiData) (acts : List PadAct) : State M := run padStep (State.init M) acts

/-- `acts`, and then calls that find room, one for each beat that is waiting. -/
def drained (M : Merger AxiData) (acts : List PadAct) : List PadAct :=
  acts ++ List.replicate (padRun M acts).rawBuilderToPad.queue.length (.pad false)

/-- The number of beats since the last frame ended. -/
def position (bs : List Axi4s) : ℕ := bs.foldl (fun n b => if b.last then 0 else n + 1) 0

/-- The padding unit does what it is for, when the frames arrive and whatever the calls: its count is the
position in the frame, and it writes the padded frames, one beat for each beat that it reads.  As many calls as
there are beats waiting write them all, if there is room. -/
def Pads (M : Merger AxiData) (frames : List Frame) : Prop :=
  ∃ out : List Frame, List.Forall₂ Frame.Padded frames out ∧ ∀ acts, arrived acts <+: beatsOf frames →
    (padRun M acts).beatCount.toNat = position (padRun M acts).rawBuilderToPad.past ∧
    (padRun M acts).out = (beatsOf out).take (padRun M acts).rawBuilderToPad.past.length ∧
    (padRun M (drained M acts)).out = (beatsOf out).take (arrived acts).length

/-! ### Runs of the unit -/

/-- The output is made of the beats read, and the count too. -/
structure PadInv (s : State M) : Prop where
  out : s.out = padFrom 0 s.rawBuilderToPad.past
  beatCount : s.beatCount = s.rawBuilderToPad.past.foldl nextCount 0

theorem PadInv.step {s : State M} (h : PadInv s) (a : PadAct) : PadInv (padStep s a) := by
  cases a with
  | beat b => exact ⟨h.out, h.beatCount⟩
  | pad outFull =>
    simp only [padStep, pad]
    cases hhead : s.rawBuilderToPad.head with
    | none => exact h
    | some beat =>
      cases outFull with
      | true => exact h
      | false =>
        have hpast := s.rawBuilderToPad.past_readIf_true hhead
        constructor
        · show s.out ++ [padBeat s.beatCount beat] = padFrom 0 (s.rawBuilderToPad.readIf true).past
          rw [hpast, padFrom_append, ← h.beatCount, h.out]
          rfl
        · show nextCount s.beatCount beat = (s.rawBuilderToPad.readIf true).past.foldl nextCount 0
          rw [hpast, List.foldl_append, ← h.beatCount]
          rfl

theorem padInv_run (M : Merger AxiData) (acts : List PadAct) : PadInv (padRun M acts) :=
  run_invariant (fun _ a h => h.step a) acts (State.init M) ⟨rfl, rfl⟩

theorem sent_padStep (s : State M) (a : PadAct) :
    (padStep s a).rawBuilderToPad.sent = s.rawBuilderToPad.sent ++ arrived [a] := by
  cases a with
  | beat b => exact Fifo.sent_write _ b
  | pad outFull =>
    simp only [padStep, pad, arrived, List.append_nil]
    split
    · rfl
    · split
      · rfl
      · exact Fifo.sent_readIf _ true

theorem arrived_cons (a : PadAct) (acts : List PadAct) : arrived (a :: acts) = arrived [a] ++ arrived acts := by
  cases a <;> rfl

theorem sent_run (s : State M) (acts : List PadAct) :
    (run padStep s acts).rawBuilderToPad.sent = s.rawBuilderToPad.sent ++ arrived acts := by
  induction acts generalizing s with
  | nil => simp [arrived]
  | cons a acts ih => rw [run_cons, ih, sent_padStep, List.append_assoc, ← arrived_cons]

theorem sent_padRun (M : Merger AxiData) (acts : List PadAct) : (padRun M acts).rawBuilderToPad.sent = arrived acts :=
  sent_run _ acts

/-- A call that finds a beat and room takes it. -/
theorem queue_pad {s : State M} {b : Axi4s} {q : List Axi4s} (h : s.rawBuilderToPad.queue = b :: q) :
    (padStep s (.pad false)).rawBuilderToPad.queue = q := by
  have hhead : s.rawBuilderToPad.head = some b := by rw [Fifo.head, h]; rfl
  simp only [padStep, pad, hhead]
  exact Fifo.queue_pop _ h

/-- As many calls as there are beats take them all. -/
theorem queue_drain (s : State M) :
    (run padStep s (List.replicate s.rawBuilderToPad.queue.length (.pad false))).rawBuilderToPad.queue = [] := by
  generalize hq : s.rawBuilderToPad.queue = q
  induction q generalizing s with
  | nil => exact hq
  | cons b q ih =>
    rw [List.length_cons, List.replicate_succ, run_cons]
    exact ih _ (queue_pad hq)

theorem arrived_append (acts acts' : List PadAct) : arrived (acts ++ acts') = arrived acts ++ arrived acts' := by
  induction acts with
  | nil => rfl
  | cons a acts ih => rw [List.cons_append, arrived_cons, ih, arrived_cons a acts, List.append_assoc]

theorem arrived_replicate (n : ℕ) : arrived (List.replicate n (.pad false)) = [] := by
  induction n with
  | zero => rfl
  | succ n ih => exact ih

theorem arrived_map (bs : List Axi4s) : arrived (bs.map .beat) = bs := by
  induction bs with
  | nil => rfl
  | cons b bs ih => rw [List.map_cons, arrived, ih]

theorem arrived_drained (M : Merger AxiData) (acts : List PadAct) : arrived (drained M acts) = arrived acts := by
  rw [drained, arrived_append, arrived_replicate, List.append_nil]

theorem past_drained (M : Merger AxiData) (acts : List PadAct) :
    (padRun M (drained M acts)).rawBuilderToPad.past = arrived acts := by
  have hsent := sent_padRun M (drained M acts)
  have hqueue : (padRun M (drained M acts)).rawBuilderToPad.queue = [] := by
    rw [padRun, drained, run_append]
    exact queue_drain _
  rw [arrived_drained, Fifo.sent, hqueue, List.append_nil] at hsent
  exact hsent

/-! ### One frame -/

/-- Keeping the first 28 bytes as well. -/
theorem leadingKeep_or : ∀ n ≤ 32, Udp.leadingKeep n ||| 0xfffffff0 = Udp.leadingKeep (max n 28) := by
  decide

/-- A padded word: the bytes that are kept, then zeros. -/
theorem bytesOf_padOne (d : BitVec 256) {n : ℕ} (hn : n ≤ 32) :
    bytesOf (padOne d (Udp.leadingKeep n)) = (bytesOf d).take n ++ List.replicate (32 - n) 0 := by
  have hlen : ((bytesOf d).take n).length = n := by
    rw [List.length_take, length_bytesOf, Nat.min_eq_left hn]
  apply List.ext_getElem
  · rw [length_bytesOf, List.length_append, hlen, List.length_replicate, Nat.add_sub_cancel' hn]
  · intro i h₁ _
    rw [length_bytesOf] at h₁
    have hkeep : (Udp.leadingKeep n).getLsbD (31 - i) = decide (i < n) := by
      rw [← Udp.getMsbD_leadingKeep hn h₁, BitVec.getMsbD_eq_getLsbD]
      simp [h₁]
    rw [getElem_bytesOf, extractLsb'_padOne d _ (by omega), hkeep]
    by_cases hin : i < n
    · rw [decide_eq_true hin, if_pos rfl, List.getElem_append_left (by omega), List.getElem_take, getElem_bytesOf]
    · rw [decide_eq_false hin, if_neg Bool.false_ne_true, List.getElem_append_right (by omega),
        List.getElem_replicate]

namespace Frame

variable (k : Frame)

/-- The frame that `pad` makes of a frame of at most 64 beats. -/
def padded : Frame :=
  if k.front.length = 1 then
    { k with
      final := { k.final with data := padOne k.final.data k.final.keep, keep := k.final.keep ||| 0xfffffff0 }
      ones := max k.ones 28
      ones_le := Nat.max_le.mpr ⟨k.ones_le, by decide⟩
      final_keep := by rw [← leadingKeep_or k.ones k.ones_le, k.final_keep] }
  else k

theorem bytes_eq : k.bytes = Udp.kept (k.front.map fun b => (splitMetadata b).2) ++
    (bytesOf k.final.data).take k.ones := by
  rw [bytes, beats, List.map_append, Udp.kept, List.flatMap_append, List.map_singleton, List.flatMap_singleton,
    Udp.keptOf_leadingKeep (b := (splitMetadata k.final).2) k.ones_le k.final_keep]
  rfl

/-- The padded frame is what it has to be. -/
theorem padded_spec : Padded k k.padded := by
  by_cases htwo : k.front.length = 1
  · have hpad : k.padded.bytes = k.bytes ++ List.replicate (max k.ones 28 - k.ones) 0 := by
      rw [bytes_eq, bytes_eq, padded, if_pos htwo, List.append_assoc]
      congr 1
      show (bytesOf (padOne k.final.data k.final.keep)).take (max k.ones 28) = _
      rw [k.final_keep, bytesOf_padOne _ k.ones_le, List.take_append, List.take_take, List.take_replicate,
        List.length_take, length_bytesOf]
      have := k.ones_le
      congr 2 <;> omega
    have hsize : k.size = 32 + k.ones := by rw [size, htwo]
    have hpadded : k.padded.size = 32 + max k.ones 28 := by rw [size, padded, if_pos htwo, htwo]
    have hfront : k.padded.front = k.front ∧ k.padded.final.user = k.final.user ∧
        k.padded.final.id = k.final.id := by
      rw [padded, if_pos htwo]
      exact ⟨rfl, rfl, rfl⟩
    refine ⟨hfront.1, hfront.2, ?_, ?_⟩
    all_goals
      by_cases hones : k.ones < 28
    · have hshort : k.short = true := by simp [short, hsize, htwo]; omega
      rw [hpadded, hshort, if_pos rfl, Nat.max_eq_right (by omega)]
    · have hshort : k.short = false := by simp [short, hsize]; omega
      rw [hpadded, hshort, hsize, Nat.max_eq_left (by omega)]
      rfl
    · have hshort : k.short = true := by simp [short, hsize, htwo]; omega
      rw [hpad, hshort, if_pos rfl, hsize, Nat.max_eq_right (by omega)]
      congr 2
      omega
    · have hshort : k.short = false := by simp [short, hsize]; omega
      rw [hpad, hshort, Nat.max_eq_left (by omega), Nat.sub_self]
      rfl
  · have hshort : k.short = false := by simp [short, htwo]
    rw [padded, if_neg htwo]
    exact ⟨rfl, ⟨rfl, rfl⟩, by rw [hshort]; rfl, by rw [hshort]; exact (List.append_nil _).symm⟩

/-- **One frame.**  The beats that `pad` makes of a frame of at most 64 beats. -/
theorem padFrom_beats (h : k.front.length < 64) : padFrom 0 k.beats = k.padded.beats := by
  by_cases htwo : k.front.length = 1
  · obtain ⟨b, hb⟩ := List.length_eq_one_iff.mp htwo
    have hpadded : k.padded.beats = [b, k.padded.final] := by
      rw [beats, k.padded_spec.front, hb]
      rfl
    rw [hpadded, beats, hb, padded, if_pos htwo]
    exact padFrom_two (k.front_last b (by simp [hb])) k.final_last
  · rw [padded, if_neg htwo]
    exact padFrom_eq_self k.front_last (by simpa using h) (by simpa using htwo)

theorem foldl_nextCount_beats (c : BitVec 6) : k.beats.foldl nextCount c = 0 := by
  rw [beats, List.foldl_append, List.foldl_cons, List.foldl_nil]
  exact if_pos k.final_last

end Frame

/-! ### Positions -/

/-- The count is the position modulo 64. -/
theorem foldl_nextCount_eq (bs : List Axi4s) (n : ℕ) :
    bs.foldl nextCount (BitVec.ofNat 6 n) =
      BitVec.ofNat 6 (bs.foldl (fun n b => if b.last then 0 else n + 1) n) := by
  induction bs generalizing n with
  | nil => rfl
  | cons b bs ih =>
    rw [List.foldl_cons, List.foldl_cons, nextCount]
    split
    · exact ih 0
    · rw [← ih (n + 1), BitVec.ofNat_add]
      rfl

theorem beatCount_eq {s : State M} (h : PadInv s) :
    s.beatCount.toNat = position s.rawBuilderToPad.past % 64 := by
  rw [h.beatCount]
  exact (congrArg BitVec.toNat (foldl_nextCount_eq s.rawBuilderToPad.past 0)).trans (BitVec.toNat_ofNat _ _)

/-- Inside a frame the position is the number of beats. -/
theorem position_of_front {bs : List Axi4s} (h : ∀ b ∈ bs, b.last = false) (n : ℕ) :
    bs.foldl (fun n b => if b.last then 0 else n + 1) n = n + bs.length := by
  induction bs generalizing n with
  | nil => rfl
  | cons b bs ih =>
    rw [List.foldl_cons, h b (List.mem_cons_self ..), if_neg Bool.false_ne_true,
      ih (fun b' hb' => h b' (List.mem_cons_of_mem _ hb')), List.length_cons]
    omega

/-- Behind a frame it is 0. -/
theorem position_append_beats (bs : List Axi4s) (k : Frame) : position (bs ++ k.beats) = 0 := by
  rw [position, Frame.beats, ← List.append_assoc, List.foldl_append, List.foldl_cons, List.foldl_nil]
  exact if_pos k.final_last

theorem position_beatsOf_append (frames : List Frame) (bs : List Axi4s) :
    position (beatsOf frames ++ bs) = position bs := by
  have hzero : position (beatsOf frames) = 0 := by
    rcases List.eq_nil_or_concat frames with rfl | ⟨frames, k, rfl⟩
    · rfl
    · rw [beatsOf, List.concat_eq_append, List.flatMap_append, List.flatMap_singleton]
      exact position_append_beats _ k
  rw [position, List.foldl_append]
  show List.foldl _ (position (beatsOf frames)) bs = _
  rw [hzero]
  rfl

/-- The position in frames of at most `n + 1` beats is at most `n`. -/
theorem position_le {frames : List Frame} {n : ℕ} (h : ∀ k ∈ frames, k.front.length ≤ n) {bs : List Axi4s}
    (hbs : bs <+: beatsOf frames) : position bs ≤ n := by
  induction frames generalizing bs with
  | nil =>
    rw [List.prefix_nil.mp hbs]
    exact Nat.zero_le n
  | cons k frames ih =>
    have hk := h k (List.mem_cons_self ..)
    rw [beatsOf, List.flatMap_cons] at hbs
    rcases List.prefix_or_prefix_of_prefix hbs (List.prefix_append k.beats _) with hin | ⟨bs', rfl⟩
    · rcases List.prefix_concat_iff.mp hin with heq | hfront
      · have hzero := position_append_beats [] k
        rw [List.nil_append, Frame.beats] at hzero
        rw [heq, hzero]
        exact Nat.zero_le n
      · have hlast : ∀ b ∈ bs, b.last = false := fun b hb => k.front_last b (hfront.subset hb)
        rw [position, position_of_front hlast, Nat.zero_add]
        exact Nat.le_trans hfront.length_le hk
    · have hrest := ih (fun k' hk' => h k' (List.mem_cons_of_mem _ hk')) ((List.prefix_append_right_inj _).mp hbs)
      have hone := position_beatsOf_append [k] bs'
      rw [beatsOf, List.flatMap_singleton] at hone
      rw [hone]
      exact hrest

/-! ### Runs -/

theorem padFrom_beatsOf {frames : List Frame} (h : ∀ k ∈ frames, k.front.length < 64) :
    padFrom 0 (beatsOf frames) = beatsOf (frames.map Frame.padded) := by
  induction frames with
  | nil => rfl
  | cons k frames ih =>
    rw [beatsOf, List.flatMap_cons, padFrom_append, k.padFrom_beats (h k (List.mem_cons_self ..)),
      k.foldl_nextCount_beats]
    show _ ++ padFrom 0 (beatsOf frames) = _
    rw [ih fun k' hk' => h k' (List.mem_cons_of_mem _ hk'), List.map_cons]
    rfl

theorem length_padFrom (c : BitVec 6) (bs : List Axi4s) : (padFrom c bs).length = bs.length := by
  induction bs generalizing c with
  | nil => rfl
  | cons b bs ih => rw [padFrom, List.length_cons, List.length_cons, ih]

/-- What is written for the first beats. -/
theorem padFrom_take {frames : List Frame} (h : ∀ k ∈ frames, k.front.length < 64) {bs : List Axi4s}
    (hbs : bs <+: beatsOf frames) : padFrom 0 bs = (beatsOf (frames.map Frame.padded)).take bs.length := by
  have hprefix := padFrom_prefix (c := 0) hbs
  rw [padFrom_beatsOf h] at hprefix
  have htake := List.prefix_iff_eq_take.mp hprefix
  rwa [length_padFrom] at htake

/-- Behind 64 beats of a frame the count is 0 again. -/
theorem length_le_of_pads {frames : List Frame} (h : Pads M frames) {k : Frame} (hk : k ∈ frames) :
    k.front.length < 64 := by
  obtain ⟨out, -, hruns⟩ := h
  by_contra hlong
  obtain ⟨before, after, rfl⟩ := List.append_of_mem hk
  -- 64 beats of `k` arrive behind the frames before it, and are read
  have hprefix : beatsOf before ++ k.front.take 64 <+: beatsOf (before ++ k :: after) := by
    rw [beatsOf, beatsOf, List.flatMap_append, List.prefix_append_right_inj, List.flatMap_cons, Frame.beats,
      List.append_assoc]
    exact (List.take_prefix 64 k.front).trans (List.prefix_append _ _)
  have hacts := hruns (drained M ((beatsOf before ++ k.front.take 64).map .beat))
  rw [arrived_drained, arrived_map] at hacts
  have hcount := (hacts hprefix).1
  have hlast : ∀ b ∈ k.front.take 64, b.last = false := fun b hb => k.front_last b (List.mem_of_mem_take hb)
  have hposition : position (k.front.take 64) = 64 := by
    rw [position, position_of_front hlast, Nat.zero_add, List.length_take]
    omega
  rw [beatCount_eq (padInv_run M _), past_drained, arrived_map, position_beatsOf_append, hposition] at hcount
  cases hcount

/-- **Ethernet padding.**  The unit does what it is for if and only if no frame has more than 64 beats. -/
theorem pads_iff (M : Merger AxiData) (frames : List Frame) :
    Pads M frames ↔ ∀ k ∈ frames, k.beats.length ≤ 64 := by
  have hlen : ∀ k : Frame, k.beats.length = k.front.length + 1 := by simp [Frame.beats]
  constructor
  · intro h k hk
    rw [hlen]
    exact length_le_of_pads h hk
  · intro h
    have hfront : ∀ k ∈ frames, k.front.length < 64 := fun k hk => by
      have := h k hk
      rw [hlen] at this
      omega
    refine ⟨frames.map Frame.padded, ?_, ?_⟩
    · rw [List.forall₂_map_right_iff]
      exact List.forall₂_same.mpr fun k _ => k.padded_spec
    intro acts hacts
    have hinv := padInv_run M acts
    have hpast : (padRun M acts).rawBuilderToPad.past <+: beatsOf frames := by
      have hsent := (padRun M acts).rawBuilderToPad.past_prefix_sent
      rw [sent_padRun] at hsent
      exact hsent.trans hacts
    refine ⟨?_, ?_, ?_⟩
    · rw [beatCount_eq hinv]
      apply Nat.mod_eq_of_lt
      have := position_le (n := 63) (fun k hk => Nat.le_of_lt_succ (hfront k hk)) hpast
      omega
    · rw [hinv.out, padFrom_take hfront hpast]
    · rw [(padInv_run M (drained M acts)).out, past_drained, padFrom_take hfront hacts]

/-- A frame of 65 beats of zeros and 4 bytes more. -/
def longFrame : Frame where
  front := List.replicate 65 ⟨0, 0xffffffff, false, 0, 0⟩
  final := ⟨0, 0xf0000000, true, 0, 0⟩
  ones := 4
  front_last := by
    intro b hb
    rw [List.eq_of_mem_replicate hb]
  final_last := rfl
  ones_le := by decide
  final_keep := by decide

/-- The last beat of the long frame is taken for the second one and filled up. -/
theorem not_pads_longFrame : ¬ Pads buffering [longFrame] ∧
    (padRun buffering (drained buffering (longFrame.beats.map .beat))).out.getLast?.map Axi4s.keep =
      some 0xfffffff0 := by
  constructor
  · intro h
    exact absurd (length_le_of_pads h (List.mem_singleton_self _)) (by decide)
  · decide +kernel

end Nica.Hls.Builder
