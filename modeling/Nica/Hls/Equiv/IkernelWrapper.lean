import Nica.Hls.IkernelWrapper
import Mathlib.Tactic.ByContra

/-!
# The shared streams of the ikernels

Each wrapper has two links, one for the metadata and one for the beats, and nothing decides whose turn it is on the
streams that all wrappers write to.  So beats of two ikernels mix, and their packets and metadata come in different
orders, as soon as two of them have something to send: the shared streams are in order in all runs exactly if no more
than one ikernel has a packet with data (`separate_iff`).
-/

namespace Nica.Hls.IkernelWrapper

open Nica.Lib

variable {n : ℕ} {packets : Fin n → List Packet} {s : State n}

/-! ### What is asked of the shared streams -/

/-- The ikernels write the metadata and the beats of their packets. -/
def Input (packets : Fin n → List Packet) (s : State n) : Prop :=
  ∀ i, (s.metadataOutput i).sent <+: (packets i).map Packet.metadata ∧
    (s.dataOutput i).sent <+: (packets i).flatMap Packet.beats

/-- The ikernels of the metadata that announce data. -/
def metadataOwners (l : List (Fin n × Metadata)) : List (Fin n) :=
  (l.filter fun x => !x.2.emptyPacket).map Prod.fst

/-- The ikernels of the data packets; `start` says whether a packet begins with the first beat. -/
def packetOwners : Bool → List (Fin n × AxiData) → List (Fin n)
  | _, [] => []
  | true, x :: l => x.1 :: packetOwners x.2.last l
  | false, x :: l => packetOwners x.2.last l

/-- The beats of a packet follow one another, and the packets have the order of the metadata. -/
structure Separate (s : State n) : Prop where
  whole : ∀ front x y rest, s.dataIkToDemux.sent = front ++ x :: y :: rest → x.2.last = false → y.1 = x.1
  ordered : metadataOwners s.hdrIkToDemux.sent <+: packetOwners true s.dataIkToDemux.sent ∨
    packetOwners true s.dataIkToDemux.sent <+: metadataOwners s.hdrIkToDemux.sent

/-- The ikernel has a packet with data to send. -/
def Transmits (packets : Fin n → List Packet) (i : Fin n) : Prop := ∃ k ∈ packets i, k.metadata.emptyPacket = false

/-! ### Only one ikernel transmits -/

/-- What is on the shared streams was read from the ikernel it is said to come from. -/
structure Owned (s : State n) : Prop where
  metadata : ∀ x ∈ s.hdrIkToDemux.sent, x.2 ∈ (s.metadataOutput x.1).past
  data : ∀ x ∈ s.dataIkToDemux.sent, x.2 ∈ (s.dataOutput x.1).past

theorem owned_init : Owned (State.init : State n) :=
  ⟨fun _ hx => absurd hx List.not_mem_nil, fun _ hx => absurd hx List.not_mem_nil⟩

theorem past_subset_readLane {α : Type} (f : Fin n → Fifo α) (i j : Fin n) :
    (f j).past ⊆ (readLane f i true j).past := by
  by_cases h : j = i
  · subst h
    rw [readLane, Function.update_self, Fifo.past_readIf]
    exact List.subset_append_left _ _
  · rw [readLane, Function.update_of_ne h]
    exact List.Subset.refl _

theorem mem_past_readLane {α : Type} {f : Fin n → Fifo α} {i : Fin n} {x : α} (h : (f i).head = some x) :
    x ∈ (readLane f i true i).past := by
  rw [readLane, Function.update_self, Fifo.past_readIf_true _ h]
  exact List.mem_append_right _ (List.mem_singleton_self x)

theorem Owned.count (h : Owned s) (i : Fin n) (full : Bool) : Owned (count i full s) := by
  unfold IkernelWrapper.count
  dsimp only
  cases hm : (s.metadataOutput i).head with
  | none => exact ⟨h.metadata, h.data⟩
  | some m =>
    cases full with
    | true => exact ⟨h.metadata, h.data⟩
    | false =>
      refine ⟨?_, h.data⟩
      intro x hx
      simp only [Bool.false_eq_true, if_false, Fifo.sent_write] at hx ⊢
      rcases List.mem_append.mp hx with hx | hx
      · exact past_subset_readLane _ _ _ (h.metadata x hx)
      · obtain rfl := List.mem_singleton.mp hx
        exact mem_past_readLane hm

theorem Owned.linkFifo (h : Owned s) (i : Fin n) (full : Bool) : Owned (linkFifo i full s) := by
  unfold IkernelWrapper.linkFifo
  cases hb : (s.dataOutput i).head with
  | none => exact h
  | some b =>
    cases full with
    | true => exact h
    | false =>
      refine ⟨h.metadata, ?_⟩
      intro x hx
      simp only [Bool.false_eq_true, if_false, Fifo.sent_write] at hx ⊢
      rcases List.mem_append.mp hx with hx | hx
      · exact past_subset_readLane _ _ _ (h.data x hx)
      · obtain rfl := List.mem_singleton.mp hx
        exact mem_past_readLane hb

theorem Owned.step (h : Owned s) (a : Act n) : Owned (step s a) := by
  cases a with
  | count i full => exact h.count i full
  | linkFifo i full => exact h.linkFifo i full
  | writeMetadata i m =>
    refine ⟨?_, h.data⟩
    simp only [IkernelWrapper.step, past_putLane]
    exact h.metadata
  | writeData i b =>
    refine ⟨h.metadata, ?_⟩
    simp only [IkernelWrapper.step, past_putLane]
    exact h.data
  | readHdr =>
    refine ⟨?_, h.data⟩
    simp only [IkernelWrapper.step, Fifo.sent_readIf]
    exact h.metadata
  | readData =>
    refine ⟨h.metadata, ?_⟩
    simp only [IkernelWrapper.step, Fifo.sent_readIf]
    exact h.data

theorem owned_run (acts : List (Act n)) : Owned (run step State.init acts) :=
  run_invariant (fun _ a h => h.step a) acts _ owned_init

theorem Owned.transmits_of_metadata (h : Owned s) (hin : Input packets s) {x : Fin n × Metadata}
    (hx : x ∈ s.hdrIkToDemux.sent) (hdata : x.2.emptyPacket = false) : Transmits packets x.1 := by
  have hmem := (hin x.1).1.subset ((s.metadataOutput x.1).past_prefix_sent.subset (h.metadata x hx))
  obtain ⟨k, hk, hkm⟩ := List.mem_map.mp hmem
  exact ⟨k, hk, by rw [hkm]; exact hdata⟩

theorem Owned.transmits_of_data (h : Owned s) (hin : Input packets s) {x : Fin n × AxiData}
    (hx : x ∈ s.dataIkToDemux.sent) : Transmits packets x.1 := by
  have hmem := (hin x.1).2.subset ((s.dataOutput x.1).past_prefix_sent.subset (h.data x hx))
  obtain ⟨k, hk, hkb⟩ := List.mem_flatMap.mp hmem
  refine ⟨k, hk, ?_⟩
  cases hempty : k.metadata.emptyPacket with
  | false => rfl
  | true =>
    rw [k.beats_eq_nil hempty] at hkb
    exact absurd hkb List.not_mem_nil

theorem mem_of_mem_packetOwners {start : Bool} {l : List (Fin n × AxiData)} {i : Fin n}
    (h : i ∈ packetOwners start l) : ∃ x ∈ l, x.1 = i := by
  induction l generalizing start with
  | nil => exact absurd h (by cases start <;> exact List.not_mem_nil)
  | cons x l ih =>
    cases start with
    | true =>
      rcases List.mem_cons.mp h with rfl | h
      · exact ⟨x, List.mem_cons_self .., rfl⟩
      · obtain ⟨y, hy, hi⟩ := ih h
        exact ⟨y, List.mem_cons_of_mem _ hy, hi⟩
    | false =>
      obtain ⟨y, hy, hi⟩ := ih h
      exact ⟨y, List.mem_cons_of_mem _ hy, hi⟩

/-- Lists of one and the same element are prefixes of each other. -/
theorem prefix_or_of_forall_eq {α : Type} {xs ys : List α} (h : ∀ x ∈ xs ++ ys, ∀ y ∈ xs ++ ys, x = y) :
    xs <+: ys ∨ ys <+: xs := by
  induction xs generalizing ys with
  | nil => exact .inl List.nil_prefix
  | cons x xs ih =>
    cases ys with
    | nil => exact .inr List.nil_prefix
    | cons y ys =>
      obtain rfl : x = y := h x (by simp) y (by simp)
      have hsub : xs ++ ys ⊆ (x :: xs) ++ (x :: ys) :=
        List.append_subset.mpr ⟨fun a ha => by simp [ha], fun a ha => by simp [ha]⟩
      have hrest : xs <+: ys ∨ ys <+: xs := ih fun a ha b hb => h a (hsub ha) b (hsub hb)
      exact hrest.imp (List.cons_prefix_cons.mpr ⟨rfl, ·⟩) (List.cons_prefix_cons.mpr ⟨rfl, ·⟩)

theorem Owned.separate (h : Owned s) (hin : Input packets s)
    (hone : ∀ i j, Transmits packets i → Transmits packets j → i = j) : Separate s where
  whole front x y rest hsent _ := by
    have hx : x ∈ s.dataIkToDemux.sent := by rw [hsent]; simp
    have hy : y ∈ s.dataIkToDemux.sent := by rw [hsent]; simp
    exact hone _ _ (h.transmits_of_data hin hy) (h.transmits_of_data hin hx)
  ordered := by
    have hall : ∀ i ∈ metadataOwners s.hdrIkToDemux.sent ++ packetOwners true s.dataIkToDemux.sent,
        Transmits packets i := by
      intro i hi
      rcases List.mem_append.mp hi with hi | hi
      · obtain ⟨x, hx, rfl⟩ := List.mem_map.mp hi
        obtain ⟨hx, hdata⟩ := List.mem_filter.mp hx
        exact h.transmits_of_metadata hin hx (by simpa using hdata)
      · obtain ⟨x, hx, rfl⟩ := mem_of_mem_packetOwners hi
        exact h.transmits_of_data hin hx
    exact prefix_or_of_forall_eq fun i hi j hj => hone i j (hall i hi) (hall j hj)

/-! ### Two ikernels transmit -/

/-- An ikernel writes a metadata and its wrapper passes it on. -/
theorem run_metadata (i : Fin n) (m : Metadata) (hq : (s.metadataOutput i).queue = []) :
    ∃ s', run step s [.writeMetadata i m, .count i false] = s' ∧ (s'.metadataOutput i).queue = [] ∧
      (s'.metadataOutput i).sent = (s.metadataOutput i).sent ++ [m] ∧
      (∀ j ≠ i, s'.metadataOutput j = s.metadataOutput j) ∧ s'.dataOutput = s.dataOutput ∧
      s'.hdrIkToDemux.sent = s.hdrIkToDemux.sent ++ [(i, m)] ∧ s'.dataIkToDemux = s.dataIkToDemux := by
  have hhead : (putLane s.metadataOutput i (some m) i).head = some m := by
    rw [putLane, Function.update_self, Fifo.head, Fifo.put, hq]
    rfl
  refine ⟨_, rfl, ?_, ?_, ?_, ?_, ?_, ?_⟩
  all_goals simp only [run_cons, run_nil, step, count, hhead, Bool.false_eq_true, if_false]
  · rw [readLane, Function.update_self, putLane, Function.update_self, Fifo.readIf, if_pos rfl, Fifo.put, hq]
    rfl
  · rw [sent_readLane, sent_putLane, if_pos rfl, Option.toList_some]
  · intro j hj
    rw [readLane, Function.update_of_ne hj, putLane, Function.update_of_ne hj]
  · rw [Fifo.sent_write]

/-- The same for some metadata one after the other. -/
theorem run_metadatas (i : Fin n) (ms : List Metadata) (hq : (s.metadataOutput i).queue = []) :
    ∃ s', run step s (ms.flatMap fun m => [.writeMetadata i m, .count i false]) = s' ∧
      (s'.metadataOutput i).sent = (s.metadataOutput i).sent ++ ms ∧
      (∀ j ≠ i, s'.metadataOutput j = s.metadataOutput j) ∧ s'.dataOutput = s.dataOutput ∧
      s'.hdrIkToDemux.sent = s.hdrIkToDemux.sent ++ ms.map (i, ·) ∧ s'.dataIkToDemux = s.dataIkToDemux := by
  induction ms generalizing s with
  | nil => exact ⟨s, rfl, (List.append_nil _).symm, fun _ _ => rfl, rfl, (List.append_nil _).symm, rfl⟩
  | cons m ms ih =>
    obtain ⟨s₁, hrun, hq₁, hsent, hother, hdata, hhdr, hout⟩ := run_metadata i m hq
    obtain ⟨s₂, hrun₂, hsent₂, hother₂, hdata₂, hhdr₂, hout₂⟩ := ih hq₁
    refine ⟨s₂, ?_, ?_, ?_, hdata₂.trans hdata, ?_, hout₂.trans hout⟩
    · rw [List.flatMap_cons, run_append, hrun, hrun₂]
    · rw [hsent₂, hsent, List.append_assoc, List.singleton_append]
    · intro j hj
      rw [hother₂ j hj, hother j hj]
    · rw [hhdr₂, hhdr, List.map_cons, List.append_assoc, List.singleton_append]

/-- An ikernel writes a beat and its wrapper passes it on. -/
theorem run_beat (j : Fin n) (b : AxiData) (hq : (s.dataOutput j).queue = []) :
    ∃ s', run step s [.writeData j b, .linkFifo j false] = s' ∧ s'.metadataOutput = s.metadataOutput ∧
      (∀ k, (s'.dataOutput k).sent = (s.dataOutput k).sent ++ if k = j then [b] else []) ∧
      s'.hdrIkToDemux = s.hdrIkToDemux ∧ s'.dataIkToDemux.sent = s.dataIkToDemux.sent ++ [(j, b)] := by
  have hhead : (putLane s.dataOutput j (some b) j).head = some b := by
    rw [putLane, Function.update_self, Fifo.head, Fifo.put, hq]
    rfl
  refine ⟨_, rfl, ?_, ?_, ?_, ?_⟩
  all_goals simp only [run_cons, run_nil, step, linkFifo, hhead, Bool.false_eq_true, if_false]
  · intro k
    rw [sent_readLane, sent_putLane, Option.toList_some]
  · rw [Fifo.sent_write]

/-- The metadata of one ikernel can come with the data of another one. -/
theorem exists_not_separate {i j : Fin n} (hi : Transmits packets i) (hj : Transmits packets j) (hne : i ≠ j) :
    ∃ acts, Input packets (run step .init acts) ∧ ¬Separate (run step .init acts) := by
  obtain ⟨k, hk, hkdata⟩ := hj
  -- the first beat that ikernel `j` sends
  obtain ⟨b, rest, hbeats⟩ : ∃ b rest, (packets j).flatMap Packet.beats = b :: rest := by
    apply List.exists_cons_of_ne_nil
    intro hnil
    exact (k.isPacket_beats hkdata).ne_nil (List.flatMap_eq_nil_iff.mp hnil k hk)
  obtain ⟨s₁, hrun₁, hsent₁, hother₁, hdata₁, hhdr₁, hout₁⟩ :=
    run_metadatas (s := .init) i ((packets i).map Packet.metadata) rfl
  obtain ⟨s₂, hrun₂, hmeta₂, hdata₂, hhdr₂, hout₂⟩ := run_beat (s := s₁) j b (by rw [hdata₁]; rfl)
  refine ⟨((packets i).map Packet.metadata).flatMap (fun m => [.writeMetadata i m, .count i false]) ++
    [.writeData j b, .linkFifo j false], ?_⟩
  rw [run_append, hrun₁, hrun₂]
  constructor
  · intro l
    rw [hmeta₂, hdata₂, hdata₁]
    constructor
    · by_cases hl : l = i
      · subst hl
        rw [hsent₁]
        exact List.prefix_refl _
      · rw [hother₁ l hl]
        exact List.nil_prefix
    · by_cases hl : l = j
      · subst hl
        rw [if_pos rfl, hbeats]
        exact ⟨rest, rfl⟩
      · rw [if_neg hl]
        exact List.nil_prefix
  · intro h
    obtain ⟨k', hk', hdata'⟩ := hi
    have hhdr : s₂.hdrIkToDemux.sent = ((packets i).map Packet.metadata).map (i, ·) := by
      rw [hhdr₂, hhdr₁]
      rfl
    have hout : s₂.dataIkToDemux.sent = [(j, b)] := by
      rw [hout₂, hout₁]
      rfl
    have howners : ∀ l ∈ metadataOwners s₂.hdrIkToDemux.sent, l = i := by
      intro l hl
      obtain ⟨x, hx, rfl⟩ := List.mem_map.mp hl
      rw [hhdr] at hx
      obtain ⟨m, -, rfl⟩ := List.mem_map.mp (List.mem_filter.mp hx).1
      rfl
    have hmem : i ∈ metadataOwners s₂.hdrIkToDemux.sent := by
      rw [hhdr]
      refine List.mem_map.mpr ⟨(i, k'.metadata), List.mem_filter.mpr ⟨?_, by simp [hdata']⟩, rfl⟩
      exact List.mem_map_of_mem (List.mem_map_of_mem hk')
    obtain ⟨x, xs, hxs⟩ := List.exists_cons_of_ne_nil (List.ne_nil_of_mem hmem)
    have hx : x = i := howners x (by rw [hxs]; exact List.mem_cons_self ..)
    have hord := h.ordered
    rw [hxs, hout, hx] at hord
    rcases hord with hord | hord
    · exact hne (List.cons_prefix_cons.mp hord).1
    · exact hne (List.cons_prefix_cons.mp hord).1.symm

/-- **The shared streams are in order in every run exactly when at most one ikernel has data to send.** -/
theorem separate_iff (packets : Fin n → List Packet) :
    (∀ acts, Input packets (run step .init acts) → Separate (run step .init acts)) ↔
      ∀ i j, Transmits packets i → Transmits packets j → i = j := by
  constructor
  · intro h i j hi hj
    by_contra hne
    obtain ⟨acts, hin, hsep⟩ := exists_not_separate hi hj hne
    exact hsep (h acts hin)
  · intro h acts hin
    exact (owned_run acts).separate hin h

/-! ### Two ikernels take turns -/

/-- A packet of two beats. -/
def twoBeats : Packet where
  metadata := ⟨0, 0, 0, .inl ⟨0, 0, 0, 0, 0, 0⟩, 0, 0, 64⟩
  beats := [⟨1, 0xffffffff, false⟩, ⟨2, 0xffffffff, true⟩]
  framed := ⟨[⟨1, 0xffffffff, false⟩], ⟨2, 0xffffffff, true⟩, rfl, rfl, by simp⟩

/-- Both ikernels send the packet, and the links of their wrappers take turns. -/
def alternating : List (Act 2) :=
  let ik0 : Fin 2 := ⟨0, Nat.zero_lt_two⟩
  let ik1 : Fin 2 := ⟨1, Nat.one_lt_two⟩
  [.writeMetadata ik0 twoBeats.metadata, .writeMetadata ik1 twoBeats.metadata, .count ik0 false, .count ik1 false] ++
    (twoBeats.beats.flatMap fun b => [.writeData ik0 b, .writeData ik1 b, .linkFifo ik0 false, .linkFifo ik1 false])

/-- Their beats alternate on the shared stream. -/
theorem not_separate_alternating :
    Input (fun _ : Fin 2 => [twoBeats]) (run step .init alternating) ∧ ¬Separate (run step .init alternating) := by
  refine ⟨?_, fun h => ?_⟩
  · intro i
    match i with
    | 0 => exact ⟨List.prefix_refl _, List.prefix_refl _⟩
    | 1 => exact ⟨List.prefix_refl _, List.prefix_refl _⟩
  · have hsent : (run step State.init alternating).dataIkToDemux.sent =
        [] ++ (0, ⟨1, 0xffffffff, false⟩) :: (1, ⟨1, 0xffffffff, false⟩) ::
          [(0, ⟨2, 0xffffffff, true⟩), (1, ⟨2, 0xffffffff, true⟩)] := rfl
    have howner := h.whole _ _ _ _ hsent rfl
    exact absurd howner (by decide)

end Nica.Hls.IkernelWrapper
