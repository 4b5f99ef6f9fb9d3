import Nica.Hls.Threshold
import Nica.Lib.Run
import Mathlib.Data.List.Basic

/-!
# Whose ring a message goes to

Nothing between the client's register write and the tables checks a ring id.  The contexts and the packets
on their way name rings of their own ikernels (`Named`) as long as nobody writes the id of a ring of somebody
else and no ring is destroyed while it is named (`Entitled`).
-/

namespace Nica.Hls

open Nica.Lib

/-- A ring id that indexes the tables in bounds and names a ring of the ikernel. -/
def RingCall.Owned (c : RingCall) : Prop :=
  1 ≤ c.ring.toNat ∧ c.ring.toNat ≤ 64 ∧ c.owner = some c.ikernelId

namespace RingPath

variable {N : ContextManager ThresholdContext} {s : RingPath N}

/-- Every use of a ring id was in bounds and of a ring of the ikernel. -/
def RingsOwned (s : RingPath N) : Prop := ∀ c ∈ s.calls, c.Owned

/-- A client writes the id of a ring of its own ikernel, and does so before the first packet; a ring is
destroyed only when no context and no packet on its way names it. -/
def Entitled (s : RingPath N) : RingPathAction → Prop
  | .crDestroy ring => (∀ id, s.findRing id ≠ ring) ∧ ∀ m ∈ s.inFlight, m.ringId ≠ ring
  | .ikRpc id address value read =>
    read = true ∨ ThresholdContext.Register.ofAddress address ≠ some .thresholdRingId ∨
      s.owner (value.setWidth 7) = some id
  | .netIngress _ m _ => s.findRing m.ikernelId ≠ 0
  | _ => True

/-- The rings that were handed out, and who names them. -/
structure Named (s : RingPath N) : Prop where
  range : ∀ ring id, s.owner ring = some id → ring ≠ 0 ∧ ring.toNat < 2 ^ 6
  contexts : ∀ id, s.findRing id ≠ 0 → s.owner (s.findRing id) = some id
  inFlight : ∀ m ∈ s.inFlight, m.ringId ≠ 0 → s.owner m.ringId = some m.ikernelId
  calls : s.RingsOwned

theorem Named.owned (h : s.Named) (use : RingUse) {ring : RingId} {id : IkernelId}
    (hring : s.owner ring = some id) : (s.call use id ring).Owned := by
  obtain ⟨hne, hlt⟩ := h.range ring id hring
  have hpos : ring.toNat ≠ 0 := fun hz => hne (BitVec.eq_of_toNat_eq hz)
  refine ⟨?_, ?_, hring⟩
  · exact Nat.one_le_iff_ne_zero.mpr hpos
  · exact Nat.le_of_lt hlt

theorem Named.crCreate (h : s.Named) (id : IkernelId) (ring : RingId) : (s.crCreate id ring).Named := by
  unfold RingPath.crCreate
  split
  · rename_i hfree
    obtain ⟨hne, hlt, hnone⟩ := hfree
    -- the ring had no owner, so whoever is named keeps his ring
    have hkeep : ∀ r i, s.owner r = some i → Function.update s.owner ring (some id) r = some i := by
      intro r i hr
      rw [Function.update_of_ne, hr]
      rintro rfl
      rw [hnone] at hr
      cases hr
    constructor
    · intro r i hr
      by_cases heq : r = ring
      · rw [heq]
        exact ⟨hne, hlt⟩
      · simp only [Function.update_of_ne heq] at hr
        exact h.range r i hr
    · intro i hi
      exact hkeep _ _ (h.contexts i hi)
    · intro m hm hring
      exact hkeep _ _ (h.inFlight m hm hring)
    · exact h.calls
  · exact h

theorem Named.crDestroy (h : s.Named) {ring : RingId} (hs : s.Entitled (.crDestroy ring)) :
    (s.crDestroy ring).Named := by
  obtain ⟨hcontexts, hflight⟩ := hs
  constructor
  · intro r i hr
    by_cases heq : r = ring
    · subst heq
      simp [RingPath.crDestroy] at hr
    · simp only [RingPath.crDestroy, Function.update_of_ne heq] at hr
      exact h.range r i hr
  · intro i hi
    exact (Function.update_of_ne (hcontexts i) ..).trans (h.contexts i hi)
  · intro m hm hring
    exact (Function.update_of_ne (hflight m hm) ..).trans (h.inFlight m hm hring)
  · exact h.calls

/-- A register write changes the ring of a context only through the ring id register. -/
theorem ringId_write (c : ThresholdContext) (v : BitVec 32) (r : ThresholdContext.Register) :
    (c.write v r).ringId = if r = .thresholdRingId then v.setWidth 7 else c.ringId := by
  cases r <;> rfl

theorem Named.ikRpc (hN : N.Lawful) (h : s.Named) {id : IkernelId} {address : ℕ} {value : BitVec 32}
    {read : Bool} (hs : s.Entitled (.ikRpc id address value read)) :
    (s.step (.ikRpc id address value read)).Named := by
  refine ⟨h.range, ?_, h.inFlight, h.calls⟩
  intro i
  show (N.get (Threshold.rpc N s.contexts address value id read).2.2 i).ringId ≠ 0 →
    s.owner (N.get (Threshold.rpc N s.contexts address value id read).2.2 i).ringId = some i
  unfold Threshold.rpc
  split
  · rename_i r hr
    cases read with
    | true => exact h.contexts i
    | false =>
      simp only [Bool.false_eq_true, if_false, hN s.contexts id i]
      by_cases hi : i = id
      · subst hi
        rw [if_pos rfl, ringId_write]
        split
        · rename_i hreg
          rw [hreg] at hr
          rcases hs with hread | haddr | howner
          · cases hread
          · exact absurd hr haddr
          · exact fun _ => howner
        · exact h.contexts i
      · rw [if_neg hi]
        exact h.contexts i
  · exact h.contexts i

theorem Named.netIngress (hN : N.Lawful) (h : s.Named) {tc : TcPipelineDataCounts} {m : Metadata}
    {v : BitVec 32} (hs : s.Entitled (.netIngress tc m v)) : (s.netIngress tc m v).Named := by
  have hring : s.owner (s.findRing m.ikernelId) = some m.ikernelId := h.contexts _ hs
  refine ⟨h.range, ?_, ?_, ?_⟩
  · intro i
    -- the statistics leave the ring alone
    have hsame : (s.netIngress tc m v).findRing i = s.findRing i := by
      simp only [findRing, RingPath.netIngress, Threshold.netIngress, hN s.contexts m.ikernelId i]
      split <;> rfl
    rw [hsame]
    exact h.contexts i
  · intro m' hm'
    simp only [RingPath.netIngress] at hm'
    split at hm'
    · rename_i hpass
      rcases List.mem_append.mp hm' with hm' | hm'
      · exact h.inFlight m' hm'
      · have hpass' : (Threshold.netIngress N s.contexts s.credits tc m v).metadata =
            { m with ringId := s.findRing m.ikernelId, var := .inr ⟨1⟩, length := 4 } := by
          have hne : decide ((N.get s.contexts m.ikernelId).ringId ≠ 0) = true := decide_eq_true hs
          simp only [Threshold.netIngress] at hpass ⊢
          rw [hpass, hne]
          rfl
        rw [List.mem_singleton.mp hm', hpass']
        intro _
        exact hring
    · exact h.inFlight m' hm'
  · intro c hc
    rcases List.mem_append.mp hc with hc | hc
    · exact h.calls c hc
    · rcases List.mem_cons.mp hc with rfl | hc
      · exact h.owned .canTransmit hring
      · split at hc
        · rw [List.mem_singleton.mp hc]
          exact h.owned .newMessage hring
        · cases hc

theorem Named.ringHdrs (h : s.Named) (i : ℕ) : (s.ringHdrs i).Named := by
  unfold RingPath.ringHdrs
  split
  · exact h
  · rename_i m hm
    have hmem : m ∈ s.inFlight := List.mem_of_getElem? hm
    have hflight : ∀ m' ∈ s.inFlight.eraseIdx i, m'.ringId ≠ 0 → s.owner m'.ringId = some m'.ikernelId :=
      fun m' hm' => h.inFlight m' (List.mem_of_mem_eraseIdx hm')
    simp only
    split
    · rename_i hring
      refine ⟨h.range, h.contexts, hflight, ?_⟩
      intro c hc
      rcases List.mem_append.mp hc with hc | hc
      · exact h.calls c hc
      · rw [List.mem_singleton.mp hc]
        exact h.owned .nextPacket (h.inFlight m hmem hring)
    · exact ⟨h.range, h.contexts, hflight, h.calls⟩

theorem Named.step (hN : N.Lawful) (h : s.Named) {a : RingPathAction} (ha : s.Entitled a) :
    (s.step a).Named := by
  cases a with
  | crCreate id ring => exact h.crCreate id ring
  | crDestroy ring => exact h.crDestroy ha
  | ikRpc id address value read => exact h.ikRpc hN ha
  | hostCreditsUpdate full regs => exact ⟨h.range, h.contexts, h.inFlight, h.calls⟩
  | update => exact ⟨h.range, h.contexts, h.inFlight, h.calls⟩
  | netIngress tc m v => exact h.netIngress hN ha
  | ringHdrs i => exact h.ringHdrs i

/-- No context names a ring at the start. -/
theorem named_init {contexts : N.Table} (hcontexts : ∀ id, N.get contexts id = .init) :
    (init contexts).Named := by
  constructor
  · intro ring id h
    cases h
  · intro id h
    rw [findRing] at h
    exact absurd (congrArg ThresholdContext.ringId (hcontexts id)) h
  · intro m h
    cases h
  · intro c h
    cases h

instance (s : RingPath N) : ∀ a, Decidable (s.Entitled a)
  | .crCreate _ _ => .isTrue trivial
  | .crDestroy ring =>
    inferInstanceAs (Decidable ((∀ id, s.findRing id ≠ ring) ∧ ∀ m ∈ s.inFlight, m.ringId ≠ ring))
  | .ikRpc _ _ _ _ => inferInstanceAs (Decidable (_ ∨ _))
  | .hostCreditsUpdate _ _ => .isTrue trivial
  | .update => .isTrue trivial
  | .netIngress _ _ _ => inferInstanceAs (Decidable (_ ≠ _))
  | .ringHdrs _ => .isTrue trivial

/-- A packet of ikernel 3 for the ring in its context. -/
def exampleMetadata : Metadata :=
  ⟨0, 0, 3, .inl ⟨0, 0, 0, 0, 0, 0⟩, 0, 0, 18⟩

/-- A ring is created, named, given credits and used, and then replaced by another one and destroyed. -/
def replacedRing : List RingPathAction :=
  [.crCreate 3 1, .ikRpc 3 0x2c 1 false, .hostCreditsUpdate false ⟨1, 5, false⟩, .update,
    .netIngress ⟨fun _ => 0, fun _ => 0⟩ exampleMetadata 7, .ringHdrs 0, .crCreate 3 2,
    .ikRpc 3 0x2c 2 false, .crDestroy 1, .netIngress ⟨fun _ => 0, fun _ => 0⟩ exampleMetadata 7]

/-- The contexts after power-up. -/
def exampleContexts : (ContextManager.plain ThresholdContext).Table := fun _ => ThresholdContext.init

/-- A client writes 100 to the ring id register of its ikernel. -/
def foreignRing : List RingPathAction :=
  [.ikRpc 3 0x2c 100 false, .netIngress ⟨fun _ => 0, fun _ => 0⟩ exampleMetadata 7]

end RingPath

end Nica.Hls
