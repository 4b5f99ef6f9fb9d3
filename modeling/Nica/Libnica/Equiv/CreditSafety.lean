import Nica.Libnica.CustomRing
import Nica.Hls.Equiv.CreditUpdates

/-!
# Messages are sent into posted buffers only

For one ring, what is on its way to the ikernel is a sequence of bounds.  `Follows` says that they are
nondecreasing counts of posted buffers, cut to 16 bits.  `Accounted` says where the ring stands: the reset
of its creation is on its way and nothing was sent since, or the context of the ikernel holds the number of
messages sent and an earlier count of posted buffers.

Two things break this.  A reset that is overwritten in the register before it was sampled never arrives, and
until it arrives the ikernel can use the credits of the ring's last owner.  `Careful` excludes both.
-/

namespace Nica.Libnica

open Nica.Lib Nica.Hls Nica.Manager

/-- The hardware finds in the word what the manager packed into it. -/
theorem creditRegisters_creditWord (ring : RingId) (maxMsn : BitVec 16) (reset : Bool) :
    creditRegisters (creditWord ring maxMsn reset) = ⟨ring, maxMsn, reset⟩ := by
  have hbit : ∀ i, (creditWord ring maxMsn reset).getLsbD i =
      (decide (i < 32) && (ring.getLsbD i || (decide (7 ≤ i) && maxMsn.getLsbD (i - 7)) ||
        (decide (23 ≤ i) && reset.toNat.testBit (i - 23)))) := by
    intro i
    simp [creditWord, BitVec.getLsbD_ofNat, Nat.testBit_shiftLeft, BitVec.testBit_toNat, Bool.and_or_distrib_left]
  unfold creditRegisters
  congr 1
  · ext i hi
    have hlow : (decide (7 ≤ i) = false) ∧ (decide (23 ≤ i) = false) ∧ decide (i < 32) = true := by
      simp only [decide_eq_false_iff_not, decide_eq_true_eq]
      omega
    simp [hbit, hlow, hi]
  · ext i hi
    have hmid : decide (23 ≤ 7 + i) = false ∧ decide (7 + i < 32) = true := by
      simp only [decide_eq_false_iff_not, decide_eq_true_eq]
      omega
    simp [hbit, hmid, hi]
  · rw [hbit, BitVec.getLsbD_of_ge _ _ (by decide), BitVec.getLsbD_of_ge _ _ (by decide)]
    cases reset <;> decide

/-! ### The bounds of one ring -/

/-- The bounds of a ring in a sequence of updates, from the count `n` on: counts of posted buffers, none
below the one before it. -/
def Follows (ring : RingId) (posted : ℕ) : ℕ → List CreditUpdateRegisters → Prop
  | n, [] => n ≤ posted
  | n, w :: ws =>
    if w.ringId = ring then
      w.reset = false ∧ ∃ m, n ≤ m ∧ w.maxMsn = BitVec.ofNat 16 m ∧ Follows ring posted m ws
    else Follows ring posted n ws

variable {ring : RingId} {posted posted' sent n : ℕ} {c : IkernelRingContext}
  {w : CreditUpdateRegisters} {ws : List CreditUpdateRegisters}

theorem Follows.le (h : Follows ring posted n ws) : n ≤ posted := by
  induction ws generalizing n with
  | nil => exact h
  | cons w ws ih =>
    unfold Follows at h
    split at h
    · obtain ⟨-, m, hnm, -, h⟩ := h
      exact Nat.le_trans hnm (ih h)
    · exact ih h

theorem Follows.anti {m : ℕ} (hle : m ≤ n) (h : Follows ring posted n ws) : Follows ring posted m ws := by
  induction ws generalizing m n with
  | nil => exact Nat.le_trans hle h
  | cons w ws ih =>
    unfold Follows at h ⊢
    split at h
    · rename_i hring
      obtain ⟨hreset, k, hnk, hk, h⟩ := h
      rw [if_pos hring]
      exact ⟨hreset, k, Nat.le_trans hle hnk, hk, h⟩
    · rename_i hring
      rw [if_neg hring]
      exact ih hle h

theorem follows_append {vs : List CreditUpdateRegisters} :
    Follows ring posted n (ws ++ vs) ↔ ∃ m, Follows ring m n ws ∧ Follows ring posted m vs := by
  induction ws generalizing n with
  | nil =>
    rw [List.nil_append]
    refine ⟨fun h => ⟨n, Nat.le_refl n, h⟩, ?_⟩
    rintro ⟨m, hnm, h⟩
    exact h.anti hnm
  | cons w ws ih =>
    rw [List.cons_append, Follows]
    by_cases hring : w.ringId = ring
    · simp only [Follows, if_pos hring, ih]
      constructor
      · rintro ⟨hreset, k, hnk, hk, m, h, h'⟩
        exact ⟨m, ⟨hreset, k, hnk, hk, h⟩, h'⟩
      · rintro ⟨m, ⟨hreset, k, hnk, hk, h⟩, h'⟩
        exact ⟨hreset, k, hnk, hk, m, h, h'⟩
    · simp only [Follows, if_neg hring, ih]

theorem Follows.mono (hle : posted ≤ posted') (h : Follows ring posted n ws) :
    Follows ring posted' n ws := by
  rw [← List.append_nil ws]
  exact follows_append.mpr ⟨posted, h, hle⟩

/-- A new bound comes last. -/
theorem Follows.snoc (h : Follows ring posted n ws) :
    Follows ring posted n (ws ++ [⟨ring, BitVec.ofNat 16 posted, false⟩]) := by
  refine follows_append.mpr ⟨posted, h, ?_⟩
  rw [Follows, if_pos rfl]
  exact ⟨rfl, posted, Nat.le_refl _, rfl, Nat.le_refl _⟩

/-- The last update may get lost. -/
theorem Follows.of_snoc (h : Follows ring posted n (ws ++ [w])) : Follows ring posted n ws := by
  obtain ⟨m, h, hw⟩ := follows_append.mp h
  exact h.mono hw.le

/-- An update of another ring does not count. -/
theorem Follows.snoc_other (hw : w.ringId ≠ ring) (h : Follows ring posted n ws) :
    Follows ring posted n (ws ++ [w]) := by
  refine follows_append.mpr ⟨posted, h, ?_⟩
  rw [Follows, if_neg hw]
  exact Nat.le_refl _

/-- Where a ring stands, given the updates on their way. -/
def Accounted (ring : RingId) (posted sent : ℕ) (c : IkernelRingContext)
    (pending : List CreditUpdateRegisters) : Prop :=
  (∃ n, sent ≤ n ∧ c = ⟨BitVec.ofNat 16 sent, BitVec.ofNat 16 n⟩ ∧ Follows ring posted n pending) ∨
    (sent = 0 ∧ ∃ old new, pending = old ++ ⟨ring, 0, true⟩ :: new ∧ Follows ring posted 0 new)

theorem Accounted.sent_le (h : Accounted ring posted sent c ws) : sent ≤ posted := by
  rcases h with ⟨n, hle, -, h⟩ | ⟨hsent, -⟩
  · exact Nat.le_trans hle h.le
  · rw [hsent]
    exact Nat.zero_le _

theorem Accounted.mono (hle : posted ≤ posted') (h : Accounted ring posted sent c ws) :
    Accounted ring posted' sent c ws := by
  rcases h with ⟨n, hn, hc, h⟩ | ⟨hsent, old, new, hws, h⟩
  · exact .inl ⟨n, hn, hc, h.mono hle⟩
  · exact .inr ⟨hsent, old, new, hws, h.mono hle⟩

/-- A new bound is written. -/
theorem Accounted.snoc (h : Accounted ring posted sent c ws) :
    Accounted ring posted sent c (ws ++ [⟨ring, BitVec.ofNat 16 posted, false⟩]) := by
  rcases h with ⟨n, hn, hc, h⟩ | ⟨hsent, old, new, rfl, h⟩
  · exact .inl ⟨n, hn, hc, h.snoc⟩
  · refine .inr ⟨hsent, old, new ++ [⟨ring, BitVec.ofNat 16 posted, false⟩], ?_, h.snoc⟩
    rw [List.append_assoc, List.cons_append]

theorem Accounted.snoc_other (hw : w.ringId ≠ ring) (h : Accounted ring posted sent c ws) :
    Accounted ring posted sent c (ws ++ [w]) := by
  rcases h with ⟨n, hn, hc, h⟩ | ⟨hsent, old, new, rfl, h⟩
  · exact .inl ⟨n, hn, hc, h.snoc_other hw⟩
  · refine .inr ⟨hsent, old, new ++ [w], ?_, h.snoc_other hw⟩
    rw [List.append_assoc, List.cons_append]

/-- The last update may get lost, unless it is the reset. -/
theorem Accounted.of_snoc (hw : w.reset = false ∨ w.ringId ≠ ring)
    (h : Accounted ring posted sent c (ws ++ [w])) : Accounted ring posted sent c ws := by
  rcases h with ⟨n, hn, hc, h⟩ | ⟨hsent, old, new, hws, h⟩
  · exact .inl ⟨n, hn, hc, h.of_snoc⟩
  · rcases List.eq_nil_or_concat' new with rfl | ⟨new, v, rfl⟩
    · obtain ⟨-, hv⟩ := List.append_inj' hws rfl
      cases hv
      rcases hw with hw | hw
      · cases hw
      · exact absurd rfl hw
    · rw [← List.cons_append, ← List.append_assoc] at hws
      obtain ⟨rfl, -⟩ := List.append_inj' hws rfl
      exact .inr ⟨hsent, old, new, rfl, h.of_snoc⟩

/-- The ikernel takes the first update. -/
theorem Accounted.update (h : Accounted ring posted sent c (w :: ws)) :
    Accounted ring posted sent (if ring = w.ringId then c.apply w else c) ws := by
  rcases h with ⟨n, hn, hc, h⟩ | ⟨hsent, old, new, hws, h⟩
  · unfold Follows at h
    split at h
    · rename_i hring
      obtain ⟨hreset, m, hnm, hm, h⟩ := h
      refine .inl ⟨m, Nat.le_trans hn hnm, ?_, h⟩
      rw [if_pos hring.symm, IkernelRingContext.apply, hreset, hm, hc]
      rfl
    · rename_i hring
      rw [if_neg (Ne.symm hring)]
      exact .inl ⟨n, hn, hc, h⟩
  · cases old with
    | nil =>
      cases hws
      refine .inl ⟨0, Nat.le_of_eq hsent, ?_, h⟩
      rw [if_pos rfl, hsent]
      rfl
    | cons v old =>
      cases hws
      exact .inr ⟨hsent, old, new, rfl, h⟩

/-- A message is sent. -/
theorem Accounted.incMsn (hc : c.canTransmit = true)
    (hreset : ∀ v ∈ ws, v.ringId = ring → v.reset = false) (h : Accounted ring posted sent c ws) :
    Accounted ring posted (sent + 1) c.incMsn ws := by
  rcases h with ⟨n, hn, rfl, h⟩ | ⟨-, old, new, rfl, -⟩
  · have hne : sent ≠ n := by
      rintro rfl
      simp [IkernelRingContext.canTransmit] at hc
    refine .inl ⟨n, Nat.lt_of_le_of_ne hn hne, ?_, h⟩
    simp [IkernelRingContext.incMsn, BitVec.ofNat_add]
  · have := hreset ⟨ring, 0, true⟩ (by simp) rfl
    cases this

/-! ### The system -/

namespace RingSystem

variable {depth : ℕ} {s : RingSystem}

/-- The value in the register that was not sampled yet. -/
def unsampled (s : RingSystem) : List CreditUpdateRegisters :=
  if s.credits.lastHostCreditRegs ≠ s.register then [s.register] else []

/-- The updates on their way to the contexts of the ikernel. -/
def pending (s : RingSystem) : List CreditUpdateRegisters :=
  s.credits.creditUpdates.queue ++ s.unsampled

/-- No reset waits in the register, where the next write would destroy it. -/
def ResetSampled (s : RingSystem) : Prop := ∀ regs ∈ s.unsampled, regs.reset = false

/-- The reset of a ring is on its way. -/
def ResetPending (s : RingSystem) (ring : RingId) : Prop :=
  ∃ regs ∈ s.pending, regs.ringId = ring ∧ regs.reset = true

/-- The register is not written while it holds a reset that was not sampled, and nobody has credits for
a ring while its reset is on its way. -/
def Careful (s : RingSystem) : RingAction → Prop
  | .crCreate ring => ring = 0 ∨ ring ∈ s.customRingIds ∨ s.ResetSampled
  | .postRecvAttr ring _ updateCredits => updateCredits = false ∨ ring ∉ s.customRingIds ∨ s.ResetSampled
  | .transmit _ _ ring _ => s.ResetPending ring → (s.credits.context ring).canTransmit = false
  | _ => True

/-- On no ring were more messages sent than buffers posted. -/
def CreditSafe (s : RingSystem) : Prop := ∀ ring, ring ≠ 0 → s.messages ring ≤ s.posted ring

/-- A ring that `host_credits_update` accepts. -/
def ValidRing (ring : RingId) : Prop := ring ≠ 0 ∧ ring.toNat < 2 ^ 6

/-- What holds of the counts of the client, of the register and of every ring. -/
structure CreditInv (s : RingSystem) : Prop where
  client : ∀ ring, s.client ring = ⟨BitVec.ofNat 16 (s.posted ring), 0⟩
  register : s.register.reset = true → s.register.maxMsn = 0
  last : s.credits.lastHostCreditRegs.reset = true → s.credits.lastHostCreditRegs.maxMsn = 0
  queued : ∀ regs ∈ s.credits.creditUpdates.queue, regs.validRing
  latest : s.credits.lastHostCreditRegs.reset = true → s.credits.lastHostCreditRegs.validRing →
    (∃ q, s.credits.creditUpdates.queue = q ++ [s.credits.lastHostCreditRegs]) ∨
      (s.credits.creditUpdates.queue = [] ∧ s.credits.context s.credits.lastHostCreditRegs.ringId = ⟨0, 0⟩)
  accounted : ∀ ring, ValidRing ring →
    Accounted ring (s.posted ring) (s.messages ring) (s.credits.context ring) s.pending
  outside : ∀ ring, ring ≠ 0 → ¬ ValidRing ring → s.messages ring = 0 ∧ s.credits.context ring = ⟨0, 0⟩

theorem CreditInv.creditSafe (h : s.CreditInv) : s.CreditSafe := by
  intro ring hring
  by_cases hvalid : ValidRing ring
  · exact (h.accounted ring hvalid).sent_le
  · rw [(h.outside ring hring hvalid).1]
    exact Nat.zero_le _

theorem creditInv_init : init.CreditInv := by
  constructor
  · intro ring
    rfl
  · intro h
    cases h
  · intro h
    cases h
  · intro regs h
    cases h
  · intro h
    cases h
  · intro ring _
    exact .inl ⟨0, Nat.le_refl _, rfl, Nat.le_refl _⟩
  · intro ring _ _
    exact ⟨rfl, rfl⟩

/-- Without a reset in the register, the queue alone accounts for every ring. -/
theorem CreditInv.accounted_queue (h : s.CreditInv) (hs : s.ResetSampled) {ring : RingId}
    (hring : ValidRing ring) :
    Accounted ring (s.posted ring) (s.messages ring) (s.credits.context ring)
      s.credits.creditUpdates.queue := by
  have hacc := h.accounted ring hring
  unfold pending unsampled at hacc
  split at hacc
  · rename_i hnew
    refine hacc.of_snoc (.inl (hs s.register ?_))
    rw [unsampled, if_pos hnew]
    exact List.mem_singleton_self _
  · rwa [List.append_nil] at hacc

/-- The queue accounts for a ring whatever the register holds for another one. -/
theorem accounted_write {ring : RingId} {posted sent : ℕ} {c : IkernelRingContext}
    {regs : CreditUpdateRegisters} {k : Credits}
    (h : Accounted ring posted sent c k.creditUpdates.queue)
    (hregs : regs.ringId ≠ ring ∨ regs = ⟨ring, BitVec.ofNat 16 posted, false⟩) :
    Accounted ring posted sent c
      (k.creditUpdates.queue ++ if k.lastHostCreditRegs ≠ regs then [regs] else []) := by
  split
  · rcases hregs with hregs | rfl
    · exact h.snoc_other hregs
    · exact h.snoc
  · rwa [List.append_nil]

theorem CreditInv.postRecvAttr (h : s.CreditInv) {ring : RingId} {num : ℕ} {upd : Bool}
    (hs : s.Careful (.postRecvAttr ring num upd)) : (s.postRecvAttr ring num upd).CreditInv := by
  have hcredits : (s.client ring).credits + BitVec.ofNat 16 num =
      BitVec.ofNat 16 (s.posted ring + num) := by
    rw [h.client ring, BitVec.ofNat_add]
  have hdiff : (s.client ring).msnDiff = 0 := by rw [h.client ring]
  have hclient : ∀ r, Function.update s.client ring
      (if upd then ⟨(s.client ring).credits + BitVec.ofNat 16 num + (s.client ring).msnDiff, 0⟩
        else { s.client ring with credits := (s.client ring).credits + BitVec.ofNat 16 num }) r =
      ⟨BitVec.ofNat 16 (Function.update s.posted ring (s.posted ring + num) r), 0⟩ := by
    intro r
    by_cases hr : r = ring
    · subst hr
      rw [Function.update_self, Function.update_self, hcredits, hdiff]
      cases upd <;> simp [hdiff]
    · rw [Function.update_of_ne hr, Function.update_of_ne hr, h.client r]
  have hposted : ∀ r, s.posted r ≤ Function.update s.posted ring (s.posted ring + num) r := by
    intro r
    by_cases hr : r = ring
    · rw [hr, Function.update_self]
      exact Nat.le_add_right _ _
    · rw [Function.update_of_ne hr]
  unfold RingSystem.postRecvAttr
  by_cases hupd : upd = true ∧ ring ∈ s.customRingIds
  · have hsampled : s.ResetSampled := by
      rcases hs with hs | hs | hs
      · rw [hs] at hupd
        cases hupd.1
      · exact absurd hupd.2 hs
      · exact hs
    rw [if_pos hupd]
    simp only [updateCredits, creditRegisters_creditWord, hupd.1, if_true, hcredits, hdiff]
    simp only [hupd.1, if_true, hcredits, hdiff] at hclient
    refine ⟨hclient, ?_, h.last, h.queued, h.latest, ?_, h.outside⟩
    · intro hreset
      cases hreset
    · intro r hr
      refine accounted_write ((h.accounted_queue hsampled hr).mono (hposted r)) ?_
      by_cases hne : ring = r
      · subst hne
        simp only [Function.update_self]
        exact .inr (by congr 1; exact BitVec.add_zero _)
      · exact .inl hne
  · rw [if_neg hupd]
    refine ⟨hclient, h.register, h.last, h.queued, h.latest, ?_, h.outside⟩
    intro r hr
    exact (h.accounted r hr).mono (hposted r)

/-- What a new ring finds when its reset repeats the value that was sampled last. -/
theorem CreditInv.accounted_repeat (h : s.CreditInv) {ring : RingId} (hring : ValidRing ring)
    (hlast : s.credits.lastHostCreditRegs = ⟨ring, 0, true⟩) :
    Accounted ring 0 0 (s.credits.context ring) s.credits.creditUpdates.queue := by
  rcases h.latest (by rw [hlast]) (by rw [hlast]; exact hring) with ⟨q, hq⟩ | ⟨hq, hc⟩
  · rw [hq, hlast]
    exact .inr ⟨rfl, q, [], rfl, Nat.le_refl _⟩
  · rw [hlast] at hc
    rw [hq, hc]
    exact .inl ⟨0, Nat.le_refl _, rfl, Nat.le_refl _⟩

theorem CreditInv.crCreate (h : s.CreditInv) {ring : RingId} (hs : s.Careful (.crCreate ring)) :
    (s.crCreate ring).CreditInv := by
  unfold RingSystem.crCreate
  by_cases hfree : ring = 0 ∨ ring ∈ s.customRingIds
  · rw [if_pos hfree]
    exact h
  · have hsampled : s.ResetSampled := by
      rcases hs with hs | hs | hs
      · exact absurd (.inl hs) hfree
      · exact absurd (.inr hs) hfree
      · exact hs
    rw [if_neg hfree]
    simp only [updateCredits, creditRegisters_creditWord]
    refine ⟨?_, fun _ => rfl, h.last, h.queued, h.latest, ?_, ?_⟩
    · intro r
      by_cases hr : r = ring
      · subst hr
        simp only [Function.update_self]
        rfl
      · simp only [Function.update_of_ne hr]
        exact h.client r
    · intro r hr
      by_cases hne : r = ring
      · subst hne
        simp only [Function.update_self]
        show Accounted r 0 0 (s.credits.context r) (_ ++ ite _ _ _)
        split
        · exact .inr ⟨rfl, _, [], rfl, Nat.le_refl _⟩
        · rename_i hlast
          rw [List.append_nil]
          exact h.accounted_repeat hr (not_not.mp hlast)
      · simp only [Function.update_of_ne hne]
        exact accounted_write (h.accounted_queue hsampled hr) (.inl (Ne.symm hne))
    · intro r hr hout
      refine ⟨?_, (h.outside r hr hout).2⟩
      by_cases hne : r = ring
      · subst hne
        exact Function.update_self ..
      · simp only [Function.update_of_ne hne]
        exact (h.outside r hr hout).1

theorem CreditInv.crDestroy (h : s.CreditInv) (ring : RingId) : (s.crDestroy ring).CreditInv :=
  ⟨h.client, h.register, h.last, h.queued, h.latest, h.accounted, h.outside⟩

theorem CreditInv.hostCreditsUpdate (h : s.CreditInv) :
    (s.step depth .hostCreditsUpdate).CreditInv := by
  cases hfull : s.full depth with
  | true =>
    have hstep : s.step depth .hostCreditsUpdate = s := by
      simp [step, hfull, Credits.hostCreditsUpdate]
    rw [hstep]
    exact h
  | false =>
    have hstep : s.step depth .hostCreditsUpdate =
        { s with credits := { s.credits with
          creditUpdates := s.credits.creditUpdates.put
            (if s.credits.lastHostCreditRegs ≠ s.register ∧ s.register.validRing then some s.register
              else none)
          lastHostCreditRegs := s.register } } := by
      rw [step, hfull, Credits.hostCreditsUpdate_room]
    rw [hstep]
    by_cases hnew : s.credits.lastHostCreditRegs ≠ s.register
    · have hpending : s.pending = s.credits.creditUpdates.queue ++ [s.register] := by
        rw [pending, unsampled, if_pos hnew]
      by_cases hring : s.register.validRing
      · rw [if_pos ⟨hnew, hring⟩]
        refine ⟨h.client, h.register, h.register, ?_, fun _ _ => .inl ⟨_, rfl⟩, ?_, h.outside⟩
        · intro regs hregs
          rcases List.mem_append.mp hregs with hregs | hregs
          · exact h.queued regs hregs
          · rw [List.mem_singleton.mp hregs]
            exact hring
        · intro r hr
          have hacc := h.accounted r hr
          rw [hpending] at hacc
          show Accounted r _ _ (s.credits.context r) (_ ++ ite _ _ _)
          rw [if_neg (not_not.mpr rfl), List.append_nil]
          exact hacc
      · -- a ring that does not exist: the value is forgotten
        rw [if_neg (fun hand => hring hand.2), Fifo.put_none]
        refine ⟨h.client, h.register, h.register, h.queued, fun _ hv => absurd hv hring, ?_, h.outside⟩
        intro r hr
        have hacc := h.accounted r hr
        rw [hpending] at hacc
        have hne : s.register.ringId ≠ r := by
          rintro rfl
          exact hring hr
        show Accounted r _ _ (s.credits.context r) (_ ++ ite _ _ _)
        rw [if_neg (not_not.mpr rfl), List.append_nil]
        exact hacc.of_snoc (.inr hne)
    · have heq : s.credits.lastHostCreditRegs = s.register := not_not.mp hnew
      rw [if_neg (fun hand => hnew hand.1), Fifo.put_none, ← heq]
      refine ⟨h.client, h.last, h.last, h.queued, h.latest, ?_, h.outside⟩
      intro r hr
      have hacc := h.accounted r hr
      rw [pending, unsampled, if_neg hnew] at hacc
      show Accounted r _ _ (s.credits.context r) (_ ++ ite _ _ _)
      rw [if_neg (not_not.mpr rfl)]
      exact hacc

/-- No message can be sent on a ring whose context is empty. -/
theorem canTransmit_zero : (⟨0, 0⟩ : IkernelRingContext).canTransmit = false := rfl

theorem CreditInv.update (h : s.CreditInv) : (s.step depth .update).CreditInv := by
  cases hhead : s.credits.creditUpdates.head with
  | none =>
    have hstep : s.step depth .update = s := by simp [step, Credits.update, hhead]
    rw [hstep]
    exact h
  | some regs =>
    obtain ⟨q, hq⟩ := s.credits.creditUpdates.queue_eq_of_head hhead
    obtain ⟨hpop, hlast⟩ := Credits.creditUpdates_update hhead
    have hqueue : s.credits.update.2.creditUpdates.queue = q := by
      rw [hpop, Fifo.queue_pop _ hq]
    have hregs : regs.validRing := h.queued regs (by rw [hq]; exact List.mem_cons_self ..)
    refine ⟨h.client, h.register, ?_, ?_, ?_, ?_, ?_⟩
    · simp only [step, hlast]
      exact h.last
    · show ∀ r ∈ s.credits.update.2.creditUpdates.queue, _
      rw [hqueue]
      intro r hr
      exact h.queued r (by rw [hq]; exact List.mem_cons_of_mem _ hr)
    · simp only [step, hlast, hqueue]
      intro hreset hvalid
      rcases h.latest hreset hvalid with ⟨q', hq'⟩ | ⟨hnil, -⟩
      · rw [hq] at hq'
        cases q' with
        | nil =>
          cases hq'
          refine .inr ⟨rfl, ?_⟩
          rw [Credits.context_update hhead, if_pos rfl, IkernelRingContext.apply, hreset, h.last hreset]
          rfl
        | cons v q' =>
          cases hq'
          exact .inl ⟨q', rfl⟩
      · rw [hq] at hnil
        cases hnil
    · intro r hr
      have hacc := h.accounted r hr
      have hpending : s.pending = regs :: (s.step depth .update).pending := by
        simp only [pending, unsampled, step, hlast, hqueue, hq, List.cons_append]
      rw [hpending] at hacc
      have hctx : (s.step depth .update).credits.context r = _ := Credits.context_update hhead r
      rw [hctx]
      exact hacc.update
    · intro r hr hout
      have hctx : (s.step depth .update).credits.context r = _ := Credits.context_update hhead r
      rw [hctx, if_neg (by rintro rfl; exact hout hregs)]
      exact h.outside r hr hout

theorem CreditInv.transmit (h : s.CreditInv) {tc : TcPipelineDataCounts} {id : ℕ} {ring : RingId}
    {len : ℕ} (hs : s.Careful (.transmit tc id ring len)) : (s.transmit tc id ring len).CreditInv := by
  unfold RingSystem.transmit
  by_cases hsend : ring ≠ 0 ∧ s.credits.canTransmit tc id ring len .HOST = true
  · rw [if_pos hsend]
    have hcan : (s.credits.context ring).canTransmit = true := by
      by_contra hno
      have hno : (s.credits.context ring).canTransmit = false := by simpa using hno
      have := hsend.2
      rw [Credits.canTransmit, if_pos ⟨rfl, hsend.1, hno⟩] at this
      cases this
    have hreset : ∀ v ∈ s.pending, v.ringId = ring → v.reset = false := by
      intro v hv hvr
      by_contra hr
      have := hs ⟨v, hv, hvr, by simpa using hr⟩
      rw [hcan] at this
      cases this
    obtain ⟨hupdates, hlast⟩ := s.credits.creditUpdates_newMessage ring .HOST
    have hctx : ∀ r, (s.credits.newMessage ring .HOST).context r =
        if r = ring then (s.credits.context r).incMsn else s.credits.context r := by
      intro r
      rw [Credits.context_newMessage]
      simp only [true_and]
    have hvalid : ValidRing ring := by
      by_contra hout
      rw [(h.outside ring hsend.1 hout).2, canTransmit_zero] at hcan
      cases hcan
    refine ⟨h.client, h.register, ?_, ?_, ?_, ?_, ?_⟩
    · simp only [hlast]
      exact h.last
    · simp only [hupdates]
      exact h.queued
    · simp only [hlast, hupdates, hctx]
      intro hlr hlv
      rcases h.latest hlr hlv with hq | ⟨hq, hc⟩
      · exact .inl hq
      · refine .inr ⟨hq, ?_⟩
        rw [if_neg, hc]
        intro heq
        rw [heq] at hc
        rw [hc, canTransmit_zero] at hcan
        cases hcan
    · intro r hr
      simp only [pending, unsampled, hlast, hupdates, hctx]
      by_cases hne : r = ring
      · subst hne
        rw [if_pos rfl, Function.update_self]
        exact (h.accounted r hr).incMsn hcan hreset
      · rw [if_neg hne, Function.update_of_ne hne]
        exact h.accounted r hr
    · intro r hr hout
      have hne : r ≠ ring := by
        rintro rfl
        exact hout hvalid
      simp only [hctx, if_neg hne, Function.update_of_ne hne]
      exact h.outside r hr hout
  · rw [if_neg hsend]
    exact h

theorem CreditInv.step (h : s.CreditInv) {a : RingAction} (ha : s.Careful a) :
    (s.step depth a).CreditInv := by
  cases a with
  | crCreate ring => exact h.crCreate ha
  | crDestroy ring => exact h.crDestroy ring
  | postRecvAttr ring num upd => exact h.postRecvAttr ha
  | hostCreditsUpdate => exact h.hostCreditsUpdate
  | update => exact h.update
  | transmit tc id ring len => exact h.transmit ha

instance (s : RingSystem) : Decidable s.ResetSampled :=
  inferInstanceAs (Decidable (∀ regs ∈ s.unsampled, regs.reset = false))

instance (s : RingSystem) (ring : RingId) : Decidable (s.ResetPending ring) :=
  inferInstanceAs (Decidable (∃ regs ∈ s.pending, regs.ringId = ring ∧ regs.reset = true))

instance (s : RingSystem) : ∀ a, Decidable (s.Careful a)
  | .crCreate _ => inferInstanceAs (Decidable (_ ∨ _))
  | .crDestroy _ => .isTrue trivial
  | .postRecvAttr _ _ _ => inferInstanceAs (Decidable (_ ∨ _))
  | .hostCreditsUpdate => .isTrue trivial
  | .update => .isTrue trivial
  | .transmit _ _ _ _ => inferInstanceAs (Decidable (_ → _))

/-- Empty transmit queues. -/
def idleTc : TcPipelineDataCounts := ⟨fun _ => 0, fun _ => 0⟩

/-- A ring is created and destroyed and created again, with its credits used up in between. -/
def usedUp : List RingAction :=
  [.crCreate 1, .hostCreditsUpdate, .update, .postRecvAttr 1 2 true, .hostCreditsUpdate, .update,
    .transmit idleTc 0 1 4, .transmit idleTc 0 1 4, .transmit idleTc 0 1 4, .crDestroy 1, .crCreate 1,
    .hostCreditsUpdate, .transmit idleTc 0 1 4, .update, .postRecvAttr 1 1 true]

/-- A client has at most 2^15 buffers outstanding on a ring. -/
def Modest (s : RingSystem) : RingAction → Prop
  | .postRecvAttr ring num _ => s.posted ring + num ≤ s.messages ring + 2 ^ 15
  | _ => True

instance (s : RingSystem) : ∀ a, Decidable (s.Modest a)
  | .crCreate _ => .isTrue trivial
  | .crDestroy _ => .isTrue trivial
  | .postRecvAttr _ _ _ => inferInstanceAs (Decidable (_ ≤ _))
  | .hostCreditsUpdate => .isTrue trivial
  | .update => .isTrue trivial
  | .transmit _ _ _ _ => .isTrue trivial

/-- A ring is destroyed with credits left and given to somebody else. -/
def leftOver : List RingAction :=
  [.crCreate 1, .hostCreditsUpdate, .update, .postRecvAttr 1 2 true, .hostCreditsUpdate, .update,
    .crDestroy 1, .crCreate 1, .transmit idleTc 0 1 4]

end RingSystem

end Nica.Libnica
