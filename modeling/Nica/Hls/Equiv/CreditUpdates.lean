import Nica.Hls.Credits
import Mathlib.Data.List.Basic

/-!
# Which writes to the credit register arrive

`host_credits_update` compares the register with the value it queued last, and returns at once when the
queue is full.  So a write arrives when some call that finds room comes before the next write, and then it
arrives once, unless it repeats the value before it: the queue carries `changes` of the writes
(`Sampling`).  For the bounds a repeated value makes no difference (`lastFor_changes`).
-/

namespace Nica.Hls

open Nica.Lib

/-- A list without the elements that repeat the one before them; `prev` stands before the first. -/
def changes {α : Type} [DecidableEq α] (prev : α) : List α → List α
  | [] => []
  | x :: xs => if x = prev then changes prev xs else x :: changes x xs

theorem changes_snoc {α : Type} [DecidableEq α] (prev x : α) (xs : List α) :
    changes prev (xs ++ [x]) = changes prev xs ++ if x = xs.getLastD prev then [] else [x] := by
  induction xs generalizing prev with
  | nil => simp [changes]
  | cons y ys ih =>
    rw [List.cons_append, changes, changes]
    split
    · rename_i h
      rw [ih, h, List.getLastD_cons]
    · rw [ih, List.cons_append, List.getLastD_cons]

/-- The last write for a ring. -/
def lastFor (ws : List CreditUpdateRegisters) (ring : RingId) : Option CreditUpdateRegisters :=
  (ws.filter (·.ringId = ring)).getLast?

theorem lastFor_snoc (ws : List CreditUpdateRegisters) (w : CreditUpdateRegisters) (ring : RingId) :
    lastFor (ws ++ [w]) ring = if w.ringId = ring then some w else lastFor ws ring := by
  unfold lastFor
  rw [List.filter_append]
  by_cases h : w.ringId = ring <;> simp [h]

/-- The last write for the ring of the last write is that write. -/
theorem lastFor_getLastD {ws : List CreditUpdateRegisters} {prev : CreditUpdateRegisters} (h : ws ≠ []) :
    lastFor ws (ws.getLastD prev).ringId = some (ws.getLastD prev) := by
  obtain ⟨front, w, rfl⟩ := List.eq_nil_or_concat'  ws |>.resolve_left h
  simp [lastFor_snoc]

/-- Dropping the repeated values keeps the last write for every ring. -/
theorem lastFor_changes (ws : List CreditUpdateRegisters) (hws : ∀ w ∈ ws, w.validRing) (ring : RingId) :
    lastFor (changes .init ws) ring = lastFor ws ring := by
  induction ws using List.reverseRecOn with
  | nil => rfl
  | append_singleton ws w ih =>
    have ih := ih (fun v hv => hws v (List.mem_append_left _ hv))
    rw [changes_snoc]
    by_cases hw : w = ws.getLastD .init
    · rw [if_pos hw, List.append_nil, ih, lastFor_snoc]
      -- the first write differs from the register after power-up, whose ring is 0
      have hne : ws ≠ [] := by
        rintro rfl
        have := (hws w (by simp)).1
        rw [hw] at this
        exact this rfl
      split
      · rename_i hr
        rw [← hr, hw, lastFor_getLastD hne]
      · rfl
    · rw [if_neg hw, lastFor_snoc, lastFor_snoc, ih]

theorem ringIndex_injective : Function.Injective ringIndex := by
  intro r r' h
  apply BitVec.eq_of_toNat_eq
  unfold ringIndex at h
  omega

/-- A message on a ring counts in the context of that ring only. -/
theorem Credits.context_newMessage (k : Credits) (ring r : RingId) (dir : Dir) :
    (k.newMessage ring dir).context r =
      if dir = .HOST ∧ r = ring then (k.context r).incMsn else k.context r := by
  unfold newMessage
  by_cases hdir : dir = .HOST
  · rw [if_pos hdir]
    show Function.update k.hostCredits _ _ _ = _
    by_cases hr : r = ring
    · rw [if_pos ⟨hdir, hr⟩, hr, Function.update_self]
    · rw [if_neg (fun h => hr h.2), Function.update_of_ne (fun h => hr (ringIndex_injective h))]
      rfl
  · rw [if_neg hdir, if_neg (fun h => hdir h.1)]

theorem Credits.creditUpdates_newMessage (k : Credits) (ring : RingId) (dir : Dir) :
    (k.newMessage ring dir).creditUpdates = k.creditUpdates ∧
      (k.newMessage ring dir).lastHostCreditRegs = k.lastHostCreditRegs := by
  unfold newMessage
  split <;> exact ⟨rfl, rfl⟩

/-- An update that is taken from the queue changes the context of its ring only. -/
theorem Credits.context_update {k : Credits} {regs : CreditUpdateRegisters}
    (hhead : k.creditUpdates.head = some regs) (r : RingId) :
    k.update.2.context r = if r = regs.ringId then (k.context r).apply regs else k.context r := by
  simp only [update, hhead]
  show Function.update k.hostCredits _ _ _ = _
  by_cases hr : r = regs.ringId
  · rw [if_pos hr, hr, Function.update_self]
  · rw [if_neg hr, Function.update_of_ne (fun h => hr (ringIndex_injective h))]
    rfl

theorem Credits.creditUpdates_update {k : Credits} {regs : CreditUpdateRegisters}
    (hhead : k.creditUpdates.head = some regs) :
    k.update.2.creditUpdates = k.creditUpdates.pop ∧
      k.update.2.lastHostCreditRegs = k.lastHostCreditRegs := by
  simp only [update, hhead, and_self]

/-- A call that finds room queues a value that is new and names a ring. -/
theorem Credits.hostCreditsUpdate_room (k : Credits) (regs : CreditUpdateRegisters) :
    k.hostCreditsUpdate false regs =
      { k with
        creditUpdates := k.creditUpdates.put
          (if k.lastHostCreditRegs ≠ regs ∧ regs.validRing then some regs else none)
        lastHostCreditRegs := regs } := by
  unfold hostCreditsUpdate
  rw [if_neg Bool.false_ne_true]
  by_cases hnew : k.lastHostCreditRegs = regs
  · rw [if_neg (not_not.mpr hnew), if_neg (fun h => h.1 hnew), Fifo.put_none, ← hnew]
  · by_cases hvalid : regs.validRing
    · have hring : ¬ (regs.ringId = 0 ∨ 2 ^ 6 ≤ regs.ringId.toNat) := by
        rintro (h | h)
        · exact hvalid.1 h
        · exact absurd hvalid.2 (Nat.not_lt.mpr h)
      rw [if_pos hnew, if_neg hring, if_pos ⟨hnew, hvalid⟩]
      rfl
    · have hring : regs.ringId = 0 ∨ 2 ^ 6 ≤ regs.ringId.toNat := by
        by_contra hring
        rw [not_or, Nat.not_le] at hring
        exact hvalid hring
      rw [if_pos hnew, if_pos hring, if_neg (fun h => hvalid h.2), Fifo.put_none]

namespace CreditPort

variable {depth : ℕ} {p : CreditPort}

/-- The writes that a call of `host_credits_update` with room has seen: all, or all but the last. -/
def taken (p : CreditPort) : List CreditUpdateRegisters :=
  if p.seen then p.writes else p.writes.dropLast

/-- A write waits until a call of `host_credits_update` has seen the one before it. -/
def Called (p : CreditPort) : CreditAction → Prop
  | .write regs => p.called = true ∧ regs.validRing
  | _ => True

/-- A write waits until a call of `host_credits_update` that found room has seen the one before it. -/
def Seen (p : CreditPort) : CreditAction → Prop
  | .write regs => p.seen = true ∧ regs.validRing
  | _ => True

instance (p : CreditPort) : ∀ a, Decidable (p.Called a)
  | .write _ => inferInstanceAs (Decidable (_ ∧ _))
  | .hostCreditsUpdate => .isTrue trivial
  | .update => .isTrue trivial
  | .newMessage _ _ => .isTrue trivial

instance (p : CreditPort) : ∀ a, Decidable (p.Seen a)
  | .write _ => inferInstanceAs (Decidable (_ ∧ _))
  | .hostCreditsUpdate => .isTrue trivial
  | .update => .isTrue trivial
  | .newMessage _ _ => .isTrue trivial

/-- Where the writes are: in the register, in the queue, or applied to the contexts. -/
structure Sampling (p : CreditPort) : Prop where
  valid : ∀ w ∈ p.writes, w.validRing
  unseen : p.seen = false → p.writes ≠ []
  register : p.register = p.writes.getLastD .init
  last : p.credits.lastHostCreditRegs = p.taken.getLastD .init
  sent : p.credits.creditUpdates.sent = changes .init p.taken
  bound : ∀ ring w, lastFor p.credits.creditUpdates.past ring = some w →
    (p.credits.context ring).maxMsn = w.maxMsn
  zeroed : p.zeroed = p.credits.creditUpdates.past.filter (·.reset)

theorem sampling_init : init.Sampling := by
  constructor <;> simp [init, CreditUpdateRegisters.init, taken, Credits.init, changes, lastFor]

theorem Sampling.write (h : p.Sampling) {regs : CreditUpdateRegisters} (hp : p.Seen (.write regs)) :
    (p.step depth (.write regs)).Sampling := by
  obtain ⟨hseen, hring⟩ := hp
  have htaken : (p.step depth (.write regs)).taken = p.taken := by
    simp [step, taken, hseen]
  constructor
  · intro w hw
    rcases List.mem_append.mp hw with hw | hw
    · exact h.valid w hw
    · rw [List.mem_singleton.mp hw]
      exact hring
  · intro _
    simp [step]
  · simp [step]
  · rw [htaken]
    exact h.last
  · rw [htaken]
    exact h.sent
  · exact h.bound
  · exact h.zeroed

/-- The value in the register, when it is new, is what the queue lacks. -/
theorem Sampling.sent_put (h : p.Sampling) :
    (p.credits.creditUpdates.put
      (if p.credits.lastHostCreditRegs ≠ p.register ∧ p.register.validRing then some p.register
        else none)).sent = changes .init p.writes := by
  rw [Fifo.sent_put, h.sent]
  cases hseen : p.seen with
  | true =>
    have htaken : p.taken = p.writes := by rw [taken, if_pos hseen]
    rw [if_neg (fun hne => hne.1 (by rw [h.last, h.register, htaken])), htaken]
    exact List.append_nil _
  | false =>
    have hsnoc : p.writes = p.taken ++ [p.register] := by
      have hne := h.unseen hseen
      rw [taken, hseen, h.register, List.getLastD_eq_getLast?, List.getLast?_eq_some_getLast hne]
      exact (List.dropLast_append_getLast hne).symm
    have hvalid : p.register.validRing := h.valid _ (by rw [hsnoc]; simp)
    conv_rhs => rw [hsnoc, changes_snoc, ← h.last]
    by_cases hnew : p.register = p.credits.lastHostCreditRegs
    · simp [hnew]
    · rw [if_pos ⟨Ne.symm hnew, hvalid⟩, if_neg hnew]
      rfl

theorem Sampling.hostCreditsUpdate (h : p.Sampling) : (p.step depth .hostCreditsUpdate).Sampling := by
  cases hfull : p.full depth with
  | true =>
    have hstep : p.step depth .hostCreditsUpdate = { p with called := true } := by
      simp [step, hfull, Credits.hostCreditsUpdate]
    rw [hstep]
    exact ⟨h.valid, h.unseen, h.register, h.last, h.sent, h.bound, h.zeroed⟩
  | false =>
    have hseen' : (p.step depth .hostCreditsUpdate).seen = true := by simp [step, hfull]
    have htaken' : (p.step depth .hostCreditsUpdate).taken = p.writes := by
      rw [taken, if_pos hseen']
      rfl
    have hcredits : (p.step depth .hostCreditsUpdate).credits =
        { p.credits with
          creditUpdates := p.credits.creditUpdates.put
            (if p.credits.lastHostCreditRegs ≠ p.register ∧ p.register.validRing then some p.register
              else none)
          lastHostCreditRegs := p.register } := by
      show p.credits.hostCreditsUpdate (p.full depth) p.register = _
      rw [hfull, Credits.hostCreditsUpdate_room]
    constructor
    · exact h.valid
    · intro hseen
      rw [hseen'] at hseen
      cases hseen
    · exact h.register
    · rw [htaken', hcredits]
      exact h.register
    · rw [htaken', hcredits]
      exact h.sent_put
    · rw [hcredits]
      exact h.bound
    · rw [hcredits]
      exact h.zeroed

theorem Sampling.update (h : p.Sampling) : (p.step depth .update).Sampling := by
  cases hhead : p.credits.creditUpdates.head with
  | none =>
    have hstep : p.step depth .update = p := by simp [step, Credits.update, hhead]
    rw [hstep]
    exact h
  | some regs =>
    obtain ⟨q, hq⟩ := p.credits.creditUpdates.queue_eq_of_head hhead
    obtain ⟨hqueue, hlast⟩ := Credits.creditUpdates_update hhead
    have hpast : (p.step depth .update).credits.creditUpdates.past =
        p.credits.creditUpdates.past ++ [regs] := by
      show p.credits.update.2.creditUpdates.past = _
      rw [hqueue, Fifo.past_pop _ hq]
    refine ⟨h.valid, h.unseen, h.register, hlast.trans h.last, ?_, ?_, ?_⟩
    · show p.credits.update.2.creditUpdates.sent = _
      rw [hqueue, Fifo.sent_pop]
      exact h.sent
    · intro ring w hw
      rw [hpast, lastFor_snoc] at hw
      show (p.credits.update.2.context ring).maxMsn = _
      rw [Credits.context_update hhead]
      split at hw
      · rename_i hring
        cases hw
        rw [if_pos hring.symm]
        rfl
      · rename_i hring
        rw [if_neg (Ne.symm hring)]
        exact h.bound ring w hw
    · rw [hpast, List.filter_append, ← h.zeroed]
      simp [CreditPort.step, hhead]

theorem Sampling.newMessage (h : p.Sampling) (ring : RingId) (dir : Dir) :
    (p.step depth (.newMessage ring dir)).Sampling := by
  obtain ⟨hqueue, hlast⟩ := p.credits.creditUpdates_newMessage ring dir
  refine ⟨h.valid, h.unseen, h.register, hlast.trans h.last, ?_, ?_, ?_⟩
  · show (p.credits.newMessage ring dir).creditUpdates.sent = _
    rw [hqueue]
    exact h.sent
  · intro r w hw
    have hpast : (p.step depth (.newMessage ring dir)).credits.creditUpdates.past =
        p.credits.creditUpdates.past := congrArg Fifo.past hqueue
    rw [hpast] at hw
    show ((p.credits.newMessage ring dir).context r).maxMsn = _
    rw [Credits.context_newMessage, ← h.bound r w hw]
    split <;> rfl
  · show p.zeroed = (p.credits.newMessage ring dir).creditUpdates.past.filter _
    rw [hqueue]
    exact h.zeroed

theorem Sampling.step (h : p.Sampling) {a : CreditAction} (ha : p.Seen a) : (p.step depth a).Sampling := by
  cases a with
  | write regs => exact h.write ha
  | hostCreditsUpdate => exact h.hostCreditsUpdate
  | update => exact h.update
  | newMessage ring dir => exact h.newMessage ring dir

/-- After a run in which every write was seen by a call with room, and with the queue drained: the bound
of every ring is that of the last write for it, and `msn` was set to 0 once for every reset that was
not a repetition of the value before it. -/
def Arrived (p : CreditPort) : Prop :=
  (∀ ring w, lastFor p.writes ring = some w → (p.credits.context ring).maxMsn = w.maxMsn) ∧
    p.zeroed = (changes .init p.writes).filter (·.reset)

/-- Every write has its own arrival: its bound, and its reset. -/
def EachArrived (p : CreditPort) : Prop :=
  (∀ ring w, lastFor p.writes ring = some w → (p.credits.context ring).maxMsn = w.maxMsn) ∧
    p.zeroed = p.writes.filter (·.reset)

/-- The third write is visible during one call only, which finds the queue full. -/
def overwritten : List CreditAction :=
  [.write ⟨1, 5, false⟩, .hostCreditsUpdate, .write ⟨2, 5, false⟩, .hostCreditsUpdate,
    .write ⟨1, 7, false⟩, .hostCreditsUpdate, .write ⟨3, 5, false⟩, .update, .update, .hostCreditsUpdate,
    .update]

end CreditPort

end Nica.Hls
