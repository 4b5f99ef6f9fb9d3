import Mathlib.Data.List.Nodup
import Mathlib.Logic.Function.Basic

/-!
# `ntl::scheduler`

The scheduler that several units share comes from the `ntl` submodule, which is not part of the sources.
`Scheduler` is its interface and `Scheduler.Lawful` what the units rely on.

A flow becomes active by `schedule` and stays so until `update_flow` says otherwise.  An active flow waits in the
queue until `next_flow` returns it; from then on it is with the unit that asked, until that unit hands it back by
`update_flow`.
-/

namespace Nica.Hls

/-- The interface, for flows of type `ι`.  `update` says whether it had a pending command to apply. -/
structure Scheduler (ι : Type) where
  State : Type
  start : State
  active : State → ι → Prop
  queued : State → ι → Prop
  update : State → Bool × State
  schedule : State → ι → State
  updateFlow : State → ι → Bool → BitVec 32 → State
  nextFlow : State → Option (ι × BitVec 32 × State)

namespace Scheduler

variable {ι : Type}

/-- The calls take effect in order: `schedule` is idempotent, `next_flow` returns an active flow that waits, and
a call for one flow does not touch another one. -/
structure Lawful (S : Scheduler ι) : Prop where
  not_active_start : ∀ p, ¬S.active S.start p
  active_of_queued : ∀ {σ p}, S.queued σ p → S.active σ p
  active_update : ∀ σ p, S.active (S.update σ).2 p ↔ S.active σ p
  queued_update : ∀ σ p, S.queued (S.update σ).2 p ↔ S.queued σ p
  schedule_of_active : ∀ {σ p}, S.active σ p → S.schedule σ p = σ
  queued_schedule : ∀ {σ p}, ¬S.active σ p → S.queued (S.schedule σ p) p
  active_schedule_other : ∀ {σ p q}, q ≠ p → (S.active (S.schedule σ p) q ↔ S.active σ q)
  queued_schedule_other : ∀ {σ p q}, q ≠ p → (S.queued (S.schedule σ p) q ↔ S.queued σ q)
  active_updateFlow : ∀ σ p b quota, S.active (S.updateFlow σ p b quota) p ↔ b = true
  queued_updateFlow : ∀ σ p b quota, S.queued (S.updateFlow σ p b quota) p ↔ b = true
  active_updateFlow_other : ∀ {σ p q} b quota, q ≠ p → (S.active (S.updateFlow σ p b quota) q ↔ S.active σ q)
  queued_updateFlow_other : ∀ {σ p q} b quota, q ≠ p → (S.queued (S.updateFlow σ p b quota) q ↔ S.queued σ q)
  queued_of_nextFlow : ∀ {σ p quota σ'}, S.nextFlow σ = some (p, quota, σ') → S.queued σ p
  not_queued_nextFlow : ∀ {σ p quota σ'}, S.nextFlow σ = some (p, quota, σ') → ¬S.queued σ' p
  queued_nextFlow_other : ∀ {σ p quota σ' q}, S.nextFlow σ = some (p, quota, σ') → q ≠ p →
    (S.queued σ' q ↔ S.queued σ q)
  active_nextFlow : ∀ {σ p quota σ'} q, S.nextFlow σ = some (p, quota, σ') → (S.active σ' q ↔ S.active σ q)

/-- What the calls say about the active flows alone.  Whether a flow stays active while it is with a unit is left
open. -/
structure TracksActivity (S : Scheduler ι) : Prop where
  active_update : ∀ σ p, S.active (S.update σ).2 p ↔ S.active σ p
  active_schedule : ∀ σ p, S.active (S.schedule σ p) p
  active_schedule_other : ∀ {σ p q}, q ≠ p → (S.active (S.schedule σ p) q ↔ S.active σ q)
  active_updateFlow : ∀ σ p b quota, S.active (S.updateFlow σ p b quota) p ↔ b = true
  active_updateFlow_other : ∀ {σ p q} b quota, q ≠ p → (S.active (S.updateFlow σ p b quota) q ↔ S.active σ q)
  active_of_nextFlow : ∀ {σ p quota σ'}, S.nextFlow σ = some (p, quota, σ') → S.active σ p
  active_nextFlow_other : ∀ {σ p quota σ' q}, S.nextFlow σ = some (p, quota, σ') → q ≠ p →
    (S.active σ' q ↔ S.active σ q)

namespace Lawful

variable {S : Scheduler ι} (hS : S.Lawful)
include hS

theorem active_schedule (σ : S.State) (p : ι) : S.active (S.schedule σ p) p := by
  by_cases h : S.active σ p
  · rw [hS.schedule_of_active h]
    exact h
  · exact hS.active_of_queued (hS.queued_schedule h)

theorem queued_schedule_iff (σ : S.State) (p : ι) :
    S.queued (S.schedule σ p) p ↔ S.queued σ p ∨ ¬S.active σ p := by
  by_cases h : S.active σ p
  · rw [hS.schedule_of_active h]
    exact ⟨.inl, fun hq => hq.resolve_right fun hn => hn h⟩
  · exact iff_of_true (hS.queued_schedule h) (.inr h)

theorem tracksActivity : S.TracksActivity where
  active_update := hS.active_update
  active_schedule := hS.active_schedule
  active_schedule_other := hS.active_schedule_other
  active_updateFlow := hS.active_updateFlow
  active_updateFlow_other := hS.active_updateFlow_other
  active_of_nextFlow h := hS.active_of_queued (hS.queued_of_nextFlow h)
  active_nextFlow_other h _ := hS.active_nextFlow _ h

end Lawful

/-! ### Flows that are with the units -/

/-- An active flow either waits in the queue or is one of `services`, those that `next_flow` returned and that were
not handed back. -/
structure Circulates (S : Scheduler ι) (services : List ι) (σ : S.State) : Prop where
  nodup : services.Nodup
  active_iff : ∀ p, S.active σ p ↔ S.queued σ p ∨ p ∈ services
  not_queued : ∀ p ∈ services, ¬S.queued σ p

namespace Circulates

variable {S : Scheduler ι} {services : List ι} {σ : S.State}

theorem active (h : S.Circulates services σ) {p : ι} (hp : p ∈ services) : S.active σ p :=
  (h.active_iff p).mpr (.inr hp)

theorem start (hS : S.Lawful) : S.Circulates [] S.start where
  nodup := List.nodup_nil
  active_iff p := by
    constructor
    · intro h
      exact absurd h (hS.not_active_start p)
    · rintro (h | h)
      · exact hS.active_of_queued h
      · cases h
  not_queued p h := absurd h List.not_mem_nil

theorem update (hS : S.Lawful) (h : S.Circulates services σ) : S.Circulates services (S.update σ).2 where
  nodup := h.nodup
  active_iff p := by
    rw [hS.active_update, hS.queued_update]
    exact h.active_iff p
  not_queued p hp := by
    rw [hS.queued_update]
    exact h.not_queued p hp

theorem schedule (hS : S.Lawful) (h : S.Circulates services σ) (p : ι) :
    S.Circulates services (S.schedule σ p) := by
  by_cases hact : S.active σ p
  · rw [hS.schedule_of_active hact]
    exact h
  · -- a flow that is not active is with none of the units
    have hp : p ∉ services := fun hp => hact (h.active hp)
    refine ⟨h.nodup, ?_, ?_⟩
    · intro q
      by_cases hq : q = p
      · rw [hq]
        exact iff_of_true (hS.active_schedule σ p) (.inl (hS.queued_schedule hact))
      · rw [hS.active_schedule_other hq, hS.queued_schedule_other hq]
        exact h.active_iff q
    · intro q hq
      have hne : q ≠ p := by
        rintro rfl
        exact hp hq
      rw [hS.queued_schedule_other hne]
      exact h.not_queued q hq

/-- `next_flow` hands out a flow. -/
theorem nextFlow (hS : S.Lawful) (h : S.Circulates services σ) {p : ι} {quota : BitVec 32} {σ' : S.State}
    (hnext : S.nextFlow σ = some (p, quota, σ')) : S.Circulates (services ++ [p]) σ' := by
  have hqueued := hS.queued_of_nextFlow hnext
  have hp : p ∉ services := fun hp => h.not_queued p hp hqueued
  refine ⟨?_, ?_, ?_⟩
  · apply List.nodup_append.mpr
    refine ⟨h.nodup, List.nodup_singleton p, ?_⟩
    intro a ha b hb
    rw [List.mem_singleton.mp hb]
    rintro rfl
    exact hp ha
  · intro q
    rw [hS.active_nextFlow q hnext, List.mem_append, List.mem_singleton]
    by_cases hq : q = p
    · rw [hq]
      exact iff_of_true (hS.active_of_queued hqueued) (.inr (.inr rfl))
    · rw [hS.queued_nextFlow_other hnext hq, h.active_iff q, or_iff_left hq]
  · intro q hmem
    rcases List.mem_append.mp hmem with hq | hq
    · have hne : q ≠ p := by
        rintro rfl
        exact hp hq
      rw [hS.queued_nextFlow_other hnext hne]
      exact h.not_queued q hq
    · rw [List.mem_singleton.mp hq]
      exact hS.not_queued_nextFlow hnext

/-- `update_flow` takes a flow back. -/
theorem updateFlow (hS : S.Lawful) {p : ι} (h : S.Circulates (p :: services) σ) (b : Bool) (quota : BitVec 32) :
    S.Circulates services (S.updateFlow σ p b quota) := by
  obtain ⟨hp, hnodup⟩ := List.nodup_cons.mp h.nodup
  refine ⟨hnodup, ?_, ?_⟩
  · intro q
    by_cases hq : q = p
    · rw [hq, hS.active_updateFlow, hS.queued_updateFlow]
      exact (or_iff_left hp).symm
    · rw [hS.active_updateFlow_other b quota hq, hS.queued_updateFlow_other b quota hq, h.active_iff q,
        List.mem_cons, or_iff_right hq]
  · intro q hq
    have hne : q ≠ p := by
      rintro rfl
      exact hp hq
    rw [hS.queued_updateFlow_other b quota hne]
    exact h.not_queued q (List.mem_cons_of_mem p hq)

end Circulates

/-! ### A scheduler that serves the flows in turn -/

variable [DecidableEq ι]

/-- The flows that wait, in the order in which they will be returned, and those that are active. -/
structure Turns (ι : Type) where
  queue : List ι
  active : ι → Bool
  nodup : queue.Nodup
  sub : ∀ p ∈ queue, active p = true

namespace Turns

/-- A flow joins the queue, unless it waits already. -/
def join (σ : Turns ι) (p : ι) : Turns ι :=
  if h : p ∈ σ.queue then σ
  else
    { queue := σ.queue ++ [p]
      active := Function.update σ.active p true
      nodup := List.nodup_append.mpr ⟨σ.nodup, List.nodup_singleton p, by
        intro a ha b hb
        rw [List.mem_singleton.mp hb]
        rintro rfl
        exact h ha⟩
      sub := by
        intro q hq
        by_cases hqp : q = p
        · rw [hqp, Function.update_self]
        · rw [Function.update_of_ne hqp]
          exact σ.sub q ((List.mem_append.mp hq).resolve_right fun h => hqp (List.mem_singleton.mp h)) }

/-- A flow leaves the queue and is not active any more. -/
def leave (σ : Turns ι) (p : ι) : Turns ι where
  queue := σ.queue.filter (· ≠ p)
  active := Function.update σ.active p false
  nodup := σ.nodup.filter _
  sub := by
    intro q hq
    obtain ⟨hmem, hne⟩ := List.mem_filter.mp hq
    rw [Function.update_of_ne (of_decide_eq_true hne)]
    exact σ.sub q hmem

/-- The first flow of the queue is handed out. -/
def take (σ : Turns ι) : Option (ι × Turns ι) :=
  match h : σ.queue with
  | [] => none
  | p :: rest =>
    some (p,
      { queue := rest
        active := σ.active
        nodup := (List.nodup_cons.mp (h ▸ σ.nodup)).2
        sub := fun q hq => σ.sub q (h ▸ List.mem_cons_of_mem p hq) })

omit [DecidableEq ι] in
theorem queue_of_take {σ σ' : Turns ι} {p : ι} (h : σ.take = some (p, σ')) :
    σ.queue = p :: σ'.queue ∧ σ'.active = σ.active := by
  unfold take at h
  split at h
  · cases h
  · rename_i q rest hq
    cases h
    exact ⟨hq, rfl⟩

theorem mem_join (σ : Turns ι) (p q : ι) : q ∈ (σ.join p).queue ↔ q ∈ σ.queue ∨ q = p := by
  unfold join
  split
  · rename_i hp
    constructor
    · exact .inl
    · rintro (h | rfl)
      · exact h
      · exact hp
  · exact List.mem_append.trans (or_congr Iff.rfl List.mem_singleton)

theorem active_join (σ : Turns ι) (p q : ι) : (σ.join p).active q = true ↔ σ.active q = true ∨ q = p := by
  unfold join
  split
  · rename_i hp
    constructor
    · exact .inl
    · rintro (h | rfl)
      · exact h
      · exact σ.sub q hp
  · by_cases hqp : q = p
    · subst hqp
      simp
    · simp [hqp]

/-- A flow that is not active becomes so and joins the queue. -/
def wake (σ : Turns ι) (p : ι) : Turns ι := if σ.active p then σ else σ.join p

theorem wake_of_active {σ : Turns ι} {p : ι} (h : σ.active p = true) : σ.wake p = σ := if_pos h

theorem wake_of_not_active {σ : Turns ι} {p : ι} (h : ¬σ.active p = true) : σ.wake p = σ.join p := if_neg h

theorem mem_wake_other (σ : Turns ι) {p q : ι} (h : q ≠ p) : q ∈ (σ.wake p).queue ↔ q ∈ σ.queue := by
  unfold wake
  split
  · exact Iff.rfl
  · exact (σ.mem_join p q).trans (or_iff_left h)

theorem active_wake_other (σ : Turns ι) {p q : ι} (h : q ≠ p) :
    (σ.wake p).active q = true ↔ σ.active q = true := by
  unfold wake
  split
  · exact Iff.rfl
  · exact (σ.active_join p q).trans (or_iff_left h)

end Turns

/-- Every flow gets the same quantum, in turn. -/
def inTurn (ι : Type) [DecidableEq ι] (quantum : BitVec 32) : Scheduler ι where
  State := Turns ι
  start := ⟨[], fun _ => false, List.nodup_nil, by simp⟩
  active σ p := σ.active p = true
  queued σ p := p ∈ σ.queue
  update σ := (false, σ)
  schedule σ p := σ.wake p
  updateFlow σ p b _ := if b then σ.join p else σ.leave p
  nextFlow σ := σ.take.map fun r => (r.1, quantum, r.2)

theorem lawful_inTurn (ι : Type) [DecidableEq ι] (quantum : BitVec 32) : (inTurn ι quantum).Lawful where
  not_active_start _ h := by cases h
  active_of_queued h := Turns.sub _ _ h
  active_update _ _ := Iff.rfl
  queued_update _ _ := Iff.rfl
  schedule_of_active h := Turns.wake_of_active h
  queued_schedule {σ p} h := by
    show p ∈ (Turns.wake σ p).queue
    rw [Turns.wake_of_not_active h]
    exact (Turns.mem_join σ p p).mpr (.inr rfl)
  active_schedule_other h := Turns.active_wake_other _ h
  queued_schedule_other h := Turns.mem_wake_other _ h
  active_updateFlow σ p b quota := by
    cases b with
    | true => exact iff_of_true ((σ.active_join p p).mpr (.inr rfl)) rfl
    | false => exact iff_of_false (by simp [inTurn, Turns.leave]) (by decide)
  queued_updateFlow σ p b quota := by
    cases b with
    | true => exact iff_of_true ((σ.mem_join p p).mpr (.inr rfl)) rfl
    | false => exact iff_of_false (by simp [inTurn, Turns.leave]) (by decide)
  active_updateFlow_other {σ p q} b quota h := by
    cases b with
    | true => exact (σ.active_join p q).trans (or_iff_left h)
    | false =>
      show Function.update σ.active p false q = true ↔ _
      rw [Function.update_of_ne h]
      exact Iff.rfl
  queued_updateFlow_other {σ p q} b quota h := by
    cases b with
    | true => exact (σ.mem_join p q).trans (or_iff_left h)
    | false => exact List.mem_filter.trans (and_iff_left (decide_eq_true h))
  queued_of_nextFlow {σ p quota σ'} h := by
    obtain ⟨r, hr, h'⟩ := Option.map_eq_some_iff.mp h
    cases h'
    show r.1 ∈ Turns.queue σ
    rw [(Turns.queue_of_take hr).1]
    exact List.mem_cons_self ..
  not_queued_nextFlow {σ p quota σ'} h := by
    obtain ⟨r, hr, h'⟩ := Option.map_eq_some_iff.mp h
    cases h'
    have hnodup := Turns.nodup σ
    rw [(Turns.queue_of_take hr).1] at hnodup
    exact (List.nodup_cons.mp hnodup).1
  queued_nextFlow_other {σ p quota σ' q} h hq := by
    obtain ⟨r, hr, h'⟩ := Option.map_eq_some_iff.mp h
    cases h'
    show q ∈ r.2.queue ↔ q ∈ Turns.queue σ
    rw [(Turns.queue_of_take hr).1, List.mem_cons]
    exact (or_iff_right hq).symm
  active_nextFlow {σ p quota σ'} q h := by
    obtain ⟨r, hr, h'⟩ := Option.map_eq_some_iff.mp h
    cases h'
    show r.2.active q = true ↔ _
    rw [(Turns.queue_of_take hr).2]
    exact Iff.rfl

end Scheduler

end Nica.Hls
