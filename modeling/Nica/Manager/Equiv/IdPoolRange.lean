import Nica.Lib.Run
import Nica.Manager.Equiv.IdPool

/-!
# Which ids the pool hands out

A call of `get_id` that finds no free id makes new ones until one meets the condition, and frees those it skips.  The
bound is tested only on the id it ends with: if the loop has gone past `max_id`, ids out of range are free from then
on, and the next call may hand them out (`not_sound_skipped`).  A bound of 0 is not tested at all.  As long as no call
makes the loop go past the bound, and only then, the pool keeps to its range and answers as it should (`sound_iff`).
-/

namespace Nica.Manager.IDPool

open Nica.Lib

/-! ### Calls -/

/-- A call of a method.  `fuel` is a bound on the new ids that `get_id` skips, and `iterate` stands for the set of free
ids being iterated in another order. -/
inductive Call
  | getId (condition : ℤ → Bool) (fuel : ℕ)
  | releaseId (id : ℤ)
  | iterate (order : List ℤ)

def step (p : IDPool) : Call → IDPool
  | .getId condition fuel => (getId fuel condition p).2
  | .releaseId id => p.releaseId id
  | .iterate order => if order.Perm p.idsFree then { p with idsFree := order } else p

/-- Some free id meets the condition. -/
def FreeFits (p : IDPool) (condition : ℤ → Bool) : Prop := ∃ id ∈ p.idsFree, condition id = true

/-- The call returns, or raises: the loop of `get_id` comes to an end. -/
def Ends (p : IDPool) : Call → Prop
  | .getId condition fuel => FreeFits p condition ∨ ∃ k ≤ fuel, condition (p.lastId + 1 + k) = true
  | _ => True

instance (p : IDPool) (condition : ℤ → Bool) : Decidable (FreeFits p condition) :=
  inferInstanceAs (Decidable (∃ id ∈ p.idsFree, condition id = true))

instance (p : IDPool) : ∀ c : Call, Decidable (Ends p c)
  | .getId condition fuel =>
    inferInstanceAs (Decidable (FreeFits p condition ∨ ∃ k ≤ fuel, condition (p.lastId + 1 + k) = true))
  | .releaseId _ => isTrue trivial
  | .iterate _ => isTrue trivial

/-! ### What the pool promises -/

/-- `id` is below the bound, if there is one. -/
def Below (maxId : Option ℤ) (id : ℤ) : Prop := ∀ m, maxId = some m → id < m

/-- The ids in use and the free ids are apart, greater than `min_id` and below `max_id`. -/
structure InRange (minId : ℤ) (maxId : Option ℤ) (p : IDPool) : Prop where
  apart : ∀ id ∈ p.idsInUse, id ∉ p.idsFree
  used : ∀ id ∈ p.idsInUse, minId < id ∧ Below maxId id
  free : ∀ id ∈ p.idsFree, minId < id ∧ Below maxId id

/-- What `get_id` returns and raises. -/
def Answers (minId : ℤ) (maxId : Option ℤ) (p : IDPool) : Call → Prop
  | .getId condition fuel =>
    match (getId fuel condition p).1 with
    | some id => minId < id ∧ Below maxId id ∧ condition id = true ∧ id ∉ p.idsInUse
    | none =>
      (getId fuel condition p).2.idsInUse = p.idsInUse ∧
        ∀ id, minId < id → Below maxId id → condition id = true → id ∈ p.idsInUse
  | _ => True

/-- Every answer is as it should be, and the pool is in range behind every call. -/
def Sound (minId : ℤ) (maxId : Option ℤ) (calls : List Call) : Prop :=
  Along step (Answers minId maxId) (init minId maxId) calls ∧
    ∀ n, InRange minId maxId (run step (init minId maxId) (calls.take n))

/-- The call does not make the loop go past the bound: the new ids up to the first that meets the condition are below
the bound, but for that id itself, which is tested unless the bound is 0. -/
def WithinBound (p : IDPool) : Call → Prop
  | .getId condition _ =>
    FreeFits p condition ∨
      ∀ id, p.lastId < id → (∀ i, p.lastId < i → i < id → condition i = false) → (condition id = false ∨ p.maxId = some 0) →
        Below p.maxId id
  | _ => True

/-! ### The loop -/

variable {p : IDPool} {condition : ℤ → Bool} {fuel : ℕ}

/-- What the loop does, if it comes to an end. -/
structure Made (condition : ℤ → Bool) (p : IDPool) (id : ℤ) (p' : IDPool) : Prop where
  gt : p.lastId < id
  fits : condition id = true
  skipped : ∀ i, p.lastId < i → i < id → condition i = false
  maxId : p'.maxId = p.maxId
  inUse : p'.idsInUse = p.idsInUse
  free : ∀ i, i ∈ p'.idsFree ↔ i ∈ p.idsFree ∨ p.lastId < i ∧ i < id
  lastId : p'.lastId = id

/-- The next id fits at once. -/
theorem made_next (hc : condition (p.lastId + 1) = true) :
    Made condition p (p.lastId + 1) { p with lastId := p.lastId + 1 } := by
  refine ⟨Int.lt_succ _, hc, fun i h₁ h₂ => by omega, rfl, rfl, fun i => ⟨.inl, ?_⟩, rfl⟩
  rintro (hfree | ⟨h₁, h₂⟩)
  · exact hfree
  · omega

theorem newId_made (h : ∃ k ≤ fuel, condition (p.lastId + 1 + k) = true) :
    Made condition p (newId condition fuel p).1 (newId condition fuel p).2 := by
  induction fuel generalizing p with
  | zero =>
    obtain ⟨k, hk, hc⟩ := h
    obtain rfl : k = 0 := by omega
    exact made_next (by simpa using hc)
  | succ fuel ih =>
    unfold newId
    by_cases hc : condition (p.lastId + 1)
    · rw [if_pos hc]
      exact made_next hc
    rw [if_neg hc]
    have hlater : ∃ k ≤ fuel, condition (p.lastId + 1 + 1 + k) = true := by
      obtain ⟨k, hk, hfit⟩ := h
      cases k with
      | zero => exact absurd (by simpa using hfit) hc
      | succ k =>
        refine ⟨k, by omega, ?_⟩
        rw [← hfit]
        congr 1
        push_cast
        omega
    have hm := ih (p := { p with lastId := p.lastId + 1, idsFree := p.idsFree.insert (p.lastId + 1) }) hlater
    have hgt := hm.gt
    simp only at hgt
    refine ⟨by omega, hm.fits, ?_, hm.maxId, hm.inUse, ?_, hm.lastId⟩
    · intro i h₁ h₂
      rcases Int.lt_or_eq_of_le (Int.add_one_le_of_lt h₁) with h | h
      · exact hm.skipped i h h₂
      · rw [← h]
        simpa using hc
    · intro i
      rw [hm.free, List.mem_insert_iff]
      simp only
      constructor
      · rintro ((rfl | h) | ⟨h₁, h₂⟩)
        · exact Or.inr ⟨Int.lt_succ _, hgt⟩
        · exact Or.inl h
        · exact Or.inr ⟨by omega, h₂⟩
      · rintro (h | ⟨h₁, h₂⟩)
        · exact Or.inl (Or.inr h)
        · rcases Int.lt_or_eq_of_le (Int.add_one_le_of_lt h₁) with h | h
          · exact Or.inr ⟨h, h₂⟩
          · exact Or.inl (Or.inl h.symm)

/-! ### One call -/

/-- The pool between two calls: it is in range, and every id in range that was made is in use or free. -/
structure Kept (minId : ℤ) (maxId : Option ℤ) (p : IDPool) : Prop extends InRange minId maxId p where
  bound : p.maxId = maxId
  last : minId ≤ p.lastId
  used_le : ∀ id ∈ p.idsInUse, id ≤ p.lastId
  free_le : ∀ id ∈ p.idsFree, id ≤ p.lastId
  made : ∀ id, minId < id → id ≤ p.lastId → Below maxId id → id ∈ p.idsInUse ∨ id ∈ p.idsFree

section Step

variable {minId : ℤ} {maxId : Option ℤ}

theorem kept_init (minId : ℤ) (maxId : Option ℤ) : Kept minId maxId (init minId maxId) where
  apart := by simp [init]
  used := by simp [init]
  free := by simp [init]
  bound := rfl
  last := Int.le_refl _
  used_le := by simp [init]
  free_le := by simp [init]
  made id h₁ h₂ _ := absurd h₂ (by simpa [init] using h₁)

theorem filter_eq_nil (h : ¬FreeFits p condition) : p.idsFree.filter condition = [] := by
  rw [List.filter_eq_nil_iff]
  intro id hid hc
  exact h ⟨id, hid, hc⟩

theorem exists_filter (h : FreeFits p condition) :
    ∃ id rest, p.idsFree.filter condition = id :: rest ∧ id ∈ p.idsFree ∧ condition id = true := by
  obtain ⟨i, hi, hc⟩ := h
  cases hf : p.idsFree.filter condition with
  | nil =>
    have := List.mem_filter.mpr ⟨hi, hc⟩
    rw [hf] at this
    cases this
  | cons id rest =>
    have hid := List.mem_filter.mp (hf ▸ List.mem_cons_self : id ∈ p.idsFree.filter condition)
    exact ⟨id, rest, rfl, hid.1, hid.2⟩

/-- A free id that fits is taken. -/
theorem Kept.getId_free (h : Kept minId maxId p) (hfit : FreeFits p condition) :
    Kept minId maxId (step p (.getId condition fuel)) ∧ Answers minId maxId p (.getId condition fuel) := by
  obtain ⟨id, rest, hf, hid, hc⟩ := exists_filter hfit
  have hget : getId fuel condition p =
      (some id, { p with idsFree := remove p.idsFree id, idsInUse := p.idsInUse.insert id }) := by
    rw [getId, hf]
  refine ⟨?_, ?_⟩
  · rw [step, hget]
    refine ⟨⟨?_, ?_, ?_⟩, h.bound, h.last, ?_, ?_, ?_⟩
    · intro i hi hfree
      obtain ⟨hfree, hne⟩ := mem_remove.mp hfree
      rcases List.mem_insert_iff.mp hi with rfl | hi
      · exact hne rfl
      · exact h.apart i hi hfree
    · intro i hi
      rcases List.mem_insert_iff.mp hi with rfl | hi
      · exact h.free i hid
      · exact h.used i hi
    · exact fun i hi => h.free i (mem_remove.mp hi).1
    · intro i hi
      rcases List.mem_insert_iff.mp hi with rfl | hi
      · exact h.free_le i hid
      · exact h.used_le i hi
    · exact fun i hi => h.free_le i (mem_remove.mp hi).1
    · intro i h₁ h₂ h₃
      by_cases hi : i = id
      · exact Or.inl (List.mem_insert_iff.mpr (Or.inl hi))
      · rcases h.made i h₁ h₂ h₃ with hu | hfr
        · exact Or.inl (List.mem_insert_iff.mpr (Or.inr hu))
        · exact Or.inr (mem_remove.mpr ⟨hfr, hi⟩)
  · rw [Answers, hget]
    exact ⟨(h.free id hid).1, (h.free id hid).2, hc, fun hu => h.apart id hu hid⟩

/-- Whether the id that the loop ends with is refused. -/
theorem exhausted_iff {p' : IDPool} {id : ℤ} (hbound : p'.maxId = maxId) :
    p'.exhausted id = true ↔ maxId ≠ some 0 ∧ ¬Below maxId id := by
  rw [exhausted, hbound]
  cases maxId with
  | none => simp [Below]
  | some m => simp [Below]

section Loop

variable {id : ℤ} {p' : IDPool} (h : Kept minId maxId p) (hm : Made condition p id p')

include h hm

theorem Made.not_mem : id ∉ p.idsInUse ∧ id ∉ p'.idsFree := by
  have hgt := hm.gt
  constructor
  · intro hu
    have := h.used_le id hu
    omega
  · intro hfr
    rcases (hm.free id).mp hfr with hfr | ⟨-, hlt⟩
    · have := h.free_le id hfr
      omega
    · omega

theorem Made.le_of_mem {i : ℤ} (hi : i ∈ p.idsInUse ∨ i ∈ p'.idsFree) : i ≤ id := by
  have hgt := hm.gt
  rcases hi with hi | hi
  · have := h.used_le i hi
    omega
  · rcases (hm.free i).mp hi with hi | ⟨-, hlt⟩
    · have := h.free_le i hi
      omega
    · omega

/-- The ids that the loop made are free now, but for the one it ends with. -/
theorem Made.mem {i : ℤ} (h₁ : minId < i) (h₂ : i ≤ id) (hne : i ≠ id) (h₃ : Below maxId i) :
    i ∈ p.idsInUse ∨ i ∈ p'.idsFree := by
  by_cases hi : i ≤ p.lastId
  · rcases h.made i h₁ hi h₃ with hu | hfr
    · exact Or.inl hu
    · exact Or.inr ((hm.free i).mpr (Or.inl hfr))
  · exact Or.inr ((hm.free i).mpr (Or.inr ⟨by omega, by omega⟩))

/-- A pool that the loop leaves in range, before it does anything with the id it ends with. -/
theorem Made.inRange (hskip : ∀ i, p.lastId < i → i < id → Below maxId i) : InRange minId maxId p' where
  apart i hi hfr := by
    rw [hm.inUse] at hi
    rcases (hm.free i).mp hfr with hfr | ⟨hgt, -⟩
    · exact h.apart i hi hfr
    · have := h.used_le i hi
      omega
  used := by
    rw [hm.inUse]
    exact h.used
  free i hi := by
    rcases (hm.free i).mp hi with hi | ⟨hgt, hlt⟩
    · exact h.free i hi
    · have := h.last
      exact ⟨by omega, hskip i hgt hlt⟩

/-- The id that the loop ends with is out of range, and the call raises. -/
theorem Made.refused (hskip : ∀ i, p.lastId < i → i < id → Below maxId i) (hnot : ¬Below maxId id) :
    Kept minId maxId p' where
  toInRange := hm.inRange h hskip
  bound := hm.maxId.trans h.bound
  last := by
    have := hm.gt
    have := h.last
    rw [hm.lastId]
    omega
  used_le i hi := by
    rw [hm.lastId]
    exact hm.le_of_mem h (Or.inl (hm.inUse ▸ hi))
  free_le i hi := by
    rw [hm.lastId]
    exact hm.le_of_mem h (Or.inr hi)
  made i h₁ h₂ h₃ := by
    rw [hm.inUse]
    rw [hm.lastId] at h₂
    exact hm.mem h h₁ h₂ (fun heq => hnot (heq ▸ h₃)) h₃

/-- The id that the loop ends with is handed out. -/
theorem Made.taken (hskip : ∀ i, p.lastId < i → i < id → Below maxId i) (hbelow : Below maxId id) :
    Kept minId maxId { p' with idsInUse := p'.idsInUse.insert id } := by
  have hr := hm.inRange h hskip
  have hgt := hm.gt
  have hlast := h.last
  refine ⟨⟨?_, ?_, hr.free⟩, hm.maxId.trans h.bound, by rw [hm.lastId]; omega, ?_, ?_, ?_⟩
  · intro i hi
    rcases List.mem_insert_iff.mp hi with rfl | hi
    · exact (hm.not_mem h).2
    · exact hr.apart i hi
  · intro i hi
    rcases List.mem_insert_iff.mp hi with rfl | hi
    · exact ⟨by omega, hbelow⟩
    · exact hr.used i hi
  · intro i hi
    rw [hm.lastId]
    rcases List.mem_insert_iff.mp hi with rfl | hi
    · exact Int.le_refl _
    · exact hm.le_of_mem h (Or.inl (hm.inUse ▸ hi))
  · intro i hi
    rw [hm.lastId]
    exact hm.le_of_mem h (Or.inr hi)
  · intro i h₁ h₂ h₃
    rw [hm.lastId] at h₂
    by_cases hi : i = id
    · exact Or.inl (List.mem_insert_iff.mpr (Or.inl hi))
    · rcases hm.mem h h₁ h₂ hi h₃ with hu | hfr
      · exact Or.inl (List.mem_insert_iff.mpr (Or.inr (hm.inUse.symm ▸ hu)))
      · exact Or.inr hfr

/-- If the call raises, every id in range that fits was made before, and is in use. -/
theorem Made.all_in_use (hfit : ¬FreeFits p condition) (hnot : ¬Below maxId id) {i : ℤ} (h₁ : minId < i)
    (h₃ : Below maxId i) (hc : condition i = true) : i ∈ p.idsInUse := by
  have hle : i ≤ p.lastId := by
    by_contra hlt
    have hid : id ≤ i := by
      by_contra hlt'
      have := hm.skipped i (by omega) (by omega)
      rw [hc] at this
      cases this
    exact hnot fun m hmax => Int.lt_of_le_of_lt hid (h₃ m hmax)
  rcases h.made i h₁ hle h₃ with hu | hfr
  · exact hu
  · exact absurd ⟨i, hfr, hc⟩ hfit

end Loop

/-- What `get_id` does when no free id fits. -/
theorem getId_of_made (hfit : ¬FreeFits p condition) (hends : Ends p (.getId condition fuel)) :
    ∃ id p', Made condition p id p' ∧ getId fuel condition p =
      if p'.exhausted id then (none, p') else (some id, { p' with idsInUse := p'.idsInUse.insert id }) := by
  refine ⟨(newId condition fuel p).1, (newId condition fuel p).2, newId_made (hends.resolve_left hfit), ?_⟩
  rw [getId, filter_eq_nil hfit]

/-- A loop that stays within the bound keeps the pool in range. -/
theorem Kept.getId_within (h : Kept minId maxId p) (hfit : ¬FreeFits p condition)
    (hends : Ends p (.getId condition fuel)) (hw : WithinBound p (.getId condition fuel)) :
    Kept minId maxId (step p (.getId condition fuel)) ∧ Answers minId maxId p (.getId condition fuel) := by
  obtain ⟨id, p', hm, hget⟩ := getId_of_made hfit hends
  have hw := hw.resolve_left hfit
  rw [h.bound] at hw
  have hgt := hm.gt
  have hlast := h.last
  have hskip : ∀ i, p.lastId < i → i < id → Below maxId i := fun i h₁ h₂ =>
    hw i h₁ (fun j h₃ h₄ => hm.skipped j h₃ (by omega)) (Or.inl (hm.skipped i h₁ h₂))
  by_cases hex : p'.exhausted id = true
  · have hnot := ((exhausted_iff (hm.maxId.trans h.bound)).mp hex).2
    rw [step, Answers, hget, if_pos hex]
    exact ⟨hm.refused h hskip hnot, hm.inUse, fun i h₁ h₃ hc => hm.all_in_use h hfit hnot h₁ h₃ hc⟩
  · have hbelow : Below maxId id := by
      by_contra hnot
      rw [exhausted_iff (hm.maxId.trans h.bound)] at hex
      have h0 : maxId = some 0 := by
        by_contra h0
        exact hex ⟨h0, hnot⟩
      exact hnot (hw id hgt hm.skipped (Or.inr h0))
    rw [step, Answers, hget, if_neg hex]
    exact ⟨hm.taken h hskip hbelow, by omega, hbelow, hm.fits, (hm.not_mem h).1⟩

/-- A loop that goes past the bound leaves an id out of range behind. -/
theorem Kept.within_of_inRange (h : Kept minId maxId p) (hfit : ¬FreeFits p condition)
    (hends : Ends p (.getId condition fuel)) (hr : InRange minId maxId (step p (.getId condition fuel))) :
    WithinBound p (.getId condition fuel) := by
  obtain ⟨id, p', hm, hget⟩ := getId_of_made hfit hends
  refine Or.inr fun i hgt hi hcond => ?_
  rw [h.bound] at hcond ⊢
  have hle : i ≤ id := by
    by_contra hlt
    have := hi id hm.gt (by omega)
    rw [hm.fits] at this
    cases this
  rw [step, hget] at hr
  rcases Int.lt_or_eq_of_le hle with hlt | rfl
  · -- it was skipped, and is free now
    have hfree := (hm.free i).mpr (Or.inr ⟨hgt, hlt⟩)
    split at hr
    · exact (hr.free i hfree).2
    · exact (hr.free i hfree).2
  · -- the last one is not tested against a bound of 0
    have h0 : maxId = some 0 := by
      rcases hcond with hc | h0
      · rw [hm.fits] at hc
        cases hc
      · exact h0
    have hno : ¬p'.exhausted i = true := by
      rw [exhausted_iff (hm.maxId.trans h.bound)]
      exact fun hex => hex.1 h0
    rw [if_neg hno] at hr
    exact (hr.used i (List.mem_insert_iff.mpr (Or.inl rfl))).2

theorem Kept.releaseId (h : Kept minId maxId p) (id : ℤ) : Kept minId maxId (p.releaseId id) := by
  rw [IDPool.releaseId]
  split
  · rename_i hid
    refine ⟨⟨?_, ?_, ?_⟩, h.bound, h.last, ?_, ?_, ?_⟩
    · intro i hi hfr
      obtain ⟨hi, hne⟩ := mem_remove.mp hi
      rcases List.mem_insert_iff.mp hfr with rfl | hfr
      · exact hne rfl
      · exact h.apart i hi hfr
    · exact fun i hi => h.used i (mem_remove.mp hi).1
    · intro i hi
      rcases List.mem_insert_iff.mp hi with rfl | hi
      · exact h.used i hid
      · exact h.free i hi
    · exact fun i hi => h.used_le i (mem_remove.mp hi).1
    · intro i hi
      rcases List.mem_insert_iff.mp hi with rfl | hi
      · exact h.used_le i hid
      · exact h.free_le i hi
    · intro i h₁ h₂ h₃
      by_cases hi : i = id
      · exact Or.inr (List.mem_insert_iff.mpr (Or.inl hi))
      · rcases h.made i h₁ h₂ h₃ with hu | hfr
        · exact Or.inl (mem_remove.mpr ⟨hu, hi⟩)
        · exact Or.inr (List.mem_insert_iff.mpr (Or.inr hfr))
  · exact h

theorem Kept.iterate (h : Kept minId maxId p) {order : List ℤ} (hperm : order.Perm p.idsFree) :
    Kept minId maxId { p with idsFree := order } where
  apart i hi hfr := h.apart i hi (hperm.mem_iff.mp hfr)
  used := h.used
  free i hi := h.free i (hperm.mem_iff.mp hi)
  bound := h.bound
  last := h.last
  used_le := h.used_le
  free_le i hi := h.free_le i (hperm.mem_iff.mp hi)
  made i h₁ h₂ h₃ := (h.made i h₁ h₂ h₃).imp_right hperm.mem_iff.mpr

/-- One call keeps the pool in range, and answers as it should, exactly if it stays within the bound. -/
theorem Kept.step (h : Kept minId maxId p) {c : Call} (hends : Ends p c) :
    (InRange minId maxId (IDPool.step p c) → WithinBound p c) ∧
      (WithinBound p c → Kept minId maxId (IDPool.step p c) ∧ Answers minId maxId p c) := by
  cases c with
  | getId condition fuel =>
    by_cases hfit : FreeFits p condition
    · exact ⟨fun _ => Or.inl hfit, fun _ => h.getId_free hfit⟩
    · exact ⟨h.within_of_inRange hfit hends, h.getId_within hfit hends⟩
  | releaseId id => exact ⟨fun _ => trivial, fun _ => ⟨h.releaseId id, trivial⟩⟩
  | iterate order =>
    refine ⟨fun _ => trivial, fun _ => ⟨?_, trivial⟩⟩
    rw [IDPool.step]
    split
    · rename_i hperm
      exact h.iterate hperm
    · exact h

end Step

/-! ### Runs -/

/-- **The range of the pool**: whatever its users ask for and give back, the ids handed out and kept are in range, and
`get_id` raises only for want of one, exactly as long as no call makes the loop go past the bound. -/
theorem sound_iff (minId : ℤ) (maxId : Option ℤ) (calls : List Call) (hends : Along step Ends (init minId maxId) calls) :
    Sound minId maxId calls ↔ Along step WithinBound (init minId maxId) calls := by
  have hinit := kept_init minId maxId
  rw [Sound]
  generalize init minId maxId = p at hends hinit ⊢
  induction calls generalizing p with
  | nil => exact iff_of_true ⟨trivial, fun n => by rw [List.take_nil]; exact hinit.toInRange⟩ trivial
  | cons c calls ih =>
    obtain ⟨hc, hends⟩ := hends
    have hstep := hinit.step hc
    constructor
    · rintro ⟨⟨-, hanswers⟩, hrange⟩
      have hw := hstep.1 (hrange 1)
      exact ⟨hw, (ih _ hends (hstep.2 hw).1).mp ⟨hanswers, fun n => hrange (n + 1)⟩⟩
    · rintro ⟨hw, hal⟩
      obtain ⟨hkept, hanswer⟩ := hstep.2 hw
      obtain ⟨hanswers, hrange⟩ := (ih _ hends hkept).mpr hal
      refine ⟨⟨hanswer, hanswers⟩, fun n => ?_⟩
      cases n with
      | zero => exact hinit.toInRange
      | succ n => exact hrange n

/-- Two ids of a pool of four, one of them back again. -/
def someCalls : List Call :=
  [.getId (fun _ => true) 0, .getId (fun id => id % 2 == 0) 1, .releaseId 0, .getId (fun _ => true) 0]

theorem sound_iff_someCalls :
    Sound (-1) (some 4) someCalls ↔ Along step WithinBound (init (-1) (some 4)) someCalls :=
  sound_iff (-1) (some 4) someCalls (by decide)

/-- A pool of two ids, both in use; then an odd one is asked for, and any. -/
def skipped : List Call :=
  [.getId (fun _ => true) 0, .getId (fun _ => true) 0, .getId (fun id => id % 2 == 1) 1, .getId (fun _ => true) 0]

/-- The call that raises leaves id 2 free, and the next one returns it. -/
theorem not_sound_skipped :
    Along step Ends (init (-1) (some 2)) skipped ∧
      (getId 0 (fun _ => true) (run step (init (-1) (some 2)) (skipped.take 3))).1 = some 2 ∧
      ¬Sound (-1) (some 2) skipped := by
  refine ⟨by decide, by decide, fun h => ?_⟩
  exact absurd ((h.2 4).used 2 (by decide)).2 (by simp [Below])

end Nica.Manager.IDPool
