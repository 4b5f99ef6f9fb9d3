import Nica.Manager.IdPool

/-!
# The ID pool hands out ids that are not in use

`WellFormed`: an id is in use or free, not both, and none lies beyond `last_id`.  Every operation keeps
this, and `getId_cases` says what `get_id` does to the ids in use.
-/

namespace Nica.Manager.IDPool

variable {p : IDPool} {condition : ℤ → Bool} {fuel : ℕ}

/-- The ids in use and the free ids are apart, and all of them were made. -/
structure WellFormed (p : IDPool) : Prop where
  apart : ∀ id ∈ p.idsInUse, id ∉ p.idsFree
  used_le : ∀ id ∈ p.idsInUse, id ≤ p.lastId
  free_le : ∀ id ∈ p.idsFree, id ≤ p.lastId

theorem wellFormed_init (minId : ℤ) (maxId : Option ℤ) : (init minId maxId).WellFormed := by
  constructor <;> simp [init]

/-- A new id is neither in use nor free. -/
theorem WellFormed.advance (hp : p.WellFormed) :
    WellFormed { p with lastId := p.lastId + 1 } ∧ p.lastId + 1 ∉ p.idsFree := by
  refine ⟨⟨hp.apart, ?_, ?_⟩, ?_⟩
  · intro id hid
    exact Int.le_add_one (hp.used_le id hid)
  · intro id hid
    exact Int.le_add_one (hp.free_le id hid)
  · intro hid
    have := hp.free_le _ hid
    omega

/-- A new id that is skipped becomes free. -/
theorem WellFormed.skip (hp : p.WellFormed) :
    WellFormed { p with lastId := p.lastId + 1, idsFree := p.idsFree.insert (p.lastId + 1) } := by
  refine ⟨?_, hp.advance.1.used_le, ?_⟩
  · intro id hid hfree
    rcases List.mem_insert_iff.mp hfree with rfl | hfree
    · have := hp.used_le _ hid
      omega
    · exact hp.apart id hid hfree
  · intro id hid
    rcases List.mem_insert_iff.mp hid with rfl | hid
    · exact Int.le_refl _
    · exact hp.advance.1.free_le id hid

/-- The id that the loop ends with is the last one made, and it is not free. -/
theorem newId_spec (condition : ℤ → Bool) (fuel : ℕ) (hp : p.WellFormed) :
    (newId condition fuel p).2.WellFormed ∧ (newId condition fuel p).2.idsInUse = p.idsInUse ∧
      p.lastId < (newId condition fuel p).1 ∧
      (newId condition fuel p).2.lastId = (newId condition fuel p).1 ∧
      (newId condition fuel p).1 ∉ (newId condition fuel p).2.idsFree := by
  induction fuel generalizing p with
  | zero => exact ⟨hp.advance.1, rfl, Int.lt_succ _, rfl, hp.advance.2⟩
  | succ fuel ih =>
    unfold newId
    by_cases hc : condition (p.lastId + 1)
    · rw [if_pos hc]
      exact ⟨hp.advance.1, rfl, Int.lt_succ _, rfl, hp.advance.2⟩
    · rw [if_neg hc]
      obtain ⟨hwf, huse, hlt, hlast, hfree⟩ := ih hp.skip
      exact ⟨hwf, huse, Int.lt_trans (Int.lt_succ _) hlt, hlast, hfree⟩

/-- The loop of `get_id` goes no further than the first id that meets the condition. -/
theorem newId_le {condition : ℤ → Bool} {p : IDPool} {id : ℤ} (fuel : ℕ) (hlast : p.lastId < id)
    (hid : condition id) : (newId condition fuel p).1 ≤ id := by
  induction fuel generalizing p with
  | zero => exact Int.add_one_le_of_lt hlast
  | succ fuel ih =>
    unfold newId
    by_cases hc : condition (p.lastId + 1)
    · rw [if_pos hc]
      exact Int.add_one_le_of_lt hlast
    · rw [if_neg hc]
      apply ih
      have hne : p.lastId + 1 ≠ id := by
        rintro rfl
        exact hc hid
      show p.lastId + 1 < id
      omega

/-- The ids that the loop skips lie between the old and the new last id. -/
theorem newId_free (condition : ℤ → Bool) (fuel : ℕ) (p : IDPool) :
    p.lastId < (newId condition fuel p).1 ∧
      (newId condition fuel p).2.lastId = (newId condition fuel p).1 ∧
      (newId condition fuel p).2.idsInUse = p.idsInUse ∧
      ∀ i ∈ (newId condition fuel p).2.idsFree,
        i ∈ p.idsFree ∨ p.lastId < i ∧ i < (newId condition fuel p).1 := by
  induction fuel generalizing p with
  | zero => exact ⟨Int.lt_succ _, rfl, rfl, fun i hi => .inl hi⟩
  | succ fuel ih =>
    unfold newId
    by_cases hc : condition (p.lastId + 1)
    · rw [if_pos hc]
      exact ⟨Int.lt_succ _, rfl, rfl, fun i hi => .inl hi⟩
    · rw [if_neg hc]
      obtain ⟨hlt, hlast, huse, hfree⟩ :=
        ih (p := { p with lastId := p.lastId + 1, idsFree := p.idsFree.insert (p.lastId + 1) })
      simp only at hlt
      refine ⟨Int.lt_trans (Int.lt_succ _) hlt, hlast, huse, ?_⟩
      intro i hi
      rcases hfree i hi with hi | ⟨h₁, h₂⟩
      · rcases List.mem_insert_iff.mp hi with rfl | hi
        · exact .inr ⟨Int.lt_succ _, hlt⟩
        · exact .inl hi
      · simp only at h₁
        exact .inr ⟨by omega, h₂⟩

/-- `get_id` returns an id that was not in use and puts it in use, or it raises. -/
theorem getId_cases (condition : ℤ → Bool) (fuel : ℕ) (hp : p.WellFormed) :
    (getId fuel condition p).2.WellFormed ∧
      (((getId fuel condition p).1 = none ∧ (getId fuel condition p).2.idsInUse = p.idsInUse) ∨
        ∃ id, (getId fuel condition p).1 = some id ∧ id ∉ p.idsInUse ∧
          (getId fuel condition p).2.idsInUse = p.idsInUse.insert id) := by
  unfold getId
  rcases hfilter : p.idsFree.filter condition with _ | ⟨id, rest⟩
  · obtain ⟨hwf, huse, hlt, hlast, hfree⟩ := newId_spec condition fuel hp
    rcases hnew : newId condition fuel p with ⟨id, p'⟩
    rw [hnew] at hwf huse hlt hlast hfree
    simp only at hwf huse hlt hlast hfree ⊢
    split
    · exact ⟨hwf, .inl ⟨rfl, huse⟩⟩
    · have hnot : id ∉ p.idsInUse := by
        intro hid
        have := hp.used_le id hid
        omega
      refine ⟨⟨?_, ?_, hwf.free_le⟩, .inr ⟨id, rfl, hnot, by simp only [huse]⟩⟩
      · intro i hi
        rcases List.mem_insert_iff.mp hi with rfl | hi
        · exact hfree
        · exact hwf.apart i hi
      · intro i hi
        rcases List.mem_insert_iff.mp hi with rfl | hi
        · exact Int.le_of_eq hlast.symm
        · exact hwf.used_le i hi
  · have hid : id ∈ p.idsFree := List.mem_of_mem_filter (hfilter ▸ List.mem_cons_self ..)
    have hnot : id ∉ p.idsInUse := fun h => hp.apart id h hid
    refine ⟨⟨?_, ?_, ?_⟩, .inr ⟨id, rfl, hnot, rfl⟩⟩
    · intro i hi
      rcases List.mem_insert_iff.mp hi with rfl | hi
      · simp
      · simp only [mem_remove, not_and]
        exact fun h => absurd h (hp.apart i hi)
    · intro i hi
      rcases List.mem_insert_iff.mp hi with rfl | hi
      · exact hp.free_le i hid
      · exact hp.used_le i hi
    · intro i hi
      exact hp.free_le i (mem_remove.mp hi).1

/-- After `release_id` the id is not in use; the others are as before. -/
theorem mem_releaseId {id i : ℤ} : i ∈ (p.releaseId id).idsInUse ↔ i ∈ p.idsInUse ∧ i ≠ id := by
  unfold releaseId
  split
  · exact mem_remove
  · rename_i hnot
    refine ⟨fun h => ⟨h, ?_⟩, fun h => h.1⟩
    rintro rfl
    exact hnot h

theorem wellFormed_releaseId (hp : p.WellFormed) (id : ℤ) : (p.releaseId id).WellFormed := by
  unfold releaseId
  split
  · rename_i hin
    refine ⟨?_, ?_, ?_⟩
    · intro i hi
      obtain ⟨hi, hne⟩ := mem_remove.mp hi
      simp only [List.mem_insert_iff, not_or]
      exact ⟨hne, hp.apart i hi⟩
    · intro i hi
      exact hp.used_le i (mem_remove.mp hi).1
    · intro i hi
      rcases List.mem_insert_iff.mp hi with rfl | hi
      · exact hp.used_le i hin
      · exact hp.free_le i hi
  · exact hp

/-- The order of the free ids does not matter. -/
theorem wellFormed_perm (hp : p.WellFormed) {free : List ℤ} (h : free.Perm p.idsFree) :
    WellFormed { p with idsFree := free } := by
  constructor
  · intro id hid hfree
    exact hp.apart id hid (h.mem_iff.mp hfree)
  · exact hp.used_le
  · intro id hid
    exact hp.free_le id (h.mem_iff.mp hid)

end Nica.Manager.IDPool
