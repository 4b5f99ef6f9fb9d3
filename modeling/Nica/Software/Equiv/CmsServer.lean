import Nica.Software.CmsServer

/-!
# The heavy hitters on the host lose their order at the first hit

The elements of larger frequency are the smaller ones of the heap, so an element that is incremented moves down, and
`increase` is for elements that move up.  What is required of the server holds in all states of a run exactly when no
value arrives that is in the index, apart from one whose frequency is the largest there is, which wraps around to 0
(`tracks_run`).

Nothing is said about the heap after an element that moved down was increased.
-/

namespace Nica.Software.CmsServer

open Nica.Lib

variable {H : HandleHeap ValueFrequencyPair} (L : H.Lawful heapLt)

/-- The heap `before` was full when a value of this estimate arrived.  The element that was removed is one of least
frequency, and its frequency is not above the estimate. -/
def EvictsLeast (before : H.Heap) (estimatedCount : BitVec 32) : Prop :=
  ∃ hd x rest, L.Holds before ((hd, x) :: rest) ∧ (∀ e ∈ rest, x.frequency ≤ e.2.frequency) ∧
    x.frequency ≤ estimatedCount ∧ L.Holds (H.pop before) rest

/-- The index and the heap, which holds at most `k` elements, hold the same values; the top has the least frequency;
no element moved down when it was increased; and the evictions were right. -/
structure Tracks (s : Server H) : Prop where
  holds : ∃ es, L.Holds s.topK es ∧ (∀ v hd, s.index v = some hd ↔ ∃ x, (hd, x) ∈ es ∧ x.value = v) ∧
    es.length ≤ s.k.toNat ∧
    (es ≠ [] → H.top s.topK ∈ es.map Prod.snd ∧ ∀ e ∈ es, (H.top s.topK).frequency ≤ e.2.frequency)
  increases : ∀ p ∈ s.increases, ¬heapLt p.2 p.1
  evictions : ∀ p ∈ s.evictions, EvictsLeast L p.1 p.2

/-- The value is not in the index, or its frequency is the largest there is. -/
def Harmless (s : Server H) (v : BitVec 32) : Prop :=
  ∀ hd, s.index v = some hd → (H.get s.topK hd).frequency = 0xffffffff

theorem heapLt_increment_iff (p : ValueFrequencyPair) : heapLt p.increment p ↔ p.frequency ≠ 0xffffffff := by
  show p.frequency < p.frequency + 1 ↔ _
  bv_omega

/-! ### The heap and the index -/

/-- The heap is in order, and the index has the handles of its elements. -/
structure Indexed (topK : H.Heap) (index : BitVec 32 → Option H.Handle)
    (es : List (H.Handle × ValueFrequencyPair)) : Prop where
  holds : L.Holds topK es
  index_iff : ∀ v hd, index v = some hd ↔ ∃ x, (hd, x) ∈ es ∧ x.value = v

section

variable {L} {topK : H.Heap} {index : BitVec 32 → Option H.Handle} {es : List (H.Handle × ValueFrequencyPair)}

/-- The top of a heap that is not empty is one of its elements, and has the least frequency. -/
theorem exists_top (hh : L.Holds topK es) (hne : es ≠ []) :
    ∃ hd rest, es.Perm ((hd, H.top topK) :: rest) ∧ (∀ e ∈ es, (H.top topK).frequency ≤ e.2.frequency) ∧
      L.Holds (H.pop topK) rest := by
  obtain ⟨hd, rest, hperm, hle, hpop⟩ := L.holds_pop hh hne
  exact ⟨hd, rest, hperm, fun e he => BitVec.not_lt.mp (hle e he), hpop⟩

/-- A harmless increment keeps heap and index together. -/
theorem Indexed.increase (h : Indexed L topK index es) {v : BitVec 32} {hd : H.Handle} (hv : index v = some hd)
    (hmax : (H.get topK hd).frequency = 0xffffffff) :
    ∃ es', Indexed L (H.increase (H.set topK hd (H.get topK hd).increment) hd) index es' ∧ es'.length = es.length := by
  obtain ⟨x, hx, hxv⟩ := (h.index_iff v hd).mp hv
  obtain ⟨rest, hperm, hcons⟩ := L.holds_of_mem h.holds hx
  rw [L.get_eq h.holds hx] at hmax ⊢
  have hlt : ¬heapLt x.increment x := fun hlt => (heapLt_increment_iff x).mp hlt hmax
  refine ⟨(hd, x.increment) :: rest, ⟨L.holds_increase _ hcons hlt, fun v' hd' => ?_⟩, ?_⟩
  · rw [h.index_iff v' hd']
    -- the increment leaves the value alone
    constructor
    · rintro ⟨y, hy, hyv⟩
      rcases List.mem_cons.mp (hperm.mem_iff.mp hy) with heq | hrest
      · obtain ⟨rfl, rfl⟩ := Prod.mk.inj heq
        exact ⟨_, List.mem_cons_self .., hyv⟩
      · exact ⟨y, List.mem_cons_of_mem _ hrest, hyv⟩
    · rintro ⟨y, hy, hyv⟩
      rcases List.mem_cons.mp hy with heq | hrest
      · obtain ⟨rfl, rfl⟩ := Prod.mk.inj heq
        exact ⟨x, hx, hyv⟩
      · exact ⟨y, hperm.mem_iff.mpr (List.mem_cons_of_mem _ hrest), hyv⟩
  · rw [hperm.length_eq, List.length_cons, List.length_cons]

/-- Removing the top from both keeps them together. -/
theorem Indexed.pop (h : Indexed L topK index es) (hne : es ≠ []) :
    ∃ rest, Indexed L (H.pop topK) (Function.update index (H.top topK).value none) rest ∧
      es.length = rest.length + 1 := by
  obtain ⟨hd, rest, hperm, -, hpop⟩ := exists_top h.holds hne
  have hcons := L.perm h.holds hperm
  have htop : index (H.top topK).value = some hd :=
    (h.index_iff _ _).mpr ⟨_, hperm.mem_iff.mpr (List.mem_cons_self ..), rfl⟩
  refine ⟨rest, ⟨hpop, fun v hd' => ?_⟩, hperm.length_eq⟩
  by_cases hv : v = (H.top topK).value
  · subst hv
    rw [Function.update_self]
    refine iff_of_false (fun hn => by cases hn) ?_
    rintro ⟨x, hx, hxv⟩
    have hx' := (h.index_iff _ _).mpr ⟨x, hperm.mem_iff.mpr (List.mem_cons_of_mem _ hx), hxv⟩
    obtain rfl := Option.some.inj (htop.symm.trans hx')
    exact L.not_mem_of_holds_cons hcons hx
  · rw [Function.update_of_ne hv, h.index_iff]
    constructor
    · rintro ⟨x, hx, hxv⟩
      rcases List.mem_cons.mp (hperm.mem_iff.mp hx) with heq | hrest
      · obtain ⟨-, rfl⟩ := Prod.mk.inj heq
        exact absurd hxv.symm hv
      · exact ⟨x, hrest, hxv⟩
    · rintro ⟨x, hx, hxv⟩
      exact ⟨x, hperm.mem_iff.mpr (List.mem_cons_of_mem _ hx), hxv⟩

/-- Adding a value that is in neither to both keeps them together. -/
theorem Indexed.push (h : Indexed L topK index es) {p : ValueFrequencyPair} (hv : index p.value = none) :
    Indexed L (H.push topK p).1 (Function.update index p.value (some (H.push topK p).2))
      (((H.push topK p).2, p) :: es) := by
  refine ⟨L.holds_push p h.holds, fun v hd => ?_⟩
  have hnone : ∀ x, (hd, x) ∈ es → x.value ≠ p.value := by
    intro x hx hxv
    rw [(h.index_iff _ _).mpr ⟨x, hx, hxv⟩] at hv
    cases hv
  by_cases hvp : v = p.value
  · subst hvp
    rw [Function.update_self, Option.some_inj]
    constructor
    · rintro rfl
      exact ⟨p, List.mem_cons_self .., rfl⟩
    · rintro ⟨x, hx, hxv⟩
      rcases List.mem_cons.mp hx with heq | hes
      · exact (Prod.mk.inj heq).1.symm
      · exact absurd hxv (hnone x hes)
  · rw [Function.update_of_ne hvp, h.index_iff]
    constructor
    · rintro ⟨x, hx, hxv⟩
      exact ⟨x, List.mem_cons_of_mem _ hx, hxv⟩
    · rintro ⟨x, hx, hxv⟩
      rcases List.mem_cons.mp hx with heq | hes
      · obtain ⟨-, rfl⟩ := Prod.mk.inj heq
        exact absurd hxv.symm hvp
      · exact ⟨x, hes, hxv⟩

end

/-! ### The invariant -/

/-- The heap is in order, it is indexed and not too large, and all calls so far were right. -/
structure Inv (s : Server H) : Prop where
  indexed : ∃ es, Indexed L s.topK s.index es ∧ es.length ≤ s.k.toNat
  increases : ∀ p ∈ s.increases, ¬heapLt p.2 p.1
  evictions : ∀ p ∈ s.evictions, EvictsLeast L p.1 p.2

variable {L}

theorem inv_init (hashes : Fin 3 → Fin 2 → BitVec 32) (k : BitVec 32) : Inv L (.init H hashes k) := by
  refine ⟨⟨[], ⟨L.holds_empty, fun v hd => ?_⟩, Nat.zero_le _⟩, fun p hp => absurd hp List.not_mem_nil,
    fun p hp => absurd hp List.not_mem_nil⟩
  refine iff_of_false (fun h => by cases h) ?_
  rintro ⟨x, hx, -⟩
  exact absurd hx List.not_mem_nil

theorem Inv.tracks {s : Server H} (h : Inv L s) : Tracks L s := by
  obtain ⟨⟨es, hidx, hlen⟩, hinc, hev⟩ := h
  refine ⟨⟨es, hidx.holds, hidx.index_iff, hlen, fun hne => ?_⟩, hinc, hev⟩
  obtain ⟨hd, rest, hperm, hle, -⟩ := exists_top hidx.holds hne
  exact ⟨List.mem_map.mpr ⟨_, hperm.mem_iff.mpr (List.mem_cons_self ..), rfl⟩, hle⟩

theorem Inv.hit {s : Server H} (h : Inv L s) {v : BitVec 32} {hd : H.Handle} (hv : s.index v = some hd)
    (hmax : (H.get s.topK hd).frequency = 0xffffffff) : Inv L (s.hit hd) := by
  obtain ⟨⟨es, hidx, hlen⟩, hinc, hev⟩ := h
  obtain ⟨es', hidx', hlen'⟩ := hidx.increase hv hmax
  refine ⟨⟨es', hidx', hlen' ▸ hlen⟩, ?_, hev⟩
  intro p hp
  rcases List.mem_append.mp hp with hp | hp
  · exact hinc p hp
  · rw [List.mem_singleton.mp hp]
    exact fun hlt => (heapLt_increment_iff _).mp hlt hmax

theorem Inv.insert {s : Server H} (h : Inv L s) {v : BitVec 32} (estimatedCount : BitVec 32) (hv : s.index v = none)
    (hroom : ∀ es, L.Holds s.topK es → es.length < s.k.toNat) : Inv L (s.insert v estimatedCount) := by
  obtain ⟨⟨es, hidx, -⟩, hinc, hev⟩ := h
  exact ⟨⟨_, hidx.push (p := ⟨v, estimatedCount⟩) hv, hroom es hidx.holds⟩, hinc, hev⟩

/-- A full heap makes room by an eviction. -/
theorem Inv.evict {s : Server H} (h : Inv L s) (hk : 0 < s.k.toNat) (hfull : s.k.toNat ≤ H.size s.topK)
    {estimatedCount : BitVec 32} (hle : (H.top s.topK).frequency ≤ estimatedCount) :
    Inv L (s.evict estimatedCount) ∧ ∀ es, L.Holds (s.evict estimatedCount).topK es → es.length < s.k.toNat := by
  obtain ⟨⟨es, hidx, hlen⟩, hinc, hev⟩ := h
  have hsize := L.size_eq hidx.holds
  have hne : es ≠ [] := by
    rintro rfl
    rw [List.length_nil] at hsize
    omega
  obtain ⟨rest, hrest, hlen'⟩ := hidx.pop hne
  refine ⟨⟨⟨rest, hrest, by show rest.length ≤ s.k.toNat; omega⟩, hinc, ?_⟩, ?_⟩
  · intro p hp
    rcases List.mem_append.mp hp with hp | hp
    · exact hev p hp
    · obtain ⟨hd, rest', hperm, hleast, hpop⟩ := exists_top hidx.holds hne
      rw [List.mem_singleton.mp hp]
      exact ⟨hd, _, rest', L.perm hidx.holds hperm,
        fun e he => hleast e (hperm.mem_iff.mpr (List.mem_cons_of_mem _ he)), hle, hpop⟩
  · intro es' hes'
    have h1 := L.size_eq hes'
    have h2 := L.size_eq hrest.holds
    rw [← h1, show (s.evict estimatedCount).topK = H.pop s.topK from rfl, h2]
    omega

/-! ### One packet -/

/-- Counting a value in the sketch. -/
def counted (s : Server H) (v : BitVec 32) : Server H := { s with countMinSketch := s.countMinSketch.update v 1 }

theorem process_of_hit {s : Server H} {v : BitVec 32} {hd : H.Handle} (hv : s.index v = some hd) :
    s.process v = (counted s v).hit hd := by
  rw [Server.process, hv]
  rfl

theorem Inv.process {s : Server H} (h : Inv L s) (hk : 0 < s.k.toNat) {v : BitVec 32} (hv : Harmless s v) :
    Inv L (s.process v) := by
  have hc : Inv L (counted s v) := ⟨h.indexed, h.increases, h.evictions⟩
  rcases hi : s.index v with - | hd
  · have hmiss : s.process v =
        if s.k.toNat ≤ H.size s.topK then
          if (H.top s.topK).frequency > (counted s v).countMinSketch.estimate v then counted s v
          else ((counted s v).evict ((counted s v).countMinSketch.estimate v)).insert v
            ((counted s v).countMinSketch.estimate v)
        else (counted s v).insert v ((counted s v).countMinSketch.estimate v) := by
      rw [Server.process, hi]
      rfl
    rw [hmiss]
    split
    · rename_i hfull
      split
      · exact hc
      · rename_i hle
        obtain ⟨hev, hroom⟩ := hc.evict hk hfull (BitVec.not_lt.mp hle)
        refine hev.insert _ ?_ hroom
        show Function.update s.index (H.top s.topK).value none v = none
        by_cases htop : v = (H.top s.topK).value
        · rw [htop, Function.update_self]
        · rw [Function.update_of_ne htop, hi]
    · rename_i hroom
      refine hc.insert _ hi fun es hes => ?_
      rw [← L.size_eq hes]
      exact Nat.lt_of_not_le hroom
  · rw [process_of_hit hi]
    exact hc.hit hi (hv hd hi)

/-- A value in the index that is not harmless moves down in the heap. -/
theorem not_tracks_process {s : Server H} {v : BitVec 32} (hv : ¬Harmless s v) : ¬Tracks L (s.process v) := by
  simp only [Harmless, not_forall] at hv
  obtain ⟨hd, hi, hne⟩ := hv
  intro h
  rw [process_of_hit hi] at h
  refine h.increases (H.get s.topK hd, (H.get s.topK hd).increment) ?_ ((heapLt_increment_iff _).mpr hne)
  exact List.mem_append_right _ (List.mem_singleton_self _)

theorem k_process (s : Server H) (v : BitVec 32) : (s.process v).k = s.k := by
  rw [Server.process]
  split
  · rfl
  · dsimp only
    split
    · split <;> rfl
    · rfl

/-! ### Runs -/

/-- What is required of the server holds in all states of a run exactly when every value that arrives is harmless:
it is not in the index, or its frequency is the largest there is. -/
theorem tracks_run (hashes : Fin 3 → Fin 2 → BitVec 32) (k : BitVec 32) (hk : 0 < k) (values : List (BitVec 32)) :
    (∀ n, Tracks L (run Server.process (.init H hashes k) (values.take n))) ↔
      Along Server.process Harmless (.init H hashes k) values := by
  have hk' : 0 < k.toNat := hk
  refine (along_iff_forall_prefix_of (P := fun s => Inv L s ∧ s.k = k) (fun s h => h.1.tracks) ?_ ?_ values _
    ⟨inv_init hashes k, rfl⟩).symm
  · rintro s v ⟨h, rfl⟩ hv
    exact ⟨h.process hk' hv, k_process s v⟩
  · rintro s v - hv
    exact not_tracks_process hv

/-! ### A heap -/

/-- A heap that is a list. -/
def listHeap : HandleHeap ValueFrequencyPair := .byList fun p => OrderDual.toDual p.frequency.toNat

/-- The list is searched for the least frequency. -/
def lawful_listHeap : listHeap.Lawful heapLt := HandleHeap.lawful_byList _

/-- Three different values arrive for two places. -/
theorem tracks_run_three :
    Tracks lawful_listHeap (run Server.process (.init listHeap (fun _ _ => 1) 2) [5, 6, 7]) := by
  have h5 : (run Server.process (.init listHeap (fun _ _ => 1) 2) []).index 5 = none := rfl
  have h6 : (run Server.process (.init listHeap (fun _ _ => 1) 2) [5]).index 6 = none := by decide
  have h7 : (run Server.process (.init listHeap (fun _ _ => 1) 2) [5, 6]).index 7 = none := by decide
  have hal : Along Server.process Harmless (.init listHeap (fun _ _ => 1) 2) [5, 6, 7] :=
    ⟨fun hd h => absurd (h5.symm.trans h) (by simp), fun hd h => absurd (h6.symm.trans h) (by simp),
      fun hd h => absurd (h7.symm.trans h) (by simp), trivial⟩
  exact (tracks_run (L := lawful_listHeap) (fun _ _ => 1) 2 (by decide) [5, 6, 7]).mpr hal 3

/-- The same value arrives twice. -/
theorem not_tracks_twice :
    ¬∀ n, Tracks lawful_listHeap (run Server.process (.init listHeap (fun _ _ => 1) 2) ([5, 5].take n)) := by
  intro h
  have hinc : (run Server.process (.init listHeap (fun _ _ => 1) 2) ([5, 5].take 2)).increases =
      [(⟨5, 1⟩, ⟨5, 2⟩)] := by decide
  refine (h 2).increases (⟨5, 1⟩, ⟨5, 2⟩) ?_ (by decide)
  rw [hinc]
  exact List.mem_singleton_self _

end Nica.Software.CmsServer
