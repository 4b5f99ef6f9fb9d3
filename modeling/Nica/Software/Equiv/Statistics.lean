import Nica.Software.Statistics
import Mathlib.Data.List.Range
import Mathlib.Logic.Function.Iterate

/-!
# The statistics server lags by one message

`do_receive` takes the id of the last completion for the number of the messages, and processes the messages before
it.  So the last message of the first poll that returns any stays behind, and from then on one message always does:
what is required of the server holds in a run exactly when every poll comes back empty (`consumes_run`).

Apart from that the indices keep their relation in every run whose updates of the credits succeed (`inv_run`): the
messages are processed once and in order, one behind the polls, no work request is posted for a slot with a message
that was not processed, at most `NUM_RECEIVE_WR` are outstanding, and count, sum and maximum are right.  The minimum
starts at 0 and stays there.
-/

namespace Nica.Software.Statistics

open Nica.Lib

/-! ### What is required -/

/-- The values of the messages that arrived. -/
def values (s : System) : List (BitVec 32) := s.arrived.map fun m => m.2.setWidth 32

/-- The messages that were polled were processed, once and in order; no work request waits for a slot with a message
that was not processed; no more work requests are outstanding than there are slots; and the statistics are those of
the values that were processed. -/
structure Consumes (s : System) : Prop where
  processed : s.processed = (values s).take s.polled
  posted : ∀ wr ∈ s.posted, ∀ m ∈ s.arrived.drop s.processed.length, slot wr ≠ slot m.1
  outstanding : s.posted.length + s.completions.length ≤ numReceiveWr
  count : s.server.count = BitVec.ofNat 32 s.processed.length
  sum : s.server.sum = s.processed.foldl (· + ·) 0
  max : ∀ x ∈ s.processed, x ≤ s.server.max
  max_mem : s.processed ≠ [] → s.server.max ∈ s.processed
  min : ∀ x ∈ s.processed, s.server.min ≤ x
  min_mem : s.processed ≠ [] → s.server.min ∈ s.processed

/-! ### Indices -/

theorem slot_ofNat (m : ℕ) : slot (BitVec.ofNat 32 m) = m % numReceiveWr := by
  rw [slot, BitVec.toNat_ofNat]
  exact Nat.mod_mod_of_dvd m (by decide)

theorem toNat_ofNat_sub {a b : ℕ} (h : b ≤ a) (hlt : a - b < 2 ^ 32) :
    (BitVec.ofNat 32 a - BitVec.ofNat 32 b).toNat = a - b := by
  rw [BitVec.toNat_sub, BitVec.toNat_ofNat, BitVec.toNat_ofNat]
  omega

theorem ofNat_add_ofNat (a b : ℕ) : BitVec.ofNat 32 a + BitVec.ofNat 32 b = BitVec.ofNat 32 (a + b) :=
  (BitVec.ofNat_add a b).symm

theorem ofNat_sub_ofNat {a b : ℕ} (h : b ≤ a) :
    BitVec.ofNat 32 a - BitVec.ofNat 32 b = BitVec.ofNat 32 (a - b) := by
  apply BitVec.eq_of_toNat_eq
  rw [BitVec.toNat_sub, BitVec.toNat_ofNat, BitVec.toNat_ofNat, BitVec.toNat_ofNat]
  omega

/-- The ids of the work requests from `start` on. -/
def ids (start n : ℕ) : List (BitVec 32) := (List.range' start n).map (BitVec.ofNat 32)

theorem length_ids (start n : ℕ) : (ids start n).length = n := by
  rw [ids, List.length_map, List.length_range']

theorem ids_append (start m n : ℕ) : ids start m ++ ids (start + m) n = ids start (m + n) := by
  rw [ids, ids, ids, ← List.map_append, List.range'_append_1]

theorem ids_succ (start n : ℕ) : ids start (n + 1) = BitVec.ofNat 32 start :: ids (start + 1) n := rfl

theorem ids_one (start : ℕ) : ids start 1 = [BitVec.ofNat 32 start] := rfl

theorem take_ids (start n k : ℕ) : (ids start n).take k = ids start (min k n) := by
  rcases Nat.le_total k n with h | h
  · obtain ⟨d, rfl⟩ := Nat.exists_eq_add_of_le h
    rw [← ids_append, Nat.min_eq_left h]
    exact List.take_left' (length_ids start k)
  · rw [Nat.min_eq_right h, List.take_of_length_le (by rwa [length_ids])]

theorem drop_ids (start n k : ℕ) : (ids start n).drop k = ids (start + min k n) (n - min k n) := by
  rcases Nat.le_total k n with h | h
  · obtain ⟨d, rfl⟩ := Nat.exists_eq_add_of_le h
    rw [← ids_append, Nat.min_eq_left h, Nat.add_sub_cancel_left]
    exact List.drop_left' (length_ids start k)
  · rw [Nat.min_eq_right h, List.drop_of_length_le (by rwa [length_ids]), Nat.sub_self]
    rfl

theorem getLast?_ids (start n : ℕ) : (ids start (n + 1)).getLast? = some (BitVec.ofNat 32 (start + n)) := by
  rw [← ids_append, ids_one, List.getLast?_append, List.getLast?_singleton]
  rfl

/-- `post_recv` goes on counting where it was. -/
theorem ids_of_range (start n : ℕ) :
    ((List.range n).map fun i => BitVec.ofNat 32 start + BitVec.ofNat 32 i) = ids start n := by
  rw [ids, List.range'_eq_map_range, List.map_map]
  apply List.map_congr_left
  intro i _
  rw [ofNat_add_ofNat]
  rfl

/-- The loop of `do_receive` ends when the indices meet. -/
theorem processAll_eq (s : System) :
    s.processAll =
      if s.server.producerIndex = s.server.consumerIndex then s else s.process.processAll := by
  by_cases h : s.server.producerIndex = s.server.consumerIndex
  · rw [if_pos h, System.processAll, h, BitVec.sub_self]
    rfl
  · rw [if_neg h, System.processAll, System.processAll]
    have hnext : (s.process.server.producerIndex - s.process.server.consumerIndex).toNat + 1 =
        (s.server.producerIndex - s.server.consumerIndex).toNat := by
      show (s.server.producerIndex - (s.server.consumerIndex + 1)).toNat + 1 = _
      bv_omega
    rw [← hnext, Function.iterate_succ_apply]

/-! ### The invariant -/

/-- What was counted of the values that were processed.  The minimum is 0 from the start. -/
structure Counted (s : System) : Prop where
  count : s.server.count = BitVec.ofNat 32 s.processed.length
  sum : s.server.sum = s.processed.foldl (· + ·) 0
  max : ∀ x ∈ s.processed, x ≤ s.server.max
  max_mem : s.processed ≠ [] → s.server.max ∈ s.processed
  max_nil : s.processed = [] → s.server.max = 0
  min : s.server.min = 0

/-- The ring after `posts` work requests. -/
structure Ring (posts : ℕ) (s : System) : Prop where
  polled_le : s.polled ≤ s.arrived.length
  arrived_le : s.arrived.length ≤ posts
  posts_le : posts ≤ s.polled + numReceiveWr
  posts_lt : 0 < s.polled → posts < s.polled + numReceiveWr
  completions : s.completions = ids s.polled (s.arrived.length - s.polled)
  posted : s.posted = ids s.arrived.length (posts - s.arrived.length)
  arrived : s.arrived.map Prod.fst = ids 0 s.arrived.length
  producer : s.server.producerIndex = BitVec.ofNat 32 (s.polled - 1)
  postedBuffers : s.server.postedReceiveBuffers = BitVec.ofNat 32 posts
  outstanding : s.server.outstandingRecvWrs = BitVec.ofNat 32 (posts - s.polled)

/-- The first `c` messages were processed, and the buffers hold the others. -/
structure Reading (c : ℕ) (s : System) : Prop where
  consumer : s.server.consumerIndex = BitVec.ofNat 32 c
  processed : s.processed = (values s).take c
  buffer : ∀ m (h : m < s.arrived.length), c ≤ m → s.server.receiveBuffer (m % numReceiveWr) = s.arrived[m].2
  counted : Counted s

/-- Between the calls, the last message that was polled was not processed. -/
structure Inv (posts : ℕ) (s : System) : Prop where
  ring : Ring posts s
  reading : Reading (s.polled - 1) s

theorem length_values (s : System) : (values s).length = s.arrived.length :=
  List.length_map ..

theorem inv_init (threshold : BitVec 32) : Inv numReceiveWr (.init threshold) := by
  have hN : numReceiveWr ≤ 0 + numReceiveWr := Nat.le_add_left ..
  have hposted : (System.init threshold).posted = ids 0 numReceiveWr :=
    (List.nil_append _).trans (ids_of_range 0 numReceiveWr)
  refine ⟨⟨Nat.zero_le 0, Nat.zero_le _, hN, fun h => absurd h (Nat.lt_irrefl 0), rfl, hposted, rfl, rfl, ?_, ?_⟩,
    ⟨rfl, rfl, fun m h => absurd h (Nat.not_lt_zero m), ?_⟩⟩
  · exact BitVec.zero_add _
  · exact BitVec.zero_add _
  · exact ⟨rfl, rfl, fun x hx => absurd hx List.not_mem_nil, fun h => absurd rfl h, fun _ => rfl, rfl⟩

/-! ### Arrivals -/

theorem arrive_of_nil {s : System} (h : s.posted = []) (message : BitVec 64) : s.arrive message = s := by
  rw [System.arrive, h]

theorem arrive_of_cons {s : System} {wr : BitVec 32} {posted : List (BitVec 32)} (h : s.posted = wr :: posted)
    (message : BitVec 64) :
    s.arrive message =
      { s with
        posted
        completions := s.completions ++ [wr]
        server := { s.server with receiveBuffer := Function.update s.server.receiveBuffer (slot wr) message }
        arrived := s.arrived ++ [(wr, message)] } := by
  rw [System.arrive, h]

theorem inv_arrive {posts : ℕ} {s : System} (message : BitVec 64) (h : Inv posts s) : Inv posts (s.arrive message) := by
  obtain ⟨hring, hread⟩ := h
  rcases hn : posts - s.arrived.length with - | n
  · have hp := hring.posted
    rw [hn] at hp
    rw [arrive_of_nil hp]
    exact ⟨hring, hread⟩
  · have hp := hring.posted
    rw [hn, ids_succ] at hp
    rw [arrive_of_cons hp]
    have hlen : (s.arrived ++ [(BitVec.ofNat 32 s.arrived.length, message)]).length = s.arrived.length + 1 :=
      List.length_append
    have hpolled := hring.polled_le
    have hle := hring.posts_le
    have hlt := hring.posts_lt
    have hN : numReceiveWr = 1024 := rfl
    constructor
    · refine ⟨?_, ?_, hle, hlt, ?_, ?_, ?_, hring.producer, hring.postedBuffers, hring.outstanding⟩
      · simp only [hlen]
        omega
      · simp only [hlen]
        omega
      · simp only [hlen]
        rw [hring.completions, show s.arrived.length + 1 - s.polled = s.arrived.length - s.polled + 1 by omega,
          ← ids_append, ids_one, Nat.add_sub_cancel' hpolled]
      · simp only [hlen]
        rw [show posts - (s.arrived.length + 1) = n by omega]
      · simp only [hlen]
        rw [List.map_append, hring.arrived, ← ids_append, Nat.zero_add]
        rfl
    · refine ⟨hread.consumer, ?_, ?_, ?_⟩
      · rw [values, List.map_append, List.take_append_of_le_length]
        · exact hread.processed
        · show s.polled - 1 ≤ (s.arrived.map _).length
          rw [List.length_map]
          omega
      · intro m hm hcm
        simp only [slot_ofNat]
        rw [hlen] at hm
        have hcm' : s.polled - 1 ≤ m := hcm
        by_cases hma : m = s.arrived.length
        · subst hma
          rw [Function.update_self, List.getElem_concat_length rfl]
        · -- fewer messages than slots lie between the first one that was not processed and the new one
          have hslot : m % numReceiveWr ≠ s.arrived.length % numReceiveWr := by
            rw [hN]
            omega
          rw [Function.update_of_ne hslot, List.getElem_append_left (by omega)]
          exact hread.buffer m (by omega) hcm
      · exact ⟨hread.counted.count, hread.counted.sum, hread.counted.max, hread.counted.max_mem,
          hread.counted.max_nil, hread.counted.min⟩

/-! ### Processing -/

/-- What processing leaves alone. -/
structure SameRing (s t : System) : Prop where
  posted : t.posted = s.posted
  completions : t.completions = s.completions
  arrived : t.arrived = s.arrived
  polled : t.polled = s.polled
  producer : t.server.producerIndex = s.server.producerIndex
  postedBuffers : t.server.postedReceiveBuffers = s.server.postedReceiveBuffers
  outstanding : t.server.outstandingRecvWrs = s.server.outstandingRecvWrs

theorem SameRing.ring {posts : ℕ} {s t : System} (h : SameRing s t) (hs : Ring posts s) : Ring posts t := by
  constructor
  all_goals simp only [h.posted, h.completions, h.arrived, h.polled, h.producer, h.postedBuffers, h.outstanding]
  exacts [hs.polled_le, hs.arrived_le, hs.posts_le, hs.posts_lt, hs.completions, hs.posted, hs.arrived, hs.producer,
    hs.postedBuffers, hs.outstanding]

theorem counted_process {s : System} (h : Counted s) : Counted s.process := by
  have hmax : s.process.server.max = if s.server.max < s.server.value then s.server.value else s.server.max := rfl
  have hmin : s.process.server.min = if s.server.value < s.server.min then s.server.value else s.server.min := rfl
  have hprocessed : s.process.processed = s.processed ++ [s.server.value] := rfl
  refine ⟨?_, ?_, ?_, ?_, ?_, ?_⟩
  · rw [hprocessed, List.length_append, ← ofNat_add_ofNat, ← h.count]
    rfl
  · rw [hprocessed, List.foldl_append, ← h.sum]
    rfl
  · intro x hx
    rw [hmax]
    rw [hprocessed, List.mem_append, List.mem_singleton] at hx
    split
    · rename_i hlt
      rcases hx with hx | rfl
      · exact BitVec.le_trans (h.max x hx) (BitVec.le_of_lt hlt)
      · exact BitVec.le_refl _
    · rename_i hlt
      rcases hx with hx | rfl
      · exact h.max x hx
      · exact BitVec.not_lt.mp hlt
  · intro _
    rw [hmax, hprocessed]
    split
    · exact List.mem_append_right _ (List.mem_singleton_self _)
    · rename_i hlt
      by_cases hnil : s.processed = []
      · -- nothing is less than the 0 that the maximum starts from
        rw [h.max_nil hnil] at hlt ⊢
        have hzero : s.server.value = 0 := BitVec.le_antisymm (BitVec.not_lt.mp hlt) (BitVec.not_lt.mp BitVec.not_lt_zero)
        rw [hnil, hzero]
        exact List.mem_singleton_self _
      · exact List.mem_append_left _ (h.max_mem hnil)
  · intro hnil
    rw [hprocessed] at hnil
    exact absurd hnil (by simp)
  · have hge : ¬s.server.value < 0 := BitVec.not_lt_zero
    rw [hmin, h.min, if_neg hge]

/-- One round of the loop. -/
theorem reading_process {c : ℕ} {s : System} (h : Reading c s) (hc : c < s.arrived.length) :
    Reading (c + 1) s.process := by
  have hvalue : s.server.value = s.arrived[c].2.setWidth 32 := by
    rw [Server.value, h.consumer, slot_ofNat, h.buffer c hc (Nat.le_refl c)]
  have hvalues : (values s).take (c + 1) = s.processed ++ [s.server.value] := by
    have hc' : c < (values s).length := by rwa [length_values]
    rw [List.take_succ_eq_append_getElem hc', h.processed, hvalue]
    simp only [values, List.getElem_map]
  refine ⟨?_, hvalues.symm, fun m hm hcm => h.buffer m hm (Nat.le_of_succ_le hcm), ?_⟩
  · show s.server.consumerIndex + 1 = _
    rw [h.consumer]
    exact ofNat_add_ofNat c 1
  · exact counted_process h.counted

theorem sameRing_process (s : System) : SameRing s s.process := ⟨rfl, rfl, rfl, rfl, rfl, rfl, rfl⟩

theorem SameRing.trans {s t u : System} (h : SameRing s t) (h' : SameRing t u) : SameRing s u :=
  ⟨h'.posted.trans h.posted, h'.completions.trans h.completions, h'.arrived.trans h.arrived,
    h'.polled.trans h.polled, h'.producer.trans h.producer, h'.postedBuffers.trans h.postedBuffers,
    h'.outstanding.trans h.outstanding⟩

/-- The loop, for as long as there are messages. -/
theorem reading_iterate {k : ℕ} : ∀ {c : ℕ} {s : System}, Reading c s → c + k ≤ s.arrived.length →
    Reading (c + k) (System.process^[k] s) ∧ SameRing s (System.process^[k] s) := by
  induction k with
  | zero => exact fun h _ => ⟨h, rfl, rfl, rfl, rfl, rfl, rfl, rfl⟩
  | succ k ih =>
    intro c s h hk
    have hc : c + 1 + k ≤ s.process.arrived.length := by
      show c + 1 + k ≤ s.arrived.length
      omega
    obtain ⟨hread, hsame⟩ := ih (reading_process h (by omega)) hc
    rw [Function.iterate_succ_apply, show c + (k + 1) = c + 1 + k by omega]
    exact ⟨hread, (sameRing_process s).trans hsame⟩

/-! ### Polls -/

/-- The number of completions that a poll returns. -/
def returned (n : ℕ) (s : System) : ℕ := min (min n 16) s.completions.length

theorem returned_le (n : ℕ) (s : System) : returned n s ≤ 16 :=
  (Nat.min_le_left _ _).trans (Nat.min_le_right _ _)

/-- A poll takes over the completions it returns. -/
theorem ring_poll {posts : ℕ} {s : System} (n : ℕ) (h : Ring posts s) :
    Ring posts (s.poll n) ∧ (s.poll n).polled = s.polled + returned n s := by
  have hlen : s.completions.length = s.arrived.length - s.polled := by rw [h.completions, length_ids]
  have htake : s.completions.take (min n 16) = ids s.polled (returned n s) := by
    rw [returned, hlen, h.completions, take_ids]
  have hret : returned n s ≤ s.arrived.length - s.polled := hlen ▸ Nat.min_le_right _ _
  have hpolled : (s.poll n).polled = s.polled + returned n s := by
    show s.polled + (s.completions.take (min n 16)).length = _
    rw [htake, length_ids]
  have hle := h.polled_le
  have hposts := h.posts_le
  have hlt := h.posts_lt
  have harr := h.arrived_le
  refine ⟨⟨?_, h.arrived_le, ?_, ?_, ?_, h.posted, h.arrived, ?_, h.postedBuffers, ?_⟩, hpolled⟩
  · rw [hpolled]
    show _ ≤ s.arrived.length
    omega
  · rw [hpolled]
    omega
  · rw [hpolled]
    omega
  · rw [hpolled]
    show s.completions.drop (min n 16) = ids (s.polled + returned n s) (s.arrived.length - (s.polled + returned n s))
    rw [h.completions, drop_ids, returned, hlen, Nat.sub_sub]
  · rw [hpolled]
    show (s.completions.take (min n 16)).getLast?.getD s.server.producerIndex = _
    rw [htake]
    rcases returned n s with - | r
    · exact h.producer
    · rw [getLast?_ids]
      rfl
  · rw [hpolled]
    show s.server.outstandingRecvWrs - BitVec.ofNat 32 (s.completions.take (min n 16)).length = _
    rw [htake, length_ids, h.outstanding, ofNat_sub_ofNat (by omega), Nat.sub_sub]

theorem polled_iterate (k : ℕ) (s : System) : (System.process^[k] s).polled = s.polled := by
  induction k generalizing s with
  | zero => rfl
  | succ k ih =>
    rw [Function.iterate_succ_apply, ih]
    rfl

/-- After the poll, the messages before the last one are processed. -/
theorem inv_processAll {posts : ℕ} {s : System} (n : ℕ) (h : Inv posts s) : Inv posts (s.poll n).processAll := by
  obtain ⟨hring, hpolled⟩ := ring_poll n h.ring
  have hread : Reading (s.polled - 1) (s.poll n) :=
    ⟨h.reading.consumer, h.reading.processed, h.reading.buffer, h.reading.counted.count, h.reading.counted.sum,
      h.reading.counted.max, h.reading.counted.max_mem, h.reading.counted.max_nil, h.reading.counted.min⟩
  have hret := returned_le n s
  have hle := hring.polled_le
  have hrounds : ((s.poll n).server.producerIndex - (s.poll n).server.consumerIndex).toNat =
      (s.poll n).polled - 1 - (s.polled - 1) := by
    rw [hring.producer, hread.consumer, toNat_ofNat_sub (by omega) (by omega)]
  obtain ⟨k, hk⟩ : ∃ k, (s.poll n).polled - 1 = s.polled - 1 + k := Nat.exists_eq_add_of_le (by omega)
  obtain ⟨hread', hsame⟩ := reading_iterate (k := k) hread (by omega)
  rw [System.processAll, hrounds, hk, Nat.add_sub_cancel_left]
  refine ⟨hsame.ring hring, ?_⟩
  rwa [hsame.polled, hk]

/-! ### Posting again -/

/-- Work requests are posted for slots of messages that were processed, as long as they leave one slot out. -/
theorem inv_postRecv {posts k : ℕ} {s : System} (h : Inv posts s) (hk : posts + k < s.polled + numReceiveWr) :
    Inv (posts + k) (s.postRecv k true) := by
  obtain ⟨hring, hread⟩ := h
  have harr := hring.arrived_le
  constructor
  · refine ⟨hring.polled_le, Nat.le_add_right_of_le harr, Nat.le_of_lt hk, fun _ => hk, hring.completions, ?_,
      hring.arrived, hring.producer, ?_, ?_⟩
    · show s.posted ++ _ = ids s.arrived.length (posts + k - s.arrived.length)
      rw [hring.postedBuffers, ids_of_range, hring.posted,
        show ids posts = ids (s.arrived.length + (posts - s.arrived.length)) by rw [Nat.add_sub_cancel' harr],
        ids_append, show posts + k - s.arrived.length = posts - s.arrived.length + k by omega]
    · show s.server.postedReceiveBuffers + _ = _
      rw [hring.postedBuffers, ofNat_add_ofNat]
    · show s.server.outstandingRecvWrs + _ = BitVec.ofNat 32 (_ - s.polled)
      have hle := hring.polled_le
      rw [hring.outstanding, ofNat_add_ofNat, show posts - s.polled + k = posts + k - s.polled by omega]
  · exact ⟨hread.consumer, hread.processed, hread.buffer, hread.counted.count, hread.counted.sum,
      hread.counted.max, hread.counted.max_mem, hread.counted.max_nil, hread.counted.min⟩

theorem repost_of_le {posts : ℕ} {s : System} (credited : Bool) (h : Ring posts s)
    (hle : numReceiveWr / 2 ≤ posts - s.polled) : s.repost credited = s := by
  have hN : numReceiveWr = 1024 := rfl
  have hposts := h.posts_le
  have hge : ¬s.server.outstandingRecvWrs < BitVec.ofNat 32 (numReceiveWr / 2) := by
    rw [h.outstanding, BitVec.lt_def, BitVec.toNat_ofNat, BitVec.toNat_ofNat]
    omega
  rw [System.repost, if_neg hge]

theorem repost_of_lt {posts : ℕ} {s : System} (credited : Bool) (h : Ring posts s)
    (hlt : posts - s.polled < numReceiveWr / 2) :
    s.repost credited = System.postRecv (numReceiveWr / 2) credited s := by
  have hN : numReceiveWr = 1024 := rfl
  have hlt' : s.server.outstandingRecvWrs < BitVec.ofNat 32 (numReceiveWr / 2) := by
    rw [h.outstanding, BitVec.lt_def, BitVec.toNat_ofNat, BitVec.toNat_ofNat]
    omega
  rw [System.repost, if_pos hlt']

/-- A call of `do_receive`, with an update of the credits that succeeds if there is one. -/
theorem inv_doReceive {posts : ℕ} {s : System} (n : ℕ) {credited : Bool} (h : Inv posts s)
    (hc : credited = true ∨ numReceiveWr / 2 ≤ posts - (s.poll n).processAll.polled) :
    ∃ posts', Inv posts' (s.doReceive n credited) := by
  have hinv := inv_processAll n h
  rcases Nat.lt_or_ge (posts - (s.poll n).processAll.polled) (numReceiveWr / 2) with hlt | hge
  · obtain rfl := hc.resolve_right (by omega)
    rw [System.doReceive, repost_of_lt true hinv.ring hlt]
    have hle := hinv.ring.polled_le
    have harr := hinv.ring.arrived_le
    have hN : numReceiveWr = 1024 := rfl
    exact ⟨_, inv_postRecv hinv (by omega)⟩
  · rw [System.doReceive, repost_of_le credited hinv.ring hge]
    exact ⟨posts, hinv⟩

/-! ### Runs -/

/-- The update of the credits succeeds. -/
def Credited : Act → Prop
  | .arrive _ => True
  | .doReceive _ credited => credited = true

/-- Whatever the arrivals and the polls, the indices keep their relation as long as the credits are updated. -/
theorem inv_run (threshold : BitVec 32) (acts : List Act) (hc : ∀ a ∈ acts, Credited a) :
    ∃ posts, Inv posts (run step (.init threshold) acts) := by
  refine run_induction (C := fun _ a => Credited a) (P := fun s => ∃ posts, Inv posts s) ?_ acts _
    (along_of_forall acts _ hc) ⟨_, inv_init threshold⟩
  rintro s a ha ⟨posts, h⟩
  cases a with
  | arrive message => exact ⟨posts, inv_arrive message h⟩
  | doReceive n credited => exact inv_doReceive n h (.inl ha)

/-- No work request waits for a slot with a message that was not processed. -/
theorem Inv.slot_ne {posts : ℕ} {s : System} (h : Inv posts s) :
    ∀ wr ∈ s.posted, ∀ m ∈ s.arrived.drop s.processed.length, slot wr ≠ slot m.1 := by
  obtain ⟨hring, hread⟩ := h
  intro wr hwr m hm
  have hpolled := hring.polled_le
  have hlen : s.processed.length = s.polled - 1 := by
    rw [hread.processed, List.length_take, length_values]
    omega
  have hm1 : m.1 ∈ ids (s.polled - 1) (s.arrived.length - (s.polled - 1)) := by
    have hdrop : (s.arrived.drop (s.polled - 1)).map Prod.fst =
        ids (s.polled - 1) (s.arrived.length - (s.polled - 1)) := by
      rw [List.map_drop, hring.arrived, drop_ids, Nat.min_eq_left (by omega), Nat.zero_add]
    rw [← hdrop]
    exact List.mem_map_of_mem (hlen ▸ hm)
  rw [hring.posted] at hwr
  obtain ⟨i, hi, rfl⟩ := List.mem_map.mp hwr
  obtain ⟨j, hj, hj'⟩ := List.mem_map.mp hm1
  rw [← hj', slot_ofNat, slot_ofNat]
  rw [List.mem_range'_1] at hi hj
  have hle : posts ≤ s.polled + 1024 := hring.posts_le
  have hlt : 0 < s.polled → posts < s.polled + 1024 := hring.posts_lt
  show i % 1024 ≠ j % 1024
  omega

theorem Inv.outstanding_le {posts : ℕ} {s : System} (h : Inv posts s) :
    s.posted.length + s.completions.length ≤ numReceiveWr := by
  have hle := h.ring.posts_le
  have hpolled := h.ring.polled_le
  have harr := h.ring.arrived_le
  rw [h.ring.posted, h.ring.completions, length_ids, length_ids]
  omega

/-- In every run whose updates of the credits succeed, the messages are processed once and in order, and all that
were polled but for the last one; no work request waits for a slot with a message that was not processed, at most
`NUM_RECEIVE_WR` are outstanding, and count, sum and maximum are those of the values that were processed. -/
theorem lags_run (threshold : BitVec 32) (acts : List Act) (hc : ∀ a ∈ acts, Credited a) {s : System}
    (hs : s = run step (.init threshold) acts) :
    s.processed = (values s).take (s.polled - 1) ∧
    (∀ wr ∈ s.posted, ∀ m ∈ s.arrived.drop s.processed.length, slot wr ≠ slot m.1) ∧
    s.posted.length + s.completions.length ≤ numReceiveWr ∧ Counted s := by
  obtain ⟨posts, h⟩ := inv_run threshold acts hc
  rw [← hs] at h
  exact ⟨h.reading.processed, h.slot_ne, h.outstanding_le, h.reading.counted⟩

/-! ### Exactly when the requirement holds -/

/-- A poll comes back empty. -/
def PollsNothing (s : System) : Act → Prop
  | .arrive _ => True
  | .doReceive n _ => returned n s = 0

/-- Nothing was polled yet. -/
structure Unpolled (s : System) : Prop where
  inv : Inv numReceiveWr s
  polled : s.polled = 0

theorem Unpolled.consumes {s : System} (h : Unpolled s) : Consumes s := by
  have hprocessed : s.processed = [] := by
    rw [h.inv.reading.processed, h.polled]
    rfl
  have hcounted := h.inv.reading.counted
  refine ⟨?_, h.inv.slot_ne, h.inv.outstanding_le, hcounted.count, hcounted.sum, hcounted.max, hcounted.max_mem, ?_, ?_⟩
  · rw [hprocessed, h.polled]
    rfl
  · rw [hprocessed]
    exact fun x hx => absurd hx List.not_mem_nil
  · exact fun hne => absurd hprocessed hne

/-- After the first poll that returns something, more than half of the ring is still posted. -/
theorem Unpolled.doReceive {s : System} (h : Unpolled s) (n : ℕ) (credited : Bool) :
    ∃ posts, Inv posts (s.doReceive n credited) ∧ posts = numReceiveWr ∧
      (s.doReceive n credited).polled = returned n s := by
  have hinv := inv_processAll n h.inv
  have hpolled : (s.poll n).processAll.polled = returned n s := by
    rw [System.processAll, polled_iterate, (ring_poll n h.inv.ring).2, h.polled, Nat.zero_add]
  have hret := returned_le n s
  have hN : numReceiveWr = 1024 := rfl
  have hrepost : s.doReceive n credited = (s.poll n).processAll :=
    repost_of_le credited hinv.ring (by omega)
  rw [hrepost]
  exact ⟨_, hinv, rfl, hpolled⟩

theorem Unpolled.step {s : System} (h : Unpolled s) {a : Act} (ha : PollsNothing s a) : Unpolled (step s a) := by
  cases a with
  | arrive message =>
    refine ⟨inv_arrive message h.inv, ?_⟩
    rw [← h.polled]
    show (s.arrive message).polled = s.polled
    unfold System.arrive
    split <;> rfl
  | doReceive n credited =>
    obtain ⟨posts, hinv, rfl, hpolled⟩ := h.doReceive n credited
    exact ⟨hinv, hpolled.trans ha⟩

/-- The last message of the first poll that returns any is not processed. -/
theorem Unpolled.not_consumes {s : System} (h : Unpolled s) {a : Act} (ha : ¬PollsNothing s a) :
    ¬Consumes (Statistics.step s a) := by
  cases a with
  | arrive message => exact absurd trivial ha
  | doReceive n credited =>
    intro hcons
    change Consumes (s.doReceive n credited) at hcons
    obtain ⟨posts, hinv, -, hpolled⟩ := h.doReceive n credited
    have hle := hinv.ring.polled_le
    have hlen := congrArg List.length (hcons.processed.symm.trans hinv.reading.processed)
    have hpos : returned n s ≠ 0 := ha
    rw [List.length_take, List.length_take, length_values] at hlen
    omega

/-- What is required of the server holds in all states of a run exactly when all its polls come back empty. -/
theorem consumes_run (threshold : BitVec 32) (acts : List Act) :
    (∀ n, Consumes (run step (.init threshold) (acts.take n))) ↔ Along step PollsNothing (.init threshold) acts := by
  refine (along_iff_forall_prefix_of (P := Unpolled) (fun s h => h.consumes) (fun s a h ha => h.step ha)
    (fun s a h ha => h.not_consumes ha) acts _ ⟨inv_init threshold, rfl⟩).symm

/-- A message with the value 5 arrives and is polled. -/
theorem not_consumes_oneMessage :
    ¬∀ n, Consumes (run step (.init 0) (([.arrive 5, .doReceive 16 true] : List Act).take n)) := by
  intro h
  have hposted := (inv_init 0).ring.posted
  have hlen : (System.init 0).arrived.length = 0 := rfl
  rw [hlen, Nat.sub_zero, show numReceiveWr = 1023 + 1 from rfl, ids_succ] at hposted
  have hunpolled : Unpolled (step (.init 0) (.arrive 5)) := Unpolled.step ⟨inv_init 0, rfl⟩ trivial
  have hreturned : returned 16 (step (.init 0) (.arrive 5)) = 1 := by
    rw [step, arrive_of_cons hposted]
    rfl
  have hpolls : ¬PollsNothing (step (.init 0) (.arrive 5)) (.doReceive 16 true) := by
    rw [PollsNothing, hreturned]
    decide
  have htwo := h 2
  rw [List.take_succ_cons, List.take_succ_cons, List.take_zero, run_cons, run_cons, run_nil] at htwo
  exact hunpolled.not_consumes hpolls htwo

end Nica.Software.Statistics
