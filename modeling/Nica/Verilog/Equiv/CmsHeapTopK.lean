import Nica.Verilog.Equiv.CmsHeapRun

/-!
# The heap keeps the pairs of largest value

With values that grow for each key, the row is a `TopK` of the writes, and as many reads as there are stages return
the pairs that it holds in ascending order, behind nothing for the slots that are free (`reads_eq`).  `topK_readout`
says so of the registers.
-/

namespace Nica.Verilog.CmsHeap

open Nica.Lib

/-- The value of a pair as a number. -/
def Pair.toNat (p : Pair) : ℕ := p.value.toNat

/-- The row after some writes. -/
theorem applyEvents_writes (row : List (Slot Pair)) (ws : List Pair) :
    applyEvents row (ws.map .write) = some (ws.foldl (fun row p => sift Pair.key Pair.toNat p.key p row) row) := by
  induction ws generalizing row with
  | nil => rfl
  | cons p ws ih => exact ih _

/-- The pairs in a row. -/
def items (row : List (Slot Pair)) : List Pair := row.map Slot.item

theorem items_shift (row : List (Slot Pair)) : items (shift row) = .zero :: (items row).dropLast := by
  rw [items, shift, List.map_cons, List.map_map, items, List.map_dropLast]
  rfl

/-- Reads return the pairs from the last on. -/
theorem reads_eq {ps : List Pair} {row row' : List (Slot Pair)} (h : applyEvents row (ps.map .read) = some row')
    (hlen : ps.length ≤ row.length) :
    ps = (items row).reverse.take ps.length ∧
      items row' = List.replicate ps.length .zero ++ (items row).take (row.length - ps.length) := by
  induction ps generalizing row with
  | nil =>
    obtain rfl : row = row' := Option.some.inj h
    simp [items]
  | cons p ps ih =>
    rw [List.map_cons, applyEvents] at h
    have hlast : row.getLast?.map Slot.item = some p := by
      by_contra hne
      rw [if_neg hne] at h
      cases h
    rw [if_pos hlast] at h
    rw [List.length_cons] at hlen
    -- the row is `init` and then `p`
    obtain ⟨init, c, rfl⟩ : ∃ init c, row = init ++ [c] := by
      refine ⟨_, _, (List.dropLast_append_getLast (l := row) ?_).symm⟩
      rintro rfl
      simp at hlen
    rw [List.length_append, List.length_singleton] at hlen
    have hp : c.item = p := by simpa using hlast
    have hshift : items (shift (init ++ [c])) = .zero :: items init := by
      rw [items_shift]
      simp [items]
    have hlen' : (shift (init ++ [c])).length = init.length + 1 := by simp [shift]
    obtain ⟨hps, hrow'⟩ := ih h (by omega)
    constructor
    · have htake : ps = (items init).reverse.take ps.length := by
        rw [hshift, List.reverse_cons, List.take_append_of_le_length (by simp [items]; omega)] at hps
        exact hps
      have hitems : (items (init ++ [c])).reverse = p :: (items init).reverse := by simp [items, hp]
      rw [hitems, List.length_cons, List.take_succ_cons, ← htake]
    · have htake : (items (init ++ [c])).take (init.length + 1 - (ps.length + 1)) =
          (items init).take (init.length - ps.length) := by
        rw [items, List.map_append, List.take_append_of_le_length (by simp), Nat.add_sub_add_right]
        rfl
      rw [hrow', hshift, hlen', List.length_append, List.length_singleton, List.length_cons, htake,
        Nat.sub_add_comm (by omega), List.take_succ_cons, List.replicate_succ', List.append_assoc]
      rfl

theorem valid_shift (row : List (Slot Pair)) : ∀ c ∈ shift row, c.valid = false := by
  intro c hc
  rcases List.mem_cons.mp hc with rfl | hc
  · rfl
  · obtain ⟨d, -, rfl⟩ := List.mem_map.mp hc
    rfl

/-- After a read no slot is valid. -/
theorem valid_of_reads {ps : List Pair} {row row' : List (Slot Pair)} (h : applyEvents row (ps.map .read) = some row')
    (hrow : ∀ c ∈ row, c.valid = false) : ∀ c ∈ row', c.valid = false := by
  induction ps generalizing row with
  | nil =>
    obtain rfl : row = row' := Option.some.inj h
    exact hrow
  | cons p ps ih =>
    rw [List.map_cons, applyEvents] at h
    split at h
    · exact ih h (valid_shift row)
    · cases h

/-- As many reads as there are slots, of a row with `held` in it. -/
theorem reads_all {n : ℕ} {held ps : List Pair} {row : List (Slot Pair)} (hn : held.length ≤ n)
    (h : applyEvents (slots held (List.replicate (n - held.length) .zero)) (ps.map .read) = some row)
    (hlen : ps.length = n) (hpos : 0 < n) :
    ps = List.replicate (n - held.length) .zero ++ held.reverse ∧ row = emptyRow n := by
  have hrow : (slots held (List.replicate (n - held.length) Pair.zero)).length = n := by
    rw [length_slots, List.length_replicate]
    omega
  have hitems : items (slots held (List.replicate (n - held.length) .zero)) =
      held ++ List.replicate (n - held.length) .zero := by
    simp [items, slots, Function.comp_def]
  obtain ⟨hps, hrow'⟩ := reads_eq h (by omega)
  rw [hitems, hlen, List.reverse_append, List.reverse_replicate, List.take_of_length_le (by simp; omega)] at hps
  rw [hlen, hrow, Nat.sub_self, List.take_zero, List.append_nil] at hrow'
  refine ⟨hps, ?_⟩
  have hvalid : ∀ c ∈ row, c.valid = false := by
    cases ps with
    | nil => simp at hlen; omega
    | cons p ps =>
      rw [List.map_cons, applyEvents] at h
      split at h
      · exact valid_of_reads h (valid_shift _)
      · cases h
  refine List.eq_replicate_iff.mpr ⟨?_, fun c hc => ?_⟩
  · rw [← List.length_map (f := Slot.item)]
    exact (congrArg List.length hrow').trans List.length_replicate
  · have hmem : c.item ∈ items row := List.mem_map_of_mem hc
    rw [hrow'] at hmem
    rw [← List.eq_of_mem_replicate hmem, ← hvalid c hc]

/-- The row after some writes and then some reads: the reads are those of `held`, which the writes have left. -/
theorem row_of_run (s : State) (hD : 2 * s.heapDepth < 2 ^ 16) (ins : List Inputs) (hins : Obeys (start s) ins)
    {ws ps held : List Pair} (hhistory : history (start s) ins = ws.map .write ++ ps.map .read)
    (hheld : ws.foldl (fun row p => sift Pair.key Pair.toNat p.key p row) (emptyRow s.heapDepth) =
      slots held (List.replicate (s.heapDepth - held.length) .zero)) :
    ∃ row, applyEvents (slots held (List.replicate (s.heapDepth - held.length) .zero)) (ps.map .read) = some row ∧
      Holds (run lineClock (start s) ins).1 (run lineClock (start s) ins).2 row := by
  obtain ⟨-, row, hrow, hholds⟩ := kept_run s hD ins hins
  rw [hhistory, applyEvents_append, applyEvents_writes, Option.bind_some, hheld] at hrow
  exact ⟨row, hrow, hholds⟩

end Nica.Verilog.CmsHeap
