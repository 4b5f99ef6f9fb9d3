import Mathlib.Data.List.FinRange
import Mathlib.Data.List.Chain
import Nica.Hls.Cms
import Nica.Lib.CountMin
import Nica.Lib.Run

/-!
# What the Count-Min sketch guarantees

`sketchOf hashes us` is the sketch after the updates `us`.  Its cells are the sums of a Count-Min sketch modulo
`2 ^ 32` (`C_sketchOf`), so as long as the total stays within an `int`, its estimates are the estimates of the
library (`toNat_estimate`), whatever the coefficients are.
-/

namespace Nica.Hls

open Nica.Lib

namespace CountMinSketch

/-- The coefficients of the rows. -/
abbrev Hashes := Fin depth → Fin 2 → BitVec 32

/-- The sketch after the updates `us`. -/
def sketchOf (hashes : Hashes) (us : List (BitVec 32 × BitVec 32)) : CountMinSketch :=
  us.foldl (fun s u => s.update u.1 u.2) (.new hashes)

/-- The updates with their counts as numbers. -/
def counts (us : List (BitVec 32 × BitVec 32)) : List (BitVec 32 × ℕ) := us.map fun u => (u.1, u.2.toNat)

/-- The counts are not negative, and their total does not exceed `INT_MAX`. -/
def Fits (us : List (BitVec 32 × BitVec 32)) : Prop :=
  (∀ u ∈ us, 0 ≤ u.2.toInt) ∧ CountMin.total (counts us) ≤ 2 ^ 31 - 1

instance (us : List (BitVec 32 × BitVec 32)) : Decidable (Fits us) := inferInstanceAs (Decidable (_ ∧ _))

/-! ### Updates -/

variable {hashes : Hashes} {us : List (BitVec 32 × BitVec 32)}

theorem foldl_addCell (item c : BitVec 32) {rows : List (Fin depth)} (hrows : rows.Nodup) (s : CountMinSketch) :
    rows.foldl (fun s j => s.addCell j (hashval s.hashes j item) c) s =
      { s with C := fun j k => s.C j k + if j ∈ rows ∧ hashval s.hashes j item = k then c else 0 } := by
  induction rows generalizing s with
  | nil => simp
  | cons j rows ih =>
    obtain ⟨hnot, hnodup⟩ := List.nodup_cons.mp hrows
    rw [List.foldl_cons, ih hnodup]
    simp only [addCell, CountMinSketch.mk.injEq, true_and, and_true]
    funext i k
    by_cases hij : i = j
    · subst hij
      rw [Function.update_self]
      by_cases hk : hashval s.hashes i item = k
      · subst hk
        simp [hnot]
      · simp [hnot, hk, Function.update_of_ne (Ne.symm hk)]
    · simp only [Function.update_of_ne hij, List.mem_cons, hij, false_or]
      congr

/-- An update adds to the total and to one cell of each row. -/
theorem update_eq (s : CountMinSketch) (item c : BitVec 32) :
    s.update item c =
      { total := s.total + c
        C := fun j k => s.C j k + if hashval s.hashes j item = k then c else 0
        hashes := s.hashes } := by
  rw [update, foldl_addCell item c (List.nodup_finRange depth)]
  simp [List.mem_finRange]

theorem sketchOf_append (us vs : List (BitVec 32 × BitVec 32)) :
    sketchOf hashes (us ++ vs) = vs.foldl (fun s u => s.update u.1 u.2) (sketchOf hashes us) :=
  List.foldl_append

/-- The sketch holds the sums of a Count-Min sketch modulo `2 ^ 32`. -/
theorem sketchOf_eq (hashes : Hashes) (us : List (BitVec 32 × BitVec 32)) :
    sketchOf hashes us =
      { total := BitVec.ofNat 32 (CountMin.total (counts us))
        C := fun j k => BitVec.ofNat 32 (CountMin.cell (hashval hashes j) k (counts us))
        hashes := hashes } := by
  induction us using List.reverseRecOn with
  | nil => rfl
  | append_singleton us u ih =>
    rw [sketchOf_append, ih, List.foldl_cons, List.foldl_nil, update_eq]
    simp only [counts, List.map_append, List.map_singleton, CountMin.total, CountMin.cell,
      CountMin.weight_append, CountMin.weight_cons, CountMin.weight_nil, Nat.add_zero, BitVec.ofNat_add,
      if_true, BitVec.ofNat_toNat, BitVec.setWidth_eq, decide_eq_true_eq]
    congr 1
    funext j k
    split <;> simp

/-! ### Estimates -/

theorem counts_append (us vs : List (BitVec 32 × BitVec 32)) : counts (us ++ vs) = counts us ++ counts vs :=
  List.map_append

theorem total_append (us vs : List (BitVec 32 × BitVec 32)) :
    CountMin.total (counts (us ++ vs)) = CountMin.total (counts us) + CountMin.total (counts vs) := by
  rw [counts_append, CountMin.total, CountMin.weight_append]
  rfl

theorem Fits.append_left {vs : List (BitVec 32 × BitVec 32)} (h : Fits (us ++ vs)) : Fits us := by
  refine ⟨fun u hu => h.1 u (List.mem_append_left vs hu), ?_⟩
  have htotal := h.2
  rw [total_append] at htotal
  omega

/-- The estimate of the library, with a row for each row of the sketch. -/
def bound (hashes : Hashes) (us : List (BitVec 32 × BitVec 32)) (item : BitVec 32) : ℕ :=
  CountMin.estimate (hashval hashes) (2 ^ 31 - 1) (List.finRange depth) (counts us) item

/-- Below `2 ^ 31` the minimum of two `int` is that of their values. -/
theorem toNat_intMin {a b : BitVec 32} (ha : a.toNat < 2 ^ 31) (hb : b.toNat < 2 ^ 31) :
    (intMin a b).toNat = min a.toNat b.toNat := by
  have hslt : b.slt a = decide (b.toNat < a.toNat) := by
    rw [BitVec.slt_eq_decide, BitVec.toInt_eq_toNat_of_lt (by omega), BitVec.toInt_eq_toNat_of_lt (by omega)]
    simp
  rw [intMin, hslt]
  by_cases hlt : b.toNat < a.toNat
  · simp [hlt, Nat.min_eq_right (Nat.le_of_lt hlt)]
  · simp [hlt, Nat.min_eq_left (Nat.not_lt.mp hlt)]

/-- The loop of `estimate`, with cells that are all below `2 ^ 31`. -/
theorem toNat_foldl_intMin {f : Fin depth → ℕ} (hf : ∀ j, f j < 2 ^ 31) (rows : List (Fin depth))
    {m : BitVec 32} (hm : m.toNat < 2 ^ 31) :
    (rows.foldl (fun m j => intMin m (BitVec.ofNat 32 (f j))) m).toNat =
      rows.foldl (fun n j => min n (f j)) m.toNat := by
  induction rows generalizing m with
  | nil => rfl
  | cons j rows ih =>
    have hcell : (BitVec.ofNat 32 (f j)).toNat = f j := by
      rw [BitVec.toNat_ofNat]
      exact Nat.mod_eq_of_lt (Nat.lt_trans (hf j) (by decide))
    have hmin := toNat_intMin hm (hcell.symm ▸ hf j : (BitVec.ofNat 32 (f j)).toNat < 2 ^ 31)
    rw [List.foldl_cons, List.foldl_cons, ih (by rw [hmin]; exact Nat.lt_of_le_of_lt (Nat.min_le_left _ _) hm),
      hmin, hcell]

/-- Within an `int`, the estimates are those of the library. -/
theorem toNat_estimate (h : Fits us) (item : BitVec 32) :
    ((sketchOf hashes us).estimate item).toNat = bound hashes us item := by
  have hcells : ∀ j, CountMin.cell (hashval hashes j) (hashval hashes j item) (counts us) < 2 ^ 31 := by
    intro j
    have hle := CountMin.cell_le_total (hashval hashes j) (hashval hashes j item) (counts us)
    have htotal := h.2
    omega
  rw [sketchOf_eq]
  exact toNat_foldl_intMin hcells _ (by decide)

theorem toNat_total (h : Fits us) : (sketchOf hashes us).total.toNat = CountMin.total (counts us) := by
  have htotal := h.2
  rw [sketchOf_eq, BitVec.toNat_ofNat]
  exact Nat.mod_eq_of_lt (by omega)

/-- An update by 1 raises the estimate of its item. -/
theorem estimate_lt {item : BitVec 32} (h : Fits (us ++ [(item, 1)])) :
    ((sketchOf hashes us).estimate item).toNat <
      ((sketchOf hashes (us ++ [(item, 1)])).estimate item).toNat := by
  have htotal := h.2
  rw [total_append] at htotal
  rw [toNat_estimate h, toNat_estimate h.append_left, bound, bound, counts_append]
  exact CountMin.estimate_succ_le (by decide) item htotal

theorem estimate_mono {vs : List (BitVec 32 × BitVec 32)} (h : Fits (us ++ vs)) (item : BitVec 32) :
    ((sketchOf hashes us).estimate item).toNat ≤ ((sketchOf hashes (us ++ vs)).estimate item).toNat := by
  rw [toNat_estimate h, toNat_estimate h.append_left, bound, bound, counts_append]
  exact CountMin.estimate_mono _ _ item

/-- What the sketch guarantees after the updates `us`. -/
structure Guarantees (hashes : Hashes) (us : List (BitVec 32 × BitVec 32)) : Prop where
  count_le : ∀ item, CountMin.count item (counts us) ≤ ((sketchOf hashes us).estimate item).toNat
  le_total : ∀ item, ((sketchOf hashes us).estimate item).toNat ≤ (sketchOf hashes us).total.toNat
  total_eq : (sketchOf hashes us).total.toNat = CountMin.total (counts us)
  mono : ∀ vs ws, us = vs ++ ws → ∀ item,
    ((sketchOf hashes vs).estimate item).toNat ≤ ((sketchOf hashes us).estimate item).toNat
  perm : ∀ vs, us.Perm vs → sketchOf hashes us = sketchOf hashes vs
  increases : ∀ vs ws item, us = vs ++ (item, 1) :: ws →
    ((sketchOf hashes vs).estimate item).toNat + 1 ≤ ((sketchOf hashes (vs ++ [(item, 1)])).estimate item).toNat

theorem guarantees (h : Fits us) : Guarantees hashes us where
  count_le item := by
    rw [toNat_estimate h]
    exact CountMin.count_le_estimate h.2 item
  le_total item := by
    rw [toNat_estimate h, toNat_total h]
    exact CountMin.estimate_le_total (by decide) _ item
  total_eq := toNat_total h
  mono := by
    rintro vs ws rfl item
    exact estimate_mono h item
  perm vs hperm := by
    have hcounts : (counts us).Perm (counts vs) := hperm.map _
    rw [sketchOf_eq, sketchOf_eq, CountMin.total, CountMin.total, CountMin.weight_perm _ hcounts]
    congr 1
    funext j k
    rw [CountMin.cell, CountMin.cell, CountMin.weight_perm _ hcounts]
  increases := by
    rintro vs ws item rfl
    rw [List.append_cons] at h
    exact estimate_lt h.append_left

end CountMinSketch

/-! ### The ikernel -/

namespace Cms

open CountMinSketch

variable {hashes : Hashes}

/-- The values, each counted once. -/
def once (vals : List (BitVec 32)) : List (BitVec 32 × BitVec 32) := vals.map fun v => (v, 1)

theorem total_once (vals : List (BitVec 32)) : CountMin.total (counts (once vals)) = vals.length := by
  induction vals with
  | nil => rfl
  | cons v vals ih =>
    rw [once, counts, List.map_cons, List.map_cons, CountMin.total, CountMin.weight_cons, List.length_cons]
    show 1 + CountMin.total (counts (once vals)) = _
    rw [ih, Nat.add_comm]

theorem fits_once {vals : List (BitVec 32)} (h : vals.length ≤ 2 ^ 31 - 1) : Fits (once vals) := by
  refine ⟨?_, by rwa [total_once]⟩
  intro u hu
  obtain ⟨v, -, rfl⟩ := List.mem_map.mp hu
  exact (by decide : 0 ≤ (1 : BitVec 32).toInt)

/-- What is sent to the heap for the values `vals`, behind the values `before`. -/
def sends (hashes : Hashes) (before : List (BitVec 32)) : List (BitVec 32) → List ValueAndFrequency
  | [] => []
  | v :: vals =>
    ⟨v, (sketchOf hashes (once (before ++ [v]))).estimate v⟩ :: sends hashes (before ++ [v]) vals

theorem sends_append (before vals : List (BitVec 32)) (v : BitVec 32) :
    sends hashes before (vals ++ [v]) = sends hashes before vals ++
      [⟨v, (sketchOf hashes (once (before ++ vals ++ [v]))).estimate v⟩] := by
  induction vals generalizing before with
  | nil => simp [sends]
  | cons w vals ih =>
    rw [List.cons_append, sends, ih, sends, List.cons_append]
    simp

/-- What is sent for a value exceeds its estimate before. -/
theorem estimate_lt_sends {before vals : List (BitVec 32)} (h : (before ++ vals).length ≤ 2 ^ 31 - 1)
    {kv : ValueAndFrequency} (hkv : kv ∈ sends hashes before vals) :
    ((sketchOf hashes (once before)).estimate kv.entity).toNat < kv.frequency.toNat := by
  induction vals generalizing before with
  | nil => cases hkv
  | cons v vals ih =>
    rw [List.append_cons] at h
    have hfits := fits_once h
    rw [once, List.map_append] at hfits
    have hone : once (before ++ [v]) = once before ++ [(v, 1)] := List.map_append
    have hhead : Fits (once before ++ [(v, 1)]) := hone ▸ hfits.append_left
    rcases List.mem_cons.mp hkv with rfl | hkv
    · show _ < ((sketchOf hashes (once (before ++ [v]))).estimate v).toNat
      rw [hone]
      exact estimate_lt hhead
    · refine Nat.lt_of_le_of_lt ?_ (ih h hkv)
      rw [hone]
      exact estimate_mono hhead _

/-- What is sent for one key is strictly increasing. -/
theorem pairwise_sends {before vals : List (BitVec 32)} (h : (before ++ vals).length ≤ 2 ^ 31 - 1) :
    (sends hashes before vals).Pairwise fun kv kv' =>
      kv.entity = kv'.entity → kv.frequency.toNat < kv'.frequency.toNat := by
  induction vals generalizing before with
  | nil => exact List.Pairwise.nil
  | cons v vals ih =>
    rw [List.append_cons] at h
    refine List.pairwise_cons.mpr ⟨?_, ih h⟩
    intro kv hkv heq
    show ((sketchOf hashes (once (before ++ [v]))).estimate v).toNat < _
    have hlt := estimate_lt_sends h hkv
    rwa [← heq] at hlt

/-! ### Runs -/

/-- The call writes no coefficient. -/
def Act.keepsHashes : Act → Prop
  | .regWrite address _ => ¬(0 ≤ address - hashesBase ∧ address - hashesBase < (2 * depth : ℕ))
  | _ => True

instance (a : Act) : Decidable a.keepsHashes := by
  unfold Act.keepsHashes
  split <;> infer_instance

/-- No coefficient is on its way, and the sketch counts the values that were read. -/
structure Inv (hashes : Hashes) (s : State) : Prop where
  addresses : s.hashesAddresses.head = none
  sketch : s.sketch = sketchOf hashes (once s.valuesStream.past)
  toHeap : s.toHeap = sends hashes [] s.valuesStream.past

theorem inv_init (hashes : Hashes) : Inv hashes (State.init hashes) := ⟨rfl, rfl, rfl⟩

theorem inv_netIngress {s : State} (h : Inv hashes s) (valuesFull : Bool) : Inv hashes (netIngress valuesFull s) := by
  unfold netIngress
  split
  · split
    · exact h
    · exact ⟨h.addresses, h.sketch, h.toHeap⟩
  · split
    · exact h
    · split
      · exact h
      · exact ⟨h.addresses, h.sketch, h.toHeap⟩
  · split
    · exact h
    · exact ⟨h.addresses, h.sketch, h.toHeap⟩

theorem takeHash_eq {s : State} (h : s.hashesAddresses.head = none) : takeHash s = s := by
  unfold takeHash
  rw [h]

theorem inv_writeToHeap {s : State} (h : Inv hashes s) : Inv hashes (writeToHeap s) := by
  rw [writeToHeap, takeHash_eq h.addresses, countValue]
  cases hval : s.valuesStream.head with
  | none => exact h
  | some val =>
    have hpast := s.valuesStream.past_readIf_true hval
    have hsketch : s.sketch.update val 1 = sketchOf hashes (once (s.valuesStream.past ++ [val])) := by
      rw [once, List.map_append, sketchOf_append, h.sketch]
      rfl
    refine ⟨h.addresses, ?_, ?_⟩
    · show s.sketch.update val 1 = sketchOf hashes (once (s.valuesStream.readIf true).past)
      rw [hpast, hsketch]
    · show s.toHeap ++ [⟨val, (s.sketch.update val 1).estimate val⟩] =
        sends hashes [] (s.valuesStream.readIf true).past
      rw [hpast, sends_append, ← h.toHeap, hsketch, List.nil_append]

theorem inv_step {s : State} (a : Act) (ha : a.keepsHashes) (h : Inv hashes s) : Inv hashes (step s a) := by
  cases a with
  | netIngress valuesFull => exact inv_netIngress h valuesFull
  | writeToHeap => exact inv_writeToHeap h
  | regWrite address value =>
    have hkeep : (regWrite address value s).1 = s := by
      unfold regWrite
      rw [dif_neg ha]
      split <;> rfl
    rw [step, hkeep]
    exact h
  | arriveMeta m => exact ⟨h.addresses, h.sketch, h.toHeap⟩
  | arriveData b => exact ⟨h.addresses, h.sketch, h.toHeap⟩

/-- **The Count-Min sketch.**  For all coefficients and all updates with counts that are not negative and add up
to at most `INT_MAX`, the sketch is as guaranteed; and in every run of the ikernel that writes no coefficient and
counts at most `INT_MAX` values, what is sent to the heap for one key is strictly increasing. -/
theorem guarantees_run (hashes : Hashes) (us : List (BitVec 32 × BitVec 32)) (hus : Fits us) (acts : List Act)
    (hacts : ∀ a ∈ acts, a.keepsHashes)
    (hvalues : (run step (State.init hashes) acts).valuesStream.past.length ≤ 2 ^ 31 - 1) :
    Guarantees hashes us ∧
      (run step (State.init hashes) acts).toHeap.Pairwise fun kv kv' =>
        kv.entity = kv'.entity → kv.frequency.toNat < kv'.frequency.toNat := by
  refine ⟨guarantees hus, ?_⟩
  have hinv : Inv hashes (run step (State.init hashes) acts) :=
    run_induction (fun _ a ha h => inv_step a ha h) acts _ (along_of_forall acts _ hacts) (inv_init hashes)
  rw [hinv.toHeap]
  exact pairwise_sends (by rwa [List.nil_append])

/-- A packet with the value 5, from its arrival to the heap. -/
def onePacket : List Act :=
  [.arriveMeta ⟨0, 0, 0, .inr ⟨0⟩, 0, 0, 18⟩, .arriveData ⟨5 <<< 112, 0xffffc000, true⟩, .netIngress false,
    .netIngress false, .writeToHeap]

theorem guarantees_run_twoPackets :
    Guarantees (fun _ _ => 7) [(1, 3), (2, 2), (3, 1), (1, 1)] ∧
      (run step (State.init fun _ _ => 7) (onePacket ++ onePacket)).toHeap.Pairwise fun kv kv' =>
        kv.entity = kv'.entity → kv.frequency.toNat < kv'.frequency.toNat := by
  have hfits : Fits [(1, 3), (2, 2), (3, 1), (1, 1)] := by
    refine ⟨?_, ?_⟩
    · simp only [List.forall_mem_cons, List.not_mem_nil, false_imp_iff, implies_true, and_true]
      decide
    · have htotal : CountMin.total (counts [(1, 3), (2, 2), (3, 1), (1, 1)]) = 7 := rfl
      omega
  have hlen : (run step (State.init fun _ _ => 7) (onePacket ++ onePacket)).valuesStream.past.length = 2 := by
    decide +kernel
  exact guarantees_run (fun _ _ => 7) _ hfits (onePacket ++ onePacket) (by decide +kernel) (by omega)

end Cms

end Nica.Hls
