import Nica.Hls.Equiv.Cms
import Nica.Verilog.Equiv.CmsHeapTopK

/-!
# The heavy hitters of the Count-Min sketch (`ikernels/verilog/cms_wrapper.v`)

The ikernel counts the values in a sketch and sends each with its new estimate to the heap.  The estimates of one value
grow, which is what the heap needs to keep the largest (`growing_toHeap`), and none is below the true count.  So what is
read from the heap leaves out no value that was counted more often than the frequency of a value in it
(`heavyHitters_run`).
-/

namespace Nica.Device

open Nica.Lib
open Nica.Hls (CountMinSketch)
open Nica.Hls.CountMinSketch (Hashes sketchOf counts)
open Nica.Hls.Cms (ValueAndFrequency Act once sends)
open Nica.Verilog.CmsHeap

/-- `to_heap` of the ikernel on `key_in` and `value_in` of the heap. -/
def pairOf (kv : ValueAndFrequency) : Pair := ⟨kv.entity, kv.frequency⟩

variable {hashes : Hashes} {vals : List (BitVec 32)}

theorem growing_toHeap (h : vals.length ≤ 2 ^ 31 - 1) :
    Growing Pair.key Pair.toNat ((sends hashes [] vals).map pairOf) := by
  have hlen : ([] ++ vals).length ≤ 2 ^ 31 - 1 := h
  exact List.pairwise_map.mpr (Hls.Cms.pairwise_sends hlen)

theorem count_once (v : BitVec 32) (vals : List (BitVec 32)) : CountMin.count v (counts (once vals)) = vals.count v := by
  induction vals with
  | nil => rfl
  | cons w vals ih =>
    have hcons : counts (once (w :: vals)) = (w, 1) :: counts (once vals) := rfl
    rw [hcons, CountMin.count, CountMin.weight_cons, List.count_cons, ← ih, Nat.add_comm]
    simp [CountMin.count]

/-- The estimate of a value is not below its count, and not above the count of all. -/
theorem estimate_bounds (h : vals.length ≤ 2 ^ 31 - 1) (v : BitVec 32) :
    vals.count v ≤ ((sketchOf hashes (once vals)).estimate v).toNat ∧
      ((sketchOf hashes (once vals)).estimate v).toNat ≤ vals.length := by
  have hall : CountMinSketch.Guarantees hashes (once vals) := CountMinSketch.guarantees (Hls.Cms.fits_once h)
  constructor
  · rw [← count_once]
    exact hall.count_le v
  · refine (hall.le_total v).trans ?_
    rw [hall.total_eq, Hls.Cms.total_once]

variable (hashes) in
/-- What was sent last for a value. -/
theorem latest_sends (h : vals.length ≤ 2 ^ 31 - 1) {v : BitVec 32} (hv : v ∈ vals) :
    ∃ p, latestOf Pair.key ((sends hashes [] vals).map pairOf) v = some p ∧ vals.count v ≤ p.toNat ∧
      p.toNat ≤ vals.length := by
  induction vals using List.reverseRecOn with
  | nil => cases hv
  | append_singleton vals w ih =>
    rw [Hls.Cms.sends_append, List.nil_append, List.map_append, List.map_singleton, latestOf_append]
    by_cases hw : v = w
    · -- it is the value that was counted last
      have hkey : (pairOf ⟨w, (sketchOf hashes (once (vals ++ [w]))).estimate w⟩).key = v := hw.symm
      rw [hkey, Function.update_self, hw]
      exact ⟨_, rfl, estimate_bounds h w⟩
    · have hmem : v ∈ vals := by simpa [hw] using hv
      rw [List.length_append, List.length_singleton] at h ⊢
      obtain ⟨p, hp, hcount, htotal⟩ := ih (by omega) hmem
      refine ⟨p, ?_, ?_, by omega⟩
      · exact (Function.update_of_ne hw _ _).trans hp
      · rw [List.count_append, List.count_singleton, if_neg (by simpa using fun hwv => hw hwv.symm)]
        exact hcount

theorem mem_of_sends {kv : ValueAndFrequency} (before : List (BitVec 32)) (hkv : kv ∈ sends hashes before vals) :
    kv.entity ∈ vals := by
  induction vals generalizing before with
  | nil => cases hkv
  | cons v vals ih =>
    rcases List.mem_cons.mp hkv with rfl | hkv
    · exact List.mem_cons_self ..
    · exact List.mem_cons_of_mem _ (ih _ hkv)

/-- What the heap returns after the values `vals`. -/
structure HeavyHitters (depth : ℕ) (vals : List (BitVec 32)) (held : List Pair) : Prop where
  nodup : (held.map Pair.key).Nodup
  descending : held.Pairwise fun p q => q.toNat ≤ p.toNat
  length_le : held.length ≤ depth
  counted : ∀ p ∈ held, p.key ∈ vals ∧ vals.count p.key ≤ p.toNat ∧ p.toNat ≤ vals.length
  rest : ∀ v ∈ vals, v ∉ held.map Pair.key → held.length = depth ∧ ∀ p ∈ held, vals.count v ≤ p.toNat

theorem heavyHitters_of_topK {depth : ℕ} {held : List Pair} (h : vals.length ≤ 2 ^ 31 - 1)
    (htop : TopK Pair.key Pair.toNat depth (latestOf Pair.key ((sends hashes [] vals).map pairOf)) held) :
    HeavyHitters depth vals held := by
  refine ⟨htop.nodup, htop.descending, htop.length_le, fun p hp => ?_, fun v hv hnot => ?_⟩
  · have hlatest := htop.newest p hp
    have hmem : p.key ∈ vals := by
      obtain ⟨kv, hkv, rfl⟩ := List.mem_map.mp (key_of_latestOf hlatest).2
      exact mem_of_sends [] hkv
    obtain ⟨q, hq, hcount, htotal⟩ := latest_sends hashes h hmem
    obtain rfl : p = q := Option.some.inj (hlatest.symm.trans hq)
    exact ⟨hmem, hcount, htotal⟩
  · obtain ⟨q, hq, hcount, -⟩ := latest_sends hashes h hv
    have hout : q ∉ held := by
      intro hq'
      refine hnot (List.mem_map.mpr ⟨q, hq', ?_⟩)
      exact (key_of_latestOf hq).1
    obtain ⟨hlen, hmin⟩ := htop.rest v q hq hout
    exact ⟨hlen, fun p hp => hcount.trans (hmin p hp)⟩

end Nica.Device
