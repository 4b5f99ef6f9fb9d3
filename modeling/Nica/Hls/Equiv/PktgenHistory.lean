import Nica.Hls.Pktgen
import Nica.Lib.Lanes
import Nica.Lib.Owed

/-!
# What leaves the packet generator

A `Departure` is a packet that was forwarded, or a copy of one.  `burst B p` is all that should leave for the packet
`p`: the packet, and the copies with the numbers from the burst size of its ikernel down to 1.

`History` says what has left so far: the packets are those that were taken, in their order, and what left of an
ikernel ends in the beginning of the burst of its last packet.  In an `ExactHistory` it is the bursts of all packets
of the ikernel, one after the other.
-/

namespace Nica.Hls

/-- The ikernel of a packet. -/
def Datagram.id (p : Datagram) : BitVec 6 := p.metadata.ikernelId

namespace Pktgen

open Nica.Lib

/-- A packet that was forwarded, or the copy of one with its number. -/
structure Departure where
  packet : Datagram
  copy : Option ℕ

namespace Departure

def id (d : Departure) : BitVec 6 := d.packet.id

def beats (d : Departure) : List AxiData := d.packet.beats

def metadata (d : Departure) : Metadata :=
  match d.copy with
  | none => d.packet.metadata
  | some c => { d.packet.metadata with ipIdentification := BitVec.ofNat 16 c }

theorem ikernelId_metadata (d : Departure) : d.metadata.ikernelId = d.id := by
  unfold metadata
  split
  · rfl
  · rfl

/-- The packet, if it was forwarded. -/
def input (d : Departure) : Option Datagram :=
  match d.copy with
  | none => some d.packet
  | some _ => none

end Departure

/-- The copies of a packet with the numbers from `n` down. -/
def copies (p : Datagram) : ℕ → List Departure
  | 0 => []
  | n + 1 => ⟨p, some (n + 1)⟩ :: copies p n

/-- All that leaves for a packet. -/
def burst (B : BitVec 6 → BitVec 32) (p : Datagram) : List Departure := ⟨p, none⟩ :: copies p (B p.id).toNat

/-- The packets that were forwarded. -/
def inputs (ds : List Departure) : List Datagram := ds.filterMap Departure.input

theorem length_copies (p : Datagram) (n : ℕ) : (copies p n).length = n := by
  induction n with
  | zero => rfl
  | succ n ih => rw [copies, List.length_cons, ih]

theorem length_burst (B : BitVec 6 → BitVec 32) (p : Datagram) :
    (burst B p).length = 1 + (B p.id).toNat := by
  rw [burst, List.length_cons, length_copies, Nat.add_comm]

/-- The last packet of an ikernel among the first `k`. -/
def lastOf (ps : List Datagram) (k : ℕ) (i : BitVec 6) : Option Datagram :=
  (lane Datagram.id (ps.take k) i).getLast?

section Last

variable {ps : List Datagram} {k : ℕ} {p : Datagram} {i : BitVec 6}

theorem lastOf_succ (hp : ps[k]? = some p) (i : BitVec 6) :
    lastOf ps (k + 1) i = if i = p.id then some p else lastOf ps k i := by
  rw [lastOf, lane_take_succ Datagram.id hp]
  split
  · exact List.getLast?_concat ..
  · rw [List.append_nil]
    rfl

theorem id_of_lastOf (h : lastOf ps k i = some p) : p.id = i := by
  have hmem := List.mem_of_getLast? h
  exact of_decide_eq_true (List.mem_filter.mp hmem).2

theorem mem_of_lastOf (h : lastOf ps k i = some p) : p ∈ ps := by
  have hmem := List.mem_of_getLast? h
  exact List.mem_of_mem_take (List.mem_filter.mp hmem).1

end Last

/-! ### Histories -/

variable {B : BitVec 6 → BitVec 32} {ps : List Datagram} {k : ℕ} {ds : List Departure} {r : BitVec 6 → ℕ}

/-- What has left when `k` packets were taken; `r i` copies of the last packet of ikernel `i` are still to come. -/
structure History (B : BitVec 6 → BitVec 32) (ps : List Datagram) (k : ℕ) (ds : List Departure) (r : BitVec 6 → ℕ) :
    Prop where
  inputs : inputs ds = ps.take k
  mem : ∀ d ∈ ds, d.packet ∈ ps
  le : ∀ i, r i ≤ (B i).toNat
  last : ∀ i p, lastOf ps k i = some p → ∃ earlier, lane Departure.id ds i ++ copies p (r i) = earlier ++ burst B p

/-- What has left is one burst after the other. -/
def ExactHistory (B : BitVec 6 → BitVec 32) (ps : List Datagram) (k : ℕ) (ds : List Departure)
    (r : BitVec 6 → ℕ) : Prop :=
  ∀ i, ∃ rest, lane Departure.id ds i ++ rest = (lane Datagram.id (ps.take k) i).flatMap (burst B) ∧
    rest.length = r i ∧ ∀ p, lastOf ps k i = some p → rest = copies p (r i)

theorem inputs_append (ds more : List Departure) : inputs (ds ++ more) = inputs ds ++ inputs more :=
  List.filterMap_append

theorem history_init (B : BitVec 6 → BitVec 32) (ps : List Datagram) : History B ps 0 [] fun _ => 0 where
  inputs := rfl
  mem _ h := absurd h List.not_mem_nil
  le _ := Nat.zero_le _
  last i p h := by
    rw [lastOf, List.take_zero] at h
    cases h

/-- A packet is taken: its burst begins, and that of the last one of its ikernel is over. -/
theorem History.take (h : History B ps k ds r) {p : Datagram} (hp : ps[k]? = some p) :
    History B ps (k + 1) (ds ++ [⟨p, none⟩]) (Function.update r p.id (B p.id).toNat) where
  inputs := by
    rw [inputs_append, h.inputs, take_succ_eq hp]
    rfl
  mem d hd := by
    rcases List.mem_append.mp hd with hd | hd
    · exact h.mem d hd
    · rw [List.mem_singleton.mp hd]
      exact List.mem_of_getElem? hp
  le i := by
    by_cases hi : i = p.id
    · rw [hi, Function.update_self]
    · rw [Function.update_of_ne hi]
      exact h.le i
  last i q hq := by
    rw [lastOf_succ hp] at hq
    by_cases hi : i = p.id
    · rw [if_pos hi, Option.some.injEq] at hq
      subst hq hi
      have hself : p.id = (⟨p, none⟩ : Departure).id := rfl
      refine ⟨lane Departure.id ds p.id, ?_⟩
      rw [lane_snoc, if_pos hself, Function.update_self, List.append_assoc]
      rfl
    · rw [if_neg hi] at hq
      obtain ⟨earlier, he⟩ := h.last i q hq
      refine ⟨earlier, ?_⟩
      have hne : i ≠ (⟨p, none⟩ : Departure).id := hi
      rw [lane_snoc, if_neg hne, List.append_nil, Function.update_of_ne hi, he]

/-- A copy leaves. -/
theorem History.copy (h : History B ps k ds r) {i : BitVec 6} {p : Datagram} (hp : lastOf ps k i = some p) {n : ℕ}
    (hr : r i = n + 1) : History B ps k (ds ++ [⟨p, some (n + 1)⟩]) (Function.update r i n) where
  inputs := by
    rw [inputs_append, h.inputs]
    exact List.append_nil _
  mem d hd := by
    rcases List.mem_append.mp hd with hd | hd
    · exact h.mem d hd
    · rw [List.mem_singleton.mp hd]
      exact mem_of_lastOf hp
  le j := by
    by_cases hj : j = i
    · have hle := h.le i
      rw [hj, Function.update_self]
      omega
    · rw [Function.update_of_ne hj]
      exact h.le j
  last j q hq := by
    have hid : (⟨p, some (n + 1)⟩ : Departure).id = i := id_of_lastOf hp
    obtain ⟨earlier, he⟩ := h.last j q hq
    refine ⟨earlier, ?_⟩
    rw [lane_snoc, hid]
    by_cases hj : j = i
    · subst hj
      obtain rfl : p = q := Option.some.inj (hp.symm.trans hq)
      rw [if_pos rfl, Function.update_self, List.append_assoc]
      rw [hr, copies] at he
      exact he
    · rw [if_neg hj, List.append_nil, Function.update_of_ne hj, he]

theorem exactHistory_init (B : BitVec 6 → BitVec 32) (ps : List Datagram) :
    ExactHistory B ps 0 [] fun _ => 0 := by
  intro i
  refine ⟨[], rfl, rfl, ?_⟩
  intro p hp
  rw [lastOf, List.take_zero] at hp
  cases hp

/-- A packet is taken when the burst before it is complete. -/
theorem ExactHistory.take (h : ExactHistory B ps k ds r) {p : Datagram} (hp : ps[k]? = some p)
    (hdone : r p.id = 0) :
    ExactHistory B ps (k + 1) (ds ++ [⟨p, none⟩]) (Function.update r p.id (B p.id).toNat) := by
  intro i
  obtain ⟨rest, hrest, hlen, hlast⟩ := h i
  rw [lane_snoc, lane_take_succ Datagram.id hp]
  by_cases hi : i = p.id
  · subst hi
    have hnil : rest = [] := List.length_eq_zero_iff.mp (hlen.trans hdone)
    have hself : p.id = (⟨p, none⟩ : Departure).id := rfl
    refine ⟨copies p (B p.id).toNat, ?_, ?_, ?_⟩
    · rw [if_pos hself, if_pos rfl, List.flatMap_append, ← hrest, hnil, List.append_nil, List.append_assoc,
        List.flatMap_singleton]
      rfl
    · rw [length_copies, Function.update_self]
    · intro q hq
      rw [lastOf_succ hp, if_pos rfl, Option.some.injEq] at hq
      rw [Function.update_self, hq]
  · have hne : i ≠ (⟨p, none⟩ : Departure).id := hi
    refine ⟨rest, ?_, ?_, ?_⟩
    · rw [if_neg hne, if_neg hi, List.append_nil, List.append_nil, hrest]
    · rw [Function.update_of_ne hi, hlen]
    · intro q hq
      rw [lastOf_succ hp, if_neg hi] at hq
      rw [Function.update_of_ne hi]
      exact hlast q hq

theorem ExactHistory.copy (h : ExactHistory B ps k ds r) {i : BitVec 6} {p : Datagram} (hp : lastOf ps k i = some p)
    {n : ℕ} (hr : r i = n + 1) : ExactHistory B ps k (ds ++ [⟨p, some (n + 1)⟩]) (Function.update r i n) := by
  intro j
  obtain ⟨rest, hrest, hlen, hlast⟩ := h j
  have hid : (⟨p, some (n + 1)⟩ : Departure).id = i := id_of_lastOf hp
  rw [lane_snoc, hid]
  by_cases hj : j = i
  · subst hj
    rw [hlast p hp, hr, copies] at hrest
    refine ⟨copies p n, ?_, ?_, ?_⟩
    · rw [if_pos rfl, List.append_assoc]
      exact hrest
    · rw [length_copies, Function.update_self]
    · intro q hq
      obtain rfl : p = q := Option.some.inj (hp.symm.trans hq)
      rw [Function.update_self]
  · refine ⟨rest, ?_, ?_, ?_⟩
    · rw [if_neg hj, List.append_nil, hrest]
    · rw [Function.update_of_ne hj, hlen]
    · rw [Function.update_of_ne hj]
      exact hlast

/-- The departures of an ikernel and the copies to come are as many as its bursts need. -/
theorem ExactHistory.length (h : ExactHistory B ps k ds r) (i : BitVec 6) :
    (lane Departure.id ds i).length + r i = (1 + (B i).toNat) * (lane Datagram.id (ps.take k) i).length := by
  obtain ⟨rest, hrest, hlen, -⟩ := h i
  have hsum := congrArg List.length hrest
  have hburst : ∀ q ∈ lane Datagram.id (ps.take k) i, (burst B q).length = 1 + (B i).toNat := by
    intro q hq
    have hid : q.id = i := of_decide_eq_true (List.mem_filter.mp hq).2
    rw [length_burst, hid]
  rw [List.length_append, hlen, List.length_flatMap, List.map_congr_left hburst, List.map_const',
    List.sum_replicate_nat] at hsum
  rw [hsum, Nat.mul_comm]

end Pktgen

end Nica.Hls
