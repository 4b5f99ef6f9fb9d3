import Mathlib.Data.List.Induction
import Mathlib.Data.List.Nodup
import Mathlib.Data.List.Perm.Basic
import Mathlib.Order.Basic
import Mathlib.Logic.Function.Basic
import Mathlib.Order.Lattice

/-!
# A row of slots that keeps the items of largest value

A row of slots holds items with a key and a value.  A new item runs down the row (`sift`): it takes the place of the
first item of smaller value, which runs on in its stead, and so on; whatever runs ends in the slot of the item
that has the key of the new one, or in the first free slot, or it falls out at the end of the row.

* `insert` is the same on the items of the slots in use, and `sift_slots` says so;
* `Inserted` is what one insertion does: nothing is lost but the older item of the key or, of a full row, one of the
  least value (`insert_spec`);
* `TopK` is what holds after any number of insertions with growing values for each key (`TopK.insert`).
-/

namespace Nica.Lib

variable {α κ ν : Type*} [LinearOrder ν] (key : α → κ) (value : α → ν)

/-- A slot and the item in it.  The item of a slot that is not valid does not count. -/
structure Slot (α : Type*) where
  valid : Bool
  item : α
deriving DecidableEq, Repr

/-- Item `x` runs down the slots to the one of key `k`, or to the first that is free. -/
def sift [DecidableEq κ] (k : κ) (x : α) : List (Slot α) → List (Slot α)
  | [] => []
  | c :: cs =>
    if c.valid ∧ key c.item ≠ k then
      if value c.item < value x then ⟨true, x⟩ :: sift k c.item cs else c :: sift k x cs
    else ⟨true, x⟩ :: cs

/-- The slots in use come first. -/
def slots (held free : List α) : List (Slot α) := held.map (⟨true, ·⟩) ++ free.map (⟨false, ·⟩)

/-- The same on the items held: those held afterwards, and the one that is held no more.  `room` says whether there
is a free slot. -/
def insert [DecidableEq κ] (k : κ) (room : Bool) (x : α) : List α → List α × Option α
  | [] => if room then ([x], none) else ([], some x)
  | y :: ys =>
    if key y = k then (x :: ys, some y)
    else if value y < value x then (x :: (insert k room y ys).1, (insert k room y ys).2)
    else (y :: (insert k room x ys).1, (insert k room x ys).2)

/-- Larger values come first. -/
def Descending (held : List α) : Prop := held.Pairwise fun a b => value b ≤ value a

@[simp]
theorem length_sift [DecidableEq κ] (k : κ) (x : α) (cs : List (Slot α)) : (sift key value k x cs).length = cs.length := by
  fun_induction sift key value k x cs <;> simp_all

theorem length_slots (held free : List α) : (slots held free).length = held.length + free.length := by
  rw [slots, List.length_append, List.length_map, List.length_map]

/-- How many slots an insertion takes up. -/
theorem length_insert_le [DecidableEq κ] (k : κ) (room : Bool) (x : α) (held : List α) :
    held.length ≤ (insert key value k room x held).1.length ∧
      (insert key value k room x held).1.length ≤ held.length + 1 := by
  fun_induction insert key value k room x held <;> simp_all

theorem sift_slots [DecidableEq κ] (k : κ) (x : α) (held free : List α) :
    sift key value k x (slots held free) =
      slots (insert key value k (!free.isEmpty) x held).1
        (free.drop ((insert key value k (!free.isEmpty) x held).1.length - held.length)) := by
  induction held generalizing x with
  | nil =>
    cases free with
    | nil => rfl
    | cons f fs => simp [slots, sift, insert]
  | cons y ys ih =>
    have hcons : ∀ zs : List α, slots (y :: ys) zs = ⟨true, y⟩ :: slots ys zs := fun _ => rfl
    rw [hcons, sift, insert]
    by_cases hk : key y = k
    · simp [hk, slots]
    · by_cases hv : value y < value x
      · simp only [hk, hv, ne_eq, not_false_eq_true, and_self, if_true, if_false, ih, List.length_cons,
          Nat.add_sub_add_right]
        rfl
      · simp only [hk, hv, ne_eq, not_false_eq_true, and_self, if_true, if_false, ih, List.length_cons,
          Nat.add_sub_add_right]
        rfl

/-! ### One insertion -/

/-- What becomes of the items `x :: held`: `held'` are held, and `out` is held no more. -/
structure Inserted (k : κ) (room : Bool) (x : α) (held held' : List α) (out : Option α) : Prop where
  perm : (x :: held).Perm (held' ++ out.toList)
  descending : Descending value held'
  out : (∃ y ∈ held, out = some y ∧ key y = k) ∨
    (∀ y ∈ held, key y ≠ k) ∧ (room = true ∧ out = none ∨
      room = false ∧ ∃ y, out = some y ∧ ∀ z ∈ held', value y ≤ value z)

theorem Inserted.mem {k : κ} {room : Bool} {x : α} {held held' : List α} {out : Option α}
    (h : Inserted key value k room x held held' out) {z : α} (hz : z ∈ held') : z = x ∨ z ∈ held := by
  have := h.perm.mem_iff.mpr (List.mem_append_left _ hz)
  simpa using this

theorem Inserted.mem_out {k : κ} {room : Bool} {x y : α} {held held' : List α} {out : Option α}
    (h : Inserted key value k room x held held' out) (hy : out = some y) : y = x ∨ y ∈ held := by
  have := h.perm.mem_iff.mpr (List.mem_append_right _ (Option.mem_toList.mpr hy))
  simpa using this

theorem Inserted.mem_or_out {k : κ} {room : Bool} {x y : α} {held held' : List α} {out : Option α}
    (h : Inserted key value k room x held held' out) (hy : y = x ∨ y ∈ held) : y ∈ held' ∨ out = some y := by
  have := h.perm.mem_iff.mp (List.mem_cons.mpr hy)
  simpa using this

/-- One slot: of the two items the one of larger value stays and the other runs on. -/
theorem Inserted.cons {k : κ} {room : Bool} {x y a b : α} {ys held' : List α} {out : Option α}
    (h : Inserted key value k room b ys held' out) (hperm : [x, y].Perm [a, b]) (hba : value b ≤ value a)
    (hys : ∀ z ∈ ys, value z ≤ value a) (hk : key y ≠ k) :
    Inserted key value k room x (y :: ys) (a :: held') out := by
  have hle : ∀ z, z = b ∨ z ∈ ys → value z ≤ value a := by
    rintro z (rfl | hz)
    · exact hba
    · exact hys z hz
  refine ⟨(hperm.append_right ys).trans (h.perm.cons a), ?_, ?_⟩
  · exact List.pairwise_cons.mpr ⟨fun z hz => hle z (h.mem key value hz), h.descending⟩
  rcases h.out with ⟨z, hz, hout, hkey⟩ | ⟨hne, hroom | ⟨hroom, z, hout, hmin⟩⟩
  · exact Or.inl ⟨z, List.mem_cons_of_mem _ hz, hout, hkey⟩
  · exact Or.inr ⟨List.forall_mem_cons.mpr ⟨hk, hne⟩, Or.inl hroom⟩
  · refine Or.inr ⟨List.forall_mem_cons.mpr ⟨hk, hne⟩, Or.inr ⟨hroom, z, hout, ?_⟩⟩
    exact List.forall_mem_cons.mpr ⟨hle z (h.mem_out key value hout), hmin⟩

theorem insert_spec [DecidableEq κ] (k : κ) (room : Bool) {held : List α} (hheld : Descending value held) (x : α)
    (hx : ∀ y ∈ held, key y = k → value y ≤ value x) :
    Inserted key value k room x held (insert key value k room x held).1 (insert key value k room x held).2 := by
  induction held generalizing x with
  | nil =>
    cases room with
    | true => exact ⟨by simp [insert], by simp [insert, Descending], Or.inr ⟨by simp, by simp [insert]⟩⟩
    | false => exact ⟨by simp [insert], by simp [insert, Descending], Or.inr ⟨by simp, by simp [insert]⟩⟩
  | cons y ys ih =>
    obtain ⟨hy, hys⟩ := List.pairwise_cons.mp hheld
    rw [insert]
    by_cases hk : key y = k
    · -- the older item of the key goes
      rw [if_pos hk]
      have hxy := hx y (List.mem_cons_self ..) hk
      refine ⟨(List.perm_append_singleton y ys).symm.cons x, ?_, Or.inl ⟨y, List.mem_cons_self .., rfl, hk⟩⟩
      exact List.pairwise_cons.mpr ⟨fun z hz => (hy z hz).trans hxy, hys⟩
    rw [if_neg hk]
    by_cases hv : value y < value x
    · rw [if_pos hv]
      have h := ih hys y fun z hz _ => hy z hz
      exact h.cons key value (List.Perm.refl _) hv.le (fun z hz => (hy z hz).trans hv.le) hk
    · rw [if_neg hv]
      have h := ih hys x fun z hz hkey => hx z (List.mem_cons_of_mem _ hz) hkey
      exact h.cons key value (List.Perm.swap y x []) (le_of_not_gt hv) hy hk

/-! ### Many insertions -/

/-- At most `K` items are held, with different keys and each the latest of its key; and if the latest item of a key
is not held, then the row is full and holds no item of less value. -/
structure TopK (K : Nat) (latest : κ → Option α) (held : List α) : Prop where
  descending : Descending value held
  nodup : (held.map key).Nodup
  length_le : held.length ≤ K
  newest : ∀ y ∈ held, latest (key y) = some y
  rest : ∀ k y, latest k = some y → y ∉ held → held.length = K ∧ ∀ z ∈ held, value y ≤ value z

namespace TopK

variable {key value} {K : Nat} {latest : κ → Option α} {held : List α}

theorem nil (K : Nat) : TopK key value K (fun _ => none) [] where
  descending := List.Pairwise.nil
  nodup := List.nodup_nil
  length_le := Nat.zero_le K
  newest := by simp
  rest := by simp

/-- The held item of a key that gets a new one has less value. -/
theorem lt_of_key (h : TopK key value K latest held) {x : α}
    (hx : ∀ y, latest (key x) = some y → value y < value x) {y : α} (hy : y ∈ held) (hkey : key y = key x) :
    value y < value x :=
  hx y (by rw [← hkey]; exact h.newest y hy)

theorem inserted [DecidableEq κ] (h : TopK key value K latest held) {x : α}
    (hx : ∀ y, latest (key x) = some y → value y < value x) :
    Inserted key value (key x) (decide (held.length < K)) x held
      (Lib.insert key value (key x) (decide (held.length < K)) x held).1
      (Lib.insert key value (key x) (decide (held.length < K)) x held).2 :=
  insert_spec key value _ _ h.descending x fun _ hy hkey => (h.lt_of_key hx hy hkey).le

section Inserted

variable {x : α} {held' : List α} {out : Option α} (h : TopK key value K latest held)
  (hkey : ∀ k y, latest k = some y → key y = k) (hx : ∀ y, latest (key x) = some y → value y < value x)
  (hins : Inserted key value (key x) (decide (held.length < K)) x held held' out)

include h hins

/-- What falls out of a row falls out of a full one. -/
theorem length_of_out {y : α} (hne : ∀ z ∈ held, key z ≠ key x) (hout : out = some y) :
    held.length = K ∧ held'.length = K ∧ ∀ z ∈ held', value y ≤ value z := by
  have hlen := hins.perm.length_eq
  rcases hins.out with ⟨z, hz, -, hzk⟩ | ⟨-, ⟨-, hnone⟩ | ⟨hroom, z, hout', hmin⟩⟩
  · exact absurd hzk (hne z hz)
  · rw [hnone] at hout
    cases hout
  · obtain rfl : y = z := Option.some.inj (hout.symm.trans hout')
    have hK := of_decide_eq_false hroom
    have hle := h.length_le
    rw [hout, List.length_cons, List.length_append, Option.toList_some, List.length_singleton] at hlen
    exact ⟨by omega, by omega, hmin⟩

include hx in
/-- The new item is held, unless the row is full of items of no less value. -/
theorem mem_or_out : x ∈ held' ∨ (∀ z ∈ held, key z ≠ key x) ∧ out = some x := by
  rcases hins.mem_or_out key value (Or.inl rfl) with hmem | hout
  · exact Or.inl hmem
  right
  rcases hins.out with ⟨y, hy, hout', hk⟩ | ⟨hne, -⟩
  · obtain rfl : y = x := Option.some.inj (hout'.symm.trans hout)
    exact absurd (h.lt_of_key hx hy rfl) (lt_irrefl _)
  · exact ⟨hne, hout⟩

theorem nodup_of_inserted : (held'.map key).Nodup := by
  have hkeys := hins.perm.map key
  rw [List.map_cons, List.map_append] at hkeys
  rcases hins.out with ⟨y, hy, rfl, hk⟩ | ⟨hne, -⟩
  · rw [Option.toList_some, List.map_singleton, hk] at hkeys
    exact (hkeys.trans (List.perm_append_singleton _ _)).cons_inv.nodup_iff.mp h.nodup
  · have hcons : (key x :: held.map key).Nodup := by
      refine List.nodup_cons.mpr ⟨?_, h.nodup⟩
      rw [List.mem_map]
      rintro ⟨y, hy, hyk⟩
      exact hne y hy hyk
    exact (hkeys.nodup_iff.mp hcons).of_append_left

theorem length_of_inserted : held.length ≤ held'.length ∧ held'.length ≤ K := by
  have hlen := hins.perm.length_eq
  have hK := h.length_le
  rw [List.length_cons, List.length_append] at hlen
  rcases hins.out with ⟨y, -, rfl, -⟩ | ⟨-, ⟨hroom, rfl⟩ | ⟨-, y, rfl, -⟩⟩
  · rw [Option.toList_some, List.length_singleton] at hlen
    omega
  · have := of_decide_eq_true hroom
    rw [Option.toList_none, List.length_nil] at hlen
    omega
  · rw [Option.toList_some, List.length_singleton] at hlen
    omega

include hx in
theorem newest_of_inserted [DecidableEq κ] {z : α} (hz : z ∈ held') : Function.update latest (key x) (some x) (key z) = some z := by
  by_cases hzk : key z = key x
  · have hzx : z = x := by
      rcases h.mem_or_out hx hins with hxm | ⟨hne, -⟩
      · exact List.inj_on_of_nodup_map (h.nodup_of_inserted hins) hz hxm hzk
      · rcases hins.mem key value hz with hzx | hzh
        · exact hzx
        · exact absurd hzk (hne z hzh)
    rw [hzx, Function.update_self]
  · rw [Function.update_of_ne hzk]
    rcases hins.mem key value hz with rfl | hzh
    · exact absurd rfl hzk
    · exact h.newest z hzh

include hx in
/-- Where the row is full, its values have only grown. -/
theorem le_of_inserted {y : α} (hfull : held.length = K) (hmin : ∀ z ∈ held, value y ≤ value z) {z : α} (hz : z ∈ held') :
    value y ≤ value z := by
  rcases hins.mem key value hz with rfl | hzh
  · rcases hins.out with ⟨w, hw, -, hwk⟩ | ⟨hne, ⟨hroom, -⟩ | ⟨-, w, hout, hmin'⟩⟩
    · exact (hmin w hw).trans (h.lt_of_key hx hw hwk).le
    · have := of_decide_eq_true hroom
      omega
    · rcases hins.mem_out key value hout with rfl | hw
      · have hperm := hins.perm
        rw [hout] at hperm
        have hmem := (hperm.trans (List.perm_append_singleton _ _)).cons_inv.mem_iff.mpr hz
        exact absurd rfl (hne _ hmem)
      · exact (hmin w hw).trans (hmin' _ hz)
  · exact hmin z hzh

include hkey hx in
theorem rest_of_inserted [DecidableEq κ] {k : κ} {y : α} (hy : Function.update latest (key x) (some x) k = some y) (hnot : y ∉ held') :
    held'.length = K ∧ ∀ z ∈ held', value y ≤ value z := by
  by_cases hk : k = key x
  · -- the new item itself
    rw [hk, Function.update_self, Option.some.injEq] at hy
    rcases h.mem_or_out hx hins with hxm | ⟨hne, hout⟩
    · exact absurd hxm (by rw [hy]; exact hnot)
    · rw [← hy]
      exact (h.length_of_out hins hne hout).2
  rw [Function.update_of_ne hk] at hy
  by_cases hyh : y ∈ held
  · -- it has just fallen out
    have hout := (hins.mem_or_out key value (Or.inr hyh)).resolve_left hnot
    rcases hins.out with ⟨z, -, hout', hzk⟩ | ⟨hne, -⟩
    · obtain rfl : y = z := Option.some.inj (hout.symm.trans hout')
      exact absurd ((hkey k y hy).symm.trans hzk) hk
    · exact (h.length_of_out hins hne hout).2
  · -- it was not held before either
    obtain ⟨hK, hmin⟩ := h.rest k y hy hyh
    have hlen := h.length_of_inserted hins
    exact ⟨by omega, fun z hz => h.le_of_inserted hx hins hK hmin hz⟩

include hkey hx in
theorem of_inserted [DecidableEq κ] : TopK key value K (Function.update latest (key x) (some x)) held' where
  descending := hins.descending
  nodup := h.nodup_of_inserted hins
  length_le := (h.length_of_inserted hins).2
  newest _ hz := h.newest_of_inserted hx hins hz
  rest _ _ hy hnot := h.rest_of_inserted hkey hx hins hy hnot

end Inserted

/-- **One more insertion**, of a larger value for its key. -/
theorem insert [DecidableEq κ] (h : TopK key value K latest held) (hkey : ∀ k y, latest k = some y → key y = k) {x : α}
    (hx : ∀ y, latest (key x) = some y → value y < value x) :
    TopK key value K (Function.update latest (key x) (some x))
      (Lib.insert key value (key x) (decide (held.length < K)) x held).1 :=
  h.of_inserted hkey hx (h.inserted hx)

end TopK

/-! ### Rows from the start -/

section Rows

variable [DecidableEq κ] {key value}

/-- The last of the items with each key. -/
def latestOf (key : α → κ) (xs : List α) (k : κ) : Option α := xs.reverse.find? fun x => key x = k

/-- The values of each key grow. -/
def Growing (key : α → κ) (value : α → ν) (xs : List α) : Prop :=
  xs.Pairwise fun x y => key x = key y → value x < value y

theorem latestOf_append (xs : List α) (x : α) :
    latestOf key (xs ++ [x]) = Function.update (latestOf key xs) (key x) (some x) := by
  ext1 k
  rw [latestOf, List.reverse_append, List.reverse_singleton, List.singleton_append, List.find?_cons]
  by_cases hk : key x = k
  · rw [← hk, Function.update_self]
    simp
  · rw [Function.update_of_ne (Ne.symm hk)]
    simp [hk, latestOf]

theorem key_of_latestOf {xs : List α} {k : κ} {x : α} (h : latestOf key xs k = some x) : key x = k ∧ x ∈ xs := by
  refine ⟨by simpa using List.find?_some h, ?_⟩
  exact List.mem_reverse.mp (List.mem_of_find?_eq_some h)

/-- **What a row holds** after items whose values grow for each key; the slots that are still free are as they were. -/
theorem topK_of_growing (K : ℕ) (z : α) {xs : List α} (h : Growing key value xs) :
    ∃ held, xs.foldl (fun row x => sift key value (key x) x row) (List.replicate K ⟨false, z⟩) =
        slots held (List.replicate (K - held.length) z) ∧ TopK key value K (latestOf key xs) held := by
  induction xs using List.reverseRecOn with
  | nil => exact ⟨[], by simp [slots], TopK.nil K⟩
  | append_singleton xs x ih =>
    obtain ⟨hxs, -, hx⟩ := List.pairwise_append.mp h
    obtain ⟨held, hrow, htop⟩ := ih hxs
    have hlt : ∀ y, latestOf key xs (key x) = some y → value y < value x := by
      intro y hy
      obtain ⟨hkey, hmem⟩ := key_of_latestOf hy
      exact hx y hmem x (List.mem_singleton_self x) hkey
    have hroom : (!(List.replicate (K - held.length) z).isEmpty) = decide (held.length < K) := by
      rw [List.isEmpty_replicate]
      by_cases hlen : held.length < K
      · simp [hlen, Nat.sub_ne_zero_of_lt hlen]
      · simp [hlen, Nat.sub_eq_zero_of_le (not_lt.mp hlen)]
    refine ⟨(insert key value (key x) (decide (held.length < K)) x held).1, ?_, ?_⟩
    · rw [List.foldl_append, hrow, List.foldl_cons, List.foldl_nil, sift_slots, hroom, List.drop_replicate]
      have hle := length_insert_le key value (key x) (decide (held.length < K)) x held
      congr 2
      omega
    · rw [latestOf_append]
      exact htop.insert (fun k y hy => (key_of_latestOf hy).1) hlt

end Rows

end Nica.Lib
