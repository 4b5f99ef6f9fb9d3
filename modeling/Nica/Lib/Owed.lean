import Nica.Lib.Fifo
import Mathlib.Data.List.Basic

/-!
# Units that work item by item

A unit works through a list of items one after the other.  Each item contributes a piece `f i` to a
stream, either one the unit reads or one it writes.  `Owed f items k done due` says that after `k`
items were taken up, `done` has gone through the stream and `due` is still to come: together they are
the pieces of the first `k` items.  A unit between two items owes nothing.

* `Owed.start`: taking up the next item makes its piece due;
* `Owed.advance`: one element goes through;
* `Owed.head_eq`: what a reader finds at the head of a stream is the first element due;
* `Owed.done_prefix_pieces`: what went through is a prefix of the pieces of all items.
-/

namespace Nica.Lib

variable {ι α γ : Type*}

/-- After `k` items, `done` went through the stream and `due` is still to come. -/
def Owed (f : ι → List α) (items : List ι) (k : Nat) (done due : List α) : Prop :=
  done ++ due = (items.take k).flatMap f

namespace Owed

variable {f : ι → List α} {items : List ι} {k : Nat} {done due : List α}

theorem zero (f : ι → List α) (items : List ι) : Owed f items 0 [] [] := by
  rw [Owed, List.take_zero]
  rfl

theorem start (h : Owed f items k done []) {i : ι} (hi : items[k]? = some i) :
    Owed f items (k + 1) done (f i) := by
  rw [Owed, List.append_nil] at h
  rw [Owed, List.take_add_one, hi, Option.toList_some, List.flatMap_append, List.flatMap_singleton,
    h]

theorem advance {x : α} (h : Owed f items k done (x :: due)) :
    Owed f items k (done ++ [x]) due := by
  rw [Owed, List.append_assoc, List.singleton_append]
  exact h

theorem all_prefix_pieces (h : Owed f items k done due) : done ++ due <+: items.flatMap f := by
  rw [h]
  conv_rhs => rw [← List.take_append_drop k items, List.flatMap_append]
  exact List.prefix_append _ _

theorem done_prefix_pieces (h : Owed f items k done due) : done <+: items.flatMap f :=
  (List.prefix_append _ _).trans h.all_prefix_pieces

/-- The head of a stream that carries a prefix of the pieces is the first element due. -/
theorem head_eq {s : Fifo α} {x y : α} (h : Owed f items k s.past (y :: due))
    (hsent : s.sent <+: items.flatMap f) (hx : s.head = some x) : x = y := by
  obtain ⟨q, hq⟩ := s.queue_eq_of_head hx
  exact s.head_eq hq hsent h.all_prefix_pieces

/-- The same for an element that was read into a register and does not count as done yet. -/
theorem register_eq {x y : α} (h : Owed f items k done (y :: due))
    (hx : done ++ [x] <+: items.flatMap f) : x = y := by
  have hy : done ++ [y] <+: items.flatMap f := by
    refine List.IsPrefix.trans ⟨due, ?_⟩ h.all_prefix_pieces
    rw [List.append_assoc, List.singleton_append]
  have hlen : (done ++ [x]).length = (done ++ [y]).length := by
    rw [List.length_append, List.length_append]; rfl
  have heq := (List.prefix_of_prefix_length_le hx hy hlen.le).eq_of_length hlen
  exact (List.cons.inj (List.append_cancel_left heq)).1

/-- More items may be added at the end. -/
theorem extend (h : Owed f items k done due) (hk : k ≤ items.length) (more : List ι) :
    Owed f (items ++ more) k done due := by
  rw [Owed, List.take_append_of_le_length hk]
  exact h

/-- A unit that owes nothing and finds an element at the head of its stream finds the first element
of the next item. -/
theorem exists_next {s : Fifo α} {x : α} (h : Owed f items k s.past [])
    (hsent : s.sent <+: items.flatMap f) (hf : ∀ i ∈ items, f i ≠ []) (hx : s.head = some x) :
    ∃ i due, items[k]? = some i ∧ f i = x :: due := by
  rw [Owed, List.append_nil] at h
  have hpre : s.past ++ [x] <+: items.flatMap f := (s.past_snoc_prefix_sent hx).trans hsent
  cases hi : items[k]? with
  | none =>
    -- every item was taken up, so nothing can be left in the stream
    rw [List.getElem?_eq_none_iff] at hi
    rw [List.take_of_length_le hi] at h
    have := hpre.length_le
    rw [h, List.length_append, List.length_singleton] at this
    omega
  | some i =>
    have howed : Owed f items (k + 1) s.past (f i) :=
      start (by rw [Owed, List.append_nil]; exact h) hi
    cases hfi : f i with
    | nil => exact absurd hfi (hf i (List.mem_of_getElem? hi))
    | cons y due =>
      rw [hfi] at howed
      exact ⟨i, due, rfl, by rw [hfi, howed.head_eq hsent hx]⟩

/-- A unit that took up every item and owes nothing has passed everything. -/
theorem done_eq (h : Owed f items k done []) (hk : items.length ≤ k) : done = items.flatMap f := by
  rw [Owed, List.append_nil, List.take_of_length_le hk] at h
  exact h

end Owed

/-- The element behind the first `k` of a list of labels belongs to item `k`. -/
theorem exists_item {label : ι → γ} {items : List ι} {past : List γ} {c : γ}
    (h : past ++ [c] <+: items.map label) : ∃ i, items[past.length]? = some i ∧ label i = c := by
  obtain ⟨rest, hrest⟩ := h
  have hget : (items.map label)[past.length]? = some c := by
    rw [← hrest, List.append_assoc, List.getElem?_append_right (Nat.le_refl _), Nat.sub_self]
    rfl
  rw [List.getElem?_map, Option.map_eq_some_iff] at hget
  exact hget

theorem take_succ_eq {items : List ι} {k : Nat} {i : ι} (h : items[k]? = some i) :
    items.take (k + 1) = items.take k ++ [i] := by
  rw [List.take_add_one, h, Option.toList_some]

theorem map_take_isPrefix (label : ι → γ) (items : List ι) (k : Nat) :
    (items.take k).map label <+: items.map label := by
  rw [List.map_take]
  exact List.take_prefix _ _

/-- One more pair at the end of a zip. -/
theorem zip_snoc {α β : Type*} {as : List α} {bs : List β} {a : α} (h : as[bs.length]? = some a) (b : β) :
    as.zip (bs ++ [b]) = as.zip bs ++ [(a, b)] := by
  induction bs generalizing as with
  | nil =>
    cases as with
    | nil => cases h
    | cons x as =>
      cases h
      simp
  | cons y bs ih =>
    cases as with
    | nil => cases h
    | cons x as =>
      have h' : as[bs.length]? = some a := h
      rw [List.cons_append, List.zip_cons_cons, ih h', List.zip_cons_cons, List.cons_append]

theorem zip_isPrefix_zip_append {α β : Type*} (as : List α) (bs more : List β) :
    as.zip bs <+: as.zip (bs ++ more) := by
  induction bs generalizing as with
  | nil =>
    rw [List.zip_nil_right]
    exact List.nil_prefix
  | cons b bs ih =>
    cases as with
    | nil => exact List.prefix_refl _
    | cons a as =>
      rw [List.cons_append, List.zip_cons_cons, List.zip_cons_cons]
      exact List.cons_prefix_cons.mpr ⟨rfl, ih as⟩

end Nica.Lib
