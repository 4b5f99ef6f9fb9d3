import Mathlib.Data.List.MinMax
import Mathlib.Data.List.Nodup
import Mathlib.Data.List.Perm.Basic
import Mathlib.Order.Basic

/-!
# Heaps whose elements are reached through handles

A heap gives a handle for every element that is pushed.  An element may be changed in place through its handle, and
`increase` restores the order afterwards, provided that the element did not get smaller.

* `HandleHeap` is the interface, and `HandleHeap.Lawful` says what it does in terms of the elements and their
  handles.  It says nothing about a heap after an element was made smaller and increased;
* `HandleHeap.byList` is an implementation that searches a list.
-/

namespace Nica.Lib

/-- The operations of a heap with elements of type `α`. -/
structure HandleHeap (α : Type) where
  Heap : Type
  Handle : Type
  empty : Heap
  size : Heap → ℕ
  top : Heap → α
  get : Heap → Handle → α
  set : Heap → Handle → α → Heap
  push : Heap → α → Heap × Handle
  pop : Heap → Heap
  increase : Heap → Handle → Heap

namespace HandleHeap

variable {α : Type}

/-- `Holds h es`: the heap is in order and holds the elements `es` with their handles.  The order of the heap is
`lt`, and no element is greater than the one at the top. -/
structure Lawful (H : HandleHeap α) (lt : α → α → Prop) where
  Holds : H.Heap → List (H.Handle × α) → Prop
  nodup : ∀ {h es}, Holds h es → (es.map Prod.fst).Nodup
  perm : ∀ {h es es'}, Holds h es → es.Perm es' → Holds h es'
  holds_empty : Holds H.empty []
  size_eq : ∀ {h es}, Holds h es → H.size h = es.length
  get_eq : ∀ {h es hd x}, Holds h es → (hd, x) ∈ es → H.get h hd = x
  holds_push : ∀ {h es} x, Holds h es → Holds (H.push h x).1 (((H.push h x).2, x) :: es)
  holds_pop : ∀ {h es}, Holds h es → es ≠ [] →
    ∃ hd rest, es.Perm ((hd, H.top h) :: rest) ∧ (∀ e ∈ es, ¬lt (H.top h) e.2) ∧ Holds (H.pop h) rest
  holds_increase : ∀ {h es hd x} y, Holds h ((hd, x) :: es) → ¬lt y x →
    Holds (H.increase (H.set h hd y) hd) ((hd, y) :: es)

namespace Lawful

variable {H : HandleHeap α} {lt : α → α → Prop} (L : H.Lawful lt)
include L

/-- An element is at the front of the elements of its heap, in some order. -/
theorem holds_of_mem {h : H.Heap} {es : List (H.Handle × α)} {hd : H.Handle} {x : α} (hh : L.Holds h es)
    (hx : (hd, x) ∈ es) : ∃ rest, es.Perm ((hd, x) :: rest) ∧ L.Holds h ((hd, x) :: rest) := by
  obtain ⟨front, back, rfl⟩ := List.append_of_mem hx
  exact ⟨front ++ back, List.perm_middle, L.perm hh List.perm_middle⟩

/-- A handle belongs to one element. -/
theorem eq_of_mem {h : H.Heap} {es : List (H.Handle × α)} {hd : H.Handle} {x y : α} (hh : L.Holds h es)
    (hx : (hd, x) ∈ es) (hy : (hd, y) ∈ es) : x = y :=
  (L.get_eq hh hx).symm.trans (L.get_eq hh hy)

/-- The handle of the first element belongs to none of the others. -/
theorem not_mem_of_holds_cons {h : H.Heap} {es : List (H.Handle × α)} {hd : H.Handle} {x : α}
    (hh : L.Holds h ((hd, x) :: es)) {y : α} : (hd, y) ∉ es := by
  intro hy
  have hnd := L.nodup hh
  rw [List.map_cons, List.nodup_cons] at hnd
  exact hnd.1 (List.mem_map.mpr ⟨_, hy, rfl⟩)

end Lawful

/-! ### An implementation -/

section ByList

variable {ν : Type} [LinearOrder ν] (key : α → ν)

/-- The elements with their handles, and the next handle. -/
abbrev Entries (α : Type) := List (ℕ × α) × ℕ

namespace Entries

/-- The element of greatest key. -/
def best (h : Entries α) : Option (ℕ × α) := h.1.argmax fun e => key e.2

def get [Inhabited α] (h : Entries α) (hd : ℕ) : α :=
  ((h.1.find? fun e => decide (e.1 = hd)).map Prod.snd).getD default

def set (h : Entries α) (hd : ℕ) (y : α) : Entries α := (h.1.map fun e => if e.1 = hd then (hd, y) else e, h.2)

def push (h : Entries α) (x : α) : Entries α := ((h.2, x) :: h.1, h.2 + 1)

def erase (h : Entries α) (hd : ℕ) : Entries α := (h.1.filter fun e => decide (e.1 ≠ hd), h.2)

/-- The entries are these, with different handles below the next one. -/
def Holds (h : Entries α) (es : List (ℕ × α)) : Prop :=
  (h.1.map Prod.fst).Nodup ∧ (∀ e ∈ h.1, e.1 < h.2) ∧ h.1.Perm es

theorem get_eq [Inhabited α] {h : Entries α} {es : List (ℕ × α)} {hd : ℕ} {x : α} (hh : Holds h es)
    (hx : (hd, x) ∈ es) : get h hd = x := by
  have hfind : ∀ l : List (ℕ × α), (l.map Prod.fst).Nodup → (hd, x) ∈ l →
      l.find? (fun e => decide (e.1 = hd)) = some (hd, x) := by
    intro l
    induction l with
    | nil => exact fun _ hx => absurd hx List.not_mem_nil
    | cons e es ih =>
      intro hnd hx
      rw [List.map_cons, List.nodup_cons] at hnd
      rcases List.mem_cons.mp hx with rfl | hx
      · exact List.find?_cons_of_pos (by simp)
      · have hne : e.1 ≠ hd := by
          rintro rfl
          exact hnd.1 (List.mem_map.mpr ⟨_, hx, rfl⟩)
        rw [List.find?_cons_of_neg (by simpa using hne), ih hnd.2 hx]
  rw [get, hfind h.1 hh.1 (hh.2.2.mem_iff.mpr hx)]
  rfl

theorem holds_push {h : Entries α} {es : List (ℕ × α)} (x : α) (hh : Holds h es) :
    Holds (push h x) ((h.2, x) :: es) := by
  refine ⟨?_, ?_, hh.2.2.cons _⟩
  · rw [push, List.map_cons, List.nodup_cons]
    refine ⟨fun hmem => ?_, hh.1⟩
    obtain ⟨e, he, heq⟩ := List.mem_map.mp hmem
    exact absurd heq (Nat.ne_of_lt (hh.2.1 e he))
  · intro e he
    rcases List.mem_cons.mp he with rfl | he
    · exact Nat.lt_succ_self _
    · exact Nat.lt_succ_of_lt (hh.2.1 e he)

/-- The handle of the first entry belongs to no other one. -/
theorem ne_of_nodup {es : List (ℕ × α)} {e : ℕ × α} (hnd : ((e :: es).map Prod.fst).Nodup) : ∀ a ∈ es, a.1 ≠ e.1 := by
  rw [List.map_cons, List.nodup_cons] at hnd
  exact fun a ha heq => hnd.1 (List.mem_map.mpr ⟨a, ha, heq⟩)

theorem holds_erase {h : Entries α} {e : ℕ × α} {rest : List (ℕ × α)} (hh : Holds h (e :: rest)) :
    Holds (erase h e.1) rest := by
  have hrest := ne_of_nodup ((hh.2.2.map Prod.fst).nodup_iff.mp hh.1)
  have hfilter : (h.1.filter fun a => decide (a.1 ≠ e.1)).Perm rest := by
    refine (hh.2.2.filter _).trans ?_
    rw [List.filter_cons_of_neg (by simp), List.filter_eq_self.mpr (by simpa using hrest)]
  exact ⟨hh.1.sublist (List.filter_sublist.map _), fun a ha => hh.2.1 a (List.mem_of_mem_filter ha), hfilter⟩

theorem holds_set {h : Entries α} {hd : ℕ} {x : α} {es : List (ℕ × α)} (y : α) (hh : Holds h ((hd, x) :: es)) :
    Holds (set h hd y) ((hd, y) :: es) := by
  have hrest := ne_of_nodup ((hh.2.2.map Prod.fst).nodup_iff.mp hh.1)
  have hfst : (set h hd y).1.map Prod.fst = h.1.map Prod.fst := by
    rw [set, List.map_map]
    apply List.map_congr_left
    intro e _
    by_cases he : e.1 = hd
    · simp [he]
    · simp [he]
  have hmap : (((hd, x) :: es).map fun e => if e.1 = hd then (hd, y) else e) = (hd, y) :: es := by
    rw [List.map_cons, if_pos rfl]
    congr 1
    conv_rhs => rw [← List.map_id es]
    apply List.map_congr_left
    intro e he
    rw [if_neg (hrest e he), id]
  refine ⟨by rw [hfst]; exact hh.1, ?_, by rw [← hmap]; exact hh.2.2.map _⟩
  intro e he
  obtain ⟨a, ha, haeq⟩ := List.mem_map.mp (hfst ▸ List.mem_map.mpr ⟨e, he, rfl⟩)
  exact haeq ▸ hh.2.1 a ha

end Entries

/-- A list that is searched for the top each time. -/
def byList [Inhabited α] : HandleHeap α where
  Heap := Entries α
  Handle := ℕ
  empty := ([], 0)
  size h := h.1.length
  top h := ((Entries.best key h).map Prod.snd).getD default
  get := Entries.get
  set := Entries.set
  push h x := (Entries.push h x, h.2)
  pop h := Entries.erase h (((Entries.best key h).map Prod.fst).getD 0)
  increase h _ := h

theorem holds_pop_byList [Inhabited α] {h : Entries α} {es : List (ℕ × α)} (hh : Entries.Holds h es) (hne : es ≠ []) :
    ∃ hd rest, es.Perm ((hd, (byList key).top h) :: rest) ∧ (∀ e ∈ es, ¬key ((byList key).top h) < key e.2) ∧
      Entries.Holds ((byList key).pop h) rest := by
  obtain ⟨b, hb⟩ : ∃ b, Entries.best key h = some b := by
    rw [← Option.ne_none_iff_exists', Entries.best, Ne, List.argmax_eq_none]
    intro hnil
    exact hne (List.nil_perm.mp (hnil ▸ hh.2.2))
  have htop : (byList key).top h = b.2 := by
    show ((Entries.best key h).map Prod.snd).getD default = b.2
    rw [hb]
    rfl
  have hpop : (byList key).pop h = Entries.erase h b.1 := by
    show Entries.erase h (((Entries.best key h).map Prod.fst).getD 0) = _
    rw [hb]
    rfl
  obtain ⟨front, back, hfb⟩ := List.append_of_mem (hh.2.2.mem_iff.mp (List.argmax_mem hb))
  have hperm : es.Perm (b :: (front ++ back)) := hfb ▸ List.perm_middle
  refine ⟨b.1, front ++ back, htop ▸ hperm, ?_, ?_⟩
  · intro e he
    rw [htop, not_lt]
    exact List.le_of_mem_argmax (f := fun e : ℕ × α => key e.2) (hh.2.2.mem_iff.mpr he) hb
  · rw [hpop]
    exact Entries.holds_erase ⟨hh.1, hh.2.1, hh.2.2.trans hperm⟩

/-- A list that is searched for the top is a lawful heap. -/
def lawful_byList [Inhabited α] : (byList key).Lawful (fun x y => key x < key y) where
  Holds := Entries.Holds
  nodup hh := (hh.2.2.map Prod.fst).nodup_iff.mp hh.1
  perm hh hp := ⟨hh.1, hh.2.1, hh.2.2.trans hp⟩
  holds_empty := ⟨List.nodup_nil, fun _ he => absurd he List.not_mem_nil, List.Perm.refl _⟩
  size_eq hh := hh.2.2.length_eq
  get_eq := Entries.get_eq
  holds_push := Entries.holds_push
  holds_pop := holds_pop_byList key
  holds_increase y hh _ := Entries.holds_set y hh

end ByList

end HandleHeap

end Nica.Lib
