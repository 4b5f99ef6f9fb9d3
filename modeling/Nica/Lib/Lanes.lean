import Nica.Lib.Fifo
import Mathlib.Logic.Function.Basic
import Mathlib.Data.List.Count

/-!
# Streams by class

A list of items is distributed over one stream for each class, and readers take from these streams in
an order of their own.  `lane cls items c` is what the stream of class `c` carries, in the order of the
items.  A reader that follows the list `order` of classes has read from each stream as often as the
class occurs in it (`Reads`), so its next element belongs to the item that stands in the lane at that
place (`Reads.head_eq`).  If `order` lists the classes of the items themselves, the `n`-th read is the
`n`-th item (`lane_getElem_of_take`).
-/

namespace Nica.Lib

variable {ι κ α : Type*} [DecidableEq κ]

/-- The items of one class. -/
def lane (cls : ι → κ) (items : List ι) (c : κ) : List ι :=
  items.filter (fun i => cls i = c)

/-- Write to the stream of one class. -/
def putLane (f : κ → Fifo α) (c : κ) (x : Option α) : κ → Fifo α :=
  Function.update f c ((f c).put x)

/-- Read from the stream of one class, if `b`. -/
def readLane (f : κ → Fifo α) (c : κ) (b : Bool) : κ → Fifo α :=
  Function.update f c ((f c).readIf b)

@[simp]
theorem putLane_none (f : κ → Fifo α) (c : κ) : putLane f c none = f := by
  rw [putLane, Fifo.put_none, Function.update_eq_self]

@[simp]
theorem readLane_false (f : κ → Fifo α) (c : κ) : readLane f c false = f :=
  Function.update_eq_self c f

@[simp]
theorem past_putLane (f : κ → Fifo α) (c : κ) (x : Option α) (c' : κ) :
    (putLane f c x c').past = (f c').past := by
  by_cases h : c' = c
  · subst h; simp [putLane]
  · simp [putLane, h]

theorem sent_putLane (f : κ → Fifo α) (c : κ) (x : Option α) (c' : κ) :
    (putLane f c x c').sent = (f c').sent ++ if c' = c then x.toList else [] := by
  by_cases h : c' = c
  · subst h; simp [putLane]
  · simp [putLane, h]

@[simp]
theorem sent_readLane (f : κ → Fifo α) (c : κ) (b : Bool) (c' : κ) :
    (readLane f c b c').sent = (f c').sent := by
  by_cases h : c' = c
  · subst h; simp [readLane]
  · simp [readLane, h]

/-! ### Lanes -/

theorem lane_append (cls : ι → κ) (xs ys : List ι) (c : κ) :
    lane cls (xs ++ ys) c = lane cls xs c ++ lane cls ys c :=
  List.filter_append ..

theorem lane_cons (cls : ι → κ) (x : ι) (xs : List ι) (c : κ) :
    lane cls (x :: xs) c = if c = cls x then x :: lane cls xs c else lane cls xs c := by
  by_cases h : c = cls x
  · rw [if_pos h]
    exact List.filter_cons_of_pos (by simp [h])
  · have h' : ¬cls x = c := fun hc => h hc.symm
    rw [if_neg h]
    exact List.filter_cons_of_neg (by simp [h'])

theorem lane_snoc (cls : ι → κ) (xs : List ι) (x : ι) (c : κ) :
    lane cls (xs ++ [x]) c = lane cls xs c ++ if c = cls x then [x] else [] := by
  rw [lane_append, lane_cons]
  rfl

/-- One more item lengthens its own lane only. -/
theorem lane_take_succ (cls : ι → κ) {items : List ι} {n : Nat} {i : ι} (h : items[n]? = some i)
    (c : κ) :
    lane cls (items.take (n + 1)) c =
      lane cls (items.take n) c ++ if c = cls i then [i] else [] := by
  rw [List.take_add_one, h, Option.toList_some, lane_append]
  congr 1
  by_cases hc : c = cls i
  · simp [lane, hc]
  · have hc' : ¬cls i = c := fun h => hc h.symm
    simp [lane, hc, hc']

theorem lane_take_prefix_lane (cls : ι → κ) (items : List ι) (n : Nat) (c : κ) :
    lane cls (items.take n) c <+: lane cls items c :=
  (List.take_prefix n items).filter _

theorem length_lane (cls : ι → κ) (items : List ι) (c : κ) :
    (lane cls items c).length = (items.map cls).count c := by
  rw [lane, ← List.countP_eq_length_filter, List.count, List.countP_map]
  apply List.countP_congr
  intro a _
  simp

/-- The item behind the first `n` stands in its lane behind those of its class among them. -/
theorem lane_getElem_of_take (cls : ι → κ) {items : List ι} {n : Nat} {i : ι}
    (h : items[n]? = some i) :
    (lane cls items (cls i))[((items.take n).map cls).count (cls i)]? = some i := by
  obtain ⟨hn, rfl⟩ := List.getElem?_eq_some_iff.mp h
  have hsplit : items = items.take n ++ items[n] :: items.drop (n + 1) := by simp
  have hlen := length_lane cls (items.take n) (cls items[n])
  have hcons : lane cls (items[n] :: items.drop (n + 1)) (cls items[n]) =
      items[n] :: lane cls (items.drop (n + 1)) (cls items[n]) :=
    List.filter_cons_of_pos (by simp)
  have hlane := congrArg (fun l => lane cls l (cls items[n])) hsplit
  simp only [lane_append, hcons] at hlane
  rw [hlane, ← hlen, List.getElem?_append_right (Nat.le_refl _), Nat.sub_self]
  rfl

/-- One more item that stands in its lane behind a prefix. -/
theorem prefix_snoc {xs ys : List ι} (h : xs <+: ys) {x : ι} (hx : ys[xs.length]? = some x) : xs ++ [x] <+: ys := by
  obtain ⟨rest, rfl⟩ := h
  rw [List.getElem?_append_right (Nat.le_refl _), Nat.sub_self, ← List.head?_eq_getElem?] at hx
  obtain ⟨rest', rfl⟩ := List.head?_eq_some_iff.mp hx
  exact ⟨rest', by rw [List.append_assoc, List.singleton_append]⟩

/-- Items with the same lanes are the same items. -/
theorem perm_of_lanes (cls : ι → κ) {xs ys : List ι} (h : ∀ c, lane cls xs c = lane cls ys c) : xs.Perm ys := by
  classical
  rw [List.perm_iff_count]
  intro x
  have hcount : ∀ zs : List ι, (lane cls zs (cls x)).count x = zs.count x :=
    fun zs => List.count_filter (by simp)
  rw [← hcount xs, ← hcount ys, h]

theorem lane_map {ι' : Type*} (cls : ι → κ) (f : ι' → ι) (items : List ι') (c : κ) :
    lane cls (items.map f) c = (lane (cls ∘ f) items c).map f :=
  List.filter_map ..

/-- A merge of images of the lanes is the image of a merge of the lanes. -/
theorem exists_order_of_lanes (cls : ι → κ) (g : ι → α) (merged : List (κ × α)) : ∀ pending : κ → List ι,
    (∀ c, ∀ i ∈ pending c, cls i = c) → (∀ c, (lane Prod.fst merged c).map Prod.snd <+: (pending c).map g) →
    ∃ order : List ι, order.map (fun i => (cls i, g i)) = merged ∧ ∀ c, lane cls order c <+: pending c := by
  induction merged with
  | nil => exact fun _ _ _ => ⟨[], rfl, fun _ => List.nil_prefix⟩
  | cons q merged ih =>
    intro pending hcls hpre
    obtain ⟨c, y⟩ := q
    have hnext := hpre c
    rw [lane_cons, if_pos rfl, List.map_cons] at hnext
    -- the next of its class
    cases hpending : pending c with
    | nil =>
      rw [hpending] at hnext
      exact absurd hnext (by simp)
    | cons i rest =>
      rw [hpending, List.map_cons, List.cons_prefix_cons] at hnext
      obtain ⟨rfl, hrest⟩ := hnext
      have hi : cls i = c := hcls c i (hpending ▸ List.mem_cons_self ..)
      have hcls' : ∀ c', ∀ j ∈ Function.update pending c rest c', cls j = c' := by
        intro c' j hj
        by_cases hc : c' = c
        · subst hc
          rw [Function.update_self] at hj
          exact hcls c' j (hpending ▸ List.mem_cons_of_mem _ hj)
        · rw [Function.update_of_ne hc] at hj
          exact hcls c' j hj
      have hpre' : ∀ c', (lane Prod.fst merged c').map Prod.snd <+: (Function.update pending c rest c').map g := by
        intro c'
        by_cases hc : c' = c
        · subst hc
          rw [Function.update_self]
          exact hrest
        · have hother := hpre c'
          rw [lane_cons, if_neg hc] at hother
          rw [Function.update_of_ne hc]
          exact hother
      obtain ⟨order, rfl, horder⟩ := ih (Function.update pending c rest) hcls' hpre'
      refine ⟨i :: order, ?_, ?_⟩
      · rw [List.map_cons, hi]
      · intro c'
        have hlane := horder c'
        rw [lane_cons, hi]
        by_cases hc : c' = c
        · subst hc
          rw [Function.update_self] at hlane
          rw [if_pos rfl, hpending]
          exact List.cons_prefix_cons.mpr ⟨rfl, hlane⟩
        · rw [Function.update_of_ne hc] at hlane
          rw [if_neg hc]
          exact hlane

/-! ### Pieces with their class -/

/-- The pieces of an item, each with the class of the item. -/
def tag (cls : ι → κ) (f : ι → List α) (i : ι) : List (κ × α) := (f i).map (cls i, ·)

omit [DecidableEq κ] in
theorem map_snd_tag (cls : ι → κ) (f : ι → List α) (i : ι) : (tag cls f i).map Prod.snd = f i := by
  rw [tag, List.map_map]
  exact List.map_id _

omit [DecidableEq κ] in
theorem map_snd_flatMap_tag (cls : ι → κ) (f : ι → List α) (items : List ι) :
    (items.flatMap (tag cls f)).map Prod.snd = items.flatMap f := by
  rw [List.map_flatMap]
  exact List.flatMap_congr fun i _ => map_snd_tag cls f i

/-- The pieces of one class are those of the items of that class. -/
theorem lane_flatMap_tag (cls : ι → κ) (f : ι → List α) (items : List ι) (c : κ) :
    (lane Prod.fst (items.flatMap (tag cls f)) c).map Prod.snd = (lane cls items c).flatMap f := by
  induction items with
  | nil => rfl
  | cons i items ih =>
    rw [List.flatMap_cons, lane_append, List.map_append, ih]
    by_cases hi : cls i = c
    · have htag : lane Prod.fst (tag cls f i) c = tag cls f i := by
        rw [lane, List.filter_eq_self]
        intro x hx
        obtain ⟨b, -, rfl⟩ := List.mem_map.mp hx
        exact decide_eq_true hi
      have hlane : lane cls (i :: items) c = i :: lane cls items c :=
        List.filter_cons_of_pos (decide_eq_true hi)
      rw [htag, hlane, List.flatMap_cons, map_snd_tag]
    · have htag : lane Prod.fst (tag cls f i) c = [] := by
        rw [lane, List.filter_eq_nil_iff]
        intro x hx
        obtain ⟨b, -, rfl⟩ := List.mem_map.mp hx
        simpa using hi
      have hlane : lane cls (i :: items) c = lane cls items c :=
        List.filter_cons_of_neg (by simpa using hi)
      rw [htag, hlane, List.map_nil, List.nil_append]

/-! ### Readers -/

/-- A reader that follows `order` has taken its first `n` reads. -/
def Reads (order : List κ) (n : Nat) (f : κ → Fifo α) : Prop :=
  ∀ c, (f c).past.length = (order.take n).count c

namespace Reads

variable {order : List κ} {n : Nat} {f : κ → Fifo α}

theorem zero (hf : ∀ c, (f c).past = []) : Reads order 0 f := by
  intro c
  rw [hf c]
  rfl

theorem put (h : Reads order n f) (c : κ) (x : Option α) : Reads order n (putLane f c x) := by
  intro c'
  rw [past_putLane]
  exact h c'

/-- The next read of the class that stands next in the order. -/
theorem next (h : Reads order n f) {c : κ} {x : α} (hc : order[n]? = some c)
    (hx : (f c).head = some x) : Reads order (n + 1) (readLane f c true) := by
  intro c'
  rw [List.take_add_one, hc, Option.toList_some, List.count_append, ← h c']
  by_cases hcc : c' = c
  · subst hcc
    simp [readLane, Fifo.length_past_readIf_true _ hx]
  · have hcc' : ¬c = c' := fun h => hcc h.symm
    simp [readLane, hcc, hcc']

/-- More reads may be added at the end of the order. -/
theorem extend (h : Reads order n f) (hn : n ≤ order.length) (more : List κ) :
    Reads (order ++ more) n f := by
  intro c
  rw [List.take_append_of_le_length hn]
  exact h c

/-- What the next read finds belongs to the item at this place of the lane. -/
theorem head_eq (h : Reads order n f) {c : κ} {x : α} (hx : (f c).head = some x) {cls : ι → κ}
    {items : List ι} {g : ι → α} (hsent : (f c).sent <+: (lane cls items c).map g) :
    ∃ i, (lane cls items c)[(order.take n).count c]? = some i ∧ g i = x := by
  rw [← h c]
  obtain ⟨rest, hrest⟩ := ((f c).past_snoc_prefix_sent hx).trans hsent
  have hget : ((lane cls items c).map g)[(f c).past.length]? = some x := by
    rw [← hrest, List.append_assoc, List.getElem?_append_right (Nat.le_refl _), Nat.sub_self]
    rfl
  rwa [List.getElem?_map, Option.map_eq_some_iff] at hget

/-- The next read finds something if all that is to be read was sent. -/
theorem exists_head (h : Reads order n f) {c : κ} (hc : order[n]? = some c) (hsent : order.count c ≤ (f c).sent.length) :
    ∃ x, (f c).head = some x := by
  cases hx : (f c).head with
  | some x => exact ⟨x, rfl⟩
  | none =>
    have hpast := h c
    have hnext : (order.take (n + 1)).count c = (order.take n).count c + 1 := by
      rw [List.take_add_one, hc, Option.toList_some, List.count_append, List.count_singleton_self]
    have hle := (List.take_prefix (n + 1) order).sublist.count_le c
    rw [Fifo.past_eq_sent _ hx] at hpast
    omega

end Reads

end Nica.Lib
