import Mathlib.Data.List.Basic
import Mathlib.Data.List.Infix
import Mathlib.Algebra.GroupWithZero.Nat

/-!
# Streams with their past

A `Fifo α` is a first-in first-out stream together with everything that was already read from it:
`past` holds the elements read so far, oldest first, and `queue` the elements written and not yet
read.  `sent = past ++ queue` is everything ever written.  Reading moves the head of the queue to
the past and writing appends to the queue, so `sent` only grows, and only by writes; a consumer's
progress is `past`, which no writer can touch.

The depth of a stream is not part of it: whether a writer finds it full is chosen by the
environment at every step, which covers every depth and every pattern of stalls.
-/

namespace Nica.Lib

/-- A stream: what was read from it and what is still in it. -/
structure Fifo (α : Type*) where
  past : List α
  queue : List α
deriving DecidableEq, Repr

namespace Fifo

variable {α : Type*} (f : Fifo α)

/-- A stream nothing was ever written to. -/
def nil : Fifo α := ⟨[], []⟩

/-- Everything ever written to the stream. -/
def sent : List α := f.past ++ f.queue

/-- Whether a reader finds the stream empty. -/
def empty : Bool := f.queue.isEmpty

/-- Write one element. -/
def write (x : α) : Fifo α := { f with queue := f.queue ++ [x] }

/-- Read one element: drop the head of the queue; no change when the stream is empty. -/
def pop : Fifo α :=
  match f.queue with
  | [] => f
  | x :: q => ⟨f.past ++ [x], q⟩

/-- The element a reader would get. -/
def head : Option α := f.queue.head?

/-- Read if `b`. -/
def readIf (b : Bool) : Fifo α := if b then f.pop else f

/-- Write an element, if there is one. -/
def put (x : Option α) : Fifo α := { f with queue := f.queue ++ x.toList }

@[simp] theorem past_nil : (nil : Fifo α).past = [] := rfl
@[simp] theorem queue_nil : (nil : Fifo α).queue = [] := rfl
@[simp] theorem sent_nil : (nil : Fifo α).sent = [] := rfl

@[simp] theorem past_write (x : α) : (f.write x).past = f.past := rfl
@[simp] theorem queue_write (x : α) : (f.write x).queue = f.queue ++ [x] := rfl

@[simp]
theorem sent_write (x : α) : (f.write x).sent = f.sent ++ [x] := by
  rw [sent, past_write, queue_write, sent, List.append_assoc]

theorem pop_of_queue_eq {x : α} {q : List α} (h : f.queue = x :: q) :
    f.pop = ⟨f.past ++ [x], q⟩ := by
  rw [pop, h]

theorem past_pop {x : α} {q : List α} (h : f.queue = x :: q) : f.pop.past = f.past ++ [x] := by
  rw [pop_of_queue_eq f h]

theorem queue_pop {x : α} {q : List α} (h : f.queue = x :: q) : f.pop.queue = q := by
  rw [pop_of_queue_eq f h]

@[simp]
theorem sent_pop : f.pop.sent = f.sent := by
  unfold pop sent
  split
  · rfl
  · rename_i x q h
    rw [h, List.append_assoc, List.singleton_append]

/-- What was read, with the head of the queue, is still a prefix of what was written. -/
theorem past_append_head_prefix {x : α} {q : List α} (h : f.queue = x :: q) :
    f.past ++ [x] <+: f.sent :=
  ⟨q, by rw [sent, h, List.append_assoc, List.singleton_append]⟩

/-- The head of the queue of a stream that carries a prefix of `l` is the element of `l` behind
what was read. -/
theorem head_eq {x y : α} {q ys l : List α} (h : f.queue = x :: q) (hsent : f.sent <+: l)
    (hl : f.past ++ y :: ys <+: l) : x = y := by
  have hx : f.past ++ [x] <+: l := (f.past_append_head_prefix h).trans hsent
  have hy : f.past ++ [y] <+: l := by
    refine List.IsPrefix.trans ⟨ys, ?_⟩ hl
    rw [List.append_assoc, List.singleton_append]
  have hlen : (f.past ++ [x]).length = (f.past ++ [y]).length := by
    rw [List.length_append, List.length_append]; rfl
  have heq := (List.prefix_of_prefix_length_le hx hy hlen.le).eq_of_length hlen
  exact (List.cons.inj (List.append_cancel_left heq)).1

theorem past_prefix_sent : f.past <+: f.sent :=
  List.prefix_append _ _

@[simp]
theorem put_none : f.put none = f := by
  rw [put, Option.toList_none, List.append_nil]

@[simp] theorem past_put (x : Option α) : (f.put x).past = f.past := rfl

@[simp]
theorem sent_put (x : Option α) : (f.put x).sent = f.sent ++ x.toList := by
  rw [sent, past_put, put, sent, List.append_assoc]

@[simp]
theorem sent_readIf (b : Bool) : (f.readIf b).sent = f.sent := by
  cases b with
  | false => rfl
  | true => exact f.sent_pop

@[simp] theorem past_readIf_false : (f.readIf false).past = f.past := rfl

theorem queue_eq_of_head {x : α} (h : f.head = some x) : ∃ q, f.queue = x :: q := by
  rw [head] at h
  cases hq : f.queue with
  | nil => rw [hq] at h; cases h
  | cons y q => rw [hq] at h; cases h; exact ⟨q, rfl⟩

theorem past_readIf_true {x : α} (h : f.head = some x) :
    (f.readIf true).past = f.past ++ [x] := by
  obtain ⟨q, hq⟩ := f.queue_eq_of_head h
  exact f.past_pop hq

theorem past_readIf (b : Bool) : (f.readIf b).past = f.past ++ (if b then f.head else none).toList := by
  cases b with
  | false => simp [readIf]
  | true =>
    cases hq : f.queue with
    | nil => simp [readIf, pop, head, hq]
    | cons x q => simp [readIf, pop, head, hq]

theorem length_queue_readIf_le (b : Bool) : (f.readIf b).queue.length ≤ f.queue.length := by
  cases b with
  | false => exact Nat.le_refl _
  | true =>
    cases hq : f.queue with
    | nil => simp [readIf, pop, hq]
    | cons x q => simp [readIf, pop, hq]

theorem length_past_readIf_true {x : α} (h : f.head = some x) :
    (f.readIf true).past.length = f.past.length + 1 := by
  rw [f.past_readIf_true h, List.length_append, List.length_singleton]

theorem length_past_le_readIf (b : Bool) : f.past.length ≤ (f.readIf b).past.length := by
  cases b with
  | false => exact Nat.le_refl _
  | true =>
    cases hq : f.queue with
    | nil =>
      have hpop : f.readIf true = f := by rw [readIf, if_pos rfl, pop, hq]
      rw [hpop]
    | cons x q =>
      rw [f.length_past_readIf_true (by rw [head, hq]; rfl)]
      exact Nat.le_succ _

/-- What was read, with the element at the head, is a prefix of what was written. -/
theorem past_snoc_prefix_sent {x : α} (h : f.head = some x) : f.past ++ [x] <+: f.sent := by
  obtain ⟨q, hq⟩ := f.queue_eq_of_head h
  exact f.past_append_head_prefix hq

/-- A unit that reads an element exactly when it makes an output of it: the outputs are the images of
what was read. -/
theorem map_past_readIf {β : Type*} {g : α → β} {y : Option β} (h : y = none ∨ y = f.head.map g) :
    (f.readIf y.isSome).past.map g = f.past.map g ++ y.toList := by
  cases hy : y with
  | none => rw [Option.toList_none, List.append_nil]; rfl
  | some b =>
    have hb : f.head.map g = some b := by
      rcases h with h | h
      · rw [h] at hy; cases hy
      · rw [← h, hy]
    obtain ⟨x, hx, rfl⟩ := Option.map_eq_some_iff.mp hb
    show (f.readIf true).past.map g = _
    rw [f.past_readIf_true hx, List.map_append]
    rfl

theorem empty_eq_isNone_head : f.empty = f.head.isNone := by
  rw [empty, head]
  cases f.queue <;> rfl

theorem exists_head (h : (!f.empty) = true) : ∃ x, f.head = some x := by
  rw [empty_eq_isNone_head] at h
  cases hx : f.head with
  | none => rw [hx] at h; cases h
  | some x => exact ⟨x, rfl⟩

theorem head_put_of_head {x : α} (h : f.head = some x) (y : Option α) : (f.put y).head = some x := by
  obtain ⟨q, hq⟩ := f.queue_eq_of_head h
  rw [head, put, hq]
  rfl

theorem readIf_of_head_eq_none (h : f.head = none) (b : Bool) : f.readIf b = f := by
  rw [head, List.head?_eq_none_iff] at h
  cases b with
  | false => rfl
  | true => rw [readIf, if_pos rfl, pop, h]

theorem past_eq_sent_of_queue (h : f.queue = []) : f.past = f.sent := by
  rw [sent, h, List.append_nil]

theorem past_eq_sent (h : f.head = none) : f.past = f.sent := by
  rw [head, List.head?_eq_none_iff] at h
  exact f.past_eq_sent_of_queue h

/-- Only an empty stream is not changed by a read. -/
theorem head_eq_none_of_readIf (h : f.readIf true = f) : f.head = none := by
  cases hx : f.head with
  | none => rfl
  | some x =>
    have hlen := f.length_past_readIf_true hx
    rw [h] at hlen
    omega

end Fifo

end Nica.Lib
