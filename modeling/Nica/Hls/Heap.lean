import Nica.Lib.HeapOrder
import Mathlib.Data.BitVec

/-!
# The heap of the top-k ikernels (`ikernels/hls/heap.hpp`)

A min-heap in an array of `Size` elements.  The indices are `unsigned int`s; `parent` and `child` return an
`int`, with -1 for "none", and the arithmetic of both wraps.  An access to `_data` at or above `_size` is a
fault, and so is a loop that does not end within `fuel` rounds.
-/

namespace Nica.Hls

open Nica.Lib

/-- `unsigned int`. -/
abbrev HeapIndex := BitVec 32

inductive Fault
  | outOfBounds | outOfFuel
deriving DecidableEq, Repr

/-- `heap`: `_data` and `_size`. -/
structure Heap (T : Type) where
  data : ℕ → T
  size : HeapIndex

namespace Heap

variable {T : Type}

/-- The constructor, with what the array happens to hold. -/
def init (data : ℕ → T) : Heap T := ⟨data, 0⟩

/-- `_data[idx]`. -/
def getItem (h : Heap T) (idx : HeapIndex) : Except Fault T :=
  if idx < h.size then .ok (h.data idx.toNat) else .error .outOfBounds

/-- `_data[idx] = val`. -/
def setItem (h : Heap T) (idx : HeapIndex) (val : T) : Except Fault (Heap T) :=
  if idx < h.size then .ok { h with data := Function.update h.data idx.toNat val } else .error .outOfBounds

/-- `std::swap(_data[a], _data[b])`. -/
def swap (h : Heap T) (a b : HeapIndex) : Except Fault (Heap T) :=
  if a < h.size ∧ b < h.size then .ok { h with data := HeapOrder.swap h.data a.toNat b.toNat }
  else .error .outOfBounds

/-- `parent`: the division of the `int` truncates, so the parent of the root is the root. -/
def parent (h : Heap T) (idx : HeapIndex) : ℤ :=
  if h.size ≤ 1 then -1 else (idx - 1).toInt.tdiv 2

/-- `child`: the left one. -/
def child (h : Heap T) (idx : HeapIndex) : ℤ :=
  if h.size ≤ 1 ∨ 2 * idx + 1 ≥ h.size then -1 else (2 * idx + 1).toInt

variable [LinearOrder T]

/-- `getMinIdx`. -/
def getMinIdx (h : Heap T) (aIdx bIdx cIdx : HeapIndex) : Except Fault HeapIndex := do
  let a ← h.getItem aIdx
  let b ← h.getItem bIdx
  let isLeftSmaller := decide (a < b)
  if cIdx ≥ h.size then return if isLeftSmaller then aIdx else bIdx
  else
    let c ← h.getItem cIdx
    if isLeftSmaller then return if a < c then aIdx else cIdx
    else return if b < c then bIdx else cIdx

/-- `bubbleUp`. -/
def bubbleUp : ℕ → Heap T → HeapIndex → Except Fault (Heap T × HeapIndex)
  | 0, _, _ => .error .outOfFuel
  | fuel + 1, h, idx => do
    let parentIdx := h.parent idx
    if parentIdx = -1 then return (h, idx)
    let above ← h.getItem (BitVec.ofInt 32 parentIdx)
    let val ← h.getItem idx
    if above > val then
      let h ← h.swap (BitVec.ofInt 32 parentIdx) idx
      bubbleUp fuel h (BitVec.ofInt 32 parentIdx)
    else return (h, idx)

/-- `bubbleDown`. -/
def bubbleDown : ℕ → Heap T → HeapIndex → Except Fault (Heap T × HeapIndex)
  | 0, _, _ => .error .outOfFuel
  | fuel + 1, h, idx => do
    let childIdx := h.child idx
    if childIdx = -1 then return (h, idx)
    let minIdx ← h.getMinIdx idx (BitVec.ofInt 32 childIdx) (BitVec.ofInt 32 (childIdx + 1))
    if minIdx ≠ idx then
      let h ← h.swap minIdx idx
      bubbleDown fuel h minIdx
    else return (h, idx)

/-- `insert`: into a full heap in the place of the root. -/
def insert (Size : HeapIndex) (fuel : ℕ) (h : Heap T) (val : T) : Except Fault (Heap T × HeapIndex) :=
  if h.size ≥ Size then do
    let h ← h.setItem 0 val
    h.bubbleDown fuel 0
  else do
    let h ← { h with size := h.size + 1 }.setItem h.size val
    h.bubbleUp fuel (h.size - 1)

/-- `update`. -/
def update (fuel : ℕ) (h : Heap T) (idx : HeapIndex) (newVal : T) : Except Fault (Heap T × HeapIndex) := do
  let oldVal ← h.getItem idx
  let h ← h.setItem idx newVal
  if oldVal < newVal then h.bubbleDown fuel idx else h.bubbleUp fuel idx

/-- `extractMin`. -/
def extractMin (fuel : ℕ) (h : Heap T) : Except Fault (Heap T × T) := do
  let min ← h.getItem 0
  let last ← h.getItem (h.size - 1)
  let h ← h.setItem 0 last
  let (h, _) ← { h with size := h.size - 1 }.bubbleDown fuel 0
  return (h, min)

/-- A call of one of the operations. -/
inductive Op (T : Type)
  | insert (val : T)
  | update (idx : HeapIndex) (newVal : T)
  | extractMin
deriving DecidableEq

/-- What a call returns. -/
inductive Answer (T : Type)
  | index (idx : HeapIndex)
  | min (val : T)
deriving DecidableEq

/-- One call. -/
def step (Size : HeapIndex) (fuel : ℕ) (h : Heap T) : Op T → Except Fault (Heap T × Answer T)
  | .insert val => (h.insert Size fuel val).map fun r => (r.1, .index r.2)
  | .update idx newVal => (h.update fuel idx newVal).map fun r => (r.1, .index r.2)
  | .extractMin => (h.extractMin fuel).map fun r => (r.1, .min r.2)

/-- `n` calls of `extractMin`, and what they return. -/
def drain (fuel : ℕ) : ℕ → Heap T → Except Fault (Heap T × List T)
  | 0, h => .ok (h, [])
  | n + 1, h => do
    let (h, min) ← h.extractMin fuel
    let (h, rest) ← drain fuel n h
    return (h, min :: rest)

end Heap

end Nica.Hls
