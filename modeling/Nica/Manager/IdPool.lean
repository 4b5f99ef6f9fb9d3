import Mathlib.Data.List.Basic
import Mathlib.Data.Int.Basic

/-!
# The ID pool (`manager/idpool.py`)

Python's sets are lists here, in the order in which Python happens to iterate them: `add` inserts,
`remove` drops every occurrence.
-/

namespace Nica.Manager

/-- `set.remove` of an element that is there. -/
def remove {α : Type} [DecidableEq α] (xs : List α) (x : α) : List α :=
  xs.filter (fun y => y ≠ x)

@[simp]
theorem mem_remove {α : Type} [DecidableEq α] {xs : List α} {x y : α} :
    y ∈ remove xs x ↔ y ∈ xs ∧ y ≠ x := by
  simp [remove]

theorem nodup_remove {α : Type} [DecidableEq α] {xs : List α} (h : xs.Nodup) (x : α) :
    (remove xs x).Nodup :=
  h.filter _

/-- `class IDPool` with the default `new_id`. -/
structure IDPool where
  maxId : Option ℤ
  idsInUse : List ℤ
  idsFree : List ℤ
  lastId : ℤ
deriving DecidableEq

namespace IDPool

/-- `IDPool(min_id, max_id)`. -/
def init (minId : ℤ) (maxId : Option ℤ) : IDPool :=
  { maxId := maxId, idsInUse := [], idsFree := [], lastId := minId }

/-- `self.max_id and id_ >= self.max_id` (a bound of 0 is no bound). -/
def exhausted (p : IDPool) (id : ℤ) : Bool :=
  match p.maxId with
  | some m => m ≠ 0 ∧ m ≤ id
  | none => false

/-- The loop of `get_id` that makes new ids until one meets the condition; the ids it skips become
free.  It skips at most `fuel` ids: what the loop does when one of the next `fuel + 1` ids meets the
condition. -/
def newId (condition : ℤ → Bool) : ℕ → IDPool → ℤ × IDPool
  | 0, p => (p.lastId + 1, { p with lastId := p.lastId + 1 })
  | fuel + 1, p =>
    let id := p.lastId + 1
    if condition id then (id, { p with lastId := id })
    else newId condition fuel { p with lastId := id, idsFree := p.idsFree.insert id }

/-- `IDPool.get_id`; no id stands for the `OSError` of an exhausted pool. -/
def getId (fuel : ℕ) (condition : ℤ → Bool) (p : IDPool) : Option ℤ × IDPool :=
  match p.idsFree.filter condition with
  | id :: _ => (some id, { p with idsFree := remove p.idsFree id, idsInUse := p.idsInUse.insert id })
  | [] =>
    let (id, p') := newId condition fuel p
    if p'.exhausted id then (none, p')
    else (some id, { p' with idsInUse := p'.idsInUse.insert id })

/-- `IDPool.release_id`. -/
def releaseId (p : IDPool) (id : ℤ) : IDPool :=
  if id ∈ p.idsInUse then
    { p with idsInUse := remove p.idsInUse id, idsFree := p.idsFree.insert id }
  else p

end IDPool

end Nica.Manager
