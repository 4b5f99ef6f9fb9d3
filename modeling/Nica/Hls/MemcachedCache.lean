import Nica.Lib.Memory

/-!
# The cache of the memcached ikernel (`ikernels/hls/memcached_cache.hpp`)

A direct-mapped table in the DRAM.  The index of a key is its djb2 hash, cut to `log_size` bits, behind the
id of the ikernel; an entry holds its key.  `find` posts a read and keeps the key in `outstandingReads`, and
`getFindResult` compares the two when the answer comes.

A `byte_array` of `n` bytes is a word of `8 * n` bits, with `data[i]` in the bits from `8 * i` on.
-/

namespace Nica.Hls.Memcached

open Nica.Lib

/-- The template parameters, with the `static_assert` of `entry`. -/
structure Sizes where
  key : ℕ
  value : ℕ
  key_le : key ≤ 16
  value_le : value ≤ 16

/-- `memcached_key`. -/
abbrev Key (z : Sizes) := BitVec (8 * z.key)

/-- `memcached_value`. -/
abbrev Value (z : Sizes) := BitVec (8 * z.value)

/-- `data[i]` of a `byte_array`. -/
def byteAt {n : ℕ} (a : BitVec n) (i : ℕ) : BitVec 8 := a.extractLsb' (8 * i) 8

/-- `entry`. -/
structure Entry (z : Sizes) where
  valid : Bool
  key : Key z
  value : Value z
deriving DecidableEq, Repr

namespace Entry

variable {z : Sizes}

/-- `entry(const ap_uint<512>&)`. -/
def unpack (d : BitVec 512) : Entry z :=
  ⟨d.getLsbD 511, (d.extractLsb' 128 128).setWidth _, (d.extractLsb' 0 128).setWidth _⟩

/-- `operator ap_uint<512>`.  The bits above a shorter key or value are left undefined by the source and
never read again; here they are 0. -/
def pack (e : Entry z) : BitVec 512 :=
  BitVec.ofBool e.valid ++ (0#255 ++ (e.key.setWidth 128 ++ e.value.setWidth 128))

end Entry

/-- One step of the hash; `char` is signed. -/
def mix (seed : BitVec 64) (c : BitVec 8) : BitVec 64 := ((seed <<< 5) + seed) + c.signExtend 64

/-- `h_a`: the first half of the key. -/
def hA {z : Sizes} (tag : Key z) : BitVec 64 :=
  (List.range (z.key / 2)).foldl (fun seed i => mix seed (byteAt tag i)) 5381

/-- `h_b`: the second half of the key. -/
def hB {z : Sizes} (seed : BitVec 64) (tag : Key z) : BitVec 64 :=
  (List.range' (z.key / 2) (z.key - z.key / 2)).foldl (fun seed i => mix seed (byteAt tag i)) seed

/-- `h`: the index of a key.  The shift is one of a 32-bit `int`, which is defined for `log_size` up to
30. -/
def h {z : Sizes} (tag : Key z) (logSize : ℕ) (ikernelId : ℕ) : BitVec 64 :=
  let hash : BitVec 25 := (hB (hA tag) tag &&& ((1#32 <<< logSize) - 1).signExtend 64).setWidth 25
  let ik : BitVec 10 := BitVec.ofNat 10 ikernelId
  (ik ++ hash).setWidth 64

/-- The DRAM, by index: 64 bytes at a time. -/
abbrev Dram := Memory (BitVec 64) (BitVec 512)

/-- `memcached_cache` beside its memory. -/
structure Cache (z : Sizes) where
  outstandingReads : Fifo (Key z)
  memory : Dram

namespace Cache

variable {z : Sizes}

def insert (k : Cache z) (key : Key z) (value : Value z) (logSize ikernelId : ℕ) : Cache z :=
  { k with memory := k.memory.post (.write (h key logSize ikernelId) (Entry.pack ⟨true, key, value⟩)) }

def erase (k : Cache z) (key : Key z) (logSize ikernelId : ℕ) : Cache z :=
  { k with memory := k.memory.post (.write (h key logSize ikernelId) (Entry.pack (z := z) ⟨false, 0, 0⟩)) }

/-- `find`; nothing is posted when too many reads are outstanding. -/
def find (full : Bool) (k : Cache z) (key : Key z) (logSize ikernelId : ℕ) : Cache z :=
  if full then k
  else
    { outstandingReads := k.outstandingReads.write key
      memory := k.memory.post (.read (h key logSize ikernelId)) }

/-- `has_find_result`. -/
def hasFindResult (k : Cache z) : Bool := !k.outstandingReads.empty && !k.memory.responses.empty

/-- What `get_find_result` makes of an answer of the memory. -/
def findResult (key : Key z) (d : BitVec 512) : Option (Value z) :=
  let ent : Entry z := .unpack d
  if ent.valid ∧ ent.key = key then some ent.value else none

/-- `get_find_result`, when there is one. -/
def getFindResult (k : Cache z) : Option (Option (Value z)) × Cache z :=
  match k.outstandingReads.head, k.memory.responses.head with
  | some key, some d =>
    (some (findResult key d),
      { outstandingReads := k.outstandingReads.pop, memory := k.memory.getResponse })
  | _, _ => (none, k)

end Cache

/-! ### The cache and its users -/

/-- An operation on the cache that was carried out. -/
inductive CacheOp (z : Sizes)
  | insert (ikernelId : ℕ) (key : Key z) (value : Value z)
  | erase (ikernelId : ℕ) (key : Key z)
  | find (ikernelId : ℕ) (key : Key z)
deriving DecidableEq

/-- The cache, the operations carried out so far and the results returned, both oldest first (ghost). -/
structure CacheRun (z : Sizes) where
  cache : Cache z
  ops : List (CacheOp z)
  results : List (Option (Value z))

inductive CacheAction (z : Sizes)
  | insert (ikernelId : ℕ) (key : Key z) (value : Value z)
  | erase (ikernelId : ℕ) (key : Key z)
  | find (full : Bool) (ikernelId : ℕ) (key : Key z)
  | serve
  | getFindResult

namespace CacheRun

variable {z : Sizes}

def init (cells : BitVec 64 → BitVec 512) : CacheRun z := ⟨⟨.nil, .init cells⟩, [], []⟩

def step (logSize : ℕ → ℕ) (s : CacheRun z) : CacheAction z → CacheRun z
  | .insert id key value =>
    { s with cache := s.cache.insert key value (logSize id) id, ops := s.ops ++ [.insert id key value] }
  | .erase id key =>
    { s with cache := s.cache.erase key (logSize id) id, ops := s.ops ++ [.erase id key] }
  | .find full id key =>
    { s with
      cache := s.cache.find full key (logSize id) id
      ops := s.ops ++ if full then [] else [.find id key] }
  | .serve => { s with cache := { s.cache with memory := s.cache.memory.serve } }
  | .getFindResult =>
    let (result, cache) := s.cache.getFindResult
    { s with cache := cache, results := s.results ++ result.toList }

end CacheRun

end Nica.Hls.Memcached
