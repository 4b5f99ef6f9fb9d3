import Nica.Hls.Cms
import Nica.Lib.HandleHeap
import Nica.Lib.Run

/-!
# The heavy hitters on the host (`software/CmsUdpServer.cpp`)

The server counts every value that it receives in a sketch, and keeps `_k` values of large estimates in a heap.  The
heap orders its elements by falling frequency (`operator<` of `heap_data` compares with `>`), so its top is the value
that is evicted next, and `index` has the handle of every value in it.

The heap is the one of Boost, which is not part of the sources: `HandleHeap` is its interface.  The handle that an
element keeps of itself is left out, since nothing reads it.
-/

namespace Nica.Software.CmsServer

open Nica.Lib
open Nica.Hls (CountMinSketch)

/-- `value_frequency_pair`. -/
structure ValueFrequencyPair where
  value : BitVec 32
  frequency : BitVec 32
deriving DecidableEq, Repr, Inhabited

/-- `value_frequency_pair::increment`. -/
def ValueFrequencyPair.increment (p : ValueFrequencyPair) : ValueFrequencyPair := { p with frequency := p.frequency + 1 }

/-- `heap_data::operator<`. -/
def heapLt (a b : ValueFrequencyPair) : Prop := a.frequency > b.frequency

instance (a b : ValueFrequencyPair) : Decidable (heapLt a b) := inferInstanceAs (Decidable (_ > _))

variable (H : HandleHeap ValueFrequencyPair)

/-- `CmsUdpServer`.  The elements before and after each increment, and the heap and the estimate at each eviction are
ghosts. -/
structure Server where
  countMinSketch : CountMinSketch
  k : BitVec 32
  topK : H.Heap
  index : BitVec 32 → Option H.Handle
  increases : List (ValueFrequencyPair × ValueFrequencyPair)
  evictions : List (H.Heap × BitVec 32)

variable {H}

namespace Server

/-- After the constructor. -/
def init (H : HandleHeap ValueFrequencyPair) (hashes : Fin 3 → Fin 2 → BitVec 32) (k : BitVec 32) : Server H :=
  ⟨.new hashes, k, H.empty, fun _ => none, [], []⟩

/-- A value in the index is incremented. -/
def hit (s : Server H) (handle : H.Handle) : Server H :=
  let payload := H.get s.topK handle
  { s with
    topK := H.increase (H.set s.topK handle payload.increment) handle
    increases := s.increases ++ [(payload, payload.increment)] }

/-- The top is removed. -/
def evict (s : Server H) (estimatedCount : BitVec 32) : Server H :=
  let top := H.top s.topK
  { s with
    index := Function.update s.index top.value none
    topK := H.pop s.topK
    evictions := s.evictions ++ [(s.topK, estimatedCount)] }

/-- A value is added. -/
def insert (s : Server H) (newData estimatedCount : BitVec 32) : Server H :=
  let (topK, handle) := H.push s.topK ⟨newData, estimatedCount⟩
  { s with topK, index := Function.update s.index newData (some handle) }

/-- `process`, for the value in a packet. -/
def process (s : Server H) (newData : BitVec 32) : Server H :=
  let s := { s with countMinSketch := s.countMinSketch.update newData 1 }
  match s.index newData with
  | some handle => s.hit handle
  | none =>
    let estimatedCount := s.countMinSketch.estimate newData
    if s.k.toNat ≤ H.size s.topK then
      if (H.top s.topK).frequency > estimatedCount then s
      else (s.evict estimatedCount).insert newData estimatedCount
    else s.insert newData estimatedCount

end Server

end Nica.Software.CmsServer
