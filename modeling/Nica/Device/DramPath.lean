import Nica.Hls.MemcachedCache
import Nica.Manager.Equiv.Identifiers
import Nica.Verilog.Equiv.DdrAddressMapping

/-!
# The way of an access to the DRAM

A memcached ikernel makes the index of an entry (`memcached_cache::h`) with the size that its cache context
holds; the index times 64 is the address on the bus, with the id of the ikernel in bits 40:31; the mapping
unit adds the page of the id.  The manager programs the size and the page through the gateway and the
AXI-lite bus, so both are read off the writes that it made.
-/

namespace Nica.Device

open Nica.Hls.Memcached
open Nica.Manager
open Nica.Verilog.ExpHls
open Nica.Verilog (DdrAddressMapping.Axi DdrAddressMapping.Request DdrAddressMapping.translate)

/-- A write of the manager to the table of the mapping unit; the table is not written for other addresses. -/
def mapWrite (table : BitVec 10 → BitVec 32) (w : ℤ × ℕ) : BitVec 10 → BitVec 32 :=
  if ddrTableSelected (BitVec.ofInt 32 w.1) then
    match tableEntry (BitVec.ofInt 32 w.1) with
    | some e => Function.update table e (BitVec.ofNat 32 w.2)
    | none => table
  else table

/-- The table after the writes of the manager. -/
def mapTable (writes : List (ℤ × ℕ)) : BitVec 10 → BitVec 32 := writes.foldl mapWrite (fun _ => 0)

/-- `LOG_DEFAULT_CACHE_SIZE`: the 2 GB of the DDR in entries of 64 bytes. -/
def logDefaultCacheSize : ℕ := 25

/-- `memcached_cache_contexts::rpc`: a write to `MEMCACHED_REG_CACHE_SIZE`. -/
def sizeWrite (sizes : BitVec 6 → ℕ) (a : Access) : BitVec 6 → ℕ :=
  match a.value with
  | some v => if a.address = 0 then Function.update sizes (ikernelIdT a.ikernelId) v.toNat else sizes
  | none => sizes

/-- The sizes in the cache contexts after the accesses of the gateway. -/
def cacheSizes (accesses : List Access) : BitVec 6 → ℕ :=
  accesses.foldl sizeWrite (fun _ => logDefaultCacheSize)

/-- The address on the bus of an entry. -/
def busAddress (index : BitVec 64) : BitVec 64 := index <<< 6

/-- The byte address in the DRAM of the entry of a key, as the ikernel with this id accesses it. -/
def entryAddress {z : Sizes} (table : BitVec 10 → BitVec 32) (sizes : BitVec 6 → ℕ) (id : BitVec 6) (key : Key z)
    (axi : DdrAddressMapping.Axi) : ℕ :=
  (DdrAddressMapping.translate table ⟨busAddress (h key (sizes id) id.toNat), axi⟩).addr.toNat

/-- **Containment**: whatever the key, an ikernel accesses its own region. -/
def Contained (s : State) : Prop :=
  ∀ r, s.alloc.Live r → ∀ (z : Sizes) (key : Key z) (axi : DdrAddressMapping.Axi),
    let address := entryAddress (mapTable s.hw.mmu) (cacheSizes s.hw.gateway) (ikernelIdT (s.heap r).ikernelId)
      key axi
    (s.heap r).base ≤ address ∧ address + 64 ≤ (s.heap r).base + 2 ^ (s.heap r).logDramSize

end Nica.Device
