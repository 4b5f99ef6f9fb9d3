import Nica.Lib.Packing
import Nica.Hls.MemcachedCache
import Nica.Hls.UdpHeaders

/-!
# Packed representations (`nica/hls/ikernel.hpp`, `either.hpp`, `flow_table_impl.hpp`, `mlx.h`)

The conversions between the types that cross a FIFO or the memory and words of bits, with the ranges as the source
writes them.  Here the types are those of the source for any widths of the identifiers; the rest of the development
uses them at the widths of `ikernel-types.hpp`.

`d(hi, lo)` is `d.extractLsb hi lo`, cut to the width of what it initialises.
-/

namespace Nica.Hls

open Nica.Lib

/-- The widths of `pkt_type_t`, `flow_id_t`, `ikernel_id_t`, `ring_id_t`, `vm_id_t` and `engine_id_t`. -/
structure Widths where
  pktType : ℕ
  flowId : ℕ
  ikernelId : ℕ
  ringId : ℕ
  vmId : ℕ
  engineId : ℕ

/-- The widths of `nica/hls/ikernel-types.hpp`. -/
def Widths.source : Widths := ⟨1, 11, 6, 7, 6, 1⟩

/-! ### `packet_metadata`, `custom_ring_metadata` and `mlx::metadata` -/

namespace PacketMetadata

/-- `operator ap_uint<width>`. -/
def toBits (p : PacketMetadata) : BitVec 192 := p.ethDst ++ p.ethSrc ++ p.ipDst ++ p.ipSrc ++ p.udpDst ++ p.udpSrc

/-- `packet_metadata(const ap_uint<width>)`. -/
def ofBits (d : BitVec 192) : PacketMetadata where
  ethDst := d.extractLsb 191 144
  ethSrc := d.extractLsb 143 96
  ipDst := d.extractLsb 95 64
  ipSrc := d.extractLsb 63 32
  udpDst := d.extractLsb 31 16
  udpSrc := d.extractLsb 15 0

theorem ofBits_toBits (p : PacketMetadata) : ofBits p.toBits = p := by
  simp -index (disch := omega) only [ofBits, toBits, BitVec.extractLsb, BitVec.extractLsb'_append_eq_of_le,
    BitVec.extractLsb'_append_eq_of_add_le, Nat.reduceSub, Nat.reduceAdd, BitVec.extractLsb'_eq_self]

instance : Packing PacketMetadata := ⟨192, toBits, ofBits, ofBits_toBits⟩

end PacketMetadata

namespace CustomRingMetadata

/-- `operator ap_uint<width>`. -/
def toBits (c : CustomRingMetadata) : BitVec 1 := c.endOfMessage

/-- `custom_ring_metadata(const ap_uint<width>)`. -/
def ofBits (d : BitVec 1) : CustomRingMetadata := ⟨d.extractLsb 0 0⟩

theorem ofBits_toBits (c : CustomRingMetadata) : ofBits c.toBits = c :=
  congrArg mk BitVec.extractLsb'_eq_self

instance : Packing CustomRingMetadata := ⟨1, toBits, ofBits, ofBits_toBits⟩

end CustomRingMetadata

namespace MlxMetadata

/-- `operator ap_uint<width>`. -/
def toBits (m : MlxMetadata) : BitVec 15 := m.user ++ m.id

/-- `mlx::metadata(ap_uint<15>)`. -/
def ofBits (d : BitVec 15) : MlxMetadata := ⟨d.extractLsb 14 3, d.extractLsb 2 0⟩

end MlxMetadata

/-! ### `either` -/

/-- `either<Left, Right>::width`: room for the longer of the two, and the tag. -/
abbrev eitherWidth (L R : Type) [Packing L] [Packing R] : ℕ := 1 + max (Packing.width L) (Packing.width R)

theorem width_left_lt (L R : Type) [Packing L] [Packing R] : Packing.width L < eitherWidth L R := by
  have := Nat.le_max_left (Packing.width L) (Packing.width R)
  rw [eitherWidth]
  omega

theorem width_right_lt (L R : Type) [Packing L] [Packing R] : Packing.width R < eitherWidth L R := by
  have := Nat.le_max_right (Packing.width L) (Packing.width R)
  rw [eitherWidth]
  omega

/-- `either<Left, Right>`. -/
structure Either (L R : Type) [Packing L] [Packing R] where
  data : BitVec (eitherWidth L R)

namespace Either

variable {L R : Type} [Packing L] [Packing R]

/-- `is_left`. -/
def isLeft (e : Either L R) : Bool := !e.data.getLsbD (eitherWidth L R - 1)

/-- `get<T>`. -/
def get (T : Type) [Packing T] (e : Either L R) : T :=
  Packing.ofBits ((e.data.extractLsb (Packing.width T - 1) 0).setWidth (Packing.width T))

/-- `either(const Left&)`. -/
def left (x : L) : Either L R := ⟨(0#(eitherWidth L R - Packing.width L) ++ Packing.toBits x).setWidth _⟩

/-- `either(const Right&)`. -/
def right (x : R) : Either L R :=
  ⟨setRange ((0#(eitherWidth L R - Packing.width R) ++ Packing.toBits x).setWidth _) (eitherWidth L R - 1) 1#1⟩

end Either

/-! ### `metadata` -/

/-- `hls_ik::metadata` for any widths; `var` is the union as it is stored. -/
structure MetadataOf (w : Widths) where
  pktType : BitVec w.pktType
  flowId : BitVec w.flowId
  ikernelId : BitVec w.ikernelId
  var : Either PacketMetadata CustomRingMetadata
  ringId : BitVec w.ringId
  ipIdentification : BitVec 16
  length : BitVec 16

namespace MetadataOf

variable {w : Widths}

/-- `either_t::width`. -/
abbrev varWidth : ℕ := eitherWidth PacketMetadata CustomRingMetadata

/-- `metadata::width`. -/
abbrev width (w : Widths) : ℕ := w.pktType + w.flowId + w.ikernelId + varWidth + w.ringId + 16 + 16

/-- `operator ap_uint<width>`. -/
def toBits (m : MetadataOf w) : BitVec (width w) :=
  m.pktType ++ m.flowId ++ m.ikernelId ++ m.var.data ++ m.ringId ++ m.ipIdentification ++ m.length

/-- `metadata(const ap_uint<width>)`. -/
def ofBits (d : BitVec (width w)) : MetadataOf w where
  pktType :=
    (d.extractLsb (w.pktType + w.flowId + w.ikernelId + varWidth + 31 + w.ringId)
      (w.flowId + w.ikernelId + varWidth + 32 + w.ringId)).setWidth _
  flowId :=
    (d.extractLsb (w.flowId + w.ikernelId + varWidth + 31 + w.ringId)
      (w.ikernelId + varWidth + 32 + w.ringId)).setWidth _
  ikernelId := (d.extractLsb (w.ikernelId + varWidth + 31 + w.ringId) (varWidth + 32 + w.ringId)).setWidth _
  var := ⟨(d.extractLsb (varWidth + 31 + w.ringId) (32 + w.ringId)).setWidth _⟩
  ringId := (d.extractLsb (32 + w.ringId - 1) 32).setWidth _
  ipIdentification := (d.extractLsb 31 16).setWidth _
  length := (d.extractLsb 15 0).setWidth _

end MetadataOf

/-- The union of a metadata as it is stored. -/
def Metadata.either (m : Metadata) : Either PacketMetadata CustomRingMetadata :=
  match m.var with
  | .inl p => .left p
  | .inr c => .right c

/-- A metadata with its union as it is stored. -/
def Metadata.stored (m : Metadata) : MetadataOf .source :=
  ⟨m.pktType, m.flowId, m.ikernelId, m.either, m.ringId, m.ipIdentification, m.length⟩

/-! ### `pack<flow>` and `pack<flow_table_value>` -/

/-- `flow` for any widths. -/
structure FlowOf (w : Widths) where
  sourcePort : BitVec 16
  destPort : BitVec 16
  saddr : BitVec 32
  daddr : BitVec 32
  vmId : BitVec w.vmId

namespace FlowOf

variable {w : Widths}

/-- `pack<flow>::width`. -/
abbrev width (w : Widths) : ℕ := 16 + 16 + 32 + 32 + w.vmId

/-- `to_int`. -/
def toInt (e : FlowOf w) : BitVec (width w) := e.sourcePort ++ e.destPort ++ e.saddr ++ e.daddr ++ e.vmId

/-- `from_int`. -/
def ofInt (d : BitVec (width w)) : FlowOf w where
  sourcePort := (d.extractLsb (w.vmId + 96 - 1) (w.vmId + 80)).setWidth _
  destPort := (d.extractLsb (w.vmId + 80 - 1) (w.vmId + 64)).setWidth _
  saddr := (d.extractLsb (w.vmId + 64 - 1) (w.vmId + 32)).setWidth _
  daddr := (d.extractLsb (w.vmId + 32 - 1) w.vmId).setWidth _
  vmId := (d.extractLsb (w.vmId - 1) 0).setWidth _

end FlowOf

/-- `flow_table_value` for any widths.  The enumeration of the actions has the values of two bits. -/
structure FlowTableValueOf (w : Widths) where
  action : BitVec 2
  engineId : BitVec w.engineId
  ikernelId : BitVec w.ikernelId

namespace FlowTableValueOf

variable {w : Widths}

/-- `pack<flow_table_value>::width`. -/
abbrev width (w : Widths) : ℕ := 2 + w.engineId + w.ikernelId

/-- `to_int`. -/
def toInt (e : FlowTableValueOf w) : BitVec (width w) := e.action ++ e.engineId ++ e.ikernelId

/-- `from_int`. -/
def ofInt (d : BitVec (width w)) : FlowTableValueOf w where
  action := (d.extractLsb (width w - 1) (width w - 2)).setWidth _
  engineId := (d.extractLsb (width w - 3) (width w - 2 - w.engineId)).setWidth _
  ikernelId := (d.extractLsb (w.ikernelId - 1) 0).setWidth _

end FlowTableValueOf

/-! ### The entry of the memcached cache -/

namespace Memcached

/-- `byte_array<Size, 128>`. -/
abbrev Bytes (size : ℕ) := Vector (BitVec 8) size

/-- `byte_array(const ap_uint<Bits>&)`. -/
def Bytes.ofBits {size : ℕ} (d : BitVec 128) : Bytes size := .ofFn fun i => (d.extractLsb (8 * i + 7) (8 * i)).setWidth 8

/-- `operator ap_uint<Bits>`.  The source does not initialise `ret`; `ret` is what it holds then. -/
def Bytes.toBits {size : ℕ} (ret : BitVec 128) (a : Bytes size) : BitVec 128 :=
  (List.range size).foldl (fun ret i => setRange ret (8 * i) (a[i]?.getD 0)) ret

/-- `entry`, byte for byte. -/
structure EntryBytes (z : Sizes) where
  valid : BitVec 1
  key : Bytes z.key
  value : Bytes z.value

namespace EntryBytes

variable {z : Sizes}

/-- `operator ap_uint<512>`, with what the words for the key and the value hold before. -/
def toBits (retKey retValue : BitVec 128) (e : EntryBytes z) : BitVec 512 :=
  e.valid ++ (0#255 ++ (e.key.toBits retKey ++ e.value.toBits retValue))

/-- `entry(const ap_uint<512>&)`. -/
def ofBits (d : BitVec 512) : EntryBytes z :=
  ⟨d.extractLsb 511 511, .ofBits (d.extractLsb 255 128), .ofBits (d.extractLsb 127 0)⟩

end EntryBytes

/-- An entry byte for byte. -/
def Entry.bytes {z : Sizes} (e : Entry z) : EntryBytes z :=
  ⟨BitVec.ofBool e.valid, .ofFn fun i => byteAt e.key i, .ofFn fun i => byteAt e.value i⟩

end Memcached

end Nica.Hls
