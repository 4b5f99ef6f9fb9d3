import Nica.Hls.FlowTable
import Nica.Hls.Packing

/-!
# Nothing is lost in a packed representation

`packed_roundTrip`: for any widths of the identifiers, unpacking gives back every field of the metadata types, of the
headers, of the flows and their values, and of the entries of the memcached cache; and both sides of the union are
told apart and read back.  Packing gives back a word that was made by packing.

The types at the widths of the source are `Flow`, `FlowTableValue` and `Memcached.Entry` (`flow_toInt`,
`valueToInt_eq`, `entry_pack`).
-/

namespace Nica.Hls

open Nica.Lib

/-! ### Headers -/

theorem EthHeader.ofBits_toBits (h : EthHeader) : ofBits h.toBits = h := by
  simp -index (disch := omega) only [ofBits, toBits, BitVec.extractLsb'_append_eq_of_le,
    BitVec.extractLsb'_append_eq_of_add_le, Nat.reduceSub, Nat.reduceAdd, BitVec.extractLsb'_eq_self]

theorem IpHeader.ofBits_toBits (h : IpHeader) : ofBits h.toBits = h := by
  simp -index (disch := omega) only [ofBits, toBits, BitVec.extractLsb'_append_eq_of_le,
    BitVec.extractLsb'_append_eq_of_add_le, Nat.reduceSub, Nat.reduceAdd, BitVec.extractLsb'_eq_self]

theorem UdpHeader.ofBits_toBits (h : UdpHeader) : ofBits h.toBits = h := by
  simp -index (disch := omega) only [ofBits, toBits, BitVec.extractLsb'_append_eq_of_le,
    BitVec.extractLsb'_append_eq_of_add_le, Nat.reduceSub, Nat.reduceAdd, BitVec.extractLsb'_eq_self]

theorem HeaderParser.ofBits_toBits (h : HeaderParser) : ofBits h.toBits = h := by
  simp -index (disch := omega) only [ofBits, toBits, BitVec.extractLsb'_append_eq_of_le,
    BitVec.extractLsb'_append_eq_of_add_le, Nat.reduceSub, Nat.reduceAdd, BitVec.extractLsb'_eq_self,
    EthHeader.ofBits_toBits, IpHeader.ofBits_toBits, UdpHeader.ofBits_toBits]

theorem MlxMetadata.ofBits_toBits (m : MlxMetadata) : ofBits m.toBits = m := by
  simp -index (disch := omega) only [ofBits, toBits, BitVec.extractLsb, BitVec.extractLsb'_append_eq_of_le,
    BitVec.extractLsb'_append_eq_of_add_le, Nat.reduceSub, Nat.reduceAdd, BitVec.extractLsb'_eq_self]

/-! ### The union -/

namespace Either

variable {L R : Type} [Packing L] [Packing R]

theorem isLeft_left (x : L) : (left x : Either L R).isLeft = true := by
  have hge : Packing.width L ≤ eitherWidth L R - 1 := Nat.le_sub_one_of_lt (width_left_lt L R)
  rw [isLeft, left, setWidth_zero_append, BitVec.getLsbD_setWidth, BitVec.getLsbD_of_ge _ _ hge, Bool.and_false]
  rfl

theorem isLeft_right (x : R) : (right x : Either L R).isLeft = false := by
  have hlt := width_right_lt L R
  rw [isLeft, right, getLsbD_setRange _ _ _ (by omega), if_pos (by omega), Nat.sub_self]
  rfl

/-- The longer of the two is stored from bit 0 on, and so is the other one. -/
theorem get_of_getLsbD {T : Type} [Packing T] {e : Either L R} {x : T}
    (h : ∀ i < Packing.width T, e.data.getLsbD i = (Packing.toBits x).getLsbD i) : e.get T = x := by
  have hd : (e.data.extractLsb (Packing.width T - 1) 0).setWidth (Packing.width T) = Packing.toBits x := by
    rw [setWidth_extractLsb _ (by omega)]
    apply BitVec.eq_of_getLsbD_eq
    intro i hi
    rw [BitVec.getLsbD_extractLsb', decide_eq_true hi, Bool.true_and, Nat.zero_add, h i hi]
  rw [get, hd, Packing.ofBits_toBits]

theorem get_left (x : L) : (left x : Either L R).get L = x := by
  apply get_of_getLsbD
  intro i hi
  have hlt := width_left_lt L R
  rw [left, setWidth_zero_append, BitVec.getLsbD_setWidth, decide_eq_true (by omega), Bool.true_and]

theorem get_right (x : R) : (right x : Either L R).get R = x := by
  apply get_of_getLsbD
  intro i hi
  have hlt := width_right_lt L R
  -- the tag is above the value
  rw [right, getLsbD_setRange _ _ _ (by omega), if_neg (by omega), setWidth_zero_append, BitVec.getLsbD_setWidth,
    decide_eq_true (by omega), Bool.true_and]

end Either

/-! ### Types with widths of their own -/

section Widths

variable {w : Widths}

theorem MetadataOf.ofBits_toBits (m : MetadataOf w) : ofBits m.toBits = m := by
  have hv : varWidth = 193 := rfl
  have he : eitherWidth PacketMetadata CustomRingMetadata = 193 := rfl
  simp -index (disch := omega) only [ofBits, toBits, setWidth_extractLsb, BitVec.extractLsb'_append_eq_of_le,
    BitVec.extractLsb'_append_eq_of_add_le, extractLsb'_of_eq_zero]

theorem FlowOf.ofInt_toInt (e : FlowOf w) : ofInt e.toInt = e := by
  simp (disch := omega) only [ofInt, toInt, setWidth_extractLsb, BitVec.extractLsb'_append_eq_of_le,
    BitVec.extractLsb'_append_eq_of_add_le, extractLsb'_of_eq_zero]

theorem FlowTableValueOf.ofInt_toInt (e : FlowTableValueOf w) : ofInt e.toInt = e := by
  have hw : width w = 2 + w.engineId + w.ikernelId := rfl
  simp (disch := omega) only [ofInt, toInt, setWidth_extractLsb, BitVec.extractLsb'_append_eq_of_le,
    BitVec.extractLsb'_append_eq_of_add_le, extractLsb'_of_eq_zero]

end Widths

/-! ### The entry of the cache -/

namespace Memcached

section Bytes

variable {size : ℕ}

theorem Bytes.ofBits_toBits (hs : size ≤ 16) (ret : BitVec 128) (a : Bytes size) : Bytes.ofBits (a.toBits ret) = a := by
  apply Vector.ext
  intro i hi
  rw [ofBits, Vector.getElem_ofFn, setWidth_extractLsb _ (by omega)]
  apply BitVec.eq_of_getLsbD_eq
  intro j hj
  rw [BitVec.getLsbD_extractLsb', decide_eq_true hj, Bool.true_and, toBits,
    getLsbD_foldl_setRange _ _ _ (by omega), if_pos (by omega), show (8 * i + j) / 8 = i by omega,
    show (8 * i + j) % 8 = j by omega, Vector.getElem?_eq_getElem hi, Option.getD_some]

/-- Where nothing is left of what `ret` held, the loop extends the bytes by zeros. -/
theorem Bytes.toBits_byteAt (k : BitVec (8 * size)) :
    Bytes.toBits 0 (.ofFn fun i : Fin size => byteAt k i) = k.setWidth 128 := by
  apply BitVec.eq_of_getLsbD_eq
  intro i hi
  rw [toBits, getLsbD_foldl_setRange _ _ _ hi, BitVec.getLsbD_setWidth, decide_eq_true hi, Bool.true_and]
  by_cases h : i < 8 * size
  · have hdiv : i / 8 < size := by omega
    rw [if_pos h, Vector.getElem?_eq_getElem hdiv, Option.getD_some, Vector.getElem_ofFn, byteAt, BitVec.getLsbD_extractLsb',
      decide_eq_true (by omega), Bool.true_and, show 8 * (i / 8) + i % 8 = i by omega]
  · rw [if_neg h, BitVec.getLsbD_of_ge k i (by omega)]
    exact BitVec.getLsbD_zero

theorem Bytes.ofBits_eq (d : BitVec 128) :
    (Bytes.ofBits d : Bytes size) = .ofFn fun i : Fin size => byteAt (d.setWidth (8 * size)) i := by
  apply Vector.ext
  intro i hi
  rw [ofBits, Vector.getElem_ofFn, Vector.getElem_ofFn, setWidth_extractLsb _ (by omega), byteAt]
  apply BitVec.eq_of_getLsbD_eq
  intro j hj
  rw [BitVec.getLsbD_extractLsb', BitVec.getLsbD_extractLsb', BitVec.getLsbD_setWidth,
    decide_eq_true (show 8 * i + j < 8 * size by omega), Bool.true_and]

end Bytes

variable {z : Sizes}

theorem EntryBytes.ofBits_toBits (retKey retValue : BitVec 128) (e : EntryBytes z) :
    ofBits (e.toBits retKey retValue) = e := by
  simp -index (disch := omega) only [ofBits, toBits, BitVec.extractLsb, BitVec.extractLsb'_append_eq_of_le,
    BitVec.extractLsb'_append_eq_of_add_le, Nat.reduceSub, Nat.reduceAdd, BitVec.extractLsb'_eq_self,
    Bytes.ofBits_toBits z.key_le, Bytes.ofBits_toBits z.value_le]

/-- The entry of the cache is packed byte by byte, into words that are 0 before. -/
theorem entry_pack (e : Entry z) : e.pack = e.bytes.toBits 0 0 := by
  rw [Entry.pack, Entry.bytes, EntryBytes.toBits, Bytes.toBits_byteAt, Bytes.toBits_byteAt]

/-- The entry of the cache is unpacked byte by byte. -/
theorem bytes_unpack (d : BitVec 512) : (Entry.unpack d : Entry z).bytes = .ofBits d := by
  have hv : BitVec.ofBool (d.getLsbD 511) = d.extractLsb 511 511 := by
    apply BitVec.eq_of_getLsbD_eq
    intro i hi
    obtain rfl : i = 0 := by omega
    simp
  rw [Entry.unpack, Entry.bytes, EntryBytes.ofBits, hv, Bytes.ofBits_eq, Bytes.ofBits_eq]
  rfl

end Memcached

/-! ### At the widths of the source -/

/-- A metadata with its union as it is stored tells the two sides apart and keeps both. -/
theorem Metadata.stored_var (m : Metadata) :
    match m.var with
    | .inl p => m.stored.var.isLeft = true ∧ m.stored.var.get PacketMetadata = p
    | .inr c => m.stored.var.isLeft = false ∧ m.stored.var.get CustomRingMetadata = c := by
  rw [stored, either]
  cases m.var with
  | inl p => exact ⟨Either.isLeft_left p, Either.get_left p⟩
  | inr c => exact ⟨Either.isLeft_right c, Either.get_right c⟩

/-- A flow at the widths of the source. -/
def FlowTable.Flow.ofSource (f : FlowTable.Flow) : FlowOf .source :=
  ⟨f.sourcePort, f.destPort, f.saddr, f.daddr, f.vmId⟩

theorem flow_toInt (f : FlowTable.Flow) : f.toInt = f.ofSource.toInt := rfl

/-- A value of the flow table at the widths of the source. -/
def FlowTableValue.ofSource (v : FlowTableValue) : FlowTableValueOf .source :=
  ⟨FlowTable.actionBits v.action, v.engineId, v.ikernelId⟩

theorem valueToInt_eq (v : FlowTableValue) : FlowTable.valueToInt v = v.ofSource.toInt := rfl

/-! ### The round trips -/

/-- Nothing is lost in a packed representation, whatever the widths of the identifiers, the sizes of the keys and
the values of the cache, and the words that its entries are packed into hold before. -/
theorem packed_roundTrip (w : Widths) (z : Memcached.Sizes) (retKey retValue : BitVec 128) :
    RoundTrip (@MetadataOf.toBits w) MetadataOf.ofBits ∧
    (∀ p : PacketMetadata, (Either.left p : Either PacketMetadata CustomRingMetadata).isLeft = true ∧
      (Either.left p : Either PacketMetadata CustomRingMetadata).get PacketMetadata = p) ∧
    (∀ c : CustomRingMetadata, (Either.right c : Either PacketMetadata CustomRingMetadata).isLeft = false ∧
      (Either.right c : Either PacketMetadata CustomRingMetadata).get CustomRingMetadata = c) ∧
    RoundTrip PacketMetadata.toBits PacketMetadata.ofBits ∧
    RoundTrip CustomRingMetadata.toBits CustomRingMetadata.ofBits ∧
    RoundTrip MlxMetadata.toBits MlxMetadata.ofBits ∧
    RoundTrip EthHeader.toBits EthHeader.ofBits ∧
    RoundTrip IpHeader.toBits IpHeader.ofBits ∧
    RoundTrip UdpHeader.toBits UdpHeader.ofBits ∧
    RoundTrip HeaderParser.toBits HeaderParser.ofBits ∧
    RoundTrip (@FlowOf.toInt w) FlowOf.ofInt ∧
    RoundTrip (@FlowTableValueOf.toInt w) FlowTableValueOf.ofInt ∧
    RoundTrip (@Memcached.EntryBytes.toBits z retKey retValue) Memcached.EntryBytes.ofBits := by
  refine ⟨.of_leftInverse MetadataOf.ofBits_toBits, ?_, ?_, Packing.roundTrip _, Packing.roundTrip _,
    .of_leftInverse MlxMetadata.ofBits_toBits, .of_leftInverse EthHeader.ofBits_toBits,
    .of_leftInverse IpHeader.ofBits_toBits, .of_leftInverse UdpHeader.ofBits_toBits,
    .of_leftInverse HeaderParser.ofBits_toBits, .of_leftInverse FlowOf.ofInt_toInt,
    .of_leftInverse FlowTableValueOf.ofInt_toInt,
    .of_leftInverse (Memcached.EntryBytes.ofBits_toBits retKey retValue)⟩
  · exact fun p => ⟨Either.isLeft_left p, Either.get_left p⟩
  · exact fun c => ⟨Either.isLeft_right c, Either.get_right c⟩

end Nica.Hls
