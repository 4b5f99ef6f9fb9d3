import Nica.Hls.Equiv.UdpFrames
import Mathlib.Tactic.NormNum

/-!
# The bytes of headers and data

Splitting at byte 42 leaves 22 bytes of the second beat, which are put together with the first 10
bytes of the next one, and so on (`bytesOf_splitBeat`, `flatMap_bytesOf_rawFrom`).  So the data beats
of a frame carry its bytes from the 42nd on, followed by 10 zero bytes (`flatMap_bytesOf_raw`), and
the header buffer its first 42 bytes (`headerBytes_header`).  Cutting after a number of words keeps
the first bytes of them (`kept_cutBeats`).
-/

namespace Nica.Hls.Udp

open Nica.Lib

/-! ### Bytes of words -/

/-- The bytes of 80 bits. -/
def tenBytes (y : BitVec 80) : List (BitVec 8) :=
  (List.range 10).map fun i => y.extractLsb' (8 * (9 - i)) 8

theorem bytesOf_append (x : BitVec 256) (y : BitVec 80) :
    bytesOf (x.extractLsb' 0 176 ++ y) = (bytesOf x).drop 10 ++ tenBytes y := by
  apply List.ext_getElem
  · simp [length_bytesOf, tenBytes]
  · intro i h₁ _
    rw [length_bytesOf] at h₁
    rw [getElem_bytesOf, List.getElem_append]
    simp only [List.length_drop, length_bytesOf, List.getElem_drop, getElem_bytesOf, tenBytes,
      List.getElem_map, List.getElem_range]
    split
    · -- one of the 22 bytes of `x`
      ext j hj
      have hlow : ¬ 8 * (31 - i) + j < 80 := by omega
      have hin : 8 * (31 - i) + j - 80 < 176 := by omega
      have hpos : 0 + (8 * (31 - i) + j - 80) = 8 * (31 - (10 + i)) + j := by omega
      simp only [BitVec.getElem_extractLsb', BitVec.getLsbD_append, BitVec.getLsbD_extractLsb']
      simp [hlow, hin, hpos]
    · -- one of the 10 bytes of `y`
      ext j hj
      have hlow : 8 * (31 - i) + j < 80 := by omega
      have hpos : 8 * (31 - i) + j = 8 * (9 - (i - (32 - 10))) + j := by omega
      simp only [BitVec.getElem_extractLsb', BitVec.getLsbD_append, BitVec.getLsbD_extractLsb',
        hlow, if_true]
      rw [hpos]

theorem tenBytes_extract (d : BitVec 256) : tenBytes (d.extractLsb' 176 80) = (bytesOf d).take 10 := by
  apply List.ext_getElem
  · simp [length_bytesOf, tenBytes]
  · intro i h₁ _
    have hi : i < 10 := by simpa [tenBytes] using h₁
    rw [List.getElem_take, getElem_bytesOf]
    simp only [tenBytes, List.getElem_map, List.getElem_range]
    ext j hj
    have hin : 8 * (9 - i) + j < 80 := by omega
    have hpos : 176 + (8 * (9 - i) + j) = 8 * (31 - i) + j := by omega
    simp only [BitVec.getElem_extractLsb', BitVec.getLsbD_extractLsb']
    simp [hin, hpos]

theorem tenBytes_zero : tenBytes 0#80 = List.replicate 10 0 := by decide

/-- A data beat carries the last 22 bytes of one input beat and the first 10 of the next. -/
theorem bytesOf_splitBeat (buffer cur : BitVec 256) :
    bytesOf (splitBeat buffer cur).data = (bytesOf buffer).drop 10 ++ (bytesOf cur).take 10 := by
  rw [← tenBytes_extract]
  exact bytesOf_append _ _

theorem bytesOf_splitFinal (keepBytes : Nat → BitVec 32) (buffer : BitVec 256) :
    bytesOf (splitFinal keepBytes buffer).data
      = (bytesOf buffer).drop 10 ++ List.replicate 10 0 := by
  rw [← tenBytes_zero]
  exact bytesOf_append _ _

/-! ### Bytes of frames -/

theorem words_rawFrom (keepBytes : Nat → BitVec 32) (bs : List AxiData) :
    ∀ buffer : BitVec 256, words (rawFrom keepBytes buffer bs)
      = (bytesOf buffer).drop 10 ++ words bs ++ List.replicate 10 0 := by
  induction bs with
  | nil =>
    intro buffer
    rw [rawFrom, words_cons, bytesOf_splitFinal]
    simp [words]
  | cons b bs ih =>
    intro buffer
    calc words (rawFrom keepBytes buffer (b :: bs))
        = bytesOf (splitBeat buffer b.data).data ++ words (rawFrom keepBytes b.data bs) := rfl
      _ = (bytesOf buffer).drop 10 ++ (bytesOf b.data).take 10
            ++ ((bytesOf b.data).drop 10 ++ words bs ++ List.replicate 10 0) := by
          rw [bytesOf_splitBeat, ih]
      _ = (bytesOf buffer).drop 10 ++ ((bytesOf b.data).take 10 ++ (bytesOf b.data).drop 10)
            ++ words bs ++ List.replicate 10 0 := by
          simp only [List.append_assoc]
      _ = (bytesOf buffer).drop 10 ++ words (b :: bs) ++ List.replicate 10 0 := by
          rw [List.take_append_drop, words_cons, List.append_assoc _ (bytesOf b.data)]

namespace Frame

variable (f : Frame)

/-- The data beats carry the bytes of the frame behind the headers. -/
theorem words_raw (keepBytes : Nat → BitVec 32) :
    words (f.raw keepBytes) = (words f.beats).drop 42 ++ List.replicate 10 0 := by
  obtain ⟨b, bs, hrest, -, hraw⟩ := f.exists_second
  have hdrop : (words f.beats).drop 42 = (bytesOf b.data).drop 10 ++ words bs := by
    have hsplit : words f.beats = bytesOf f.first.data ++ (bytesOf b.data ++ words bs) := by
      rw [beats, hrest, words_cons, words_cons]
      rfl
    rw [hsplit, List.drop_append, length_bytesOf, List.drop_of_length_le (by
      rw [length_bytesOf]; decide), List.nil_append,
      List.drop_append_of_le_length (by rw [length_bytesOf]; decide)]
  rw [hraw, words_rawFrom, hdrop]

theorem length_raw (keepBytes : Nat → BitVec 32) :
    (f.raw keepBytes).length = f.middle.length + 1 := by
  have hlen : ∀ (bs : List AxiData) (buffer : BitVec 256),
      (rawFrom keepBytes buffer bs).length = bs.length + 1 := by
    intro bs
    induction bs with
    | nil => intro buffer; rfl
    | cons b bs ih => intro buffer; rw [rawFrom, List.length_cons, ih, List.length_cons]
  obtain ⟨b, bs, hrest, -, hraw⟩ := f.exists_second
  have hr : f.rest.length = f.middle.length + 1 := by
    rw [rest, List.length_map, List.length_append, List.length_singleton]
  rw [hraw, hlen, ← hr, hrest, List.length_cons]

/-- The bytes of the frame are those of its beats up to the end of the frame. -/
theorem bytes_eq : f.bytes = (words f.beats).take (32 * (f.middle.length + 1) + f.tail) := by
  have hbody : words f.beats
      = (f.first :: f.middle).flatMap (bytesOf ·.data) ++ bytesOf f.final.data := by
    rw [beats, rest, words_cons, List.map_append, words_append, List.flatMap_cons,
      ← List.append_assoc]
    congr 1
    rw [words, List.flatMap_map]
    rfl
  have hlen : ((f.first :: f.middle).flatMap (bytesOf ·.data)).length
      = 32 * (f.middle.length + 1) := by
    have := length_words ((f.first :: f.middle).map (splitMetadata · |>.2))
    rw [words, List.flatMap_map, List.length_map, List.length_cons] at this
    exact this
  rw [hbody, List.take_append, hlen, List.take_of_length_le (by omega), Nat.add_sub_cancel_left]
  rfl

theorem length_bytes : f.bytes.length = 32 * (f.middle.length + 1) + f.tail := by
  have hlen : (words f.beats).length = 32 * (f.middle.length + 2) := by
    rw [length_words, beats, rest, List.length_cons, List.length_map, List.length_append,
      List.length_singleton]
  have htail := f.tail_le
  rw [bytes_eq, List.length_take, hlen]
  omega

/-- Bytes of the frame behind its headers, taken from its data beats. -/
theorem take_words_raw (keepBytes : Nat → BitVec 32) {k : Nat} (hk : 42 + k ≤ f.bytes.length) :
    (words (f.raw keepBytes)).take k = (f.bytes.drop 42).take k := by
  have hlen : (words f.beats).length = 32 * (f.middle.length + 2) := by
    rw [length_words, beats, rest, List.length_cons, List.length_map, List.length_append,
      List.length_singleton]
  have hb := f.length_bytes
  have htail := f.tail_le
  rw [words_raw, List.take_append_of_le_length (by rw [List.length_drop, hlen]; omega), bytes_eq,
    List.drop_take, List.take_take, Nat.min_eq_left (by omega)]

end Frame

/-- The bytes of a header buffer. -/
def headerBytes (hdr : BitVec 336) : List (BitVec 8) :=
  (List.range 42).map fun i => hdr.extractLsb' (8 * (41 - i)) 8

theorem headerBytes_append (x : BitVec 256) (y : BitVec 80) :
    headerBytes (x ++ y) = bytesOf x ++ tenBytes y := by
  apply List.ext_getElem
  · simp [length_bytesOf, tenBytes, headerBytes]
  · intro i h₁ _
    have hi : i < 42 := by simpa [headerBytes] using h₁
    rw [List.getElem_append]
    simp only [headerBytes, length_bytesOf, getElem_bytesOf, tenBytes, List.getElem_map,
      List.getElem_range]
    split
    · ext j hj
      have hlow : ¬ 8 * (41 - i) + j < 80 := by omega
      have hpos : 8 * (41 - i) + j - 80 = 8 * (31 - i) + j := by omega
      simp only [BitVec.getElem_extractLsb', BitVec.getLsbD_append]
      simp [hlow, hpos]
    · ext j hj
      have hlow : 8 * (41 - i) + j < 80 := by omega
      have hpos : 8 * (41 - i) + j = 8 * (9 - (i - 32)) + j := by omega
      simp only [BitVec.getElem_extractLsb', BitVec.getLsbD_append, hlow, if_true]
      rw [hpos]

/-- The header buffer of a frame holds its first 42 bytes. -/
theorem headerBytes_header (f : Frame) (h : 42 ≤ f.bytes.length) :
    headerBytes f.header.hdr = f.bytes.take 42 := by
  obtain ⟨b, bs, hrest, hheader, -⟩ := f.exists_second
  have hsplit : words f.beats = bytesOf f.first.data ++ (bytesOf b.data ++ words bs) := by
    rw [Frame.beats, hrest, words_cons, words_cons]
    rfl
  have htake : (words f.beats).take 42 = bytesOf f.first.data ++ (bytesOf b.data).take 10 := by
    rw [hsplit, List.take_append, length_bytesOf, List.take_of_length_le (by
      rw [length_bytesOf]; decide), List.take_append_of_le_length (by
      rw [length_bytesOf]; decide)]
  rw [f.length_bytes] at h
  rw [hheader, f.bytes_eq, List.take_take, Nat.min_eq_left h, htake, ← tenBytes_extract]
  exact headerBytes_append _ _

/-! ### Kept bytes -/

/-- The bytes of a beat whose keep bit is set; bit 31 belongs to the first byte. -/
def keptOf (b : AxiData) : List (BitVec 8) :=
  ((List.range 32).filter (b.keep.getMsbD ·)).map fun i => b.data.extractLsb' (8 * (31 - i)) 8

/-- The kept bytes of a sequence of beats. -/
def kept (bs : List AxiData) : List (BitVec 8) :=
  bs.flatMap keptOf

theorem getMsbD_leadingKeep {t i : Nat} (ht : t ≤ 32) (hi : i < 32) :
    (leadingKeep t).getMsbD i = decide (i < t) := by
  rw [leadingKeep, BitVec.getMsbD_eq_getLsbD, BitVec.getLsbD_shiftLeft, BitVec.getLsbD_allOnes]
  by_cases h : i < t
  · have h₁ : ¬ 32 - 1 - i < 32 - t := by omega
    have h₂ : 32 - 1 - i < 32 := by omega
    have h₃ : 32 - 1 - i - (32 - t) < 32 := by omega
    simp [h, h₁, h₂, h₃, hi]
  · have h₁ : 32 - 1 - i < 32 - t := by omega
    simp [h, h₁]

/-- A beat whose leading `t` bytes are kept. -/
theorem keptOf_leadingKeep {b : AxiData} {t : Nat} (ht : t ≤ 32) (hb : b.keep = leadingKeep t) :
    keptOf b = (bytesOf b.data).take t := by
  have hfilter : (List.range 32).filter (b.keep.getMsbD ·) = List.range t := by
    have hsplit : List.range 32 = List.range t ++ (List.range (32 - t)).map (t + ·) := by
      rw [← List.range_add, Nat.add_sub_cancel' ht]
    rw [hsplit, List.filter_append, List.filter_eq_self.mpr, List.filter_eq_nil_iff.mpr,
      List.append_nil]
    · intro i hi
      obtain ⟨j, hj, rfl⟩ := List.mem_map.mp hi
      rw [List.mem_range] at hj
      rw [hb, getMsbD_leadingKeep ht (by omega)]
      simp
    · intro i hi
      rw [List.mem_range] at hi
      rw [hb, getMsbD_leadingKeep ht (by omega)]
      simpa using hi
  rw [keptOf, hfilter, bytesOf, ← List.map_take, List.take_range, Nat.min_eq_left ht]

theorem leadingKeep_all : leadingKeep 32 = 0xffffffff := by decide

/-- The number of bytes in the last word: 0 stands for all 32. -/
def lastBytes (lw : BitVec 5) : Nat :=
  if lw = 0 then 32 else lw.toNat

theorem lastBytes_le (lw : BitVec 5) : lastBytes lw ≤ 32 := by
  rw [lastBytes]
  have := lw.isLt
  split <;> omega

theorem lastWordKeep_eq : ∀ lw : BitVec 5,
    lastWordKeepNumBytesValid lw = leadingKeep (lastBytes lw) := by
  decide +kernel

/-- The data beats of a frame: all bytes are kept in all but the last. -/
theorem rawFrom_keep (keepBytes : Nat → BitVec 32) (bs : List AxiData) (buffer : BitVec 256) :
    ∃ front final, rawFrom keepBytes buffer bs = front ++ [final] ∧
      final.keep = keepBytes 10 ∧ ∀ b ∈ front, b.keep = 0xffffffff ∧ b.last = false := by
  induction bs generalizing buffer with
  | nil => exact ⟨[], splitFinal keepBytes buffer, rfl, rfl, by simp⟩
  | cons b bs ih =>
    obtain ⟨front, final, hf, hk, hfront⟩ := ih b.data
    refine ⟨splitBeat buffer b.data :: front, final, by rw [rawFrom, hf, List.cons_append], hk, ?_⟩
    intro c hc
    rcases List.mem_cons.mp hc with rfl | hc
    · exact ⟨rfl, rfl⟩
    · exact hfront c hc

theorem Frame.raw_keep (f : Frame) (keepBytes : Nat → BitVec 32) :
    ∃ front final, f.raw keepBytes = front ++ [final] ∧ front.length = f.middle.length ∧
      final.keep = keepBytes 10 ∧ ∀ b ∈ front, b.keep = 0xffffffff ∧ b.last = false := by
  obtain ⟨b, bs, -, -, hraw⟩ := f.exists_second
  obtain ⟨front, final, hfront, hk, hfull⟩ := rawFrom_keep keepBytes bs b.data
  have hlen := f.length_raw keepBytes
  rw [hraw, hfront, List.length_append, List.length_singleton] at hlen
  exact ⟨front, final, by rw [hraw, hfront], by omega, hk, hfull⟩

theorem kept_of_full {bs : List AxiData} (h : ∀ b ∈ bs, b.keep = 0xffffffff) :
    kept bs = words bs := by
  apply List.flatMap_congr
  intro b hb
  rw [keptOf_leadingKeep (Nat.le_refl 32) (by rw [h b hb, leadingKeep_all]),
    List.take_of_length_le (by rw [length_bytesOf])]

/-- Cutting after `w + 1` words of a frame: the first `w` beats stay as they are, and the last one is
marked. -/
theorem cutBeats_raw (f : Frame) (keepBytes : Nat → BitVec 32) (lw : BitVec 5) {w : Nat}
    (hw : w ≤ f.middle.length) :
    ∃ front c rest, f.raw keepBytes = front ++ c :: rest ∧ front.length = w ∧
      (∀ b ∈ front, b.keep = 0xffffffff ∧ b.last = false) ∧
      cutBeats lw (w + 1) (f.raw keepBytes)
        = front ++ [{ c with keep := leadingKeep (lastBytes lw), last := true }] := by
  obtain ⟨front, final, hfront, hlen, -, hfull⟩ := f.raw_keep keepBytes
  have hraw := f.length_raw keepBytes
  obtain ⟨c, hc, hcut⟩ := cutBeats_of_le_length lw (f.raw keepBytes) w (by omega)
  refine ⟨(f.raw keepBytes).take w, c, (f.raw keepBytes).drop (w + 1), ?_, ?_, ?_, ?_⟩
  · obtain ⟨hlt, hget⟩ := List.getElem?_eq_some_iff.mp hc
    rw [← hget, ← List.drop_eq_getElem_cons hlt, List.take_append_drop]
  · rw [List.length_take, hraw, Nat.min_eq_left (by omega)]
  · rw [hfront, List.take_append_of_le_length (by omega)]
    exact fun b hb => hfull b (List.mem_of_mem_take hb)
  · rw [hcut, lastWordKeep_eq]

/-- Cutting after `w + 1` words of a frame with at least as many keeps their bytes up to the last
one counted. -/
theorem kept_cutBeats (f : Frame) (keepBytes : Nat → BitVec 32) (lw : BitVec 5) {w : Nat}
    (hw : w ≤ f.middle.length) :
    kept (cutBeats lw (w + 1) (f.raw keepBytes))
      = (words (f.raw keepBytes)).take (32 * w + lastBytes lw) := by
  obtain ⟨front, c, rest, hraw, hlen, hfull, hcut⟩ := cutBeats_raw f keepBytes lw hw
  have hwlen : (words front).length = 32 * w := by rw [length_words, hlen]
  calc kept (cutBeats lw (w + 1) (f.raw keepBytes))
      = words front ++ (bytesOf c.data).take (lastBytes lw) := by
        rw [hcut, kept, List.flatMap_append, List.flatMap_singleton]
        congr 1
        · exact kept_of_full fun b hb => (hfull b hb).1
        · exact keptOf_leadingKeep (lastBytes_le lw) rfl
    _ = (words (f.raw keepBytes)).take (32 * w + lastBytes lw) := by
        have hall : (words front).take (32 * w + lastBytes lw) = words front :=
          List.take_of_length_le (by omega)
        rw [hraw, words_append, words_cons, List.take_append, hall, hwlen, Nat.add_sub_cancel_left,
          List.take_append_of_le_length (by rw [length_bytesOf]; exact lastBytes_le lw)]

end Nica.Hls.Udp
