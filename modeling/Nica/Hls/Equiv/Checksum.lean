import Nica.Hls.Checksum
import Nica.Hls.Equiv.UdpBytes
import Mathlib.Algebra.BigOperators.Fin
import Mathlib.Algebra.Order.BigOperators.Group.Finset
import Mathlib.Tactic.FinCases

/-!
# What the checksum unit computes

The accumulators of a packet hold the words that were added to them, and their sum is brought around to the Internet
checksum of these words (`finishChecksum_interOf`).  They do not overflow, since a packet has less than 2^16 bytes.

The words are not those of RFC 768.  The pseudo-header has the protocol in the upper byte of its word, and the last beat
of the data is masked by its keep bits read from the other end, so that its last bytes count and not its first.
A checksum of 0 is not replaced either.  So the checksums are right exactly for the packets whose deviations cancel
(`computesChecksums_iff`).
-/

namespace Nica.Hls.Checksum

open Nica.Lib
open Nica.Lib.OnesComplement
open Nica.Hls.Udp (leadingKeep getMsbD_leadingKeep)

/-! ### Accumulators -/

/-- The words in a bank of accumulators. -/
def bankWords {n : ℕ} (bank : Fin n → Accumulator) : List (BitVec 16) :=
  (List.finRange n).flatMap fun i => (bank i).added

theorem total_bankWords {n : ℕ} (bank : Fin n → Accumulator) :
    total (bankWords bank) = ∑ i, total (bank i).added := by
  rw [bankWords, total_flatMap, Fin.sum_univ_def]

theorem total_bankWords_add {n : ℕ} (bank : Fin n → Accumulator) (i : Fin n) (w : BitVec 16) :
    total (bankWords (Function.update bank i ((bank i).add w))) = total (bankWords bank) + w.toNat := by
  have hterm : ∀ j, total (Function.update bank i ((bank i).add w) j).added
      = total (bank j).added + if j = i then w.toNat else 0 := by
    intro j
    by_cases h : j = i
    · subst h
      rw [Function.update_self, if_pos rfl, Accumulator.add, total_append, total_cons, total_nil, Nat.add_zero]
    · rw [Function.update_of_ne h, if_neg h, Nat.add_zero]
  rw [total_bankWords, total_bankWords, Finset.sum_congr rfl fun j _ => hterm j, Finset.sum_add_distrib,
    Finset.sum_ite_eq' Finset.univ i fun _ => w.toNat, if_pos (Finset.mem_univ i)]

/-- An accumulator has no more than its bank. -/
theorem total_added_le {n : ℕ} (bank : Fin n → Accumulator) (i : Fin n) :
    total (bank i).added ≤ total (bankWords bank) := by
  rw [total_bankWords]
  exact Finset.single_le_sum (f := fun i => total (bank i).added) (fun _ _ => Nat.zero_le _) (Finset.mem_univ i)

/-- The sum of a bank. -/
theorem foldl_value {n : ℕ} (bank : Fin n → Accumulator) :
    (List.finRange n).foldl (fun r i => r + (bank i).value) 0 = BitVec.ofNat 32 (total (bankWords bank)) := by
  have h : ∀ (l : List (Fin n)) (k : ℕ), l.foldl (fun r i => r + (bank i).value) (BitVec.ofNat 32 k)
      = BitVec.ofNat 32 (k + (l.map fun i => total (bank i).added).sum) := by
    intro l
    induction l with
    | nil => intro k; rfl
    | cons i l ih =>
      intro k
      rw [List.foldl_cons, (bank i).value_eq, ← BitVec.ofNat_add, ih, List.map_cons, List.sum_cons, Nat.add_assoc]
  rw [bankWords, total_flatMap, ← Nat.zero_add (List.sum _), ← h]
  rfl

/-- The checksum of a bank that has no more than fits. -/
theorem fold_bank {n : ℕ} {bank : Fin n → Accumulator} (h : total (bankWords bank) < 2 ^ 32) :
    (~~~(fold (fold ((List.finRange n).foldl (fun r i => r + (bank i).value) 0)))).setWidth 16
      = rfc1071 (bankWords bank) := by
  rw [foldl_value]
  apply not_fold_fold_eq
  rw [BitVec.toNat_ofNat, Nat.mod_eq_of_lt h]

namespace Intermediate

/-- The words that were added for the UDP checksum. -/
def udpWords (c : Intermediate) : List (BitVec 16) := bankWords c.udpChecksum

/-- The words that were added for the IP checksum. -/
def ipWords (c : Intermediate) : List (BitVec 16) := bankWords c.ipChecksum

/-- No accumulator lost a carry. -/
structure Exact (c : Intermediate) : Prop where
  udp : ∀ i, (c.udpChecksum i).value.toNat = total (c.udpChecksum i).added
  ip : ∀ i, (c.ipChecksum i).value.toNat = total (c.ipChecksum i).added

theorem Exact.of_total_lt {c : Intermediate} (hudp : total c.udpWords < 2 ^ 32) (hip : total c.ipWords < 2 ^ 32) :
    c.Exact where
  udp i := Accumulator.toNat_value ((total_added_le c.udpChecksum i).trans_lt hudp)
  ip i := Accumulator.toNat_value ((total_added_le c.ipChecksum i).trans_lt hip)

end Intermediate

theorem finishChecksum_eq {c : Intermediate} (hudp : total c.udpWords < 2 ^ 32) (hip : total c.ipWords < 2 ^ 32) :
    finishChecksum c = ⟨rfc1071 c.ipWords, rfc1071 c.udpWords⟩ := by
  rw [finishChecksum, Checksums.mk.injEq]
  exact ⟨fold_bank hip, fold_bank hudp⟩

/-- Adding words in turn. -/
theorem addInTurn_spec (ws : List (BitVec 16)) (c : Intermediate) :
    (addInTurn ws c).ipChecksum = c.ipChecksum ∧ total (addInTurn ws c).udpWords = total c.udpWords + total ws := by
  let index (i : ℕ) : Fin 8 := ⟨i % 8, Nat.mod_lt _ (by decide)⟩
  have h : ∀ (l : List (BitVec 16 × ℕ)) (c : Intermediate),
      (l.foldl (fun c w => c.addUdp (index w.2) w.1) c).ipChecksum = c.ipChecksum ∧
        total (l.foldl (fun c w => c.addUdp (index w.2) w.1) c).udpWords
          = total c.udpWords + total (l.map Prod.fst) := by
    intro l
    induction l with
    | nil => intro c; exact ⟨rfl, rfl⟩
    | cons w l ih =>
      intro c
      obtain ⟨hip, hudp⟩ := ih (c.addUdp (index w.2) w.1)
      have hadd : total (c.addUdp (index w.2) w.1).udpWords = total c.udpWords + w.1.toNat :=
        total_bankWords_add c.udpChecksum _ _
      rw [List.foldl_cons, List.map_cons, total_cons, hip, hudp, hadd, Nat.add_assoc]
      exact ⟨rfl, rfl⟩
  have hws := h ws.zipIdx c
  rw [List.zipIdx_map_fst] at hws
  exact hws

/-! ### The header -/

theorem foldl_addIp (ws : List (BitVec 16)) (split : Fin 2) (c : Intermediate) :
    ws.foldl (fun c w => c.addIp split w) c = { c with
      ipChecksum := Function.update c.ipChecksum split (ws.foldl Accumulator.add (c.ipChecksum split)) } := by
  induction ws generalizing c with
  | nil => rw [List.foldl_nil, List.foldl_nil, Function.update_eq_self]
  | cons w ws ih =>
    rw [List.foldl_cons, ih, List.foldl_cons]
    simp only [Intermediate.addIp, Function.update_self, Function.update_idem]

theorem added_foldl_add (ws : List (BitVec 16)) (a : Accumulator) :
    (ws.foldl Accumulator.add a).added = a.added ++ ws := by
  induction ws generalizing a with
  | nil => exact (List.append_nil _).symm
  | cons w ws ih => rw [List.foldl_cons, ih, Accumulator.add, List.append_assoc, List.singleton_append]

/-- The words of one accumulator of `ipv4_checksum`. -/
def splitWords (d : BitVec 160) (split : Fin 2) : List (BitVec 16) :=
  (List.range 5).map fun j => d.extractLsb' (80 * split + 16 * j) 16

theorem ipSplit_eq (d : BitVec 160) (c : Intermediate) (split : Fin 2) :
    ipSplit d c split = { c with
      ipChecksum := Function.update c.ipChecksum split ((splitWords d split).foldl Accumulator.add .zero) } := by
  have hfold := foldl_addIp (splitWords d split) split
    { c with ipChecksum := Function.update c.ipChecksum split .zero }
  simp only [Function.update_self, Function.update_idem, splitWords, List.foldl_map] at hfold
  rw [ipSplit, hfold, splitWords, List.foldl_map]

/-- What was in the accumulators before does not matter. -/
theorem ipv4Checksum_eq (hdr : IpHeader) (c : Intermediate) :
    ipv4Checksum hdr c = { c with ipChecksum := fun split =>
      (splitWords { hdr with check := 0 }.toBits split).foldl Accumulator.add .zero } := by
  have hsplits : List.finRange 2 = [0, 1] := rfl
  rw [ipv4Checksum, hsplits, List.foldl_cons, List.foldl_cons, List.foldl_nil, ipSplit_eq, ipSplit_eq,
    Intermediate.mk.injEq]
  refine ⟨?_, rfl⟩
  funext split
  fin_cases split
  · exact Function.update_of_ne (by decide) _ _
  · exact Function.update_self _ _ _

theorem headerChecksum_eq (hdr : HeaderParser) (c : Intermediate) :
    headerChecksum hdr c = headerChecksum hdr .zero := by
  rw [headerChecksum, headerChecksum, udpPseudoheaderChecksum, udpPseudoheaderChecksum, ipv4Checksum_eq,
    ipv4Checksum_eq]

/-- The words of an IP header without its checksum. -/
def ipHeaderWords (hdr : IpHeader) : List (BitVec 16) :=
  (List.range 10).map fun i => ({ hdr with check := 0 } : IpHeader).toBits.extractLsb' (16 * (9 - i)) 16

theorem splitWords_append (d : BitVec 160) :
    splitWords d 0 ++ splitWords d 1 = ((List.range 10).map fun i => d.extractLsb' (16 * (9 - i)) 16).reverse := rfl

theorem ipWords_headerChecksum (hdr : HeaderParser) (c : Intermediate) :
    (headerChecksum hdr c).ipWords = (ipHeaderWords hdr.ip).reverse := by
  have hsplits : List.finRange 2 = [0, 1] := rfl
  rw [Intermediate.ipWords, headerChecksum, udpPseudoheaderChecksum, (addInTurn_spec _ _).1, ipv4Checksum_eq,
    bankWords, hsplits, List.flatMap_cons, List.flatMap_cons, List.flatMap_nil, List.append_nil, added_foldl_add,
    added_foldl_add, ipHeaderWords, ← splitWords_append]
  rfl

theorem total_ipWords_headerChecksum (hdr : HeaderParser) (c : Intermediate) :
    total (headerChecksum hdr c).ipWords = total (ipHeaderWords hdr.ip) := by
  rw [ipWords_headerChecksum, total, total, List.map_reverse, List.sum_reverse]

theorem total_udpWords_headerChecksum (hdr : HeaderParser) (c : Intermediate) :
    total (headerChecksum hdr c).udpWords = total (pseudoheaderWords hdr) := by
  rw [headerChecksum, udpPseudoheaderChecksum, (addInTurn_spec _ _).2]
  exact Nat.zero_add _

/-! ### The data -/

/-- The words of a row of bytes, taken two by two. -/
theorem wordsOf_map_range (f : ℕ → BitVec 8) (n : ℕ) :
    wordsOf ((List.range (2 * n)).map f) = (List.range n).map fun i => f (2 * i) ++ f (2 * i + 1) := by
  induction n with
  | zero => rfl
  | succ n ih =>
    have hlen : ((List.range (2 * n)).map f).length % 2 = 0 := by
      rw [List.length_map, List.length_range, Nat.mul_mod_right]
    rw [show 2 * (n + 1) = 2 * n + 1 + 1 from rfl, List.range_succ, List.range_succ, List.append_assoc,
      List.map_append, wordsOf_append hlen, ih, List.map_append, List.map_singleton, List.map_singleton,
      List.singleton_append, wordsOf, wordsOf, List.range_succ, List.map_append, List.map_singleton]

/-- A beat is added word by word from its end. -/
theorem dataWords_eq (d : BitVec 256) : dataWords d = (wordsOf (bytesOf d)).reverse := by
  have hword : ∀ i ∈ List.range 16, d.extractLsb' (8 * (31 - 2 * i)) 8 ++ d.extractLsb' (8 * (31 - (2 * i + 1))) 8
      = d.extractLsb' (16 * (15 - i)) 16 := by
    intro i hi
    rw [List.mem_range] at hi
    rw [BitVec.extractLsb'_append_extractLsb'_eq_extractLsb' (by omega)]
    congr 1
    omega
  have hmap : wordsOf (bytesOf d) = (List.range 16).map fun i => d.extractLsb' (16 * (15 - i)) 16 := by
    rw [bytesOf, wordsOf_map_range _ 16]
    exact List.map_congr_left hword
  rw [hmap]
  rfl

theorem total_dataWords (d : BitVec 256) : total (dataWords d) = total (wordsOf (bytesOf d)) := by
  rw [dataWords_eq, total, total, List.map_reverse, List.sum_reverse]

/-- The bytes of a masked word. -/
theorem bytesOf_maskLastWord (word : AxiData) :
    bytesOf (maskLastWord word) = (List.range 32).map fun i => maskedByte word (31 - i) := by
  rw [bytesOf]
  apply List.map_congr_left
  intro i hi
  rw [List.mem_range] at hi
  apply BitVec.eq_of_getLsbD_eq
  intro j hj
  rw [BitVec.getLsbD_extractLsb', decide_eq_true hj, Bool.true_and, maskLastWord,
    getLsbD_foldl_setRange _ _ _ (by omega), if_pos (by omega)]
  congr 2
  · omega
  · omega

/-- A beat that is not the last one is not masked. -/
theorem bytesOf_maskLastWord_of_not_last {word : AxiData} (h : word.last = false) :
    bytesOf (maskLastWord word) = bytesOf word.data := by
  rw [bytesOf_maskLastWord, bytesOf]
  apply List.map_congr_left
  intro i _
  rw [maskedByte, h]
  rfl

/-- Of a last beat with `t` bytes, the mask keeps the last `t` bytes. -/
theorem bytesOf_maskLastWord_of_last {word : AxiData} {t : ℕ} (h : word.last = true)
    (hkeep : word.keep = leadingKeep t) (ht : t ≤ 32) :
    bytesOf (maskLastWord word) = List.replicate (32 - t) 0 ++ (bytesOf word.data).drop (32 - t) := by
  rw [bytesOf_maskLastWord]
  apply List.ext_getElem
  · simp only [List.length_map, List.length_range, List.length_append, List.length_replicate, List.length_drop,
      length_bytesOf]
    omega
  · intro i hi _
    rw [List.length_map, List.length_range] at hi
    have hbit : word.keep.getLsbD (32 - 1 - (31 - i)) = decide (31 - i < t) := by
      rw [hkeep, ← getMsbD_leadingKeep ht (show 31 - i < 32 by omega), BitVec.getMsbD_eq_getLsbD,
        decide_eq_true (show 31 - i < 32 by omega), Bool.true_and]
    rw [List.getElem_map, List.getElem_range, maskedByte, h, hbit, Bool.true_and, List.getElem_append]
    by_cases hlow : i < 32 - t
    · rw [decide_eq_false (by omega), dif_pos (by rwa [List.length_replicate]), List.getElem_replicate]
      rfl
    · rw [decide_eq_true (by omega), dif_neg (by rwa [List.length_replicate]), List.getElem_drop, getElem_bytesOf]
      simp only [List.length_replicate, Bool.not_true, Bool.false_eq_true, if_false]
      congr 2
      omega

/-! ### Packets -/

/-- The beats of a payload of `n` bytes: none, or beats of 32 bytes and a last one with the leading bytes that remain. -/
def Framed (n : ℕ) (beats : List AxiData) : Prop :=
  n = 0 ∧ beats = [] ∨
    ∃ front final t, beats = front ++ [final] ∧ (∀ b ∈ front, b.last = false) ∧ final.last = true ∧
      final.keep = leadingKeep t ∧ 0 < t ∧ t ≤ 32 ∧ n = 32 * front.length + t

/-- A UDP packet with its headers and its payload. -/
structure UdpPacket where
  buf : HeaderBuffer
  beats : List AxiData
  length_ge : 8 ≤ buf.parse.udp.length.toNat
  framed : Framed (buf.parse.udp.length.toNat - 8) beats

namespace UdpPacket

variable (p : UdpPacket)

/-- The parsed headers. -/
def hdr : HeaderParser := p.buf.parse

/-- The payload of the packet, as long as its header says. -/
def payload : List (BitVec 8) := (words p.beats).take (p.hdr.udp.length.toNat - 8)

/-- The words of the UDP checksum: the pseudo-header, the UDP header without the checksum and the payload. -/
def udpWords : List (BitVec 16) :=
  [p.hdr.ip.saddr.extractLsb' 16 16, p.hdr.ip.saddr.extractLsb' 0 16, p.hdr.ip.daddr.extractLsb' 16 16,
    p.hdr.ip.daddr.extractLsb' 0 16, 0#8 ++ p.hdr.ip.protocol, p.hdr.udp.length] ++
    [p.hdr.udp.source, p.hdr.udp.dest, p.hdr.udp.length] ++ wordsOf p.payload

/-- The checksums of the packet, as the standards have them. -/
def checksums : Checksums := ⟨rfc1071 (ipHeaderWords p.hdr.ip), rfc768 p.udpWords⟩

/-- The number of bytes in the last beat. -/
def tail : ℕ := p.hdr.udp.length.toNat - 8 - 32 * (p.beats.length - 1)

/-- The last beat of the data. -/
def lastData : BitVec 256 := (p.beats.getLast?.map (·.data)).getD 0

/-- The bytes of the last beat that belong to the payload. -/
def leading : List (BitVec 8) := (bytesOf p.lastData).take p.tail

/-- As many bytes from the end of the last beat, where they are. -/
def trailing : List (BitVec 8) := List.replicate (32 - p.tail) 0 ++ (bytesOf p.lastData).drop (32 - p.tail)

/-- The deviations of the unit cancel: 255 times the protocol, which is in the upper byte, and the trailing bytes of
the last beat instead of the leading ones; and the checksum is not one that has to be replaced. -/
structure Cancels : Prop where
  congruent : (255 * p.hdr.ip.protocol.toNat + total (wordsOf p.trailing)) % 65535 = total (wordsOf p.leading) % 65535
  nonzero : total p.udpWords % 65535 ≠ 0

instance : Decidable p.Cancels :=
  decidable_of_iff (_ ∧ _) ⟨fun h => ⟨h.1, h.2⟩, fun h => ⟨h.1, h.2⟩⟩

/-- An empty payload has no beats, any other is a packet. -/
theorem beats_cases : p.hdr.udp.emptyPacket = true ∧ p.beats = [] ∨
    p.hdr.udp.emptyPacket = false ∧ IsPacket p.beats := by
  have hge := p.length_ge
  have hempty : p.hdr.udp.emptyPacket = decide (p.hdr.udp.length.toNat ≤ 8) := rfl
  rw [hempty]
  rcases p.framed with ⟨hn, hbeats⟩ | ⟨front, final, t, hbeats, hfront, hlast, -, ht, -, hn⟩
  · exact .inl ⟨decide_eq_true (by rw [hdr]; omega), hbeats⟩
  · exact .inr ⟨decide_eq_false (by rw [hdr]; omega), front, final, hbeats, hlast, hfront⟩

theorem length_beats_le : p.beats.length ≤ 2048 := by
  have hlt := p.buf.parse.udp.length.isLt
  rcases p.framed with ⟨-, hbeats⟩ | ⟨front, final, t, hbeats, -, -, -, ht, -, hn⟩
  · rw [hbeats]
    exact Nat.zero_le _
  · rw [hbeats, List.length_append, List.length_singleton]
    omega

end UdpPacket

/-! ### The words of a packet -/

/-- The accumulators after a header and some beats. -/
def accumulate (hdr : HeaderParser) (bs : List AxiData) : Intermediate :=
  bs.foldl checksumData (headerChecksum hdr .zero)

/-- The words that are added for some beats. -/
def beatWords (bs : List AxiData) : List (BitVec 16) := bs.flatMap fun b => dataWords (maskLastWord b)

theorem accumulate_nil (hdr : HeaderParser) : accumulate hdr [] = headerChecksum hdr .zero := by
  rw [accumulate, List.foldl_nil]

theorem accumulate_snoc (hdr : HeaderParser) (bs : List AxiData) (b : AxiData) :
    accumulate hdr (bs ++ [b]) = checksumData (accumulate hdr bs) b := by
  rw [accumulate, List.foldl_append, List.foldl_cons, List.foldl_nil, accumulate]

theorem accumulate_spec (hdr : HeaderParser) (bs : List AxiData) :
    total (accumulate hdr bs).ipWords = total (ipHeaderWords hdr.ip) ∧
      total (accumulate hdr bs).udpWords = total (pseudoheaderWords hdr) + total (beatWords bs) := by
  induction bs using List.reverseRecOn with
  | nil =>
    rw [accumulate_nil, total_ipWords_headerChecksum, total_udpWords_headerChecksum, beatWords, List.flatMap_nil,
      total_nil, Nat.add_zero]
    exact ⟨rfl, rfl⟩
  | append_singleton bs b ih =>
    obtain ⟨hip, hudp⟩ := ih
    obtain ⟨haddip, haddudp⟩ := addInTurn_spec (dataWords (maskLastWord b)) (accumulate hdr bs)
    rw [accumulate_snoc, checksumData, beatWords, List.flatMap_append, List.flatMap_singleton, total_append, haddudp,
      hudp, beatWords, Nat.add_assoc, Intermediate.ipWords, haddip]
    exact ⟨hip, rfl⟩

theorem length_beatWords (bs : List AxiData) : (beatWords bs).length = 16 * bs.length := by
  induction bs with
  | nil => rfl
  | cons b bs ih =>
    rw [beatWords, List.flatMap_cons, List.length_append, ← beatWords, ih, dataWords, List.length_map,
      List.length_range, List.length_cons]
    omega

/-- With as many beats as a packet may have, nothing overflows. -/
theorem accumulate_lt (hdr : HeaderParser) {bs : List AxiData} (h : bs.length ≤ 2048) :
    total (accumulate hdr bs).udpWords < 2 ^ 32 ∧ total (accumulate hdr bs).ipWords < 2 ^ 32 := by
  obtain ⟨hip, hudp⟩ := accumulate_spec hdr bs
  have hpseudo := total_le (pseudoheaderWords hdr)
  have hbeats := total_le (beatWords bs)
  have hheader := total_le (ipHeaderWords hdr.ip)
  have hlen : (ipHeaderWords hdr.ip).length = 10 := by rw [ipHeaderWords, List.length_map, List.length_range]
  have hlen' : (pseudoheaderWords hdr).length = 9 := rfl
  rw [length_beatWords] at hbeats
  rw [hlen'] at hpseudo
  rw [hlen] at hheader
  rw [hip, hudp]
  omega

theorem exact_accumulate (hdr : HeaderParser) {bs : List AxiData} (h : bs.length ≤ 2048) :
    (accumulate hdr bs).Exact :=
  .of_total_lt (accumulate_lt hdr h).1 (accumulate_lt hdr h).2

/-- The words of full beats. -/
theorem total_beatWords_of_not_last {bs : List AxiData} (h : ∀ b ∈ bs, b.last = false) :
    total (beatWords bs) = total (wordsOf (words bs)) := by
  induction bs with
  | nil => rfl
  | cons b bs ih =>
    have hb := bytesOf_maskLastWord_of_not_last (h b (List.mem_cons_self ..))
    have hlen : (bytesOf b.data).length % 2 = 0 := by rw [length_bytesOf]
    rw [beatWords, List.flatMap_cons, total_append, total_dataWords, hb, ← beatWords,
      ih fun c hc => h c (List.mem_cons_of_mem _ hc), words_cons, wordsOf_append hlen, total_append]

/-- The protocol counts 256 times in the pseudo-header. -/
theorem total_pseudoheaderWords (hdr : HeaderParser) :
    total (pseudoheaderWords hdr) =
      total ([hdr.ip.saddr.extractLsb' 16 16, hdr.ip.saddr.extractLsb' 0 16, hdr.ip.daddr.extractLsb' 16 16,
        hdr.ip.daddr.extractLsb' 0 16, 0#8 ++ hdr.ip.protocol, hdr.udp.length] ++
        [hdr.udp.source, hdr.udp.dest, hdr.udp.length]) + 255 * hdr.ip.protocol.toNat := by
  have hupper : (hdr.ip.protocol ++ 0#8).toNat = 256 * hdr.ip.protocol.toNat := by
    rw [BitVec.toNat_append, BitVec.toNat_ofNat, Nat.zero_mod, Nat.or_zero, Nat.shiftLeft_eq, Nat.mul_comm]
  have hlower : (0#8 ++ hdr.ip.protocol).toNat = hdr.ip.protocol.toNat := by
    rw [BitVec.toNat_append, BitVec.toNat_ofNat, Nat.zero_mod, Nat.zero_shiftLeft, Nat.zero_or]
  simp only [pseudoheaderWords, List.cons_append, List.nil_append, total_cons, total_nil, hupper, hlower]
  omega

namespace UdpPacket

variable (p : UdpPacket)

/-- The words of the payload, and what is added instead. -/
theorem total_payload :
    total (beatWords p.beats) + total (wordsOf p.leading) = total (wordsOf p.payload) + total (wordsOf p.trailing) := by
  have hge := p.length_ge
  rcases p.framed with ⟨hn, hbeats⟩ | ⟨front, final, t, hbeats, hfront, hlast, hkeep, -, ht, hn⟩
  · have htail : p.tail = 0 := by
      rw [tail, hbeats, hdr]
      omega
    have htrailing : p.trailing = [] ++ List.replicate 32 0 := by
      rw [trailing, htail, List.drop_of_length_le (by rw [length_bytesOf]), List.append_nil, List.nil_append]
    have hnone : words [] = [] := rfl
    rw [htrailing, total_wordsOf_zeros, leading, htail, payload, hbeats, hnone, List.take_zero, List.take_nil]
    rfl
  · have htail : p.tail = t := by
      rw [tail, hbeats, hdr, List.length_append, List.length_singleton]
      omega
    have hdata : p.lastData = final.data := by
      rw [lastData, hbeats, List.getLast?_append]
      rfl
    have hlen : (words front).length = 32 * front.length := length_words front
    have hone : words [final] = bytesOf final.data := List.append_nil _
    have hpayload : p.payload = words front ++ p.leading := by
      rw [payload, leading, htail, hdata, hdr, hn, hbeats, words_append, List.take_append, hlen,
        List.take_of_length_le (by omega), Nat.add_sub_cancel_left, hone]
    have hmask : bytesOf (maskLastWord final) = p.trailing := by
      rw [bytesOf_maskLastWord_of_last hlast hkeep ht, trailing, htail, hdata]
    rw [hpayload, wordsOf_append (by omega), total_append, hbeats, beatWords, List.flatMap_append,
      List.flatMap_singleton, total_append, ← beatWords, total_beatWords_of_not_last hfront, total_dataWords, hmask]
    omega

theorem total_words :
    total (accumulate p.hdr p.beats).udpWords + total (wordsOf p.leading)
      = total p.udpWords + (255 * p.hdr.ip.protocol.toNat + total (wordsOf p.trailing)) := by
  have hpayload := p.total_payload
  rw [(accumulate_spec _ _).2, total_pseudoheaderWords, udpWords, total_append _ (wordsOf p.payload)]
  omega

/-- The accumulators of the whole packet. -/
def result : Intermediate := accumulate p.hdr p.beats

/-- The checksums of the unit are those of the words it added. -/
theorem finishChecksum_result :
    finishChecksum p.result = ⟨rfc1071 (ipHeaderWords p.hdr.ip), rfc1071 p.result.udpWords⟩ := by
  obtain ⟨hudp, hip⟩ := accumulate_lt p.hdr p.length_beats_le
  rw [result, finishChecksum_eq hudp hip, rfc1071_congr (accumulate_spec _ _).1]

/-- A packet has a length, so its words are not all zero. -/
theorem total_udpWords_ne_zero : total p.udpWords ≠ 0 ∧ total p.result.udpWords ≠ 0 := by
  have hge : 8 ≤ p.hdr.udp.length.toNat := p.length_ge
  rw [result, (accumulate_spec _ _).2, total_pseudoheaderWords, udpWords]
  simp only [List.cons_append, List.nil_append, total_cons]
  omega

/-- The checksums of a packet are right exactly when the deviations cancel. -/
theorem finishChecksum_result_iff : finishChecksum p.result = p.checksums ↔ p.Cancels := by
  obtain ⟨hright, hadded⟩ := p.total_udpWords_ne_zero
  have htotal := p.total_words
  rw [← result] at htotal
  rw [finishChecksum_result, checksums, Checksums.mk.injEq, rfc1071_eq_rfc768_iff hadded hright]
  constructor
  · rintro ⟨-, hmod, hne⟩
    exact ⟨by omega, hne⟩
  · rintro ⟨hmod, hne⟩
    exact ⟨rfl, by omega, hne⟩

end UdpPacket

end Nica.Hls.Checksum
