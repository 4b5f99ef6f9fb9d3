import Nica.Hls.Equiv.MemcachedIntercept
import Nica.Hls.Equiv.MemcachedConservation

/-!
# The `VALUE` lines that the memcached ikernel writes and parses

`generate_response` writes a line with a key and a value, and `intercept_out` takes both out of the responses
of the host, wherever the sizes of the build put the value: in the first beat, behind it, or across the two.

* `storesInBounds_iff`: for which sizes the stores of `parse_out_payload` are in bounds;
* `parseBeats_line_iff`: for these sizes the pair of a line is parsed unless the last beat of the response has other
  bytes in place of the value's;
* `lineInv_step`: what `intercept_out` has written after every call, for arbitrary responses;
* `caches_iff`: the pair that is inserted in the cache is that of the line exactly for these sizes and if the
  last beat does not disturb the value.
-/

namespace Nica.Hls.Memcached

open Nica.Lib

variable {z : Sizes}

/-! ### Lines -/

/-- What `generate_response` writes in front of the end of the message. -/
def valueLine (udpHeader : BitVec (8 * 8)) (key : Key z) (value : Value z) : List Byte :=
  bytes udpHeader ++ ascii "VALUE " ++ bytes key ++ ascii " 0 " ++
    ((ascii (toString z.value)) ++ [0]).take 2 ++ ascii "\r\n" ++ bytes value

theorem generateResponse_eq (r : ParsedRequest z) (value : Value z) :
    generateResponse r value = valueLine r.udpHeader r.key value ++ ascii "\r\nEND\r\n" := rfl

/-- Byte `n` of the data of a packet. -/
def packetByte (beats : List AxiData) (n : ℕ) : Option Byte := (beats[n / 32]?).map (beatByte · (n % 32))

/-- The data of a packet start with `text`. -/
def Carries (beats : List AxiData) (text : List Byte) : Prop :=
  ∀ i < text.length, packetByte beats i = text[i]?

instance (beats : List AxiData) (text : List Byte) : Decidable (Carries beats text) :=
  inferInstanceAs (Decidable (∀ i < text.length, _))

theorem Carries.of_append {beats : List AxiData} {line more : List Byte} (h : Carries beats (line ++ more)) :
    Carries beats line := by
  intro i hi
  rw [h i (by rw [List.length_append]; omega), List.getElem?_append_left hi]

section Line

variable {udpHeader : BitVec (8 * 8)} {key : Key z} {value : Value z}

theorem bytes_getElem? {n j : ℕ} (a : BitVec (8 * n)) (hj : j < n) : (bytes a)[j]? = some (byteAt a j) := by
  rw [bytes, List.getElem?_map, List.getElem?_range hj]
  rfl

/-- The pieces of a line in front of its value have these lengths. -/
theorem line_lengths (udpHeader : BitVec (8 * 8)) (key : Key z) :
    (bytes udpHeader ++ ascii "VALUE ").length = 14 ∧
    (bytes udpHeader ++ ascii "VALUE " ++ bytes key ++ ascii " 0 " ++
      ((ascii (toString z.value)) ++ [0]).take 2 ++ ascii "\r\n").length = valuePos z := by
  have hdigits : ∀ v ≤ 16, ((ascii (toString v) ++ [0]).take 2).length = 2 := by decide
  have hascii : (ascii "VALUE ").length = 6 ∧ (ascii " 0 ").length = 3 ∧ (ascii "\r\n").length = 2 := by
    decide
  simp only [List.length_append, length_bytes, hascii, hdigits z.value z.value_le, valuePos]
  exact ⟨trivial, by omega⟩

theorem length_valueLine : (valueLine udpHeader key value).length = valuePos z + z.value := by
  rw [valueLine, List.length_append, (line_lengths udpHeader key).2, length_bytes]

/-- The letter of a line. -/
theorem valueLine_letter : (valueLine udpHeader key value)[8]? = some 0x56#8 := by
  have hlen := length_bytes udpHeader
  unfold valueLine
  simp only [List.append_assoc]
  rw [List.getElem?_append_right (by omega), hlen]
  rfl

theorem valueLine_key {j : ℕ} (hj : j < z.key) : (valueLine udpHeader key value)[14 + j]? = some (byteAt key j) := by
  have hlen := (line_lengths udpHeader key).1
  unfold valueLine
  rw [List.append_assoc _ (ascii " 0 "), List.append_assoc _ (ascii " 0 " ++ _),
    List.append_assoc _ (ascii " 0 " ++ _ ++ _), List.append_assoc (_ ++ _) (bytes key),
    List.getElem?_append_right (by omega), hlen, Nat.add_sub_cancel_left,
    List.getElem?_append_left (by rw [length_bytes]; exact hj), bytes_getElem? _ hj]

theorem valueLine_value {j : ℕ} (hj : j < z.value) :
    (valueLine udpHeader key value)[valuePos z + j]? = some (byteAt value j) := by
  have hlen := (line_lengths udpHeader key).2
  unfold valueLine
  rw [List.getElem?_append_right (by omega), hlen, Nat.add_sub_cancel_left, bytes_getElem? _ hj]

end Line

/-! ### The stores of the parser -/

/-- The indices of `parse_out_payload` into `key` and `value` are in bounds. -/
def StoresInBounds (z : Sizes) (wordOffset : Bool) : Prop :=
  if wordOffset then
    ∀ i : ℕ, i < 32 → (valuePos z : ℤ) - 32 ≤ i → (i : ℤ) ≤ valuePos z + z.value - 1 - 32 →
      0 ≤ valueIndex z i ∧ valueIndex z i < z.value
  else
    (∀ i < 32, 14 ≤ i → i ≤ 14 + z.key - 1 → i - 14 < z.key) ∧
      ∀ i < 32, valuePos z ≤ i → i - valuePos z < z.value

instance (z : Sizes) (wordOffset : Bool) : Decidable (StoresInBounds z wordOffset) := by
  unfold StoresInBounds
  infer_instance

theorem storesInBounds_first (hkey : 1 ≤ z.key) (hvalue : 10 ≤ z.value) : StoresInBounds z false := by
  unfold StoresInBounds
  rw [if_neg Bool.false_ne_true]
  refine ⟨fun i _ hlow hhigh => by omega, fun i hi hpos => ?_⟩
  unfold valuePos at hpos ⊢
  omega

/-- The index formulas of the later beats are right for these sizes only. -/
theorem storesInBounds_iff (hkey : 1 ≤ z.key) (hvalue : 10 ≤ z.value) :
    StoresInBounds z true ↔ FitsBeats z := by
  have hkle := z.key_le
  have hvle := z.value_le
  have hpos : (valuePos z : ℤ) = 21 + z.key := by
    unfold valuePos
    push_cast
    omega
  unfold StoresInBounds FitsBeats
  rw [if_pos rfl]
  constructor
  · intro h
    by_contra hsizes
    by_cases heleven : z.key = 11
    · -- the value starts with the second beat, and the formula is one short
      have hzero := (h 0 (by omega) (by omega) (by omega)).1
      simp only [valueIndex, valuePos, heleven] at hzero
      omega
    · -- the value starts in front of the last byte of the first beat, and its end goes out of bounds
      have hend := (h (z.key + z.value - 12) (by omega) (by omega) (by omega)).2
      rw [valueIndex, if_neg (by omega)] at hend
      omega
  · intro hsizes i hi hlow hhigh
    unfold valueIndex
    by_cases hbehind : valuePos z > 32
    · rw [if_pos hbehind]
      omega
    · rw [if_neg hbehind]
      omega

/-! ### A line in the beats of a response -/

/-- The bytes of the value in the second beat are also in the last one. -/
def Undisturbed (z : Sizes) (beats : List AxiData) : Prop :=
  ∀ j < z.value, 32 ≤ valuePos z + j → ∀ b ∈ beats[1]?, ∀ c ∈ beats.getLast?,
    beatByte c (valuePos z + j - 32) = beatByte b (valuePos z + j - 32)

/-- A response of at most two beats is undisturbed. -/
theorem undisturbed_of_length_le {beats : List AxiData} (h : beats.length ≤ 2) : Undisturbed z beats := by
  intro j _ _ b hb c hc
  match beats, h with
  | [], _ => cases hb
  | [_], _ => cases hb
  | [_, _], _ =>
    cases hb
    cases hc
    rfl

section Parse

variable {udpHeader : BitVec (8 * 8)} {key : Key z} {value : Value z} {beats : List AxiData}

/-- Byte `n` of a line is in the first or in the second beat. -/
theorem Carries.byte (h : Carries beats (valueLine udpHeader key value)) {n : ℕ} {c : Byte}
    (hc : (valueLine udpHeader key value)[n]? = some c) :
    ∃ b, beats[n / 32]? = some b ∧ beatByte b (n % 32) = c := by
  have hn := (List.getElem?_eq_some_iff.mp hc).1
  have hbyte := (h n hn).trans hc
  rw [packetByte, Option.map_eq_some_iff] at hbyte
  exact hbyte

/-- A line that fits in one beat is that of the shortest key and value. -/
theorem fitsBeats_of_single (hkey : 1 ≤ z.key) (hvalue : 10 ≤ z.value) {b : AxiData}
    (h : Carries [b] (valueLine udpHeader key value)) : FitsBeats z := by
  obtain ⟨c, hc, -⟩ := h.byte (valueLine_value (j := z.value - 1) (by omega))
  have hlt := (List.getElem?_eq_some_iff.mp hc).1
  rw [List.length_singleton] at hlt
  unfold valuePos at hlt
  left
  omega

/-- A response that starts with a line is parsed into its key and value exactly if the last beat leaves the value
alone. -/
theorem parseBeats_line_iff (hz : FitsBeats z) (hkey : 1 ≤ z.key)
    (h : Carries beats (valueLine udpHeader key value)) (p : KeyValuePair z) :
    parseBeats p beats = ⟨key, value, p.ikernelId⟩ ↔ Undisturbed z beats := by
  have hkle := z.key_le
  have hvle := z.value_le
  have hpos : valuePos z = 21 + z.key := by
    unfold valuePos
    omega
  obtain ⟨b₀, hb₀, -⟩ := h.byte valueLine_letter
  obtain ⟨bs, rfl⟩ : ∃ bs, beats = b₀ :: bs := by
    cases beats with
    | nil => cases hb₀
    | cons b bs =>
      obtain rfl := Option.some.inj hb₀
      exact ⟨bs, rfl⟩
  have hkeep := foldl_parse_keeps bs (parseOutPayload b₀ false p)
  have hkeyeq : (parseBeats p (b₀ :: bs)).key = key := by
    refine hkeep.1.trans (eq_of_byteAt fun j hj => ?_)
    obtain ⟨b, hb, hbyte⟩ := h.byte (valueLine_key hj)
    have hdiv : (14 + j) / 32 = 0 := by omega
    have hmod : (14 + j) % 32 = 14 + j := by omega
    rw [hdiv] at hb
    obtain rfl := Option.some.inj hb
    rw [byteAt_key_first b₀ p hj, ← hbyte, hmod]
  have hid : (parseBeats p (b₀ :: bs)).ikernelId = p.ikernelId := hkeep.2
  -- the value is the one of the line wherever it is in the first beat; behind it, the last beat decides
  have hvalueiff : (parseBeats p (b₀ :: bs)).value = value ↔ Undisturbed z (b₀ :: bs) := by
    have hbyteiff : (parseBeats p (b₀ :: bs)).value = value ↔
        ∀ j < z.value, byteAt (parseBeats p (b₀ :: bs)).value j = byteAt value j :=
      ⟨fun heq j _ => by rw [heq], fun heq => eq_of_byteAt heq⟩
    rw [hbyteiff]
    refine forall₂_congr fun j hj => ?_
    obtain ⟨b, hb, hbyte⟩ := h.byte (valueLine_value hj)
    rw [byteAt_value_parseBeats hz hkey b₀ bs p hj]
    by_cases hfirst : valuePos z + j < 32
    · have hdiv : (valuePos z + j) / 32 = 0 := by omega
      have hmod : (valuePos z + j) % 32 = valuePos z + j := by omega
      rw [hdiv] at hb
      obtain rfl := Option.some.inj hb
      rw [if_pos hfirst, ← hbyte, hmod]
      exact iff_of_true rfl fun hge => absurd hge (by omega)
    · have hdiv : (valuePos z + j) / 32 = 1 := by omega
      have hmod : (valuePos z + j) % 32 = valuePos z + j - 32 := by omega
      rw [hdiv] at hb
      rw [if_neg hfirst, ← hbyte, hmod]
      have hbs : bs[0]? = some b := hb
      obtain ⟨c, hc⟩ : ∃ c, bs.getLast? = some c := by
        cases bs with
        | nil => cases hbs
        | cons x xs => exact ⟨_, List.getLast?_eq_getLast_of_ne_nil (List.cons_ne_nil x xs)⟩
      have hlast : (b₀ :: bs).getLast? = some c := by
        rw [List.getLast?_cons, hc]
        rfl
      rw [hc, hlast, hb]
      simp only [Option.map_some, Option.getD_some, Option.mem_def, Option.some.injEq, forall_eq']
      exact ⟨fun heq _ => heq, fun himp => himp (by omega)⟩
  rw [← hid, ← hvalueiff]
  constructor
  · intro heq
    rw [heq]
  · intro heq
    rw [← hkeyeq, ← heq]

end Parse

/-! ### The responses in a run -/

/-- The letter of a packet. -/
def HostPacket.letter (p : HostPacket) : Byte := beatByte (p.beats.head p.isPacket.ne_nil) 8

/-- What the registers hold of the packet `p` when its beats `due` are still to come. -/
def PacketRegs (u : Interceptor z) (p : HostPacket) (due : List AxiData) : Prop :=
  ∃ read r, p.beats = read ++ due ∧ r.ikernelId = p.metadata.ikernelId ∧
    u.parsedResponse = parseBeats r read ∧ u.outWord = !read.isEmpty ∧
    (read ≠ [] → u.responseTypeChar = p.letter)

/-- Where `intercept_out` is after the metadata of `n` packets and the beats `done`.  Between two packets, the
last pair is that of the last packet if this one is a response to a `get`, and the packets have one beat if
the stores of a second beat are not in bounds. -/
def LinePhase (hosted : List HostPacket) (u : Interceptor z) (n : ℕ) (done : List AxiData)
    (kv : List (KeyValuePair z)) : Prop :=
  match u.outState with
  | .metadata => u.outWord = false ∧ Owed HostPacket.beats hosted n done [] ∧
      ∀ p ∈ (hosted.take n).getLast?, (StoresInBounds z true ∨ p.beats.length = 1) ∧
        (p.letter = 0x56#8 → ∃ r : KeyValuePair z, r.ikernelId = p.metadata.ikernelId ∧
          kv.getLast? = some (parseBeats r p.beats))
  | .data => ∃ k p due, n = k + 1 ∧ hosted[k]? = some p ∧ IsPacket due ∧
      Owed HostPacket.beats hosted n done due ∧ PacketRegs u p due

section Line

variable {hosted : List HostPacket} {u : Interceptor z} {metadata : Fifo Metadata} {beats : Fifo AxiData}
  {kv : Fifo (KeyValuePair z)}

/-- What `intercept_out` makes of the next beat of a packet. -/
theorem PacketRegs.look {p : HostPacket} {d : AxiData} {read due : List AxiData} {r : KeyValuePair z}
    (hsplit : p.beats = read ++ d :: due) (hregs : u.parsedResponse = parseBeats r read)
    (hword : u.outWord = !read.isEmpty) (hletter : read ≠ [] → u.responseTypeChar = p.letter) :
    parseOutPayload d u.outWord u.parsedResponse = parseBeats r (read ++ [d]) ∧
      (if u.outWord then u.responseTypeChar else beatByte d 8) = p.letter := by
  constructor
  · rw [parseBeats_snoc, hregs, hword]
  · rw [hword]
    cases read with
    | nil =>
      unfold HostPacket.letter
      simp [hsplit]
    | cons b bs => exact hletter (List.cons_ne_nil b bs)

/-- **The pairs of arbitrary packets**: a call of `intercept_out` whose stores are in bounds takes the packets
further, and a complete response to a `get` gives its pair. -/
theorem linePhase_interceptOut (i : InterceptIn)
    (h : LinePhase hosted u metadata.past.length beats.past kv.sent)
    (hmetadata : metadata.sent <+: hosted.map HostPacket.metadata)
    (hbeats : beats.sent <+: hosted.flatMap HostPacket.beats)
    (hbounds : (interceptOut i u metadata.head beats.head).2.readData = true → StoresInBounds z u.outWord) :
    let r := interceptOut i u metadata.head beats.head
    LinePhase hosted r.1 (metadata.readIf r.2.readMetadata).past.length (beats.readIf r.2.readData).past
      (kv.put r.2.kv).sent := by
  have hwait : LinePhase hosted u (metadata.readIf false).past.length (beats.readIf false).past
      (kv.put none).sent := by
    simpa using h
  have hphase := h
  unfold LinePhase at hphase
  cases hu : u.outState with
  | metadata =>
    simp only [hu] at hphase
    obtain ⟨hword, hin, -⟩ := hphase
    simp only [interceptOut, hu]
    cases hm : metadata.head with
    | none => exact hwait
    | some m =>
      cases hfull : i.m1Full with
      | true => simpa [hfull] using hwait
      | false =>
        obtain ⟨p, hp, rfl⟩ := exists_item ((metadata.past_snoc_prefix_sent hm).trans hmetadata)
        simp only [Bool.false_eq_true, if_false, LinePhase, metadata.length_past_readIf_true hm,
          Fifo.past_readIf_false]
        exact ⟨_, p, _, rfl, hp, p.isPacket, hin.start hp, [], _, rfl, rfl, rfl, hword,
          fun hne => absurd rfl hne⟩
  | data =>
    simp only [hu] at hphase
    obtain ⟨k, p, due, hk, hp, hdue, hin, read, r, hsplit, hr, hregs, hword, hletter⟩ := hphase
    simp only [interceptOut, hu] at hbounds ⊢
    cases hd : beats.head with
    | none => exact hwait
    | some d =>
      cases hfull : i.kvFull || i.d1Full with
      | true => simpa [hfull] using hwait
      | false =>
        obtain ⟨y, due, rfl⟩ := List.exists_cons_of_ne_nil hdue.ne_nil
        obtain rfl := hin.head_eq hbeats hd
        obtain ⟨hfinal, hmore⟩ := isPacket_cons hdue
        have hin' := hin.advance
        obtain ⟨hresponse, htype⟩ := PacketRegs.look hsplit hregs hword hletter
        simp only [hd, hfull, Bool.false_eq_true, if_false, forall_const] at hbounds
        simp only [Bool.false_eq_true, if_false, hresponse, htype]
        have hlen : (metadata.readIf false).past.length = k + 1 := hk
        rw [beats.past_readIf_true hd]
        cases hlast : d.last with
        | true =>
          obtain rfl := hfinal hlast
          simp only [LinePhase, if_true, Bool.not_true, true_and]
          refine ⟨hlen ▸ hk ▸ hin', ?_⟩
          intro q hq
          have htake : (hosted.take (k + 1)).getLast? = some p := by
            rw [take_succ_eq hp, List.getLast?_append, List.getLast?_singleton]
            rfl
          rw [hlen, htake] at hq
          obtain rfl := Option.some.inj hq
          constructor
          · -- a beat behind the first one is parsed only if the stores are in bounds
            rw [hword] at hbounds
            cases read with
            | nil =>
              right
              rw [hsplit]
              rfl
            | cons b bs => exact .inl hbounds
          · intro hV
            refine ⟨r, hr, ?_⟩
            rw [Fifo.sent_put, hV, hsplit]
            simp
        | false =>
          simp only [LinePhase, Bool.false_eq_true, if_false]
          refine ⟨k, p, due, hlen, hp, hmore hlast, hlen ▸ hk ▸ hin', read ++ [d], r, ?_, hr, rfl, ?_, ?_⟩
          · rw [hsplit, List.append_assoc]
            rfl
          · simp
          · intro _
            rfl

end Line

/-! ### The insertions in a run -/

/-- What an operation on the cache inserts. -/
def CacheOp.inserted : CacheOp z → Option (ℕ × Key z × Value z)
  | .insert id key value => some (id, key, value)
  | .erase _ _ | .find _ _ => none

/-- What was inserted in the cache. -/
def State.inserted (s : State z) : List (ℕ × Key z × Value z) := s.cache.ops.filterMap CacheOp.inserted

/-- The pairs that were read are inserted. -/
def KeyValuePair.entry (kv : KeyValuePair z) : ℕ × Key z × Value z := (kv.ikernelId.toNat, kv.key, kv.value)

/-- The condition on a step that a call of `intercept_out` that parses a beat stores in bounds. -/
def ParsesInBounds (s : State z) : Act → Prop
  | .interceptOut i =>
    (interceptOut i s.interceptor s.hostMetadata.head s.hostData.head).2.readData = true →
      StoresInBounds z s.interceptor.outWord
  | _ => True

instance (s : State z) : ∀ a : Act, Decidable (ParsesInBounds s a)
  | .interceptOut _ => inferInstanceAs (Decidable (_ → _))
  | .dupMetadata _ | .dupData _ | .parsePacket _ | .handleParsedPacket _ | .memory
  | .handleMemoryResponses _ | .actionResolution _ | .dropOrPass | .replyCachedValue _ _ | .arbitrate
  | .updateStats _ => .isTrue trivial

structure LineInv (hosted : List HostPacket) (s : State z) : Prop where
  hostMetadata : s.hostMetadata.sent = hosted.map HostPacket.metadata
  hostData : s.hostData.sent = hosted.flatMap HostPacket.beats
  phase : LinePhase hosted s.interceptor s.hostMetadata.past.length s.hostData.past s.kvPairs.sent
  inserted : s.inserted = s.kvPairs.past.map KeyValuePair.entry

section Insert

variable {setData : List Byte → AxiData} {hosted : List HostPacket} {s : State z}

theorem lineInv_init (cells : BitVec 64 → BitVec 512) (logSize : BitVec 6 → ℕ) (ringId : BitVec 6 → RingId)
    (packets : List NetPacket) : LineInv hosted (.init cells logSize ringId packets hosted : State z) where
  hostMetadata := rfl
  hostData := rfl
  phase := ⟨rfl, .zero _ _, fun p hp => by simp [State.init] at hp⟩
  inserted := rfl

/-- An access that inserts nothing. -/
theorem inserted_step (logSize : ℕ → ℕ) (k : CacheRun z) (a : CacheAction z)
    (ha : ∀ id key value, a ≠ .insert id key value) :
    (k.step logSize a).ops.filterMap CacheOp.inserted = k.ops.filterMap CacheOp.inserted := by
  cases a with
  | insert id key value => exact absurd rfl (ha id key value)
  | erase id key => simp [CacheRun.step, CacheOp.inserted]
  | find full id key => cases full <;> simp [CacheRun.step, CacheOp.inserted]
  | serve => rfl
  | getFindResult => rfl

theorem inserted_access (logSize : ℕ → ℕ) (k : CacheRun z) (r : ParsedRequest z) :
    ((r.access.map (k.step logSize)).getD k).ops.filterMap CacheOp.inserted =
      k.ops.filterMap CacheOp.inserted := by
  unfold ParsedRequest.access
  cases r.type with
  | GET => exact inserted_step logSize k (.find false _ r.key) (by simp)
  | SET => exact inserted_step logSize k (.erase _ r.key) (by simp)
  | OTHER => rfl

/-- **Every call whose stores are in bounds keeps the invariant.** -/
theorem lineInv_step (h : LineInv hosted s) (a : Act) (ha : ParsesInBounds s a) :
    LineInv hosted (step setData s a) := by
  have hinserted := h.inserted
  unfold State.inserted at hinserted
  cases a with
  | handleParsedPacket i =>
    show LineInv _ (s.handleParsedPacket i)
    unfold State.handleParsedPacket
    cases hop : Memcached.handleParsedPacket i s.kvPairs.head s.reqPrs2mem.head with
    | none => exact { h with }
    | insert kv =>
      have hkv := handleParsedPacket_insert hop
      refine { h with phase := ?_, inserted := ?_ }
      · have hsent : s.kvPairs.pop.sent = s.kvPairs.sent := Fifo.sent_pop _
        rw [hsent]
        exact h.phase
      · have hpast : s.kvPairs.pop.past = s.kvPairs.past ++ [kv] := s.kvPairs.past_readIf_true hkv
        show (s.cache.ops ++ [_]).filterMap _ = _
        rw [hpast, List.filterMap_append, List.map_append, hinserted]
        rfl
    | request r => exact { h with inserted := (inserted_access _ s.cache r).trans hinserted }
  | memory => exact { h with }
  | handleMemoryResponses i =>
    show LineInv _ (s.handleMemoryResponses i)
    rcases s.handleMemoryResponses_cases i with heq | ⟨r, heq⟩ | ⟨r, f, cache, hcache, heq⟩
    · rw [heq]
      exact h
    · rw [heq]
      exact { h with }
    · rw [heq]
      refine { h with inserted := ?_ }
      show cache.ops.filterMap _ = _
      rcases hcache with rfl | rfl
      · exact hinserted
      · exact hinserted
  | actionResolution i =>
    show LineInv _ (s.actionResolution i)
    unfold State.actionResolution
    cases Memcached.actionResolution i s.ringId s.bufferMetadata.head s.actionStream.head with
    | none => exact { h with }
    | some x => exact { h with }
  | interceptOut i =>
    have hphase := linePhase_interceptOut i h.phase (by rw [h.hostMetadata]) (by rw [h.hostData]) ha
    refine { h with hostMetadata := ?_, hostData := ?_, phase := hphase, inserted := hinserted }
    · exact (Fifo.sent_readIf _ _).trans h.hostMetadata
    · exact (Fifo.sent_readIf _ _).trans h.hostData
  | updateStats update => cases update <;> exact { h with }
  | dupMetadata full => exact { h with }
  | dupData full => exact { h with }
  | parsePacket full => exact { h with }
  | dropOrPass => exact { h with }
  | replyCachedValue m2Full d2Full => exact { h with }
  | arbitrate => exact { h with }

/-- The ikernel has taken all the packets of the host, and no pair waits to be inserted. -/
def State.Taken (s : State z) : Prop :=
  s.hostMetadata.queue = [] ∧ s.interceptor.outState = .metadata ∧ s.kvPairs.queue = []

instance (s : State z) : Decidable s.Taken := inferInstanceAs (Decidable (_ ∧ _ ∧ _))

/-- The last packet of the host has the line of `key` and `value`: in the run all indices into the arrays are in
bounds, and what is inserted last is that pair. -/
structure Caches (setData : List Byte → AxiData) (s₀ : State z) (acts : List Act) (p : HostPacket)
    (key : Key z) (value : Value z) : Prop where
  inBounds : Along (step setData) ParsesInBounds s₀ acts
  inserted : (run (step setData) s₀ acts).inserted.getLast? = some (p.metadata.ikernelId.toNat, key, value)

/-- When everything was taken, the last packet was parsed and its pair was inserted. -/
theorem LineInv.last {before : List HostPacket} {p : HostPacket} (h : LineInv (before ++ [p]) s) (hs : s.Taken) :
    (StoresInBounds z true ∨ p.beats.length = 1) ∧
      (p.letter = 0x56#8 → ∃ r : KeyValuePair z, r.ikernelId = p.metadata.ikernelId ∧
        s.inserted.getLast? = some (parseBeats r p.beats).entry) := by
  obtain ⟨hmetadata, hstate, hkv⟩ := hs
  have hlen : s.hostMetadata.past.length = (before ++ [p]).length := by
    have hsent := congrArg List.length h.hostMetadata
    rwa [Fifo.sent, hmetadata, List.append_nil, List.length_map] at hsent
  have hphase := h.phase
  unfold LinePhase at hphase
  simp only [hstate] at hphase
  obtain ⟨hsingle, hpair⟩ := hphase.2.2 p (by
    rw [hlen, List.take_length, List.getLast?_concat, Option.mem_some_iff])
  refine ⟨hsingle, fun hV => ?_⟩
  obtain ⟨r, hr, hlast⟩ := hpair hV
  refine ⟨r, hr, ?_⟩
  have hsent : s.kvPairs.sent = s.kvPairs.past := by
    rw [Fifo.sent, hkv, List.append_nil]
  rw [h.inserted, List.getLast?_map, ← hsent, hlast]
  rfl

/-- The first letter of a response that starts with a line. -/
theorem letter_of_carries {p : HostPacket} {udpHeader : BitVec (8 * 8)} {key : Key z} {value : Value z}
    (h : Carries p.beats (valueLine udpHeader key value)) : p.letter = 0x56#8 := by
  obtain ⟨b, hb, hbyte⟩ := h.byte valueLine_letter
  have hhead : p.beats.head p.isPacket.ne_nil = b := by
    rw [List.head_eq_getElem]
    exact (List.getElem?_eq_some_iff.mp hb).2
  unfold HostPacket.letter
  rw [hhead]
  exact hbyte

section Runs

variable (setData : List Byte → AxiData) (cells : BitVec 64 → BitVec 512) (logSize : BitVec 6 → ℕ)
  (ringId : BitVec 6 → RingId) (packets : List NetPacket) (before : List HostPacket) (p : HostPacket)
  (hkey : 1 ≤ z.key) (hvalue : 10 ≤ z.value) (acts : List Act)

include hkey hvalue

/-- **A line and its pair**, for one response at the end of those of a run. -/
theorem caches_line_iff
    (htaken : (run (step setData) (.init cells logSize ringId packets (before ++ [p]) : State z) acts).Taken)
    {udpHeader : BitVec (8 * 8)} {key : Key z} {value : Value z}
    (hline : Carries p.beats (valueLine udpHeader key value)) :
    Caches setData (.init cells logSize ringId packets (before ++ [p])) acts p key value ↔
      FitsBeats z ∧ Undisturbed z p.beats := by
  have hV := letter_of_carries hline
  have hstep : ∀ (s : State z) a, ParsesInBounds s a → LineInv (before ++ [p]) s →
      LineInv (before ++ [p]) (step setData s a) := fun s a ha hs => lineInv_step hs a ha
  have hinv := fun hin => run_induction hstep acts (.init cells logSize ringId packets (before ++ [p])) hin
    (lineInv_init cells logSize ringId packets)
  -- what was parsed is what was inserted, whatever the registers held before
  have hinserted : ∀ r : KeyValuePair z, r.ikernelId = p.metadata.ikernelId →
      ((parseBeats r p.beats).entry = (p.metadata.ikernelId.toNat, key, value) ↔
        parseBeats r p.beats = ⟨key, value, r.ikernelId⟩) := by
    intro r hr
    have hid : (parseBeats r p.beats).ikernelId = r.ikernelId := by
      obtain ⟨b, bs, hbeats⟩ := List.exists_cons_of_ne_nil p.isPacket.ne_nil
      rw [hbeats]
      exact (foldl_parse_keeps bs (parseOutPayload b false r)).2
    constructor
    · intro heq
      simp only [KeyValuePair.entry, Prod.mk.injEq] at heq
      rw [← heq.2.1, ← heq.2.2, ← hid]
    · intro heq
      rw [heq, ← hr]
      rfl
  constructor
  · rintro ⟨hin, hlast⟩
    obtain ⟨hsingle, hpair⟩ := (hinv hin).last htaken
    obtain ⟨r, hr, hr'⟩ := hpair hV
    have hfits : FitsBeats z := by
      rcases hsingle with hbounds | hone
      · exact (storesInBounds_iff hkey hvalue).mp hbounds
      · obtain ⟨b, hb⟩ := List.length_eq_one_iff.mp hone
        exact fitsBeats_of_single hkey hvalue (hb ▸ hline)
    rw [hr'] at hlast
    exact ⟨hfits, (parseBeats_line_iff hfits hkey hline r).mp ((hinserted r hr).mp (Option.some.inj hlast))⟩
  · rintro ⟨hfits, hundisturbed⟩
    have hall : ∀ w, StoresInBounds z w := by
      intro w
      cases w with
      | false => exact storesInBounds_first hkey hvalue
      | true => exact (storesInBounds_iff hkey hvalue).mpr hfits
    have hin : Along (step setData) ParsesInBounds
        (.init cells logSize ringId packets (before ++ [p]) : State z) acts := by
      refine Along.mono (C := fun _ _ => True) (fun s a _ => ?_) acts _ (along_of_forall acts _ fun _ _ => trivial)
      cases a <;> first | exact trivial | exact fun _ => hall _
    obtain ⟨-, hpair⟩ := (hinv hin).last htaken
    obtain ⟨r, hr, hr'⟩ := hpair hV
    refine ⟨hin, hr'.trans (congrArg some ((hinserted r hr).mpr ?_))⟩
    exact (parseBeats_line_iff hfits hkey hline r).mpr hundisturbed

/-- In every run that ends when everything was taken, for a response behind any others: if it starts with a line,
the pair of that line is inserted, with all indices in bounds, exactly if the sizes fit the beats and the last
beat does not disturb the value; and if it is one that `generate_response` builds, exactly if the sizes fit. -/
theorem caches_iff
    (htaken : (run (step setData) (.init cells logSize ringId packets (before ++ [p]) : State z) acts).Taken) :
    (∀ (udpHeader : BitVec (8 * 8)) (key : Key z) (value : Value z),
      Carries p.beats (valueLine udpHeader key value) →
      (Caches setData (.init cells logSize ringId packets (before ++ [p])) acts p key value ↔
        FitsBeats z ∧ Undisturbed z p.beats)) ∧
    ∀ (r : ParsedRequest z) (value : Value z), Carries p.beats (generateResponse r value) →
      p.beats.length = (replySize z + 31) / 32 →
      (Caches setData (.init cells logSize ringId packets (before ++ [p])) acts p r.key value ↔ FitsBeats z) := by
  constructor
  · intro udpHeader key value hline
    exact caches_line_iff setData cells logSize ringId packets before p hkey hvalue acts htaken hline
  · intro r value hresponse hlen
    have hkle := z.key_le
    have hvle := z.value_le
    have htwo : p.beats.length ≤ 2 := by
      rw [hlen]
      unfold replySize
      omega
    rw [caches_line_iff setData cells logSize ringId packets before p hkey hvalue acts htaken
      (generateResponse_eq r value ▸ hresponse).of_append]
    exact and_iff_left (undisturbed_of_length_le htwo)

end Runs

end Insert

/-! ### Runs -/

/-- A beat with the given bytes. -/
def beatOf (bytes : List Byte) (last : Bool) : AxiData :=
  ⟨(bytes ++ List.replicate (32 - bytes.length) 0).foldl (fun a (b : Byte) => a <<< 8 ||| b.setWidth 256) 0,
    BitVec.ofNat 32 (2 ^ bytes.length - 1), last⟩

/-- A request for the key `k`. -/
def requestFor (k : Key tenBytes) : ParsedRequest tenBytes := ⟨0, k, .GET, noMetadata⟩

/-- The response to it, in two beats. -/
def twoBeats : HostPacket where
  metadata := { noMetadata with ikernelId := 3 }
  beats := [beatOf ((generateResponse (requestFor 0x61) (0x4142 : Value tenBytes)).take 32) false,
    beatOf ((generateResponse (requestFor 0x61) (0x4142 : Value tenBytes)).drop 32) true]
  isPacket := by decide

/-- The same with one more beat. -/
def threeBeats : HostPacket where
  metadata := { noMetadata with ikernelId := 3 }
  beats := [beatOf ((generateResponse (requestFor 0x61) (0x4142 : Value tenBytes)).take 32) false,
    beatOf ((generateResponse (requestFor 0x61) (0x4142 : Value tenBytes)).drop 32) false,
    beatOf (List.replicate 32 0x20) true]
  isPacket := by decide

/-- The calls that take a response of `n` beats and insert its pair. -/
def takeResponse (n : ℕ) : List Act :=
  List.replicate (n + 1) (.interceptOut ⟨false, false, false, true⟩) ++
    [.handleParsedPacket ⟨false, none, false, false⟩]

theorem caches_iff_twoBeats :
    let s₀ : State tenBytes := .init (fun _ => 0) (fun _ => 6) (fun _ => 0) [] ([] ++ [twoBeats])
    (Caches keepFirst s₀ (takeResponse 2) twoBeats (requestFor 0x61).key 0x4142 ↔ FitsBeats tenBytes) ∧
      (run (step keepFirst) s₀ (takeResponse 2)).inserted = [(3, 0x61, 0x4142)] :=
  ⟨(caches_iff keepFirst (fun _ => 0) (fun _ => 6) (fun _ => 0) [] [] twoBeats (by decide) (by decide)
    (takeResponse 2) (by decide +kernel)).2 (requestFor 0x61) 0x4142 (by decide +kernel) rfl, by decide +kernel⟩

/-- In the default build the third beat of a response takes the place of nine bytes of the value. -/
theorem not_caches_threeBeats :
    let s₀ : State tenBytes := .init (fun _ => 0) (fun _ => 6) (fun _ => 0) [] [threeBeats]
    Carries threeBeats.beats (valueLine 0 (0x61 : Key tenBytes) (0x4142 : Value tenBytes)) ∧
      (run (step keepFirst) s₀ (takeResponse 3)).Taken ∧
      ¬Caches keepFirst s₀ (takeResponse 3) threeBeats 0x61 0x4142 := by
  refine ⟨by decide +kernel, by decide +kernel, fun h => ?_⟩
  have hvalue : (run (step keepFirst)
      (.init (fun _ => 0) (fun _ => 6) (fun _ => 0) [] [threeBeats] : State tenBytes)
      (takeResponse 3)).inserted.getLast? = some (3, 0x61, 0x20202020202020202042) := by
    decide +kernel
  rw [h.inserted] at hvalue
  exact absurd hvalue (by decide)

end Nica.Hls.Memcached
