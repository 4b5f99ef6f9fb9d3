import Nica.Hls.MemcachedServer
import Nica.Hls.Equiv.MemcachedUnits

/-!
# The parsers of the memcached ikernel and the protocol

* `request_of_get`: a `get` is parsed as a `GET` of its key;
* `byteAt_value_parseBeats`: which bytes of a response are taken for the value, for the sizes for which the index
  formulas are right (`FitsBeats`);
* `parseBeats_value`: the response to a `get` is parsed into its key and its value, for keys of 10 bytes and
  of 12 or more;
* `kvInv_interceptOut`: the pairs that `intercept_out` writes are those of the answers, in their order.
-/

namespace Nica.Hls.Memcached

open Nica.Lib

variable {z : Sizes}

/-! ### Bytes -/

theorem getLsbD_foldr_bytes {w : ℕ} (f : ℕ → Byte) (l : List ℕ) (j : ℕ) :
    (l.foldr (fun i (a : BitVec w) => a <<< 8 ||| (f i).setWidth w) 0).getLsbD j =
      (decide (j < w) && ((l[j / 8]?).map (fun i => (f i).getLsbD (j % 8))).getD false) := by
  induction l generalizing j with
  | nil => simp
  | cons i l ih =>
    rw [List.foldr_cons, BitVec.getLsbD_or, BitVec.getLsbD_shiftLeft, ih, BitVec.getLsbD_setWidth]
    by_cases hj : j < 8
    · have hdiv : j / 8 = 0 := by omega
      have hmod : j % 8 = j := by omega
      simp [hj, hdiv, hmod]
    · have hdiv : j / 8 = (j - 8) / 8 + 1 := by omega
      have hmod : j % 8 = (j - 8) % 8 := by omega
      have hout : (f i).getLsbD j = false := BitVec.getLsbD_of_ge _ _ (by omega)
      by_cases hw : j < w
      · have hw' : j - 8 < w := by omega
        simp [hj, hdiv, hmod, hout, hw, hw']
      · simp [hw]

theorem byteAt_byteArray {n : ℕ} (f : ℕ → Byte) {i : ℕ} (hi : i < n) : byteAt (byteArray n f) i = f i := by
  unfold byteAt byteArray
  ext j hj
  have hdiv : (8 * i + j) / 8 = i := by omega
  have hmod : (8 * i + j) % 8 = j := by omega
  have hlt : 8 * i + j < 8 * n := by omega
  rw [BitVec.getElem_extractLsb', getLsbD_foldr_bytes, hdiv, hmod, List.getElem?_range hi]
  simp [hlt, BitVec.getLsbD_eq_getElem hj]

/-- An array is determined by its bytes. -/
theorem eq_of_byteAt {n : ℕ} {a b : BitVec (8 * n)} (h : ∀ i < n, byteAt a i = byteAt b i) : a = b := by
  ext j hj
  have hbyte := h (j / 8) (by omega)
  have hbit := congrArg (fun c : Byte => c.getLsbD (j % 8)) hbyte
  have hsplit : 8 * (j / 8) + j % 8 = j := by omega
  have hlt : j % 8 < 8 := by omega
  simpa [byteAt, hlt, hsplit, BitVec.getLsbD_eq_getElem hj] using hbit

section StoreBytes

variable {n : ℕ} {a : BitVec (8 * n)} {d : AxiData} {select : ℕ → Bool} {index : ℕ → ℤ} {i j : ℕ}

theorem byteAt_storeBytes (hj : j < n) (hi : i < 32) (hselect : select i = true) (hindex : index i = j)
    (hinj : ∀ i' < 32, select i' = true → index i' = j → i' = i) :
    byteAt (storeBytes a d select index) j = beatByte d i := by
  unfold storeBytes
  rw [byteAt_byteArray _ hj]
  have hsome : ((List.range 32).find? (fun i => select i && index i == j)).isSome = true := by
    rw [List.find?_isSome]
    exact ⟨i, List.mem_range.mpr hi, by simp [hselect, hindex]⟩
  obtain ⟨k, hk⟩ := Option.isSome_iff_exists.mp hsome
  have hfound := List.find?_some hk
  have hmem := List.mem_range.mp (List.mem_of_find?_eq_some hk)
  rw [Bool.and_eq_true, beq_iff_eq] at hfound
  rw [hk, hinj k hmem hfound.1 hfound.2]

theorem byteAt_storeBytes_of_not (hj : j < n) (hnone : ∀ i < 32, select i = true → index i ≠ j) :
    byteAt (storeBytes a d select index) j = byteAt a j := by
  unfold storeBytes
  rw [byteAt_byteArray _ hj]
  have hfind : (List.range 32).find? (fun i => select i && index i == j) = none := by
    rw [List.find?_eq_none]
    intro i hi
    rw [Bool.and_eq_true, beq_iff_eq]
    exact fun h => hnone i (List.mem_range.mp hi) h.1 h.2
  rw [hfind]

end StoreBytes

/-! ### Requests -/

/-- What the server takes for a `get` is parsed as a `GET` of the same key. -/
theorem request_of_get {P : Protocol z} (hP : P.Lawful) {p : NetPacket} {key : Key z}
    (h : P.decode p.beats = .get key) : (p.request z).type = .GET ∧ (p.request z).key = key := by
  obtain ⟨b₀, rest, hbeats, hletter, hkey⟩ := hP.get_letter h
  have hfirst : p.beats.head p.isPacket.ne_nil = b₀ := by simp [hbeats]
  have hle := z.key_le
  unfold NetPacket.request parseFirst
  rw [hfirst]
  constructor
  · show requestType (beatByte b₀ 8) = .GET
    rw [hletter]
    rfl
  · apply eq_of_byteAt
    intro j hj
    rw [byteAt_storeBytes hj (i := 12 + j) (by omega) (by simp; omega) (by push_cast; omega)]
    · exact hkey j hj
    · intro i _ _ hindex
      omega

/-! ### Responses -/

/-- The registers of `intercept_out` after some beats of a response. -/
def parseBeats (p : KeyValuePair z) : List AxiData → KeyValuePair z
  | [] => p
  | b :: bs => bs.foldl (fun p b => parseOutPayload b true p) (parseOutPayload b false p)

theorem parseBeats_snoc (p : KeyValuePair z) (bs : List AxiData) (b : AxiData) :
    parseBeats p (bs ++ [b]) = parseOutPayload b (!bs.isEmpty) (parseBeats p bs) := by
  cases bs with
  | nil => rfl
  | cons c cs =>
    simp only [List.cons_append, parseBeats, List.foldl_append]
    rfl

/-- The sizes for which the value is where the index formulas expect it: all of it in the first beat, or behind
the first beat from its last byte on or later. -/
def FitsBeats (z : Sizes) : Prop := (z.key = 1 ∧ z.value = 10) ∨ z.key = 10 ∨ 12 ≤ z.key

/-- A later beat gives the bytes of the value that are not in the first beat. -/
theorem byteAt_value_later (hz : FitsBeats z) (hkey : 1 ≤ z.key) (d : AxiData) (p : KeyValuePair z) {j : ℕ}
    (hj : j < z.value) : byteAt (parseOutPayload d true p).value j =
      if valuePos z + j < 32 then byteAt p.value j else beatByte d (valuePos z + j - 32) := by
  have hkle := z.key_le
  have hvle := z.value_le
  have hpos : valuePos z = 21 + z.key := by
    unfold valuePos
    omega
  unfold FitsBeats at hz
  simp only [parseOutPayload, if_true]
  by_cases hfirst : valuePos z + j < 32
  · rw [if_pos hfirst, byteAt_storeBytes_of_not hj]
    intro i hi hselect hindex
    simp only [decide_eq_true_eq] at hselect
    simp only [valueIndex, hpos] at hindex hselect
    split at hindex <;> omega
  · rw [if_neg hfirst, byteAt_storeBytes hj (i := valuePos z + j - 32) (by omega)]
    · simp only [decide_eq_true_eq]
      omega
    · simp only [valueIndex, hpos]
      split <;> omega
    · intro i hi _ hindex
      simp only [valueIndex, hpos] at hindex
      split at hindex <;> omega

/-- The first beat gives the others. -/
theorem byteAt_value_first (d : AxiData) (p : KeyValuePair z) {j : ℕ} (hj : j < z.value)
    (hfirst : valuePos z + j < 32) :
    byteAt (parseOutPayload d false p).value j = beatByte d (valuePos z + j) := by
  simp only [parseOutPayload, Bool.false_eq_true, if_false]
  rw [byteAt_storeBytes hj (i := valuePos z + j) hfirst]
  · simp
  · push_cast
    omega
  · intro i _ _ hindex
    omega

/-- The key is taken from the first beat. -/
theorem byteAt_key_first (d : AxiData) (p : KeyValuePair z) {j : ℕ} (hj : j < z.key) :
    byteAt (parseOutPayload d false p).key j = beatByte d (14 + j) := by
  have hkle := z.key_le
  simp only [parseOutPayload, Bool.false_eq_true, if_false]
  rw [byteAt_storeBytes hj (i := 14 + j) (by omega) (by simp; omega) (by push_cast; omega)]
  intro i _ _ hindex
  omega

/-- The later beats keep the key and the id. -/
theorem foldl_parse_keeps (bs : List AxiData) (p : KeyValuePair z) :
    (bs.foldl (fun p b => parseOutPayload b true p) p).key = p.key ∧
      (bs.foldl (fun p b => parseOutPayload b true p) p).ikernelId = p.ikernelId := by
  induction bs generalizing p with
  | nil => exact ⟨rfl, rfl⟩
  | cons b bs ih => exact ih (parseOutPayload b true p)

/-- Of several later beats, the last one gives the bytes of the value that are not in the first beat. -/
theorem byteAt_value_parseBeats (hz : FitsBeats z) (hkey : 1 ≤ z.key) (b₀ : AxiData) (bs : List AxiData)
    (p : KeyValuePair z) {j : ℕ} (hj : j < z.value) : byteAt (parseBeats p (b₀ :: bs)).value j =
      if valuePos z + j < 32 then beatByte b₀ (valuePos z + j)
      else (bs.getLast?.map (beatByte · (valuePos z + j - 32))).getD (byteAt (parseOutPayload b₀ false p).value j) := by
  have hlater : ∀ (bs : List AxiData) (q : KeyValuePair z),
      byteAt (bs.foldl (fun p b => parseOutPayload b true p) q).value j =
        if valuePos z + j < 32 then byteAt q.value j
        else (bs.getLast?.map (beatByte · (valuePos z + j - 32))).getD (byteAt q.value j) := by
    intro bs
    induction bs using List.reverseRecOn with
    | nil =>
      intro q
      simp
    | append_singleton bs b ih =>
      intro q
      rw [List.foldl_append, List.foldl_cons, List.foldl_nil, byteAt_value_later hz hkey b _ hj, ih q]
      split <;> simp
  show byteAt (bs.foldl _ (parseOutPayload b₀ false p)).value j = _
  rw [hlater bs]
  split
  · next hfirst => exact byteAt_value_first b₀ p hj hfirst
  · rfl

/-- A response of two beats is parsed into its key and its value. -/
theorem parseBeats_value (hz : z.key = 10 ∨ 12 ≤ z.key) {b₀ b₁ : AxiData} {key : Key z} {value : Value z}
    (hkey : ∀ i < z.key, beatByte b₀ (14 + i) = byteAt key i)
    (hvalue : ∀ i < z.value, messageByte b₀ b₁ (valuePos z + i) = byteAt value i) (p : KeyValuePair z) :
    parseBeats p [b₀, b₁] = ⟨key, value, p.ikernelId⟩ := by
  have hparsed : (parseBeats p [b₀, b₁]).key = key := by
    apply eq_of_byteAt
    intro j hj
    exact (byteAt_key_first b₀ p hj).trans (hkey j hj)
  have hstored : (parseBeats p [b₀, b₁]).value = value := by
    apply eq_of_byteAt
    intro j hj
    rw [byteAt_value_parseBeats (.inr hz) (by omega) b₀ [b₁] p hj, ← hvalue j hj, messageByte]
    rfl
  rw [← hparsed, ← hstored]
  rfl

/-- The pair in an answer. -/
def Answer.pair (a : Answer z) : Option (KeyValuePair z) :=
  match a.command, a.found with
  | .get key, some value => some ⟨key, value, a.metadata.ikernelId⟩
  | _, _ => none

/-- The packet of an answer. -/
def Answer.response (P : Protocol z) (a : Answer z) : HostPacket := P.respond a.metadata a.command a.found

/-- The first letter of an answer. -/
def Answer.letter (P : Protocol z) (a : Answer z) : Byte :=
  beatByte ((a.response P).beats.head (a.response P).isPacket.ne_nil) 8

/-- `intercept_out` takes the pair out of an answer, whatever its registers held. -/
theorem Answer.pair_eq {P : Protocol z} (hP : P.Lawful) (hz : z.key = 10 ∨ 12 ≤ z.key) (a : Answer z)
    {p : KeyValuePair z} (hp : p.ikernelId = a.metadata.ikernelId) :
    (if a.letter P = 0x56#8 then some (parseBeats p (a.response P).beats) else none) = a.pair := by
  have hother : a.command.gotKey = none ∨ a.found = none → a.letter P ≠ 0x56#8 := by
    intro h
    obtain ⟨b₀, rest, hbeats, hletter⟩ := hP.respond_other a.metadata a.command a.found h
    have hbeats : (a.response P).beats = b₀ :: rest := hbeats
    unfold letter
    simpa [hbeats] using hletter
  obtain ⟨m, c, found⟩ := a
  cases c with
  | get key =>
    cases found with
    | none => exact if_neg (hother (.inr rfl))
    | some value =>
      obtain ⟨b₀, b₁, hbeats, hletter, hkey, hvalue⟩ := hP.respond_value m key value
      have hbeats : (response P ⟨m, .get key, some value⟩).beats = [b₀, b₁] := hbeats
      have hV : letter P ⟨m, .get key, some value⟩ = 0x56#8 := by
        unfold letter
        simpa [hbeats] using hletter
      rw [if_pos hV, hbeats, parseBeats_value hz hkey hvalue, hp]
      rfl
  | set key value => exact if_neg (hother (.inl rfl))
  | update key f => exact if_neg (hother (.inl rfl))
  | other => exact if_neg (hother (.inl rfl))

/-! ### The pairs -/

/-- How many of the answers `intercept_out` has passed on, after the metadata of `n`. -/
def Interceptor.absorbed (u : Interceptor z) (n : ℕ) : ℕ :=
  match u.outState with
  | .metadata => n
  | .data => n - 1

/-- What the registers hold of the answer `a` when its beats `due` are still to come. -/
def InterceptRegs (P : Protocol z) (u : Interceptor z) (a : Answer z) (due : List AxiData) : Prop :=
  ∃ read p, (a.response P).beats = read ++ due ∧ p.ikernelId = a.metadata.ikernelId ∧
    u.parsedResponse = parseBeats p read ∧ u.outWord = !read.isEmpty ∧
    (read ≠ [] → u.responseTypeChar = a.letter P)

/-- Where `intercept_out` is after the metadata of `n` answers and the beats `done`. -/
def KvPhase (P : Protocol z) (answers : List (Answer z)) (u : Interceptor z) (n : ℕ) (done : List AxiData) :
    Prop :=
  match u.outState with
  | .metadata => u.outWord = false ∧ Owed (fun a => (a.response P).beats) answers n done []
  | .data => ∃ k a due, n = k + 1 ∧ answers[k]? = some a ∧ IsPacket due ∧
      Owed (fun a => (a.response P).beats) answers n done due ∧ InterceptRegs P u a due

structure KvInv (P : Protocol z) (answers : List (Answer z)) (u : Interceptor z) (n : ℕ)
    (done : List AxiData) (kv : List (KeyValuePair z)) : Prop where
  phase : KvPhase P answers u n done
  kv_eq : kv = (answers.take (u.absorbed n)).filterMap Answer.pair

section Kv

variable {P : Protocol z} {answers : List (Answer z)} {u : Interceptor z} {metadata : Fifo Metadata}
  {beats : Fifo AxiData} {kv : Fifo (KeyValuePair z)}

/-- More answers may follow. -/
theorem KvInv.extend {n : ℕ} {done : List AxiData} {kvs : List (KeyValuePair z)}
    (h : KvInv P answers u n done kvs) (hn : n ≤ answers.length) (more : List (Answer z)) :
    KvInv P (answers ++ more) u n done kvs := by
  have hphase := h.phase
  have hkv := h.kv_eq
  constructor
  · unfold KvPhase at hphase ⊢
    cases hu : u.outState with
    | metadata =>
      simp only [hu] at hphase ⊢
      exact ⟨hphase.1, hphase.2.extend hn more⟩
    | data =>
      simp only [hu] at hphase ⊢
      obtain ⟨k, a, due, hk, ha, hdue, howed, hregs⟩ := hphase
      refine ⟨k, a, due, hk, ?_, hdue, howed.extend hn more, hregs⟩
      rw [List.getElem?_append_left (List.getElem?_eq_some_iff.mp ha).1]
      exact ha
  · have hle : u.absorbed n ≤ answers.length := by
      unfold Interceptor.absorbed
      split <;> omega
    rw [List.take_append_of_le_length hle]
    exact hkv

/-- **The pairs**: a call of `intercept_out` takes the answers further, and a complete answer gives its
pair. -/
theorem kvInv_interceptOut (hP : P.Lawful) (hz : z.key = 10 ∨ 12 ≤ z.key) (i : InterceptIn)
    (h : KvInv P answers u metadata.past.length beats.past kv.sent)
    (hmetadata : metadata.sent <+: answers.map (fun a => (a.response P).metadata))
    (hbeats : beats.sent <+: answers.flatMap (fun a => (a.response P).beats)) :
    let r := interceptOut i u metadata.head beats.head
    KvInv P answers r.1 (metadata.readIf r.2.readMetadata).past.length (beats.readIf r.2.readData).past
      (kv.put r.2.kv).sent := by
  have hwait : KvInv P answers u (metadata.readIf false).past.length (beats.readIf false).past
      (kv.put none).sent := by
    simpa using h
  have hphase := h.phase
  have hkv := h.kv_eq
  unfold KvPhase at hphase
  unfold Interceptor.absorbed at hkv
  cases hu : u.outState with
  | metadata =>
    simp only [hu] at hphase hkv
    obtain ⟨hword, hin⟩ := hphase
    simp only [interceptOut, hu]
    cases hm : metadata.head with
    | none => exact hwait
    | some m =>
      cases hfull : i.m1Full with
      | true => simpa [hfull] using hwait
      | false =>
        obtain ⟨a, ha, rfl⟩ := exists_item ((metadata.past_snoc_prefix_sent hm).trans hmetadata)
        simp only [Bool.false_eq_true, if_false]
        constructor
        · simp only [KvPhase, metadata.length_past_readIf_true hm, Fifo.past_readIf_false]
          refine ⟨_, a, _, rfl, ha, (a.response P).isPacket, hin.start ha, [], _, rfl, ?_, rfl, hword, ?_⟩
          · exact hP.respond_ikernelId _ _ _
          · intro hne
            exact absurd rfl hne
        · simp only [Interceptor.absorbed, metadata.length_past_readIf_true hm, Fifo.put_none,
            Nat.add_sub_cancel]
          exact hkv
  | data =>
    simp only [hu] at hphase hkv
    obtain ⟨k, a, due, hk, ha, hdue, hin, read, p, hsplit, hp, hregs, hword, hletter⟩ := hphase
    simp only [interceptOut, hu]
    cases hd : beats.head with
    | none => exact hwait
    | some d =>
      cases hfull : i.kvFull || i.d1Full with
      | true => simpa [hfull] using hwait
      | false =>
        obtain ⟨y, due, rfl⟩ := List.exists_cons_of_ne_nil hdue.ne_nil
        obtain rfl := hin.head_eq hbeats hd
        obtain ⟨hfinal, hmore⟩ := isPacket_cons hdue
        have hin' := hin.advance
        have hresponse : parseOutPayload d u.outWord u.parsedResponse = parseBeats p (read ++ [d]) := by
          rw [parseBeats_snoc, hregs, hword]
        -- the letter of the answer, from this beat or from the register
        have htype : (if u.outWord = true then u.responseTypeChar else beatByte d 8) = a.letter P := by
          rw [hword]
          cases read with
          | nil =>
            unfold Answer.letter
            simp [hsplit]
          | cons b bs => exact hletter (List.cons_ne_nil b bs)
        simp only [Bool.false_eq_true, if_false, hresponse, htype]
        have hlen : (metadata.readIf false).past.length = k + 1 := hk
        rw [beats.past_readIf_true hd]
        cases hlast : d.last with
        | true =>
          obtain rfl := hfinal hlast
          constructor
          · simp only [KvPhase, hlen, if_true]
            exact ⟨rfl, hk ▸ hin'⟩
          · have hpair : (if true && a.letter P == 0x56#8 then some (parseBeats p (read ++ [d])) else none) =
                a.pair := by
              rw [← a.pair_eq hP hz hp, hsplit]
              by_cases hV : a.letter P = 0x56#8 <;> simp [hV]
            rw [Fifo.sent_put, hpair, hkv, hk]
            simp only [Interceptor.absorbed, hlen, Nat.add_sub_cancel, if_true]
            rw [take_succ_eq ha, List.filterMap_append]
            congr 1
        | false =>
          constructor
          · simp only [KvPhase, Bool.false_eq_true, if_false]
            refine ⟨k, a, due, hlen, ha, hmore hlast, hlen ▸ hk ▸ hin', read ++ [d], p, ?_, hp, rfl, ?_, ?_⟩
            · rw [hsplit, List.append_assoc]
              rfl
            · simp
            · intro _
              rfl
          · simp only [Interceptor.absorbed, Bool.false_and, Bool.false_eq_true, if_false, Fifo.put_none,
              hlen, Nat.add_sub_cancel]
            rw [hkv, hk]
            rfl

end Kv

end Nica.Hls.Memcached
