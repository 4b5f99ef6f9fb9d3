import Nica.Hls.Merger
import Nica.Hls.Equiv.UdpBytes

/-!
# A merger that meets its contract

`PushesHeader merge` says what is concatenated: the bytes of the header and those of the data, in full beats.
`bufferingOf` is the simplest merger with a contract, to run the units behind it on concrete inputs: it keeps all
that it has read and writes what can be made of it (`concatenates_bufferingOf`).  `buffering` is the one for
`ntl::push_header`, `bufferingSuffix` the one for `ntl::push_suffix`.
-/

namespace Nica.Hls

open Nica.Lib
open Nica.Hls.Udp (leadingKeep keptOf kept keptOf_leadingKeep leadingKeep_all kept_of_full)

/-! ### A merger among other units -/

/-- A merger that others write to and read from, each stream at most once. -/
theorem Merger.reachable_feed {α : Type} {M : Merger α} {s : Merger.State M}
    (h : Reachable Merger.step (Merger.State.init M) s) (x : Option α) (e n : Option Bool) (b : Option AxiData)
    (take : Bool) : Reachable Merger.step (Merger.State.init M)
      ⟨s.reg, s.extra.put x, s.empty.put e, s.enable.put n, s.data.put b, s.out.readIf take⟩ := by
  have hextra : Reachable Merger.step (Merger.State.init M) { s with extra := s.extra.put x } := by
    cases x with
    | none => simpa only [Fifo.put_none] using h
    | some x => exact h.next (.extra x)
  have hempty : Reachable Merger.step (Merger.State.init M)
      { s with extra := s.extra.put x, empty := s.empty.put e } := by
    cases e with
    | none => simpa only [Fifo.put_none] using hextra
    | some e => exact hextra.next (.empty e)
  have henable : Reachable Merger.step (Merger.State.init M)
      { s with extra := s.extra.put x, empty := s.empty.put e, enable := s.enable.put n } := by
    cases n with
    | none => simpa only [Fifo.put_none] using hempty
    | some n => exact hempty.next (.enable n)
  have hdata : Reachable Merger.step (Merger.State.init M)
      ⟨s.reg, s.extra.put x, s.empty.put e, s.enable.put n, s.data.put b, s.out⟩ := by
    cases b with
    | none => simpa only [Fifo.put_none] using henable
    | some b => exact henable.next (.data b)
  cases take with
  | false => exact hdata
  | true => exact hdata.next .takeOut

/-! ### Bytes in beats -/

/-- All bytes are kept, except behind the end in the last beat. -/
def Packed (bs : List AxiData) : Prop :=
  ∃ front final t, bs = front ++ [final] ∧ (∀ b ∈ front, b.keep = 0xffffffff) ∧ final.keep = leadingKeep t ∧
    0 < t ∧ t ≤ 32

/-- A header and the data of a packet are concatenated. -/
def PushesHeader (merge : Merger.Job AxiData → List AxiData) : Prop :=
  ∀ j : Merger.Job AxiData, j.Framed IsPacket → j.enable = true → Packed j.extra → (j.data = [] ∨ Packed j.data) →
    Packed (merge j) ∧ kept (merge j) = kept j.extra ++ kept j.data

/-- The word of up to 32 bytes, in the order of the packet. -/
def wordOf (bytes : List (BitVec 8)) : BitVec 256 :=
  (List.range 32).foldl (fun w i => w ||| (bytes.getD i 0).setWidth 256 <<< (8 * (31 - i))) 0

/-- The bits of a word of which the first `m` bytes are set. -/
theorem getLsbD_foldl_set (bytes : List (BitVec 8)) {m : ℕ} (hm : m ≤ 32) {j : ℕ} (hj : j < 256) :
    ((List.range m).foldl (fun w i => w ||| (bytes.getD i 0).setWidth 256 <<< (8 * (31 - i))) 0#256).getLsbD j =
      (decide (31 - j / 8 < m) && (bytes.getD (31 - j / 8) 0).getLsbD (j % 8)) := by
  induction m with
  | zero => simp
  | succ m ih =>
    rw [List.range_succ, List.foldl_append, List.foldl_cons, List.foldl_nil, BitVec.getLsbD_or, ih (by omega),
      BitVec.getLsbD_shiftLeft, BitVec.getLsbD_setWidth]
    by_cases heq : 31 - j / 8 = m
    · have hlt : ¬j < 8 * (31 - m) := by omega
      have hsub : j - 8 * (31 - m) = j % 8 := by omega
      have hmod : j % 8 < 256 := by omega
      simp [heq, hj, hlt, hsub, hmod]
    · by_cases hlow : j < 8 * (31 - m)
      · have h₁ : ¬31 - j / 8 < m := by omega
        have h₂ : ¬31 - j / 8 < m + 1 := by omega
        simp [hlow, h₁, h₂]
      · have h₁ : 31 - j / 8 < m := by omega
        have h₂ : 31 - j / 8 < m + 1 := by omega
        have hhigh : (bytes.getD m 0).getLsbD (j - 8 * (31 - m)) = false := BitVec.getLsbD_of_ge _ _ (by omega)
        rw [hhigh]
        simp [h₁, h₂]

theorem getLsbD_wordOf (bytes : List (BitVec 8)) {j : ℕ} (hj : j < 256) :
    (wordOf bytes).getLsbD j = (bytes.getD (31 - j / 8) 0).getLsbD (j % 8) := by
  rw [wordOf]
  refine (getLsbD_foldl_set bytes (Nat.le_refl 32) hj).trans ?_
  have hlt : 31 - j / 8 < 32 := by omega
  simp [hlt]

theorem take_bytesOf_wordOf {bytes : List (BitVec 8)} (h : bytes.length ≤ 32) :
    (bytesOf (wordOf bytes)).take bytes.length = bytes := by
  apply List.ext_getElem
  · rw [List.length_take, length_bytesOf, Nat.min_eq_left h]
  · intro i h₁ h₂
    rw [List.getElem_take, getElem_bytesOf]
    apply BitVec.eq_of_getLsbD_eq
    intro j hj
    have hlt : 8 * (31 - i) + j < 256 := by omega
    have hdiv : 31 - (8 * (31 - i) + j) / 8 = i := by omega
    have hmod : (8 * (31 - i) + j) % 8 = j := by omega
    rw [BitVec.getLsbD_extractLsb', getLsbD_wordOf _ hlt, hdiv, hmod]
    simp [hj, h₂]

/-- The bytes in `n` full beats and a last one. -/
def repackBeats : ℕ → List (BitVec 8) → List AxiData
  | 0, bytes => [⟨wordOf bytes, leadingKeep bytes.length, true⟩]
  | n + 1, bytes => ⟨wordOf (bytes.take 32), 0xffffffff, false⟩ :: repackBeats n (bytes.drop 32)

/-- The bytes in as few beats as possible. -/
def repack (bytes : List (BitVec 8)) : List AxiData := repackBeats ((bytes.length - 1) / 32) bytes

theorem isPacket_repackBeats (n : ℕ) : ∀ bytes, IsPacket (repackBeats n bytes) := by
  induction n with
  | zero => intro bytes; exact ⟨[], _, rfl, rfl, by simp⟩
  | succ n ih =>
    intro bytes
    obtain ⟨front, final, hbeats, hlast, hfront⟩ := ih (bytes.drop 32)
    refine ⟨_ :: front, final, by rw [repackBeats, hbeats, List.cons_append], hlast, ?_⟩
    intro b hb
    rcases List.mem_cons.mp hb with rfl | hb
    · rfl
    · exact hfront b hb

theorem packed_repackBeats (n : ℕ) : ∀ bytes : List (BitVec 8), 32 * n < bytes.length →
    bytes.length ≤ 32 * (n + 1) → Packed (repackBeats n bytes) ∧ kept (repackBeats n bytes) = bytes := by
  induction n with
  | zero =>
    intro bytes hpos hle
    have hle' : bytes.length ≤ 32 := by omega
    refine ⟨⟨[], _, bytes.length, rfl, by simp, rfl, by omega, hle'⟩, ?_⟩
    rw [repackBeats, kept, List.flatMap_singleton, keptOf_leadingKeep hle' rfl]
    exact take_bytesOf_wordOf hle'
  | succ n ih =>
    intro bytes hpos hle
    obtain ⟨⟨front, final, t, hbeats, hfull, hkeep, ht⟩, hkept⟩ := ih (bytes.drop 32)
      (by rw [List.length_drop]; omega) (by rw [List.length_drop]; omega)
    have hlen : (bytes.take 32).length = 32 := by rw [List.length_take]; omega
    refine ⟨⟨_ :: front, final, t, by rw [repackBeats, hbeats, List.cons_append], ?_, hkeep, ht⟩, ?_⟩
    · intro b hb
      rcases List.mem_cons.mp hb with rfl | hb
      · rfl
      · exact hfull b hb
    · have hfirst : keptOf ⟨wordOf (bytes.take 32), 0xffffffff, false⟩ = bytes.take 32 := by
        have hword := take_bytesOf_wordOf hlen.le
        rw [hlen] at hword
        rw [keptOf_leadingKeep (Nat.le_refl 32) leadingKeep_all.symm]
        exact hword
      have hrest : (repackBeats n (bytes.drop 32)).flatMap keptOf = bytes.drop 32 := hkept
      rw [repackBeats, kept, List.flatMap_cons, hrest, hfirst, List.take_append_drop]

theorem packed_repack {bytes : List (BitVec 8)} (h : bytes ≠ []) :
    Packed (repack bytes) ∧ kept (repack bytes) = bytes := by
  have hpos := List.length_pos_iff.mpr h
  exact packed_repackBeats _ bytes (by omega) (by omega)

/-- A header in front of the data, in bytes. -/
def pushHeader (j : Merger.Job AxiData) : List AxiData :=
  if j.enable then repack (kept j.extra ++ kept j.data) else j.data

theorem kept_ne_nil {bs : List AxiData} (h : Packed bs) : kept bs ≠ [] := by
  obtain ⟨front, final, t, rfl, -, hkeep, hpos, hle⟩ := h
  intro hnil
  rw [kept, List.flatMap_append, List.append_eq_nil_iff, List.flatMap_singleton, keptOf_leadingKeep hle hkeep] at hnil
  have hlen := congrArg List.length hnil.2
  rw [List.length_take, length_bytesOf, List.length_nil] at hlen
  omega

theorem pushesHeader_pushHeader : PushesHeader pushHeader := by
  intro j _ henable hextra _
  rw [pushHeader, if_pos henable]
  exact packed_repack fun hnil => kept_ne_nil hextra (List.append_eq_nil_iff.mp hnil).1

/-! ### Packets off the front of a stream -/

/-- The first packet of a stream, if it is complete, and what follows it. -/
def takePacket : List AxiData → Option (List AxiData × List AxiData)
  | [] => none
  | b :: bs => if b.last then some ([b], bs) else (takePacket bs).map fun r => (b :: r.1, r.2)

theorem takePacket_append {p : List AxiData} (h : IsPacket p) (rest : List AxiData) :
    takePacket (p ++ rest) = some (p, rest) := by
  induction p with
  | nil => exact absurd rfl h.ne_nil
  | cons b p ih =>
    rw [List.cons_append, takePacket]
    cases hb : b.last with
    | true =>
      rw [(isPacket_cons h).1 hb]
      rfl
    | false =>
      rw [ih ((isPacket_cons h).2 hb)]
      rfl

theorem takePacket_eq_some {l p rest : List AxiData} (h : takePacket l = some (p, rest)) :
    l = p ++ rest ∧ IsPacket p := by
  induction l generalizing p with
  | nil => cases h
  | cons b l ih =>
    rw [takePacket] at h
    cases hb : b.last with
    | true =>
      rw [hb, if_pos rfl] at h
      cases h
      exact ⟨rfl, [], b, rfl, hb, by simp⟩
    | false =>
      rw [hb, if_neg Bool.false_ne_true] at h
      obtain ⟨⟨q, r⟩, hq, heq⟩ := Option.map_eq_some_iff.mp h
      cases heq
      obtain ⟨rfl, front, final, rfl, hlast, hfront⟩ := ih hq
      refine ⟨rfl, b :: front, final, rfl, hlast, ?_⟩
      intro c hc
      rcases List.mem_cons.mp hc with rfl | hc
      · exact hb
      · exact hfront c hc

/-- The packet at the front of a stream does not depend on what follows. -/
theorem takePacket_more {l p rest : List AxiData} (h : takePacket l = some (p, rest)) (more : List AxiData) :
    takePacket (l ++ more) = some (p, rest ++ more) := by
  obtain ⟨rfl, hp⟩ := takePacket_eq_some h
  rw [List.append_assoc]
  exact takePacket_append hp _

/-- `take` splits the pieces that are framed as `Framed` says off the front of a stream, whatever follows. -/
structure Splits {α : Type} (Framed : List α → Prop) (take : List α → Option (List α × List α)) : Prop where
  append : ∀ {p}, Framed p → ∀ rest, take (p ++ rest) = some (p, rest)
  more : ∀ {l p rest}, take l = some (p, rest) → ∀ more, take (l ++ more) = some (p, rest ++ more)

theorem splits_takePacket : Splits IsPacket takePacket := ⟨takePacket_append, takePacket_more⟩

/-- What a stream that carries a framed piece first has for it. -/
theorem Splits.of_prefix {α : Type} {Framed : List α → Prop} {take : List α → Option (List α × List α)}
    (ht : Splits Framed take) {l p q rest tail : List α} (h : take l = some (q, tail)) (hp : Framed p)
    (hl : l <+: p ++ rest) : q = p ∧ tail <+: rest := by
  obtain ⟨more, hmore⟩ := hl
  have heq := ht.more h more
  rw [hmore, ht.append hp] at heq
  cases heq
  exact ⟨rfl, List.prefix_append _ _⟩

/-- No packet is the beginning of another. -/
theorem IsPacket.eq_of_prefix {p q : List AxiData} (hp : IsPacket p) (hq : IsPacket q) (h : p <+: q) : p = q := by
  have htake := takePacket_append hp []
  have hl : p ++ [] <+: q ++ [] := by simpa using h
  exact (splits_takePacket.of_prefix htake hq hl).1

/-! ### The merger -/

section Buffering

variable {α : Type} (take : List α → Option (List α × List α)) (merge : Merger.Job α → List AxiData)

/-- What can be made of what was read: one job after the other, as far as their pieces are complete. -/
def mergeAll : List Bool → List Bool → List α → List AxiData → List AxiData
  | enable :: enables, empty :: empties, extras, data =>
    match if enable then take extras else some ([], extras), if empty then some ([], data) else takePacket data with
    | some (x, extras), some (d, data) => merge ⟨enable, empty, x, d⟩ ++ mergeAll enables empties extras data
    | _, _ => []
  | _, _, _, _ => []

/-- Everything that was read, and how much was written. -/
structure Buffered (α : Type) where
  enables : List Bool
  empties : List Bool
  extras : List α
  data : List AxiData
  written : ℕ
deriving DecidableEq, Repr

/-- What can be made of it. -/
def Buffered.merged (u : Buffered α) : List AxiData := mergeAll take merge u.enables u.empties u.extras u.data

/-- The merger that keeps all that it has read. -/
def bufferingOf : Merger α where
  Reg := Buffered α
  start := ⟨[], [], [], [], 0⟩
  reorder u extra empty enable data full :=
    let out := if full then none else (u.merged take merge)[u.written]?
    (⟨u.enables ++ enable.toList, u.empties ++ empty.toList, u.extras ++ extra.toList, u.data ++ data.toList,
        u.written + out.toList.length⟩,
      ⟨extra.isSome, empty.isSome, enable.isSome, data.isSome, out⟩)

variable {take merge} {Extra : List α → Prop}

/-- More input does not change what was made of it so far. -/
theorem mergeAll_prefix_append (ht : Splits Extra take) (enables enables' empties' : List Bool) (extras' : List α)
    (data' : List AxiData) : ∀ (empties : List Bool) (extras : List α) (data : List AxiData),
    mergeAll take merge enables empties extras data <+:
      mergeAll take merge (enables ++ enables') (empties ++ empties') (extras ++ extras') (data ++ data') := by
  induction enables with
  | nil => intro empties extras data; exact List.nil_prefix
  | cons enable enables ih =>
    intro empties extras data
    cases empties with
    | nil => exact List.nil_prefix
    | cons empty empties =>
      cases hx : (if enable then take extras else some ([], extras)) with
      | none =>
        simp only [mergeAll, hx]
        exact List.nil_prefix
      | some xr =>
        obtain ⟨x, xs⟩ := xr
        have hx' : (if enable then take (extras ++ extras') else some ([], extras ++ extras')) =
            some (x, xs ++ extras') := by
          cases enable with
          | true => exact ht.more hx extras'
          | false => cases hx; rfl
        cases hd : (if empty then some ([], data) else takePacket data) with
        | none =>
          simp only [mergeAll, hx, hd]
          exact List.nil_prefix
        | some dr =>
          obtain ⟨d, ds⟩ := dr
          have hd' : (if empty then some ([], data ++ data') else takePacket (data ++ data')) =
              some (d, ds ++ data') := by
            cases empty with
            | true => cases hd; rfl
            | false => exact takePacket_more hd data'
          simp only [mergeAll, List.cons_append, hx, hd, hx', hd']
          exact (List.prefix_append_right_inj _).mpr (ih empties xs ds)

/-- Of a part of the jobs, the first ones are merged. -/
theorem mergeAll_prefix (ht : Splits Extra take) (jobs : List (Merger.Job α)) (hjobs : ∀ j ∈ jobs, j.Framed Extra) :
    ∀ (enables empties : List Bool) (extras : List α) (data : List AxiData), enables <+: jobs.map Merger.Job.enable →
      empties <+: jobs.map Merger.Job.empty → extras <+: jobs.flatMap Merger.Job.extra →
      data <+: jobs.flatMap Merger.Job.data → mergeAll take merge enables empties extras data <+: jobs.flatMap merge := by
  induction jobs with
  | nil =>
    intro enables empties extras data henable _ _ _
    have hnil : enables = [] := List.prefix_nil.mp henable
    subst hnil
    exact List.nil_prefix
  | cons j jobs ih =>
    intro enables empties extras data henable hempty hextra hdata
    have hj := hjobs j (List.mem_cons_self ..)
    cases enables with
    | nil => exact List.nil_prefix
    | cons enable enables =>
      cases empties with
      | nil => exact List.nil_prefix
      | cons empty empties =>
        rw [List.map_cons, List.cons_prefix_cons] at henable hempty
        obtain ⟨rfl, henable⟩ := henable
        obtain ⟨rfl, hempty⟩ := hempty
        rw [List.flatMap_cons] at hextra hdata
        cases hx : (if j.enable then take extras else some ([], extras)) with
        | none =>
          simp only [mergeAll, hx]
          exact List.nil_prefix
        | some xr =>
          obtain ⟨x, xs⟩ := xr
          cases hd : (if j.empty then some ([], data) else takePacket data) with
          | none =>
            simp only [mergeAll, hx, hd]
            exact List.nil_prefix
          | some dr =>
            obtain ⟨d, ds⟩ := dr
            -- the pieces are those of the job
            have hxs : x = j.extra ∧ xs <+: jobs.flatMap Merger.Job.extra := by
              have hframed := hj.extra
              cases he : j.enable with
              | true =>
                rw [he, if_pos rfl] at hx hframed
                exact ht.of_prefix hx hframed hextra
              | false =>
                rw [he, if_neg Bool.false_ne_true] at hx hframed
                cases hx
                rw [hframed, List.nil_append] at hextra
                exact ⟨hframed.symm, hextra⟩
            have hds : d = j.data ∧ ds <+: jobs.flatMap Merger.Job.data := by
              have hframed := hj.data
              cases he : j.empty with
              | true =>
                rw [he, if_pos rfl] at hd hframed
                cases hd
                rw [hframed, List.nil_append] at hdata
                exact ⟨hframed.symm, hdata⟩
              | false =>
                rw [he, if_neg Bool.false_ne_true] at hd hframed
                exact splits_takePacket.of_prefix hd hframed hdata
            simp only [mergeAll, hx, hd, List.flatMap_cons]
            rw [hxs.1, hds.1]
            exact (List.prefix_append_right_inj _).mpr
              (ih (fun j' hj' => hjobs j' (List.mem_cons_of_mem _ hj')) _ _ _ _ henable hempty hxs.2 hds.2)

/-- Of all pieces of the jobs, all jobs are merged. -/
theorem mergeAll_eq (ht : Splits Extra take) (jobs : List (Merger.Job α)) (hjobs : ∀ j ∈ jobs, j.Framed Extra) :
    mergeAll take merge (jobs.map Merger.Job.enable) (jobs.map Merger.Job.empty) (jobs.flatMap Merger.Job.extra)
      (jobs.flatMap Merger.Job.data) = jobs.flatMap merge := by
  induction jobs with
  | nil => rfl
  | cons j jobs ih =>
    have hj := hjobs j (List.mem_cons_self ..)
    have hx : (if j.enable then take ((j :: jobs).flatMap Merger.Job.extra)
        else some ([], (j :: jobs).flatMap Merger.Job.extra)) = some (j.extra, jobs.flatMap Merger.Job.extra) := by
      have hframed := hj.extra
      rw [List.flatMap_cons]
      cases he : j.enable with
      | true =>
        rw [he, if_pos rfl] at hframed
        exact ht.append hframed _
      | false =>
        rw [he, if_neg Bool.false_ne_true] at hframed
        rw [hframed]
        rfl
    have hd : (if j.empty then some ([], (j :: jobs).flatMap Merger.Job.data)
        else takePacket ((j :: jobs).flatMap Merger.Job.data)) = some (j.data, jobs.flatMap Merger.Job.data) := by
      have hframed := hj.data
      rw [List.flatMap_cons]
      cases he : j.empty with
      | true =>
        rw [he, if_pos rfl] at hframed
        rw [hframed]
        rfl
      | false =>
        rw [he, if_neg Bool.false_ne_true] at hframed
        exact takePacket_append hframed _
    simp only [mergeAll, List.map_cons, hx, hd]
    rw [ih fun j' hj' => hjobs j' (List.mem_cons_of_mem _ hj')]
    rfl

/-- It keeps what it has read, and what it has written was made of that. -/
structure BufferedInv (s : Merger.State (bufferingOf take merge)) : Prop where
  enables : s.reg.enables = s.enable.past
  empties : s.reg.empties = s.empty.past
  extras : s.reg.extras = s.extra.past
  data : s.reg.data = s.data.past
  written : s.reg.written = s.out.sent.length
  out : s.out.sent <+: Buffered.merged take merge s.reg

theorem past_readIf_head {α : Type} (f : Fifo α) : (f.readIf f.head.isSome).past = f.past ++ f.head.toList :=
  past_readIf_dup f false

theorem bufferedInv_reorder (ht : Splits Extra take) {s : Merger.State (bufferingOf take merge)} (h : BufferedInv s) (full : Bool) :
    BufferedInv (Merger.step s (.reorder full)) where
  enables := by
    show s.reg.enables ++ s.enable.head.toList = (s.enable.readIf s.enable.head.isSome).past
    rw [past_readIf_head, h.enables]
  empties := by
    show s.reg.empties ++ s.empty.head.toList = (s.empty.readIf s.empty.head.isSome).past
    rw [past_readIf_head, h.empties]
  extras := by
    show s.reg.extras ++ s.extra.head.toList = (s.extra.readIf s.extra.head.isSome).past
    rw [past_readIf_head, h.extras]
  data := by
    show s.reg.data ++ s.data.head.toList = (s.data.readIf s.data.head.isSome).past
    rw [past_readIf_head, h.data]
  written := by
    show s.reg.written + _ = (s.out.put _).sent.length
    rw [Fifo.sent_put, List.length_append, h.written]
  out := by
    have hmore : Buffered.merged take merge s.reg <+: Buffered.merged take merge (Merger.step s (.reorder full)).reg :=
      mergeAll_prefix_append ht s.reg.enables _ _ _ _ _ _ _
    refine List.IsPrefix.trans ?_ hmore
    show (s.out.put (if full then none else (Buffered.merged take merge s.reg)[s.reg.written]?)).sent <+: Buffered.merged take merge s.reg
    rw [Fifo.sent_put]
    cases full with
    | true =>
      rw [if_pos rfl, Option.toList_none, List.append_nil]
      exact h.out
    | false =>
      rw [if_neg Bool.false_ne_true, h.written, List.prefix_iff_eq_take.mp h.out, List.length_take,
        Nat.min_eq_left h.out.length_le, ← List.take_add_one]
      exact List.take_prefix _ _

theorem bufferedInv_of_reachable (ht : Splits Extra take) {s : Merger.State (bufferingOf take merge)}
    (hs : Reachable Merger.step (Merger.State.init (bufferingOf take merge)) s) : BufferedInv s := by
  obtain ⟨acts, rfl⟩ := hs
  refine run_invariant (P := BufferedInv) ?_ acts _ ⟨rfl, rfl, rfl, rfl, rfl, List.nil_prefix⟩
  intro s a h
  cases a with
  | reorder full => exact bufferedInv_reorder ht h full
  | extra x => exact { h with }
  | empty e => exact { h with }
  | enable e => exact { h with }
  | data b => exact { h with }
  | takeOut =>
    exact { h with
      written := by
        show s.reg.written = (s.out.readIf true).sent.length
        rw [Fifo.sent_readIf]
        exact h.written
      out := by
        show (s.out.readIf true).sent <+: Buffered.merged take merge s.reg
        rw [Fifo.sent_readIf]
        exact h.out }

theorem BufferedInv.merged {s : Merger.State (bufferingOf take merge)} (h : BufferedInv s) :
    Buffered.merged take merge s.reg = mergeAll take merge s.enable.past s.empty.past s.extra.past s.data.past := by
  rw [← h.enables, ← h.empties, ← h.extras, ← h.data]
  rfl

theorem head_eq_none_of_readIf_head {α : Type} {f : Fifo α} (h : f.readIf f.head.isSome = f) : f.head = none := by
  cases hx : f.head with
  | none => rfl
  | some x =>
    rw [hx] at h
    rw [← hx]
    exact f.head_eq_none_of_readIf h

theorem concatenates_bufferingOf (ht : Splits Extra take) (hdisabled : ∀ j, j.enable = false → merge j = j.data)
    (hpacket : ∀ j, j.Framed Extra → j.enable = true → IsPacket (merge j)) :
    (bufferingOf take merge).Concatenates Extra merge where
  sent_prefix := by
    intro s hs jobs hjobs hdel
    have h := bufferedInv_of_reachable ht hs
    refine h.out.trans ?_
    rw [h.merged]
    exact mergeAll_prefix ht jobs hjobs _ _ _ _ (s.enable.past_prefix_sent.trans hdel.enable)
      (s.empty.past_prefix_sent.trans hdel.empty) (s.extra.past_prefix_sent.trans hdel.extra)
      (s.data.past_prefix_sent.trans hdel.data)
  sent_eq := by
    intro s hs jobs hjobs harrived hstill
    have h := bufferedInv_of_reachable ht hs
    -- nothing is left to read
    have henable := head_eq_none_of_readIf_head (congrArg Merger.State.enable hstill)
    have hempty := head_eq_none_of_readIf_head (congrArg Merger.State.empty hstill)
    have hextra := head_eq_none_of_readIf_head (congrArg Merger.State.extra hstill)
    have hdata := head_eq_none_of_readIf_head (congrArg Merger.State.data hstill)
    have hmerged : Buffered.merged take merge s.reg = jobs.flatMap merge := by
      rw [h.merged, Fifo.past_eq_sent _ henable, Fifo.past_eq_sent _ hempty, Fifo.past_eq_sent _ hextra, Fifo.past_eq_sent _ hdata, harrived.enable,
        harrived.empty, harrived.extra, harrived.data]
      exact mergeAll_eq ht jobs hjobs
    -- and nothing to write
    have hwritten : s.reg.written + ((Buffered.merged take merge s.reg)[s.reg.written]?).toList.length = s.reg.written :=
      congrArg (fun t : Merger.State (bufferingOf take merge) => t.reg.written) hstill
    have hge : (Buffered.merged take merge s.reg).length ≤ s.reg.written := by
      rw [← List.getElem?_eq_none_iff]
      cases hget : (Buffered.merged take merge s.reg)[s.reg.written]? with
      | none => rfl
      | some b =>
        rw [hget, Option.toList_some, List.length_singleton] at hwritten
        omega
    rw [← hmerged]
    apply h.out.eq_of_length_le
    rw [← h.written]
    exact hge
  merge_of_disabled := hdisabled
  isPacket_merge := hpacket

end Buffering

/-- The merger for `ntl::push_header`. -/
def buffering : Merger AxiData := bufferingOf takePacket pushHeader

theorem concatenates_buffering : buffering.Concatenates IsPacket pushHeader := by
  apply concatenates_bufferingOf splits_takePacket
  · intro j hj
    rw [pushHeader, hj, if_neg Bool.false_ne_true]
  · intro j _ hj
    rw [pushHeader, if_pos hj]
    exact isPacket_repackBeats _ _

/-! ### A suffix of four bytes -/

/-- The bytes of a trailer. -/
def trailerBytes (x : BitVec 32) : List (BitVec 8) := (List.range 4).map fun i => x.extractLsb' (8 * (3 - i)) 8

/-- The data of a packet and a trailer are concatenated. -/
def PushesSuffix (merge : Merger.Job (BitVec 32) → List AxiData) : Prop :=
  ∀ j : Merger.Job (BitVec 32), j.Framed (·.length = 1) → j.enable = true → (j.data = [] ∨ Packed j.data) →
    Packed (merge j) ∧ kept (merge j) = kept j.data ++ j.extra.flatMap trailerBytes

/-- A trailer behind the data, in bytes. -/
def pushSuffix (j : Merger.Job (BitVec 32)) : List AxiData :=
  if j.enable then repack (kept j.data ++ j.extra.flatMap trailerBytes) else j.data

theorem pushesSuffix_pushSuffix : PushesSuffix pushSuffix := by
  intro j hj henable _
  obtain ⟨x, hx⟩ : ∃ x, j.extra = [x] := by
    have hextra := hj.extra
    rw [henable, if_pos rfl] at hextra
    exact List.length_eq_one_iff.mp hextra
  rw [pushSuffix, if_pos henable]
  apply packed_repack
  intro hnil
  have hlen := congrArg List.length (List.append_eq_nil_iff.mp hnil).2
  rw [hx, List.flatMap_singleton, trailerBytes, List.length_map, List.length_range] at hlen
  cases hlen

/-- The first element of a stream. -/
def takeOne {α : Type} : List α → Option (List α × List α)
  | [] => none
  | x :: xs => some ([x], xs)

theorem splits_takeOne {α : Type} : Splits (fun l : List α => l.length = 1) takeOne where
  append := by
    intro p hp rest
    obtain ⟨x, rfl⟩ := List.length_eq_one_iff.mp hp
    rfl
  more := by
    intro l p rest h more
    cases l with
    | nil => cases h
    | cons x xs =>
      cases h
      rfl

/-- The merger for `ntl::push_suffix`. -/
def bufferingSuffix : Merger (BitVec 32) := bufferingOf takeOne pushSuffix

theorem concatenates_bufferingSuffix : bufferingSuffix.Concatenates (·.length = 1) pushSuffix := by
  apply concatenates_bufferingOf splits_takeOne
  · intro j hj
    rw [pushSuffix, hj, if_neg Bool.false_ne_true]
  · intro j _ hj
    rw [pushSuffix, if_pos hj]
    exact isPacket_repackBeats _ _

end Nica.Hls
