import Nica.Hls.PassthroughWrapper
import Nica.Hls.Equiv.ArbiterOrder
import Nica.Lib.Lanes
import Nica.Lib.Owed
import Mathlib.Order.Fin.Basic

/-!
# What the raw passthrough copies

The items of a list have beats and pass raw or not.  `Fed` says that their beats and their decisions arrive at
`passthrough_wrapper`, each in order.  `Turn` says where the wrapper is among them: what it has written to the last
traffic class are the beats of the items that pass (`written`) and, for each that is over, one metadata
(`described`).  It holds in every reachable state (`exists_turn`), so

* `Turn.data_prefix` and `Turn.metas_prefix`: nothing else is ever written, and in no other order;
* `Finished.complete`: once everything has arrived and the wrapper cannot move, all of it has been written.
-/

namespace Nica.Hls.PassthroughWrapper

open Nica.Lib

variable {k : ℕ} {N : Arbiter.Ntl (k + 1)} {M : Merger AxiData}

/-! ### The streams of the last traffic class -/

section Streams

theorem sent_writeTc (keepBytes : ℕ → BitVec 32) (data : Option AxiData) (meta_ : Option Metadata)
    (e : Egress.State (k + 1) N M) (p : Fin (k + 1)) :
    ((writeTc keepBytes data meta_ e).arbiter.tcData p).sent =
        (e.arbiter.tcData p).sent ++ (if p = Fin.last k then data.toList else []) ∧
      ((writeTc keepBytes data meta_ e).arbiter.tcMeta p).sent =
        (e.arbiter.tcMeta p).sent ++ (if p = Fin.last k then meta_.toList else []) := by
  have hwrite : ∀ {α : Type} (f : Fin (k + 1) → Fifo α) (x : α),
      (Function.update f (Fin.last k) ((f (Fin.last k)).write x) p).sent =
        (f p).sent ++ if p = Fin.last k then [x] else [] := by
    intro α f x
    exact sent_putLane f (Fin.last k) (some x) p
  cases data with
  | none =>
    cases meta_ with
    | none => simp [writeTc]
    | some m => exact ⟨by simp [writeTc, Egress.step, Arbiter.step], hwrite _ m⟩
  | some b =>
    cases meta_ with
    | none => exact ⟨hwrite _ b, by simp [writeTc, Egress.step, Arbiter.step]⟩
    | some m => exact ⟨hwrite _ b, hwrite _ m⟩

/-- The other steps write nothing to the last traffic class. -/
theorem sent_of_not_ownArrival (keepBytes : ℕ → BitVec 32) {a : Egress.Act (k + 1)} (ha : ownArrival a = false)
    (e : Egress.State (k + 1) N M) :
    ((Egress.step keepBytes e a).arbiter.tcMeta (Fin.last k)).sent = (e.arbiter.tcMeta (Fin.last k)).sent ∧
      ((Egress.step keepBytes e a).arbiter.tcData (Fin.last k)).sent = (e.arbiter.tcData (Fin.last k)).sent := by
  cases a with
  | builder c => exact ⟨rfl, rfl⟩
  | arbiter a =>
    cases a with
    | pickNextPacket gateway full => exact Arbiter.sameSent_pickNextPacket gateway full e.arbiter (Fin.last k)
    | schedulePorts full => exact Arbiter.sameSent_schedulePorts full e.arbiter (Fin.last k)
    | updatePeek => exact Arbiter.sameSent_updatePeek e.arbiter (Fin.last k)
    | txMeta st => exact Arbiter.sameSent_txMeta st e.arbiter (Fin.last k)
    | txData full => exact Arbiter.sameSent_txData full e.arbiter (Fin.last k)
    | arriveMeta p m =>
      have hp : Fin.last k ≠ p := fun h => of_decide_eq_false ha h.symm
      exact ⟨congrArg Fifo.sent (Function.update_of_ne hp _ _), rfl⟩
    | arriveData p word =>
      have hp : Fin.last k ≠ p := fun h => of_decide_eq_false ha h.symm
      exact ⟨rfl, congrArg Fifo.sent (Function.update_of_ne hp _ _)⟩

end Streams

/-! ### The units behind the wrapper -/

theorem reachable_writeTc {keepBytes : ℕ → BitVec 32} {sched : N.Sched} {e : Egress.State (k + 1) N M}
    (h : Reachable (Egress.step keepBytes) (Egress.State.init M sched) e) (data : Option AxiData)
    (meta_ : Option Metadata) :
    Reachable (Egress.step keepBytes) (Egress.State.init M sched) (writeTc keepBytes data meta_ e) :=
  h.run _

theorem reachable_egress_wrapperStep {keepBytes : ℕ → BitVec 32} {sched : N.Sched} {s : State k N M}
    (h : Reachable (Egress.step keepBytes) (Egress.State.init M sched) s.egress) (full : Bool) :
    Reachable (Egress.step keepBytes) (Egress.State.init M sched) (wrapperStep keepBytes full s).egress := by
  unfold wrapperStep
  split
  · split
    · cases full with
      | true => exact h
      | false => exact reachable_writeTc h _ _
    · exact h
  · split
    · cases full with
      | true => exact h
      | false => exact reachable_writeTc h _ _
    · exact h

/-- The units behind the wrapper take steps of their own only. -/
theorem reachable_egress {keepBytes : ℕ → BitVec 32} {sched : N.Sched} {s : State k N M}
    (hs : Reachable (step keepBytes) (State.init M sched) s) :
    Reachable (Egress.step keepBytes) (Egress.State.init M sched) s.egress := by
  obtain ⟨acts, rfl⟩ := hs
  apply run_invariant (P := fun s : State k N M => Reachable (Egress.step keepBytes) (Egress.State.init M sched) s.egress)
  · intro s a h
    cases a with
    | arriveRaw w => exact h
    | arrivePass pass => exact h
    | wrapperStep full => exact reachable_egress_wrapperStep h full
    | egress a =>
      simp only [step]
      split_ifs
      · exact h
      · exact h.next a
  · exact .refl _ _

/-! ### The items -/

section Items

variable {ι : Type*} {beats : ι → List Axi4s} {pass : ι → Bool} {items : List ι}

/-- The beats that the wrapper writes for an item. -/
def written (beats : ι → List Axi4s) (pass : ι → Bool) (i : ι) : List AxiData :=
  if pass i then (beats i).map rawToData else []

/-- The metadata that the wrapper writes for an item that passes; the length has 16 bits. -/
def described (beats : ι → List Axi4s) (i : ι) : Metadata := rawMetadata (BitVec.ofNat 16 (beats i).length)

/-- Every item is a frame of at least two beats. -/
def Framed (beats : ι → List Axi4s) (items : List ι) : Prop :=
  ∀ i ∈ items, IsPacket ((beats i).map rawToData) ∧ 2 ≤ (beats i).length

/-- The beats and the decisions that arrived at the wrapper are those of the items. -/
structure Fed (beats : ι → List Axi4s) (pass : ι → Bool) (items : List ι) (s : State k N M) : Prop where
  rawIn : s.rawIn.sent <+: items.flatMap beats
  passStream : s.passStream.sent <+: items.map pass

theorem filter_pass_take_succ {j : ℕ} {i : ι} (h : items[j]? = some i) :
    (items.take (j + 1)).filter pass = (items.take j).filter pass ++ if pass i then [i] else [] := by
  rw [take_succ_eq h, List.filter_append]
  congr 1
  cases hi : pass i with
  | true => exact List.filter_cons_of_pos hi
  | false => exact List.filter_cons_of_neg (by simp [hi])

/-- What the wrapper has taken and written; `due` are the beats of its item still to come.  The metadata of an item
is written at its end. -/
structure Turn (beats : ι → List Axi4s) (pass : ι → Bool) (items : List ι) (s : State k N M) (due : List Axi4s) :
    Prop where
  owed : Owed beats items s.passStream.past.length s.rawIn.past due
  data : Owed (written beats pass) items s.passStream.past.length (s.egress.arbiter.tcData (Fin.last k)).sent
    (if s.drop then [] else due.map rawToData)
  idle : s.state = .idle → due = [] ∧ (s.egress.arbiter.tcMeta (Fin.last k)).sent =
    ((items.take s.passStream.past.length).filter pass).map (described beats)
  stream : s.state = .stream → ∃ j i, s.passStream.past.length = j + 1 ∧ items[j]? = some i ∧
    s.drop = !pass i ∧ IsPacket (due.map rawToData) ∧
    (pass i = true → s.length + BitVec.ofNat 16 due.length = BitVec.ofNat 16 (beats i).length) ∧
    (s.egress.arbiter.tcMeta (Fin.last k)).sent = ((items.take j).filter pass).map (described beats)

theorem turn_init (beats : ι → List Axi4s) (pass : ι → Bool) (items : List ι) (sched : N.Sched) :
    Turn beats pass items (State.init M sched) [] where
  owed := Owed.zero _ _
  data := Owed.zero _ _
  idle := fun _ => ⟨rfl, rfl⟩
  stream := fun h => by cases h

variable {keepBytes : ℕ → BitVec 32} {s : State k N M}

/-- The wrapper starts on an item. -/
theorem turn_start {due : List Axi4s} (h : Turn beats pass items s due) (hframed : Framed beats items)
    (hin : Fed beats pass items s) (hstate : s.state = .idle) {b : Bool} {word : Axi4s}
    (hpass : s.passStream.head = some b) (hword : s.rawIn.head = some word) :
    ∃ due', Turn beats pass items (wrapperStep keepBytes false s) due' := by
  have hlen := s.passStream.length_past_readIf_true hpass
  obtain ⟨i, hi, rfl⟩ := exists_item ((s.passStream.past_snoc_prefix_sent hpass).trans hin.passStream)
  obtain ⟨hdue, hmetas⟩ := h.idle hstate
  subst hdue
  have hdata := h.data
  rw [List.map_nil, ite_self] at hdata
  have hstart := h.owed.start hi
  obtain ⟨hpacket, htwo⟩ := hframed i (List.mem_of_getElem? hi)
  have hne : beats i ≠ [] := List.ne_nil_of_length_pos (by omega)
  obtain ⟨c, rest, hbeats⟩ := List.exists_cons_of_ne_nil hne
  rw [hbeats] at hstart
  have hc := hstart.head_eq hin.rawIn hword
  subst hc
  rw [hbeats, List.map_cons] at hpacket
  -- a frame does not end with its first beat
  have hlast : word.last = false := by
    cases hl : word.last with
    | false => rfl
    | true =>
      have hrest := (isPacket_cons hpacket).1 hl
      rw [hbeats, List.map_eq_nil_iff.mp hrest, List.length_singleton] at htwo
      omega
  have hstep : wrapperStep keepBytes false s = { s with
      passStream := s.passStream.readIf true
      rawIn := s.rawIn.readIf true
      drop := !pass i
      state := .stream
      length := if pass i then 1 else s.length
      mlxMetadata := if pass i then ⟨word.user, word.id⟩ else s.mlxMetadata
      egress := writeTc keepBytes (if pass i then some (rawToData word) else none) none s.egress } := by
    simp [wrapperStep, hstate, hpass, hword, hlast]
  rw [hstep]
  obtain ⟨hsd, hsm⟩ := sent_writeTc keepBytes (if pass i then some (rawToData word) else none) none
    s.egress (Fin.last k)
  rw [if_pos rfl] at hsd hsm
  refine ⟨rest, ?_, ?_, (by intro hc; cases hc), fun _ => ⟨s.passStream.past.length, i, hlen, hi, rfl, ?_, ?_, ?_⟩⟩
  · show Owed _ items (s.passStream.readIf true).past.length (s.rawIn.readIf true).past rest
    rw [hlen, s.rawIn.past_readIf_true hword]
    exact hstart.advance
  · show Owed _ items (s.passStream.readIf true).past.length ((writeTc _ _ _ _).arbiter.tcData _).sent _
    rw [hlen, hsd]
    have hraw := hdata.start hi
    cases hp : pass i with
    | false =>
      rw [written, hp] at hraw
      simpa using hraw
    | true =>
      rw [written, hp, if_pos rfl, hbeats, List.map_cons] at hraw
      exact hraw.advance
  · exact (isPacket_cons hpacket).2 hlast
  · intro hp
    show (if pass i then (1 : BitVec 16) else s.length) + BitVec.ofNat 16 rest.length = _
    rw [hp, if_pos rfl, hbeats, List.length_cons, BitVec.ofNat_add]
    exact BitVec.add_comm _ _
  · show ((writeTc _ _ _ _).arbiter.tcMeta _).sent = _
    rw [hsm, Option.toList_none, List.append_nil]
    exact hmetas

/-- The wrapper copies a beat of its item. -/
theorem turn_copy {due : List Axi4s} (h : Turn beats pass items s due) (hin : Fed beats pass items s)
    (hstate : s.state = .stream) {word : Axi4s} (hword : s.rawIn.head = some word) :
    ∃ due', Turn beats pass items (wrapperStep keepBytes false s) due' := by
  obtain ⟨j, i, hlen, hi, hdrop, hpacket, hlength, hmetas⟩ := h.stream hstate
  have hne : due ≠ [] := fun hnil => hpacket.ne_nil (by rw [hnil]; rfl)
  obtain ⟨b, rest, rfl⟩ := List.exists_cons_of_ne_nil hne
  have hb := h.owed.head_eq hin.rawIn hword
  subst hb
  rw [List.map_cons] at hpacket
  obtain ⟨hend, hmore⟩ := isPacket_cons hpacket
  have hstep : wrapperStep keepBytes false s = { s with
      rawIn := s.rawIn.readIf true
      state := if word.last then .idle else .stream
      length := s.length + 1
      egress := writeTc keepBytes (if s.drop then none else some (rawToData word))
        (if !s.drop && word.last then some (rawMetadata (s.length + 1)) else none) s.egress } := by
    simp [wrapperStep, hstate, hword]
  rw [hstep]
  obtain ⟨hsd, hsm⟩ := sent_writeTc keepBytes (if s.drop then none else some (rawToData word))
    (if !s.drop && word.last then some (rawMetadata (s.length + 1)) else none) s.egress (Fin.last k)
  rw [if_pos rfl] at hsd hsm
  -- the length behind the beat, for an item that passes
  have hcount : pass i = true → s.length + 1 + BitVec.ofNat 16 rest.length = BitVec.ofNat 16 (beats i).length := by
    intro hp
    rw [← hlength hp, List.length_cons, BitVec.ofNat_add, BitVec.add_assoc]
    exact congrArg (s.length + ·) (BitVec.add_comm _ _)
  have hdrop' : pass i = !s.drop := by rw [hdrop, Bool.not_not]
  refine ⟨rest, ?_, ?_, ?_, ?_⟩
  · show Owed _ items s.passStream.past.length (s.rawIn.readIf true).past rest
    rw [s.rawIn.past_readIf_true hword]
    exact h.owed.advance
  · show Owed _ items s.passStream.past.length ((writeTc _ _ _ _).arbiter.tcData _).sent _
    rw [hsd]
    have hdata := h.data
    cases hd : s.drop with
    | true =>
      rw [hd] at hdata
      simpa using hdata
    | false =>
      rw [hd] at hdata
      exact hdata.advance
  · intro hidle
    change (if word.last then WrapperState.idle else .stream) = .idle at hidle
    cases hl : word.last with
    | false => rw [hl] at hidle; cases hidle
    | true =>
      have hrest : rest = [] := List.map_eq_nil_iff.mp (hend hl)
      refine ⟨hrest, ?_⟩
      show ((writeTc _ _ _ _).arbiter.tcMeta _).sent = ((items.take s.passStream.past.length).filter pass).map _
      rw [hl] at hsm
      rw [hsm, hmetas, hlen, filter_pass_take_succ hi, List.map_append, Bool.and_true, ← hdrop']
      congr 1
      cases hp : pass i with
      | false => rfl
      | true =>
        have hsum := hcount hp
        rw [hrest] at hsum
        have hlen' : s.length + 1 = BitVec.ofNat 16 (beats i).length := (BitVec.add_zero _).symm.trans hsum
        show [rawMetadata (s.length + 1)] = [described beats i]
        rw [hlen']
        rfl
  · intro hstream
    change (if word.last then WrapperState.idle else .stream) = .stream at hstream
    cases hl : word.last with
    | true => rw [hl] at hstream; cases hstream
    | false =>
      refine ⟨j, i, hlen, hi, hdrop, hmore hl, hcount, ?_⟩
      show ((writeTc _ _ _ _).arbiter.tcMeta _).sent = _
      rw [hl] at hsm
      rw [hsm, Bool.and_false, hmetas]
      exact List.append_nil _

theorem exists_turn_wrapperStep {due : List Axi4s} (h : Turn beats pass items s due) (hframed : Framed beats items)
    (hin : Fed beats pass items s) (full : Bool) :
    ∃ due', Turn beats pass items (wrapperStep keepBytes full s) due' := by
  cases hstate : s.state with
  | idle =>
    cases hpass : s.passStream.head with
    | none => exact ⟨due, by simpa [wrapperStep, hstate, hpass] using h⟩
    | some b =>
      cases hword : s.rawIn.head with
      | none => exact ⟨due, by simpa [wrapperStep, hstate, hpass, hword] using h⟩
      | some word =>
        cases full with
        | true => exact ⟨due, by simpa [wrapperStep, hstate, hpass, hword] using h⟩
        | false => exact turn_start h hframed hin hstate hpass hword
  | stream =>
    cases hword : s.rawIn.head with
    | none => exact ⟨due, by simpa [wrapperStep, hstate, hword] using h⟩
    | some word =>
      cases full with
      | true => exact ⟨due, by simpa [wrapperStep, hstate, hword] using h⟩
      | false => exact turn_copy h hin hstate hword

/-- The steps that leave the wrapper alone. -/
theorem Turn.congr {s' : State k N M} {due : List Axi4s} (h : Turn beats pass items s due)
    (hpass : s'.passStream.past = s.passStream.past) (hraw : s'.rawIn.past = s.rawIn.past)
    (hdrop : s'.drop = s.drop) (hstate : s'.state = s.state) (hlength : s'.length = s.length)
    (hmeta : (s'.egress.arbiter.tcMeta (Fin.last k)).sent = (s.egress.arbiter.tcMeta (Fin.last k)).sent)
    (hdata : (s'.egress.arbiter.tcData (Fin.last k)).sent = (s.egress.arbiter.tcData (Fin.last k)).sent) :
    Turn beats pass items s' due where
  owed := by rw [hpass, hraw]; exact h.owed
  data := by rw [hpass, hdata, hdrop]; exact h.data
  idle := by rw [hstate, hmeta, hpass]; exact h.idle
  stream := by rw [hstate, hpass, hdrop, hlength, hmeta]; exact h.stream

theorem exists_turn_step {due : List Axi4s} (h : Turn beats pass items s due) (hframed : Framed beats items)
    (hin : Fed beats pass items s) (a : Act k) : ∃ due', Turn beats pass items (step keepBytes s a) due' := by
  cases a with
  | arriveRaw w => exact ⟨due, h.congr rfl rfl rfl rfl rfl rfl rfl⟩
  | arrivePass b => exact ⟨due, h.congr rfl rfl rfl rfl rfl rfl rfl⟩
  | wrapperStep full => exact exists_turn_wrapperStep h hframed hin full
  | egress a =>
    simp only [step]
    cases ha : ownArrival a with
    | true => exact ⟨due, h⟩
    | false =>
      obtain ⟨hmeta, hdata⟩ := sent_of_not_ownArrival keepBytes ha s.egress
      exact ⟨due, h.congr rfl rfl rfl rfl rfl hmeta hdata⟩

variable (keepBytes) in
/-- The wrapper reads its streams and never writes them. -/
theorem sent_wrapperStep (full : Bool) (s : State k N M) :
    (wrapperStep keepBytes full s).rawIn.sent = s.rawIn.sent ∧
      (wrapperStep keepBytes full s).passStream.sent = s.passStream.sent := by
  unfold wrapperStep
  split
  · split
    · cases full with
      | true => exact ⟨rfl, rfl⟩
      | false => exact ⟨Fifo.sent_readIf _ _, Fifo.sent_readIf _ _⟩
    · exact ⟨rfl, rfl⟩
  · split
    · cases full with
      | true => exact ⟨rfl, rfl⟩
      | false => exact ⟨Fifo.sent_readIf _ _, rfl⟩
    · exact ⟨rfl, rfl⟩

theorem fed_of_step {a : Act k} (h : Fed beats pass items (step keepBytes s a)) : Fed beats pass items s := by
  obtain ⟨hraw, hpass⟩ := h
  cases a with
  | arriveRaw w =>
    simp only [step, Fifo.sent_write] at hraw
    exact ⟨(List.prefix_append _ _).trans hraw, hpass⟩
  | arrivePass b =>
    simp only [step, Fifo.sent_write] at hpass
    exact ⟨hraw, (List.prefix_append _ _).trans hpass⟩
  | wrapperStep full =>
    simp only [step] at hraw hpass
    rw [(sent_wrapperStep keepBytes full s).1] at hraw
    rw [(sent_wrapperStep keepBytes full s).2] at hpass
    exact ⟨hraw, hpass⟩
  | egress a =>
    simp only [step] at hraw hpass
    split_ifs at hraw hpass
    · exact ⟨hraw, hpass⟩
    · exact ⟨hraw, hpass⟩

/-- Every reachable state of the wrapper that was fed with the items is somewhere among them. -/
theorem exists_turn {sched : N.Sched} (hs : Reachable (step keepBytes) (State.init M sched) s)
    (hframed : Framed beats items) (hin : Fed beats pass items s) : ∃ due, Turn beats pass items s due := by
  obtain ⟨acts, rfl⟩ := hs
  revert hin
  apply run_invariant (P := fun s => Fed beats pass items s → ∃ due, Turn beats pass items s due)
  · intro s a ih h
    have hbefore := fed_of_step h
    obtain ⟨due, hturn⟩ := ih hbefore
    exact exists_turn_step hturn hframed hbefore a
  · intro _
    exact ⟨[], turn_init beats pass items sched⟩

/-! ### What the last traffic class carries -/

theorem Turn.data_prefix {due : List Axi4s} (h : Turn beats pass items s due) :
    (s.egress.arbiter.tcData (Fin.last k)).sent <+: items.flatMap (written beats pass) :=
  h.data.done_prefix_pieces

theorem Turn.metas_prefix {due : List Axi4s} (h : Turn beats pass items s due) :
    (s.egress.arbiter.tcMeta (Fin.last k)).sent <+: (items.filter pass).map (described beats) := by
  have hpre : ∀ j, ((items.take j).filter pass).map (described beats) <+: (items.filter pass).map (described beats) :=
    fun j => ((List.take_prefix j items).filter _).map _
  cases hstate : s.state with
  | idle =>
    rw [(h.idle hstate).2]
    exact hpre _
  | stream =>
    obtain ⟨j, i, -, -, -, -, -, hmetas⟩ := h.stream hstate
    rw [hmetas]
    exact hpre j

/-- Everything has arrived at the wrapper and it cannot move. -/
structure Finished (beats : ι → List Axi4s) (pass : ι → Bool) (items : List ι) (s : State k N M) : Prop where
  rawIn : s.rawIn.sent = items.flatMap beats
  passStream : s.passStream.sent = items.map pass
  settled : (s.state = .idle ∧ (s.passStream.head = none ∨ s.rawIn.head = none)) ∨
    (s.state = .stream ∧ s.rawIn.head = none)

theorem Finished.complete (hdone : Finished beats pass items s) (hframed : Framed beats items) {due : List Axi4s}
    (h : Turn beats pass items s due) :
    (s.egress.arbiter.tcMeta (Fin.last k)).sent = (items.filter pass).map (described beats) ∧
      (s.egress.arbiter.tcData (Fin.last k)).sent = items.flatMap (written beats pass) := by
  -- beats cannot be due when all of them have been read
  have hread : s.rawIn.head = none → due = [] := by
    intro hnone
    have hlen := h.owed.all_prefix_pieces.length_le
    rw [List.length_append, Fifo.past_eq_sent _ hnone, hdone.rawIn] at hlen
    exact List.length_eq_zero_iff.mp (by omega)
  have hidle : s.state = .idle := by
    cases hstate : s.state with
    | idle => rfl
    | stream =>
      obtain ⟨j, i, -, -, -, hpacket, -, -⟩ := h.stream hstate
      rcases hdone.settled with ⟨hidle, -⟩ | ⟨-, hnone⟩
      · rw [hstate] at hidle
        cases hidle
      · rw [hread hnone] at hpacket
        exact absurd rfl hpacket.ne_nil
  obtain ⟨hdue, hmetas⟩ := h.idle hidle
  subst hdue
  have hall : items.length ≤ s.passStream.past.length := by
    rcases hdone.settled with ⟨-, hnone | hnone⟩ | ⟨hstate, -⟩
    · rw [Fifo.past_eq_sent _ hnone, hdone.passStream, List.length_map]
    · by_contra hlt
      -- the next item has beats, and they were read
      have hget := List.getElem?_eq_getElem (Nat.lt_of_not_le hlt)
      have howed := h.owed.start hget
      have hlen := howed.all_prefix_pieces.length_le
      rw [List.length_append, Fifo.past_eq_sent _ hnone, hdone.rawIn] at hlen
      have htwo := (hframed _ (List.mem_of_getElem? hget)).2
      omega
    · rw [hidle] at hstate
      cases hstate
  refine ⟨?_, ?_⟩
  · rw [hmetas, List.take_of_length_le hall]
  · have hdata := h.data
    rw [List.map_nil, ite_self] at hdata
    exact hdata.done_eq hall

end Items

end Nica.Hls.PassthroughWrapper
