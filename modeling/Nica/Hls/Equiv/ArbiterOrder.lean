import Nica.Hls.Arbiter
import Mathlib.Data.List.Basic
import Mathlib.Tactic.Tauto

/-!
# The arbiter keeps metadata and data together

Each port delivers packets; `Delivers pkts s` says that what arrived on the streams of port `p` so
far is a prefix of the metadata and of the beats of the packets `pkts p`.  `Agreement pkts s` is
what the arbiter makes of them: there is one order in which packets were served, and

* the metadata written are those of the served packets in that order,
* the beats written are the first beats of the served packets in that order, and those read from a
  port are the ones among them that are its own,
* the packets served from a port are the first ones it delivered, and everything else it delivered
  is still in its peek register or its streams.

The proof keeps `Serving`: behind the beats already written come the rest of the packet `txData` is
in, then the packets whose ports are in `metaToData`.
-/

namespace Nica.Hls.Arbiter

open Nica.Lib

variable {n : Nat} {N : Ntl n}

/-! ### Served packets -/

/-- The packets of port `p` in a sequence of served packets. -/
def ofPort (p : Fin n) (served : List (Fin n × Packet)) : List Packet :=
  (served.filter (·.1 = p)).map (·.2)

/-- The beats of a sequence of served packets, each with its port. -/
def tagged (served : List (Fin n × Packet)) : List (Fin n × AxiData) :=
  served.flatMap (fun q => q.2.beats.map (q.1, ·))

/-- The beats of port `p` in a sequence of beats with their ports. -/
def beatsOf (p : Fin n) (ts : List (Fin n × AxiData)) : List AxiData :=
  (ts.filter (·.1 = p)).map (·.2)

theorem ofPort_append (p : Fin n) (xs ys : List (Fin n × Packet)) :
    ofPort p (xs ++ ys) = ofPort p xs ++ ofPort p ys := by
  rw [ofPort, List.filter_append, List.map_append]; rfl

theorem tagged_append (xs ys : List (Fin n × Packet)) :
    tagged (xs ++ ys) = tagged xs ++ tagged ys :=
  List.flatMap_append

theorem tagged_singleton (q : Fin n × Packet) : tagged [q] = q.2.beats.map (q.1, ·) := by
  rw [tagged, List.flatMap_singleton]

theorem beatsOf_append (p : Fin n) (xs ys : List (Fin n × AxiData)) :
    beatsOf p (xs ++ ys) = beatsOf p xs ++ beatsOf p ys := by
  rw [beatsOf, List.filter_append, List.map_append]; rfl

theorem beatsOf_map_same (p : Fin n) (bs : List AxiData) : beatsOf p (bs.map (p, ·)) = bs := by
  rw [beatsOf, List.filter_eq_self.mpr (by simp), List.map_map]
  exact List.map_id _

theorem beatsOf_map_other {p q : Fin n} (h : q ≠ p) (bs : List AxiData) :
    beatsOf p (bs.map (q, ·)) = [] := by
  rw [beatsOf, List.filter_eq_nil_iff.mpr (by simp [h]), List.map_nil]

/-- The beats of port `p` among those of the served packets are those of its packets. -/
theorem beatsOf_tagged (p : Fin n) (served : List (Fin n × Packet)) :
    beatsOf p (tagged served) = (ofPort p served).flatMap Packet.beats := by
  induction served with
  | nil => rfl
  | cons q served ih =>
    have hq : tagged (q :: served) = q.2.beats.map (q.1, ·) ++ tagged served := by
      rw [tagged, List.flatMap_cons]; rfl
    rw [hq, beatsOf_append, ih]
    by_cases h : q.1 = p
    · have ho : ofPort p (q :: served) = q.2 :: ofPort p served := by
        rw [ofPort, List.filter_cons_of_pos (by simpa using h), List.map_cons]; rfl
      rw [ho, List.flatMap_cons, h, beatsOf_map_same]
    · have ho : ofPort p (q :: served) = ofPort p served := by
        rw [ofPort, List.filter_cons_of_neg (by simpa using h)]; rfl
      rw [ho, beatsOf_map_other h, List.nil_append]

/-! ### The property -/

/-- What arrived on each port is a prefix of its packets, metadata and data separately. -/
def Delivers (pkts : Fin n → List Packet) (s : State n N) : Prop :=
  ∀ p, (s.tcMeta p).sent <+: (pkts p).map Packet.metadata ∧
    (s.tcData p).sent <+: (pkts p).flatMap Packet.beats

instance (pkts : Fin n → List Packet) (s : State n N) : Decidable (Delivers pkts s) :=
  inferInstanceAs (Decidable (∀ _, _ ∧ _))

/-- The outputs of the arbiter are those of one sequence of served packets. -/
def Agreement (pkts : Fin n → List Packet) (s : State n N) : Prop :=
  ∃ served : List (Fin n × Packet),
    (∀ p, ofPort p served <+: pkts p) ∧
    s.metadataOut = served.map (·.2.metadata) ∧
    (∀ p, (s.tcMeta p).sent = (ofPort p served).map Packet.metadata ++ (s.peekMetadata p).toList
      ++ (s.tcMeta p).queue) ∧
    s.out = ((tagged served).take s.out.length).map (·.2) ∧
    (∀ p, (s.tcData p).past = beatsOf p ((tagged served).take s.out.length))

/-! ### The invariant -/

/-- The state of a run with the packets served so far: `written` are the beats already copied,
`rest` the beats of the packet in transmission that are still to come, `waiting` the packets whose
data has not been started. -/
structure Serving (pkts : Fin n → List Packet) (s : State n N)
    (served waiting : List (Fin n × Packet)) (written : List (Fin n × AxiData))
    (rest : List AxiData) : Prop where
  order : ∀ p, ofPort p served <+: pkts p
  metas : s.metadataOut = served.map (·.2.metadata)
  peeked : ∀ p, (s.tcMeta p).past = (ofPort p served).map Packet.metadata
    ++ (s.peekMetadata p).toList
  split : tagged served = written ++ rest.map (s.dataSelectedPort, ·) ++ tagged waiting
  out_eq : s.out = written.map (·.2)
  past_eq : ∀ p, (s.tcData p).past = beatsOf p written
  ports : s.metaToData = waiting.map (·.1)
  waiting_data : ∀ q ∈ waiting, IsPacket q.2.beats
  idle : s.dataState = .dataIdle → rest = []
  stream : s.dataState = .dataStream → IsPacket rest

/-- The invariant of the order: some served packets account for the state. -/
def OrderInv (pkts : Fin n → List Packet) (s : State n N) : Prop :=
  ∃ served waiting written rest, Serving pkts s served waiting written rest

theorem OrderInv.agreement {pkts : Fin n → List Packet} {s : State n N} (h : OrderInv pkts s) :
    Agreement pkts s := by
  obtain ⟨served, waiting, written, rest, hs⟩ := h
  have htake : (tagged served).take s.out.length = written := by
    rw [hs.split, hs.out_eq, List.length_map, List.append_assoc, List.take_left]
  refine ⟨served, hs.order, hs.metas, ?_, ?_, ?_⟩
  · intro p
    rw [Fifo.sent, hs.peeked]
  · rw [htake, hs.out_eq]
  · intro p
    rw [htake, hs.past_eq]

theorem orderInv_init [NeZero n] (pkts : Fin n → List Packet) (sched : N.Sched) :
    OrderInv pkts (State.init sched : State n N) := by
  refine ⟨[], [], [], [], ?_, rfl, ?_, rfl, rfl, ?_, rfl, ?_, fun _ => rfl, ?_⟩
  · intro p; exact List.nil_prefix
  · intro p; rfl
  · intro p; rfl
  · intro q hq; cases hq
  · intro h; cases h

/-! ### What arrives -/

/-- The same elements were sent on the ports. -/
def SameSent (s s' : State n N) : Prop :=
  ∀ p, (s'.tcMeta p).sent = (s.tcMeta p).sent ∧ (s'.tcData p).sent = (s.tcData p).sent

theorem SameSent.of_eq {s s' : State n N} (hm : s'.tcMeta = s.tcMeta) (hd : s'.tcData = s.tcData) :
    SameSent s s' := by
  intro p
  rw [hm, hd]
  exact ⟨rfl, rfl⟩

theorem SameSent.trans {s s' s'' : State n N} (h : SameSent s s') (h' : SameSent s' s'') :
    SameSent s s'' :=
  fun p => ⟨(h' p).1.trans (h p).1, (h' p).2.trans (h p).2⟩

theorem SameSent.delivers_iff {pkts : Fin n → List Packet} {s s' : State n N} (h : SameSent s s') :
    Delivers pkts s' ↔ Delivers pkts s := by
  apply forall_congr'
  intro p
  rw [(h p).1, (h p).2]

theorem sameSent_pickNextPacket (gateway : Option GatewayCmd) (full : Bool) (s : State n N) :
    SameSent s (pickNextPacket gateway full s) := by
  have hg : SameSent s (serveGateway gateway s) := by
    unfold serveGateway regAccess
    split
    · split <;> exact .of_eq rfl rfl
    · exact .of_eq rfl rfl
  have hr : ∀ t : State n N, SameSent t (passRequest t) := by
    intro t
    unfold passRequest
    split <;> exact .of_eq rfl rfl
  have hq : ∀ t : State n N, SameSent t (queueDecision full t) := by
    intro t
    unfold queueDecision
    split_ifs
    · exact .of_eq rfl rfl
    · split <;> exact .of_eq rfl rfl
  have hu : SameSent s { serveGateway gateway s with
      sched := (N.update (serveGateway gateway s).sched).2 } := hg.trans (.of_eq rfl rfl)
  unfold pickNextPacket
  dsimp only
  split_ifs
  · exact hu
  · exact (hu.trans (hr _)).trans (hq _)

theorem sameSent_schedulePorts [NeZero n] (full : Bool) (s : State n N) :
    SameSent s (schedulePorts full s) := by
  unfold schedulePorts
  dsimp only
  split_ifs <;> exact .of_eq rfl rfl

theorem sameSent_updatePeek (s : State n N) : SameSent s (updatePeek s) := by
  refine fun p => ⟨?_, rfl⟩
  cases hm : s.peekMetadata p with
  | some m => simp only [updatePeek, hm]
  | none =>
    simp only [updatePeek, hm]
    exact Fifo.sent_pop _

theorem sameSent_txMetaMachine (f₁ f₂ : Bool) (s : State n N) :
    SameSent s (txMetaMachine f₁ f₂ s).1 := by
  unfold txMetaMachine
  split
  · split <;> exact .of_eq rfl rfl
  · split_ifs
    · exact .of_eq rfl rfl
    · dsimp only
      split
      · split_ifs <;> exact .of_eq rfl rfl
      · exact .of_eq rfl rfl

theorem sameSent_txMeta [NeZero n] (st : TxMetaStalls) (s : State n N) :
    SameSent s (txMeta st s).1 := by
  have h₁ : SameSent s { s with events := fun _ => false } := .of_eq rfl rfl
  exact h₁.trans ((sameSent_schedulePorts _ _).trans
    ((sameSent_updatePeek _).trans (sameSent_txMetaMachine _ _ _)))

theorem sameSent_txData (full : Bool) (s : State n N) : SameSent s (txData full s) := by
  unfold txData
  split
  · split <;> exact .of_eq rfl rfl
  · split_ifs
    · exact .of_eq rfl rfl
    · dsimp only
      split
      · exact .of_eq rfl rfl
      · refine fun p => ⟨rfl, ?_⟩
        show (Function.update s.tcData _ _ p).sent = _
        by_cases hp : p = s.dataSelectedPort
        · subst hp; rw [Function.update_self, Fifo.sent_pop]
        · rw [Function.update_of_ne hp]

theorem sent_prefix_update_write {α : Type} (f : Fin n → Fifo α) (p r : Fin n) (x : α) :
    (f r).sent <+: (Function.update f p ((f p).write x) r).sent := by
  by_cases hr : r = p
  · subst hr
    rw [Function.update_self, Fifo.sent_write]
    exact List.prefix_append _ _
  · rw [Function.update_of_ne hr]

/-- What the ports delivered after a step includes what they delivered before it. -/
theorem Delivers.of_step [NeZero n] {pkts : Fin n → List Packet} {s : State n N} (a : Act n)
    (h : Delivers pkts (step s a)) : Delivers pkts s := by
  cases a with
  | pickNextPacket gateway full => exact (sameSent_pickNextPacket gateway full s).delivers_iff.mp h
  | schedulePorts full => exact (sameSent_schedulePorts full s).delivers_iff.mp h
  | updatePeek => exact (sameSent_updatePeek s).delivers_iff.mp h
  | txMeta st => exact (sameSent_txMeta st s).delivers_iff.mp h
  | txData full => exact (sameSent_txData full s).delivers_iff.mp h
  | arriveMeta p m =>
    intro r
    exact ⟨(sent_prefix_update_write s.tcMeta p r m).trans (h r).1, (h r).2⟩
  | arriveData p word =>
    intro r
    exact ⟨(h r).1, (sent_prefix_update_write s.tcData p r word).trans (h r).2⟩

/-! ### The steps -/

/-- The invariant reads only the streams, the peek registers and the state of `txData`. -/
theorem OrderInv.congr {pkts : Fin n → List Packet} {s s' : State n N} (h : OrderInv pkts s)
    (hm : s'.tcMeta = s.tcMeta) (hd : s'.tcData = s.tcData) (hp : s'.peekMetadata = s.peekMetadata)
    (hmo : s'.metadataOut = s.metadataOut) (ho : s'.out = s.out)
    (hmd : s'.metaToData = s.metaToData) (hds : s'.dataState = s.dataState)
    (hsel : s'.dataSelectedPort = s.dataSelectedPort) : OrderInv pkts s' := by
  obtain ⟨served, waiting, written, rest, hs⟩ := h
  refine ⟨served, waiting, written, rest, hs.order, hmo.trans hs.metas, ?_, ?_, ho.trans hs.out_eq,
    ?_, hmd.trans hs.ports, hs.waiting_data, ?_, ?_⟩
  · rw [hm, hp]; exact hs.peeked
  · rw [hsel]; exact hs.split
  · rw [hd]; exact hs.past_eq
  · rw [hds]; exact hs.idle
  · rw [hds]; exact hs.stream

theorem orderInv_passRequest {pkts : Fin n → List Packet} {s : State n N} (h : OrderInv pkts s) :
    OrderInv pkts (passRequest s) := by
  unfold passRequest
  split
  · exact h
  · exact h.congr rfl rfl rfl rfl rfl rfl rfl rfl

theorem orderInv_queueDecision {pkts : Fin n → List Packet} {s : State n N} (full : Bool)
    (h : OrderInv pkts s) : OrderInv pkts (queueDecision full s) := by
  unfold queueDecision
  split_ifs
  · exact h
  · split
    · exact h
    · exact h.congr rfl rfl rfl rfl rfl rfl rfl rfl

theorem orderInv_serveGateway {pkts : Fin n → List Packet} {s : State n N}
    (gateway : Option GatewayCmd) (h : OrderInv pkts s) : OrderInv pkts (serveGateway gateway s) := by
  unfold serveGateway regAccess
  split
  · split
    · exact h.congr rfl rfl rfl rfl rfl rfl rfl rfl
    · exact h
  · exact h

theorem orderInv_pickNextPacket {pkts : Fin n → List Packet} {s : State n N}
    (gateway : Option GatewayCmd) (full : Bool) (h : OrderInv pkts s) :
    OrderInv pkts (pickNextPacket gateway full s) := by
  have hg := orderInv_serveGateway gateway h
  have hu : OrderInv pkts { serveGateway gateway s with
      sched := (N.update (serveGateway gateway s).sched).2 } :=
    hg.congr rfl rfl rfl rfl rfl rfl rfl rfl
  unfold pickNextPacket
  dsimp only
  split_ifs
  · exact hu
  · exact orderInv_queueDecision full (orderInv_passRequest hu)

theorem orderInv_schedulePorts [NeZero n] {pkts : Fin n → List Packet} {s : State n N}
    (full : Bool) (h : OrderInv pkts s) : OrderInv pkts (schedulePorts full s) := by
  unfold schedulePorts
  dsimp only
  split_ifs
  · exact h
  · exact h.congr rfl rfl rfl rfl rfl rfl rfl rfl
  · exact h.congr rfl rfl rfl rfl rfl rfl rfl rfl

theorem orderInv_updatePeek {pkts : Fin n → List Packet} {s : State n N} (h : OrderInv pkts s) :
    OrderInv pkts (updatePeek s) := by
  obtain ⟨served, waiting, written, rest, hs⟩ := h
  refine ⟨served, waiting, written, rest, hs.order, hs.metas, ?_, hs.split, hs.out_eq, hs.past_eq,
    hs.ports, hs.waiting_data, hs.idle, hs.stream⟩
  intro p
  have hp := hs.peeked p
  cases hm : s.peekMetadata p with
  | some m =>
    rw [hm] at hp
    simp only [updatePeek, hm]
    exact hp
  | none =>
    rw [hm, Option.toList_none, List.append_nil] at hp
    simp only [updatePeek, hm]
    cases hq : (s.tcMeta p).queue with
    | nil =>
      have hpop : (s.tcMeta p).pop = s.tcMeta p := by rw [Fifo.pop, hq]
      simp only [hpop, hp, List.head?_nil, Option.toList_none, List.append_nil]
    | cons m q =>
      simp only [Fifo.past_pop _ hq, hp, List.head?_cons, Option.toList_some]

/-- The metadata behind those of the served packets of a port is that of its next packet. -/
theorem exists_next_packet {xs ys : List Packet} {m : Metadata} (hpre : xs <+: ys)
    (h : xs.map Packet.metadata ++ [m] <+: ys.map Packet.metadata) :
    ∃ k : Packet, k.metadata = m ∧ xs ++ [k] <+: ys := by
  obtain ⟨tail, rfl⟩ := hpre
  rw [List.map_append, List.prefix_append_right_inj] at h
  cases tail with
  | nil => exact absurd h (by simp)
  | cons k tail =>
    rw [List.map_cons, List.cons_prefix_cons] at h
    refine ⟨k, h.1.symm, tail, ?_⟩
    rw [List.append_assoc, List.singleton_append]

theorem ofPort_snoc_same (p : Fin n) (served : List (Fin n × Packet)) (k : Packet) :
    ofPort p (served ++ [(p, k)]) = ofPort p served ++ [k] := by
  rw [ofPort_append]
  simp [ofPort]

theorem ofPort_snoc_other {p q : Fin n} (h : q ≠ p) (served : List (Fin n × Packet)) (k : Packet) :
    ofPort p (served ++ [(q, k)]) = ofPort p served := by
  rw [ofPort_append]
  simp [ofPort, h]

/-- Forwarding the metadata in the peek register of a port serves the next packet of the port. -/
theorem orderInv_forward {pkts : Fin n → List Packet} {s : State n N} (hdel : Delivers pkts s)
    (h : OrderInv pkts s) {p : Fin n} {m : Metadata} (hm : s.peekMetadata p = some m)
    (quota : BitVec 32) :
    OrderInv pkts { s with
      quota
      peekMetadata := Function.update s.peekMetadata p none
      metaToData := if m.emptyPacket then s.metaToData else s.metaToData ++ [p]
      metadataOut := s.metadataOut ++ [m] } := by
  obtain ⟨served, waiting, written, rest, hs⟩ := h
  have hpast : (s.tcMeta p).past = (ofPort p served).map Packet.metadata ++ [m] := by
    rw [hs.peeked p, hm, Option.toList_some]
  obtain ⟨k, hk, hnext⟩ : ∃ k : Packet, k.metadata = m ∧ ofPort p served ++ [k] <+: pkts p := by
    apply exists_next_packet (hs.order p)
    rw [← hpast]
    exact (s.tcMeta p).past_prefix_sent.trans (hdel p).1
  have hsplit : tagged (served ++ [(p, k)]) = written ++ rest.map (s.dataSelectedPort, ·)
      ++ tagged waiting ++ k.beats.map (p, ·) := by
    rw [tagged_append, tagged_singleton, hs.split]
  have hmetas : s.metadataOut ++ [m] = (served ++ [(p, k)]).map (·.2.metadata) := by
    rw [List.map_append, hs.metas, ← hk]; rfl
  have horder : ∀ q, ofPort q (served ++ [(p, k)]) <+: pkts q := by
    intro q
    by_cases hq : p = q
    · subst hq; rw [ofPort_snoc_same]; exact hnext
    · rw [ofPort_snoc_other hq]; exact hs.order q
  have hpeeked : ∀ q, (s.tcMeta q).past = (ofPort q (served ++ [(p, k)])).map Packet.metadata
      ++ (Function.update s.peekMetadata p none q).toList := by
    intro q
    by_cases hq : p = q
    · subst hq
      rw [ofPort_snoc_same, Function.update_self, Option.toList_none, List.append_nil, hpast,
        List.map_append, ← hk]
      rfl
    · rw [ofPort_snoc_other hq, Function.update_of_ne (Ne.symm hq), hs.peeked q]
  by_cases he : m.emptyPacket = true
  · -- an empty packet adds no beats and is not passed on to `txData`
    have hb : k.beats = [] := k.beats_eq_nil (by rw [hk]; exact he)
    rw [hb, List.map_nil, List.append_nil] at hsplit
    rw [if_pos he]
    exact ⟨served ++ [(p, k)], waiting, written, rest, horder, hmetas, hpeeked, hsplit, hs.out_eq,
      hs.past_eq, hs.ports, hs.waiting_data, hs.idle, hs.stream⟩
  · have hpk : IsPacket k.beats := k.isPacket_beats (by rw [hk]; exact Bool.not_eq_true _ ▸ he)
    rw [if_neg he]
    refine ⟨served ++ [(p, k)], waiting ++ [(p, k)], written, rest, horder, hmetas, hpeeked, ?_,
      hs.out_eq, hs.past_eq, ?_, ?_, hs.idle, hs.stream⟩
    · rw [hsplit, tagged_append, tagged_singleton, List.append_assoc (_ ++ _)]
    · show s.metaToData ++ [p] = _
      rw [List.map_append, hs.ports]; rfl
    · intro q hq
      rcases List.mem_append.mp hq with hq | hq
      · exact hs.waiting_data q hq
      · rw [List.mem_singleton.mp hq]; exact hpk

theorem orderInv_txMetaMachine {pkts : Fin n → List Packet} {s : State n N} (f₁ f₂ : Bool)
    (hdel : Delivers pkts s) (h : OrderInv pkts s) : OrderInv pkts (txMetaMachine f₁ f₂ s).1 := by
  unfold txMetaMachine
  split
  · split
    · exact h
    · exact h.congr rfl rfl rfl rfl rfl rfl rfl rfl
  · split_ifs with hfull
    · exact h
    · dsimp only
      cases hm : s.peekMetadata s.metaSelectedPort with
      | none => exact h.congr rfl rfl rfl rfl rfl rfl rfl rfl
      | some m =>
        dsimp only
        by_cases hq : flits N m ≤ s.quota
        · rw [if_pos hq]
          exact orderInv_forward hdel h hm _
        · rw [if_neg hq]
          exact h.congr rfl rfl rfl rfl rfl rfl rfl rfl

theorem orderInv_txMeta [NeZero n] {pkts : Fin n → List Packet} {s : State n N}
    (st : TxMetaStalls) (hdel : Delivers pkts s) (h : OrderInv pkts s) :
    OrderInv pkts (txMeta st s).1 := by
  have h₁ : OrderInv pkts { s with events := fun _ => false } :=
    h.congr rfl rfl rfl rfl rfl rfl rfl rfl
  have h₂ := orderInv_updatePeek (orderInv_schedulePorts st.txRequestsFull h₁)
  have hs₁ : SameSent s { s with events := fun _ => false } := .of_eq rfl rfl
  have hsame := (hs₁.trans (sameSent_schedulePorts st.txRequestsFull _)).trans
    (sameSent_updatePeek _)
  exact orderInv_txMetaMachine _ _ (hsame.delivers_iff.mpr hdel) h₂

/-- Starting on the next packet of `metaToData`. -/
theorem orderInv_txData_start {pkts : Fin n → List Packet} {s : State n N} (h : OrderInv pkts s)
    (hidle : s.dataState = .dataIdle) {p : Fin n} {ports : List (Fin n)}
    (hp : s.metaToData = p :: ports) :
    OrderInv pkts { s with
      metaToData := ports, dataSelectedPort := p, dataState := .dataStream } := by
  obtain ⟨served, waiting, written, rest, hs⟩ := h
  have hports := hs.ports
  rw [hp] at hports
  cases waiting with
  | nil => cases hports
  | cons q waiting =>
    obtain ⟨rfl, rfl⟩ := List.cons.inj hports
    refine ⟨served, waiting, written, q.2.beats, hs.order, hs.metas, hs.peeked, ?_, hs.out_eq,
      hs.past_eq, rfl, fun q' hq' => hs.waiting_data q' (List.mem_cons_of_mem _ hq'), ?_, ?_⟩
    · show tagged served = written ++ q.2.beats.map (q.1, ·) ++ tagged waiting
      rw [hs.split, hs.idle hidle, List.map_nil, List.append_nil, ← List.singleton_append,
        tagged_append, tagged_singleton, List.append_assoc]
    · intro hc; cases hc
    · intro _; exact hs.waiting_data q (List.mem_cons_self ..)

/-- Copying one beat of the packet in transmission. -/
theorem orderInv_txData_copy {pkts : Fin n → List Packet} {s : State n N} (hdel : Delivers pkts s)
    (h : OrderInv pkts s) (hstream : s.dataState = .dataStream) {word : AxiData}
    {q : List AxiData} (hq : (s.tcData s.dataSelectedPort).queue = word :: q)
    (txPort : Fin n → TxStats) :
    OrderInv pkts { s with
      tcData := Function.update s.tcData s.dataSelectedPort (s.tcData s.dataSelectedPort).pop
      out := s.out ++ [word]
      txPort
      dataState := if word.last then .dataIdle else .dataStream } := by
  obtain ⟨served, waiting, written, rest, hs⟩ := h
  set p := s.dataSelectedPort with hpdef
  have hpacket : IsPacket rest := hs.stream hstream
  -- the beat at the head of the port's stream is the first of the rest
  obtain ⟨b, rest', rfl⟩ : ∃ b rest', rest = b :: rest' := by
    obtain ⟨front, final, hf, -⟩ := hpacket
    cases front with
    | nil => exact ⟨final, [], hf⟩
    | cons c cs => exact ⟨c, cs ++ [final], hf⟩
  have hbeats : (s.tcData p).past ++ b :: (rest' ++ beatsOf p (tagged waiting))
      <+: (pkts p).flatMap Packet.beats := by
    have heq : (ofPort p served).flatMap Packet.beats
        = (s.tcData p).past ++ b :: (rest' ++ beatsOf p (tagged waiting)) := by
      rw [← beatsOf_tagged, hs.split, beatsOf_append, beatsOf_append, beatsOf_map_same, hs.past_eq,
        List.append_assoc, List.cons_append]
    rw [← heq]
    obtain ⟨tail, htail⟩ := hs.order p
    exact ⟨tail.flatMap Packet.beats, by rw [← List.flatMap_append, htail]⟩
  obtain rfl : word = b := (s.tcData p).head_eq hq (hdel p).2 hbeats
  refine ⟨served, waiting, written ++ [(p, word)], rest', hs.order, hs.metas, hs.peeked, ?_, ?_, ?_,
    hs.ports, hs.waiting_data, ?_, ?_⟩
  · show tagged served = written ++ [(p, word)] ++ rest'.map (p, ·) ++ tagged waiting
    rw [hs.split, List.map_cons, ← List.singleton_append, ← List.append_assoc written]
  · show s.out ++ [word] = _
    rw [List.map_append, hs.out_eq]; rfl
  · intro r
    show (Function.update s.tcData p (s.tcData p).pop r).past = _
    by_cases hr : p = r
    · subst hr
      rw [Function.update_self, Fifo.past_pop _ hq, beatsOf_append, hs.past_eq]
      exact congrArg _ (beatsOf_map_same p [word]).symm
    · have hnone : beatsOf r [(p, word)] = [] := beatsOf_map_other hr [word]
      rw [Function.update_of_ne (Ne.symm hr), beatsOf_append, hs.past_eq, hnone, List.append_nil]
  · -- the packet is over exactly when its rest is empty
    intro hd
    by_cases hlast : word.last = true
    · exact (isPacket_cons hpacket).1 hlast
    · simp [hlast] at hd
  · intro hd
    by_cases hlast : word.last = true
    · simp [hlast] at hd
    · exact (isPacket_cons hpacket).2 (Bool.not_eq_true _ ▸ hlast)

theorem orderInv_txData {pkts : Fin n → List Packet} {s : State n N} (full : Bool)
    (hdel : Delivers pkts s) (h : OrderInv pkts s) : OrderInv pkts (txData full s) := by
  unfold txData
  split
  · rename_i hidle
    split
    · exact h
    · rename_i p ports hp
      exact orderInv_txData_start h hidle hp
  · rename_i hstream
    split_ifs
    · exact h
    · dsimp only
      split
      · exact h
      · rename_i word q hq
        exact orderInv_txData_copy hdel h hstream hq _

/-- An arrival leaves everything that was read from the ports as it is. -/
theorem orderInv_arrive {pkts : Fin n → List Packet} {s : State n N} (h : OrderInv pkts s)
    {tcMeta : Fin n → Fifo Metadata} {tcData : Fin n → Fifo AxiData}
    (hm : ∀ p, (tcMeta p).past = (s.tcMeta p).past)
    (hd : ∀ p, (tcData p).past = (s.tcData p).past) :
    OrderInv pkts { s with tcMeta, tcData } := by
  obtain ⟨served, waiting, written, rest, hs⟩ := h
  refine ⟨served, waiting, written, rest, hs.order, hs.metas, ?_, hs.split, hs.out_eq, ?_,
    hs.ports, hs.waiting_data, hs.idle, hs.stream⟩
  · intro p
    rw [hm, hs.peeked]
  · intro p
    rw [hd, hs.past_eq]

theorem past_update_write {α : Type} (f : Fin n → Fifo α) (p r : Fin n) (x : α) :
    (Function.update f p ((f p).write x) r).past = (f r).past := by
  by_cases hr : r = p
  · subst hr; rw [Function.update_self, Fifo.past_write]
  · rw [Function.update_of_ne hr]

/-- The invariant survives every step, as long as the ports deliver packets. -/
theorem orderInv_step [NeZero n] {pkts : Fin n → List Packet} {s : State n N} (a : Act n)
    (hdel : Delivers pkts s) (h : OrderInv pkts s) : OrderInv pkts (step s a) := by
  cases a with
  | pickNextPacket gateway full => exact orderInv_pickNextPacket gateway full h
  | schedulePorts full => exact orderInv_schedulePorts full h
  | updatePeek => exact orderInv_updatePeek h
  | txMeta st => exact orderInv_txMeta st hdel h
  | txData full => exact orderInv_txData full hdel h
  | arriveMeta p m => exact orderInv_arrive h (past_update_write _ p · m) (fun _ => rfl)
  | arriveData p word => exact orderInv_arrive h (fun _ => rfl) (past_update_write _ p · word)

/-! ### Runs -/

theorem orderInv_of_reachable [NeZero n] {sched : N.Sched} {pkts : Fin n → List Packet} {s : State n N}
    (h : Reachable step (State.init sched) s) (hdel : Delivers pkts s) : OrderInv pkts s := by
  obtain ⟨acts, rfl⟩ := h
  revert hdel
  apply run_invariant (P := fun s => Delivers pkts s → OrderInv pkts s)
  · -- what is delivered before a step is a prefix of what is delivered after it
    intro s a ih h
    have hbefore := h.of_step a
    exact orderInv_step a hbefore (ih hbefore)
  · intro _
    exact orderInv_init pkts sched

/-- For every sequence of calls and arrivals, if every port delivers packets, then the metadata and
the data that the arbiter has written are those of the same packets in the same order. -/
theorem agreement_run [NeZero n] (sched : N.Sched) (pkts : Fin n → List Packet)
    (acts : List (Act n)) (hdel : Delivers pkts (run step (State.init sched : State n N) acts)) :
    Agreement pkts (run step (State.init sched : State n N) acts) :=
  (orderInv_of_reachable ⟨acts, rfl⟩ hdel).agreement

/-- A metadata of the given length. -/
def metadataOfLength (length : BitVec 16) : Metadata :=
  ⟨0, 1, 0, .inr ⟨0⟩, 0, 0, length⟩

/-- Port 0 delivers an empty packet and one of a single beat, port 1 a packet of two beats. -/
def twoPorts : Fin 2 → List Packet
  | 0 => [⟨metadataOfLength 0, [], by decide⟩,
      ⟨metadataOfLength 32, [⟨3, 0xffffffff, true⟩], by decide⟩]
  | 1 => [⟨metadataOfLength 40, [⟨1, 0xffffffff, false⟩, ⟨2, 0xff000000, true⟩], by decide⟩]

/-- The packets of `twoPorts` arrive, port 1 is requested and served first, and its transmission is
stalled once in the middle of the packet while port 0 is being served. -/
def twoPortsActs : List (Act 2) :=
  let go : TxMetaStalls := ⟨false, false, false⟩
  let port0 : Fin 2 := ⟨0, Nat.zero_lt_two⟩
  let port1 : Fin 2 := ⟨1, Nat.one_lt_two⟩
  [.arriveMeta port1 (metadataOfLength 40), .updatePeek, .schedulePorts false, .schedulePorts false,
    .pickNextPacket none false, .txMeta go, .txMeta go, .arriveMeta port0 (metadataOfLength 0),
    .arriveMeta port0 (metadataOfLength 32), .arriveData port0 ⟨3, 0xffffffff, true⟩,
    .arriveData port1 ⟨1, 0xffffffff, false⟩, .txData false, .txData false, .txMeta go, .txMeta go,
    .txMeta go, .pickNextPacket none false, .txMeta go, .txMeta go, .txMeta go, .txData false,
    .arriveData port1 ⟨2, 0xff000000, true⟩, .txData true, .txData false, .txData false, .txData false]

/-- The arbiter at the end of `twoPortsActs`. -/
def twoPortsEnd : State 2 (roundRobin 2 4) :=
  haveI := neZero_two
  run step (State.init []) twoPortsActs

theorem agreement_run_twoPorts :
    Agreement twoPorts twoPortsEnd ∧ twoPortsEnd.out.length = 3 ∧
      twoPortsEnd.metadataOut.map (·.length) = [40, 0, 32] := by
  have hdel : Delivers twoPorts twoPortsEnd := by decide +kernel
  refine ⟨agreement_run _ twoPorts twoPortsActs hdel, ?_, ?_⟩
  · decide +kernel
  · decide +kernel

end Nica.Hls.Arbiter
