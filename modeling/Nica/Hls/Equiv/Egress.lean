import Nica.Hls.Egress
import Nica.Hls.Equiv.ArbiterOrder
import Nica.Hls.Equiv.ArbiterGrant
import Nica.Hls.Equiv.Builder

/-!
# What leaves the network port

The packets that leave are those of one order of service (`Departs`): each port has its packets in their order
in it, and what is transmitted for them follows one after the other.  When nothing is left to do, every packet
that arrived at a port has left.
-/

namespace Nica.Hls

open Nica.Lib

namespace Arbiter

variable {n : ℕ} {N : Ntl n}

/-! ### The outputs of the arbiter only grow -/

/-- The outputs of `s` come first in those of `s'`. -/
def Grows (s s' : State n N) : Prop := s.metadataOut <+: s'.metadataOut ∧ s.out <+: s'.out

theorem Grows.of_eq {s s' : State n N} (hmetas : s'.metadataOut = s.metadataOut) (hout : s'.out = s.out) :
    Grows s s' := by
  rw [Grows, hmetas, hout]
  exact ⟨List.prefix_refl _, List.prefix_refl _⟩

theorem Grows.trans {s s' s'' : State n N} (h : Grows s s') (h' : Grows s' s'') : Grows s s'' :=
  ⟨h.1.trans h'.1, h.2.trans h'.2⟩

theorem grows_pickNextPacket (gateway : Option GatewayCmd) (full : Bool) (s : State n N) :
    Grows s (pickNextPacket gateway full s) := by
  have hgate : Grows s (serveGateway gateway s) := by
    unfold serveGateway regAccess
    split
    · split <;> exact .of_eq rfl rfl
    · exact .of_eq rfl rfl
  have hrequest : ∀ t : State n N, Grows t (passRequest t) := by
    intro t
    unfold passRequest
    split <;> exact .of_eq rfl rfl
  have hdecision : ∀ t : State n N, Grows t (queueDecision full t) := by
    intro t
    unfold queueDecision
    split_ifs
    · exact .of_eq rfl rfl
    · split <;> exact .of_eq rfl rfl
  have hupdate : Grows s { serveGateway gateway s with
      sched := (N.update (serveGateway gateway s).sched).2 } := hgate.trans (.of_eq rfl rfl)
  unfold pickNextPacket
  dsimp only
  split_ifs
  · exact hupdate
  · exact (hupdate.trans (hrequest _)).trans (hdecision _)

theorem grows_schedulePorts [NeZero n] (full : Bool) (s : State n N) : Grows s (schedulePorts full s) := by
  unfold schedulePorts
  dsimp only
  split_ifs <;> exact .of_eq rfl rfl

theorem grows_txMetaMachine (f₁ f₂ : Bool) (s : State n N) : Grows s (txMetaMachine f₁ f₂ s).1 := by
  unfold txMetaMachine
  split
  · split <;> exact .of_eq rfl rfl
  · split_ifs
    · exact .of_eq rfl rfl
    · dsimp only
      cases hm : s.peekMetadata s.metaSelectedPort with
      | none => exact .of_eq rfl rfl
      | some m =>
        dsimp only
        by_cases hq : flits N m ≤ s.quota
        · rw [if_pos hq]
          exact ⟨List.prefix_append _ _, List.prefix_refl _⟩
        · rw [if_neg hq]
          exact .of_eq rfl rfl

theorem grows_txData (full : Bool) (s : State n N) : Grows s (txData full s) := by
  unfold txData
  split
  · split <;> exact .of_eq rfl rfl
  · split_ifs
    · exact .of_eq rfl rfl
    · dsimp only
      split
      · exact .of_eq rfl rfl
      · exact ⟨List.prefix_refl _, List.prefix_append _ _⟩

theorem grows_step [NeZero n] (s : State n N) (a : Act n) : Grows s (step s a) := by
  cases a with
  | pickNextPacket gateway full => exact grows_pickNextPacket gateway full s
  | schedulePorts full => exact grows_schedulePorts full s
  | updatePeek => exact .of_eq rfl rfl
  | txMeta st =>
    have hports : Grows s (schedulePorts st.txRequestsFull { s with events := fun _ => false }) :=
      (Grows.of_eq rfl rfl : Grows s { s with events := fun _ => false }).trans (grows_schedulePorts _ _)
    have hpeek : Grows s (updatePeek (schedulePorts st.txRequestsFull { s with events := fun _ => false })) :=
      hports.trans (.of_eq rfl rfl)
    exact hpeek.trans (grows_txMetaMachine _ _ _)
  | txData full => exact grows_txData full s
  | arriveMeta p m => exact .of_eq rfl rfl
  | arriveData p word => exact .of_eq rfl rfl

theorem wakeInv_of_reachable [NeZero n] (hN : N.Lawful) {sched : N.Sched} {s : State n N}
    (h : Reachable step (State.init sched) s) : WakeInv s := by
  obtain ⟨acts, rfl⟩ := h
  exact run_invariant (fun _ a hs => wakeInv_step hN a hs) acts _ (wakeInv_init sched)

/-! ### An arbiter with nothing to do -/

/-- What the arbiter relies on in the scheduler besides `Ntl.Lawful`: while a flow is active, one is returned. -/
def Ntl.WorkConserving (N : Ntl n) : Prop := ∀ {σ p}, N.active σ p → N.nextFlow σ ≠ none

/-- No unit finds anything to do: no metadata to fetch, no port to request, no request and no decision to serve,
and no beat to copy. -/
structure Quiet (s : State n N) : Prop where
  updatePeek : ∀ p, s.peekMetadata p = none → (s.tcMeta p).queue = []
  schedulePorts : ∀ p, s.peekMetadata p ≠ none → s.interruptSent p = true
  txRequests : s.txRequests = []
  nextFlow : N.nextFlow s.sched = none
  metaState : s.metaState = .metaIdle
  schedulerDecision : s.schedulerDecision = []
  txData : (s.dataState = .dataIdle ∧ s.metaToData = []) ∨
    (s.dataState = .dataStream ∧ (s.tcData s.dataSelectedPort).queue = [])

/-- Then no metadata waits at a port. -/
theorem Quiet.empty (hN : N.WorkConserving) {s : State n N} (h : Quiet s) (hwake : WakeInv s) (p : Fin n) :
    s.peekMetadata p = none ∧ (s.tcMeta p).queue = [] := by
  have hpeek : s.peekMetadata p = none := by
    by_contra hp
    -- its request is on its way, and there is nowhere it could be
    rcases hwake p (h.schedulePorts p hp) with hr | ha | hd | hs
    · rw [h.txRequests] at hr
      cases hr
    · exact hN ha h.nextFlow
    · rw [h.schedulerDecision] at hd
      cases hd
    · rw [Served, h.metaState] at hs
      cases hs.1
  exact ⟨hpeek, h.updatePeek p hpeek⟩

/-- What arrived at the ports is all of their packets. -/
def Arrived (pkts : Fin n → List Packet) (s : State n N) : Prop :=
  ∀ p, (s.tcMeta p).sent = (pkts p).map Packet.metadata ∧ (s.tcData p).sent = (pkts p).flatMap Packet.beats

/-- When everything has arrived and nothing is left to do, every packet was served. -/
theorem Serving.complete (hN : N.WorkConserving) {pkts : Fin n → List Packet} {s : State n N}
    {served waiting : List (Fin n × Packet)} {written : List (Fin n × AxiData)} {rest : List AxiData}
    (hs : Serving pkts s served waiting written rest) (hwake : WakeInv s) (hquiet : Quiet s)
    (harrived : Arrived pkts s) :
    (∀ p, ofPort p served = pkts p) ∧ s.out = served.flatMap (·.2.beats) := by
  have hports : ∀ p, ofPort p served = pkts p := by
    intro p
    obtain ⟨hpeek, hqueue⟩ := hquiet.empty hN hwake p
    have hpast := hs.peeked p
    rw [hpeek, Option.toList_none, List.append_nil] at hpast
    have hsent := (harrived p).1
    rw [Fifo.sent, hqueue, List.append_nil, hpast] at hsent
    apply (hs.order p).eq_of_length
    have hlen := congrArg List.length hsent
    rwa [List.length_map, List.length_map] at hlen
  refine ⟨hports, ?_⟩
  have hall : (tagged served).map Prod.snd = served.flatMap (·.2.beats) := by
    rw [tagged, List.map_flatMap]
    apply List.flatMap_congr
    intro q _
    rw [List.map_map]
    exact List.map_id _
  have hdone : rest = [] ∧ waiting = [] := by
    rcases hquiet.txData with ⟨hidle, hempty⟩ | ⟨hstream, hempty⟩
    · have hw := hs.ports
      rw [hempty] at hw
      exact ⟨hs.idle hidle, List.map_eq_nil_iff.mp hw.symm⟩
    · -- the beats that are due have all been read
      exfalso
      have hsplit := congrArg (beatsOf s.dataSelectedPort) hs.split
      rw [beatsOf_append, beatsOf_append, beatsOf_map_same, beatsOf_tagged, hports, ← hs.past_eq,
        ← (harrived s.dataSelectedPort).2, Fifo.sent, hempty, List.append_nil] at hsplit
      have hlen := congrArg List.length hsplit
      rw [List.length_append, List.length_append] at hlen
      have hpos := List.length_pos_iff.mpr (hs.stream hstream).ne_nil
      omega
  have hsplit := hs.split
  rw [hdone.1, hdone.2, List.map_nil, List.append_nil] at hsplit
  have hnil : tagged ([] : List (Fin n × Packet)) = [] := rfl
  rw [hnil, List.append_nil] at hsplit
  rw [hs.out_eq, ← hsplit, hall]

end Arbiter

namespace Egress

variable {n : ℕ} [NeZero n] {N : Arbiter.Ntl n} {M : Merger AxiData} {keepBytes : ℕ → BitVec 32}
  {merge : Merger.Job AxiData → List AxiData}

/-! ### The two units as one -/

/-- Each unit takes its own steps, and what the arbiter has written is what arrived at the builder. -/
structure Linked (keepBytes : ℕ → BitVec 32) (sched : N.Sched) (s : State n N M) : Prop where
  arbiter : Reachable Arbiter.step (Arbiter.State.init sched) s.arbiter
  builder : Reachable (Builder.step keepBytes) (Builder.State.init M) s.builder
  metas : s.builder.headerIn.sent = s.arbiter.metadataOut
  data : s.builder.merge.data.sent = s.arbiter.out

theorem sent_feed (keepBytes : ℕ → BitVec 32) (metas : List Metadata) (beats : List AxiData)
    (b : Builder.State M) :
    (feed keepBytes metas beats b).headerIn.sent = b.headerIn.sent ++ metas ∧
      (feed keepBytes metas beats b).merge.data.sent = b.merge.data.sent ++ beats := by
  have hmetas : ∀ (ms : List Metadata) (b : Builder.State M),
      (run (Builder.step keepBytes) b (ms.map .arriveMeta)).headerIn.sent = b.headerIn.sent ++ ms ∧
        (run (Builder.step keepBytes) b (ms.map .arriveMeta)).merge = b.merge := by
    intro ms
    induction ms with
    | nil => intro b; exact ⟨(List.append_nil _).symm, rfl⟩
    | cons m ms ih =>
      intro b
      obtain ⟨h₁, h₂⟩ := ih { b with headerIn := b.headerIn.write m }
      refine ⟨h₁.trans ?_, h₂⟩
      rw [Fifo.sent_write, List.append_assoc, List.singleton_append]
  have hbeats : ∀ (ds : List AxiData) (b : Builder.State M),
      (run (Builder.step keepBytes) b (ds.map .arriveData)).merge.data.sent = b.merge.data.sent ++ ds ∧
        (run (Builder.step keepBytes) b (ds.map .arriveData)).headerIn = b.headerIn := by
    intro ds
    induction ds with
    | nil => intro b; exact ⟨(List.append_nil _).symm, rfl⟩
    | cons d ds ih =>
      intro b
      obtain ⟨h₁, h₂⟩ := ih { b with merge := { b.merge with data := b.merge.data.write d } }
      refine ⟨h₁.trans ?_, h₂⟩
      rw [Fifo.sent_write, List.append_assoc, List.singleton_append]
  obtain ⟨h₁, h₂⟩ := hmetas metas b
  obtain ⟨h₃, h₄⟩ := hbeats beats (run (Builder.step keepBytes) b (metas.map .arriveMeta))
  rw [feed, run_append, h₃, h₄, h₁, h₂]
  exact ⟨rfl, rfl⟩

theorem linked_init (keepBytes : ℕ → BitVec 32) (sched : N.Sched) :
    Linked keepBytes sched (State.init M sched) :=
  ⟨.refl _ _, .refl _ _, rfl, rfl⟩

theorem append_drop_of_prefix {α : Type} {xs ys : List α} (h : xs <+: ys) : xs ++ ys.drop xs.length = ys := by
  obtain ⟨zs, rfl⟩ := h
  rw [List.drop_left]

theorem linked_step {sched : N.Sched} {s : State n N M} (h : Linked keepBytes sched s) (a : Act n) :
    Linked keepBytes sched (step keepBytes s a) := by
  cases a with
  | arbiter a =>
    obtain ⟨hmetas, hout⟩ := Arbiter.grows_step s.arbiter a
    obtain ⟨hm, hd⟩ := sent_feed keepBytes
      ((Arbiter.step s.arbiter a).metadataOut.drop s.arbiter.metadataOut.length)
      ((Arbiter.step s.arbiter a).out.drop s.arbiter.out.length) s.builder
    exact {
      arbiter := h.arbiter.next a
      builder := h.builder.run _
      metas := by
        refine hm.trans ?_
        rw [h.metas]
        exact append_drop_of_prefix hmetas
      data := by
        refine hd.trans ?_
        rw [h.data]
        exact append_drop_of_prefix hout }
  | builder c =>
    obtain ⟨hm, hd⟩ := Builder.sent_call keepBytes s.builder c
    exact {
      arbiter := h.arbiter
      builder := h.builder.next (.call c)
      metas := hm.trans h.metas
      data := hd.trans h.data }

theorem linked_of_reachable {sched : N.Sched} {s : State n N M}
    (h : Reachable (step keepBytes) (State.init M sched) s) : Linked keepBytes sched s := by
  obtain ⟨acts, rfl⟩ := h
  exact run_invariant (P := Linked keepBytes sched) (fun _ a hs => linked_step hs a) acts _
    (linked_init keepBytes sched)

/-! ### Departures -/

/-- The packets leave in the order `served`: those of a port in the order of the port, one after the other on the
network port; and all of them once nothing is left to do. -/
structure Departs (keepBytes : ℕ → BitVec 32) (merge : Merger.Job AxiData → List AxiData)
    (pkts : Fin n → List Packet) (s : State n N M) (served : List (Fin n × Packet)) : Prop where
  order : ∀ p, Arbiter.ofPort p served <+: pkts p
  out : s.builder.out <+: served.flatMap fun q => Builder.transmitted keepBytes merge q.2
  complete : Arbiter.Quiet s.arbiter → Builder.Settled keepBytes s.builder → Arbiter.Arrived pkts s.arbiter →
    (∀ p, Arbiter.ofPort p served = pkts p) ∧
      s.builder.out = served.flatMap fun q => Builder.transmitted keepBytes merge q.2

theorem exists_departs (hM : M.Concatenates IsPacket merge) (hN : N.Lawful) (hwork : N.WorkConserving)
    {sched : N.Sched} {s : State n N M} (hs : Reachable (step keepBytes) (State.init M sched) s)
    {pkts : Fin n → List Packet} (hsend : ∀ p, ∀ k ∈ pkts p, Builder.Sendable k)
    (hdel : Arbiter.Delivers pkts s.arbiter) : ∃ served, Departs keepBytes merge pkts s served := by
  have hlink := linked_of_reachable hs
  have hwake := Arbiter.wakeInv_of_reachable hN hlink.arbiter
  obtain ⟨served, waiting, written, rest, hserve⟩ := Arbiter.orderInv_of_reachable hlink.arbiter hdel
  have hserved : ∀ k ∈ served.map Prod.snd, Builder.Sendable k := by
    intro k hk
    obtain ⟨⟨p, k⟩, hq, rfl⟩ := List.mem_map.mp hk
    have hmem : k ∈ Arbiter.ofPort p served :=
      List.mem_map.mpr ⟨(p, k), List.mem_filter.mpr ⟨hq, decide_eq_true rfl⟩, rfl⟩
    exact hsend p k ((hserve.order p).subset hmem)
  -- what the builder gets are the packets in the order of service
  have hmetas : s.builder.headerIn.sent = (served.map Prod.snd).map Packet.metadata := by
    rw [hlink.metas, hserve.metas, List.map_map]
    rfl
  have hdata : s.builder.merge.data.sent <+: (served.map Prod.snd).flatMap Packet.beats := by
    have htagged : (Arbiter.tagged served).map Prod.snd = (served.map Prod.snd).flatMap Packet.beats := by
      rw [Arbiter.tagged, List.map_flatMap, List.flatMap_map]
      apply List.flatMap_congr
      intro q _
      rw [List.map_map]
      exact List.map_id _
    rw [hlink.data, hserve.out_eq, ← htagged, hserve.split, List.map_append, List.map_append, List.append_assoc]
    exact List.prefix_append _ _
  have hbuild : Builder.Delivers (served.map Prod.snd) s.builder := ⟨hmetas ▸ List.prefix_refl _, hdata⟩
  have hinv := Builder.inv_of_reachable hM hserved hlink.builder hbuild
  have hout := hinv.out_prefix hM hserved hbuild
  rw [List.flatMap_map] at hout
  refine ⟨served, hserve.order, hout, ?_⟩
  intro hquiet hset harrived
  obtain ⟨hports, hall⟩ := hserve.complete hwork hwake hquiet harrived
  refine ⟨hports, ?_⟩
  have hdone := hinv.out_eq hM hserved hset hmetas (by rw [hlink.data, hall, List.flatMap_map])
  rwa [List.flatMap_map] at hdone

end Egress

end Nica.Hls
