import Nica.Hls.Arbiter
import Mathlib.Algebra.BigOperators.Group.List.Basic
import Mathlib.Tactic.Tauto

/-!
# The arbiter loses no wake-up and respects its grants

`interruptSent p` keeps port `p` from being requested again.  `Pending s p` says where the request
of such a port is on its way to being served: in `txRequests`, in the scheduler, in
`schedulerDecision`, or with `txMeta`.  `WakeInv` (a port with the bit set is pending) holds in
every reachable state, because every unit hands the port over to the next one.

For the grants, `watch` runs the arbiter beside a log of its services: what was granted, the metadata
sent since then, and what was reported to the scheduler at the end.  `LogInv` ties the quota register
to the service in progress.
-/

namespace Nica.Hls.Arbiter

open Nica.Lib

variable {n : Nat} {N : Ntl n}

/-- What the arbiter relies on in `ntl`: the calls take effect in order, a scheduled flow is active,
a call for one flow deactivates no other flow, and only active flows are returned. -/
structure Ntl.Lawful (N : Ntl n) : Prop where
  active_update : ∀ {σ q}, N.active σ q → N.active (N.update σ).2 q
  active_rpc : ∀ {σ q} cmd value flow read, N.active σ q → N.active (N.rpc σ cmd value flow read) q
  active_schedule : ∀ σ p, N.active (N.schedule σ p) p
  schedule_of_active : ∀ {σ p}, N.active σ p → N.schedule σ p = σ
  active_schedule_other : ∀ {σ p q}, q ≠ p → N.active σ q → N.active (N.schedule σ p) q
  active_updateFlow : ∀ σ p quota, N.active (N.updateFlow σ p true quota) p
  active_updateFlow_other : ∀ {σ p q} nonEmpty quota, q ≠ p → N.active σ q →
    N.active (N.updateFlow σ p nonEmpty quota) q
  nextFlow_active : ∀ {σ p quota σ'}, N.nextFlow σ = some (p, quota, σ') → N.active σ p
  active_nextFlow_other : ∀ {σ p quota σ' q}, N.nextFlow σ = some (p, quota, σ') → q ≠ p →
    N.active σ q → N.active σ' q
  align_eq : ∀ x, N.align x 32 = (x + 31) / 32 * 32

/-! ### No lost wake-up -/

/-- The port being served. -/
def Served (s : State n N) (p : Fin n) : Prop :=
  s.metaState = .newPacket ∧ s.metaSelectedPort = p

/-- The request of port `p` is on its way. -/
def Pending (s : State n N) (p : Fin n) : Prop :=
  p ∈ s.txRequests ∨ N.active s.sched p ∨ p ∈ s.schedulerDecision.map (·.port) ∨ Served s p

/-- A port that may not be requested is pending. -/
def WakeInv (s : State n N) : Prop :=
  ∀ p, s.interruptSent p = true → Pending s p

theorem wakeInv_init [NeZero n] (sched : N.Sched) : WakeInv (State.init sched : State n N) := by
  intro p h
  cases h

/-- A step that sets no bit and keeps every pending port pending keeps the invariant. -/
theorem WakeInv.of_pending {s s' : State n N} (h : WakeInv s)
    (hsent : ∀ p, s'.interruptSent p = true → s.interruptSent p = true)
    (hpend : ∀ p, s'.interruptSent p = true → Pending s p → Pending s' p) : WakeInv s' :=
  fun p hp => hpend p hp (h p (hsent p hp))

theorem wakeInv_serveGateway (hN : N.Lawful) (gateway : Option GatewayCmd) {s : State n N}
    (h : WakeInv s) : WakeInv (serveGateway gateway s) := by
  unfold serveGateway regAccess
  split
  · split
    · refine h.of_pending (fun _ hp => hp) ?_
      rintro p - (hr | ha | hd | hs)
      · exact .inl hr
      · exact .inr (.inl (hN.active_rpc _ _ _ _ ha))
      · exact .inr (.inr (.inl hd))
      · exact .inr (.inr (.inr hs))
    · exact h
  · exact h

/-- A request that leaves `txRequests` makes its port active. -/
theorem wakeInv_passRequest (hN : N.Lawful) {s : State n N} (h : WakeInv s) :
    WakeInv (passRequest s) := by
  unfold passRequest
  split
  · exact h
  · rename_i req rest hreq
    refine h.of_pending (fun _ hp => hp) ?_
    intro p _ hpend
    by_cases hp : p = req
    · subst hp
      exact .inr (.inl (hN.active_schedule _ _))
    · rcases hpend with hr | ha | hd | hs
      · rw [hreq] at hr
        exact .inl ((List.mem_cons.mp hr).resolve_left hp)
      · exact .inr (.inl (hN.active_schedule_other hp ha))
      · exact .inr (.inr (.inl hd))
      · exact .inr (.inr (.inr hs))

/-- A flow that leaves the scheduler is queued in `schedulerDecision`. -/
theorem wakeInv_queueDecision (hN : N.Lawful) (full : Bool) {s : State n N} (h : WakeInv s) :
    WakeInv (queueDecision full s) := by
  unfold queueDecision
  split_ifs
  · exact h
  · split
    · exact h
    · rename_i req quota sched hnext
      refine h.of_pending (fun _ hp => hp) ?_
      intro p _ hpend
      by_cases hp : p = req
      · subst hp
        exact .inr (.inr (.inl (by simp)))
      · rcases hpend with hr | ha | hd | hs
        · exact .inl hr
        · exact .inr (.inl (hN.active_nextFlow_other hnext hp ha))
        · refine .inr (.inr (.inl ?_))
          rw [List.map_append]
          exact List.mem_append_left _ hd
        · exact .inr (.inr (.inr hs))

theorem wakeInv_pickNextPacket (hN : N.Lawful) (gateway : Option GatewayCmd) (full : Bool)
    {s : State n N} (h : WakeInv s) : WakeInv (pickNextPacket gateway full s) := by
  have hg := wakeInv_serveGateway hN gateway h
  have hu : WakeInv { serveGateway gateway s with
      sched := (N.update (serveGateway gateway s).sched).2 } := by
    refine hg.of_pending (fun _ hp => hp) ?_
    rintro p - (hr | ha | hd | hs)
    · exact .inl hr
    · exact .inr (.inl (hN.active_update ha))
    · exact .inr (.inr (.inl hd))
    · exact .inr (.inr (.inr hs))
  unfold pickNextPacket
  dsimp only
  split_ifs
  · exact hu
  · exact wakeInv_queueDecision hN full (wakeInv_passRequest hN hu)

theorem wakeInv_schedulePorts [NeZero n] (full : Bool) {s : State n N} (h : WakeInv s) :
    WakeInv (schedulePorts full s) := by
  unfold schedulePorts
  dsimp only
  split_ifs
  · exact h
  · -- the bit is set together with the request
    intro p hp
    by_cases hlast : p = s.schedulePortsLast
    · subst hlast
      exact .inl (List.mem_append_right _ (List.mem_singleton_self _))
    · have hsent : s.interruptSent p = true := by
        rw [← hp]
        exact (Function.update_of_ne hlast _ _).symm
      rcases h p hsent with hr | ha | hd | hs
      · exact .inl (List.mem_append_left _ hr)
      · exact .inr (.inl ha)
      · exact .inr (.inr (.inl hd))
      · exact .inr (.inr (.inr hs))
  · exact h

/-- An eviction clears the bit of the port it gives up and touches no other port. -/
theorem wakeInv_evict (hN : N.Lawful) {s : State n N} (h : WakeInv s) (nonEmpty : Bool) :
    WakeInv (txMetaMachine.evict s s.metaSelectedPort nonEmpty).1 := by
  intro p hp
  have hne : p ≠ s.metaSelectedPort := by
    rintro rfl
    have hoff : (txMetaMachine.evict s s.metaSelectedPort nonEmpty).1.interruptSent
        s.metaSelectedPort = false := Function.update_self _ _ _
    rw [hoff] at hp
    cases hp
  have hsent : s.interruptSent p = true := by
    rw [← hp]
    exact (Function.update_of_ne hne _ _).symm
  rcases h p hsent with hr | ha | hd | hs
  · exact .inl hr
  · exact .inr (.inl (hN.active_updateFlow_other _ _ hne ha))
  · exact .inr (.inr (.inl hd))
  · exact absurd hs.2.symm hne

theorem wakeInv_txMetaMachine (hN : N.Lawful) (f₁ f₂ : Bool) {s : State n N} (h : WakeInv s) :
    WakeInv (txMetaMachine f₁ f₂ s).1 := by
  unfold txMetaMachine
  split
  · rename_i hidle
    split
    · exact h
    · -- the port of the decision becomes the one being served
      rename_i decision rest hdec
      refine h.of_pending (fun _ hp => hp) ?_
      rintro p - (hr | ha | hd | hs)
      · exact .inl hr
      · exact .inr (.inl ha)
      · rw [hdec, List.map_cons] at hd
        rcases List.mem_cons.mp hd with hd | hd
        · exact .inr (.inr (.inr ⟨rfl, hd.symm⟩))
        · exact .inr (.inr (.inl hd))
      · rw [Served, hidle] at hs
        cases hs.1
  · split_ifs
    · exact h
    · dsimp only
      cases hm : s.peekMetadata s.metaSelectedPort with
      | none => exact wakeInv_evict hN h false
      | some m =>
        dsimp only
        by_cases hq : flits N m ≤ s.quota
        · rw [if_pos hq]
          exact h
        · rw [if_neg hq]
          exact wakeInv_evict hN h true

theorem wakeInv_txData (full : Bool) {s : State n N} (h : WakeInv s) : WakeInv (txData full s) := by
  unfold txData
  split
  · split
    · exact h
    · exact h
  · split_ifs
    · exact h
    · dsimp only
      split
      · exact h
      · exact h

/-- Every step hands a pending port over to the next unit. -/
theorem wakeInv_step [NeZero n] (hN : N.Lawful) {s : State n N} (a : Act n) (h : WakeInv s) :
    WakeInv (step s a) := by
  cases a with
  | pickNextPacket gateway full => exact wakeInv_pickNextPacket hN gateway full h
  | schedulePorts full => exact wakeInv_schedulePorts full h
  | updatePeek => exact h
  | txMeta st =>
    have h₁ : WakeInv { s with events := fun _ => false } := h
    have h₂ : WakeInv (updatePeek (schedulePorts st.txRequestsFull
        { s with events := fun _ => false })) := wakeInv_schedulePorts st.txRequestsFull h₁
    exact wakeInv_txMetaMachine hN _ _ h₂
  | txData full => exact wakeInv_txData full h
  | arriveMeta p m => exact h
  | arriveData p word => exact h

/-! ### Grants -/

/-- A service: the decision it serves and the metadata sent in it. -/
structure Service (n : Nat) where
  decision : SchedulerCmd n
  sent : List Metadata

/-- The length of a packet in flits of 32 bytes, rounded up. -/
def flitCount (m : Metadata) : Nat :=
  (m.length.toNat + 31) / 32

/-- The flits sent in a service. -/
def Service.used (v : Service n) : Nat :=
  (v.sent.map flitCount).sum

/-- A service that is over, with the arguments of `update_flow` at its end. -/
structure Finished (n : Nat) extends Service n where
  port : Fin n
  nonEmpty : Bool
  reported : BitVec 32

/-- The services so far, and the one in progress. -/
structure ServiceLog (n : Nat) where
  finished : List (Finished n)
  current : Option (Service n)

/-- Record what a call of `txMeta` did. -/
def ServiceLog.record (log : ServiceLog n) : MetaEvent n → ServiceLog n
  | .stalled => log
  | .granted decision => { log with current := some ⟨decision, []⟩ }
  | .forwarded m => { log with current := log.current.map fun v => { v with sent := v.sent ++ [m] } }
  | .evicted port nonEmpty quota =>
    ⟨log.finished ++ (log.current.map fun v => ⟨v, port, nonEmpty, quota⟩).toList, none⟩

/-- One step of the arbiter with its log of services. -/
def watch [NeZero n] (w : State n N × ServiceLog n) (a : Act n) : State n N × ServiceLog n :=
  (step w.1 a,
    match a with
    | .txMeta st => w.2.record (txMeta st w.1).2
    | _ => w.2)

/-- Every metadata written, service by service. -/
def ServiceLog.sent (log : ServiceLog n) : List Metadata :=
  log.finished.flatMap (·.sent) ++ log.current.elim [] (·.sent)

/-- A finished service used no more than its grant and reported the rest. -/
def Finished.Respects (f : Finished n) : Prop :=
  f.port = f.decision.port ∧ f.used ≤ f.decision.quantum.toNat ∧
    f.reported.toNat = f.decision.quantum.toNat - f.used

/-- The quota register holds what is left of the grant being served. -/
structure LogInv (s : State n N) (log : ServiceLog n) : Prop where
  metas : s.metadataOut = log.sent
  respects : ∀ f ∈ log.finished, f.Respects
  idle : s.metaState = .metaIdle → log.current = none
  serving : s.metaState = .newPacket → ∃ v, log.current = some v ∧
    s.metaSelectedPort = v.decision.port ∧ s.quota.toNat + v.used = v.decision.quantum.toNat

theorem toNat_flits (hN : N.Lawful) (m : Metadata) : (flits N m).toNat = flitCount m := by
  have hlt : m.length.toNat < 2 ^ 16 := m.length.isLt
  have hsmall : (m.length.toNat + 31) / 32 * 32 < 2 ^ 32 := by omega
  rw [flits, BitVec.toNat_ushiftRight, BitVec.toNat_ofNat, hN.align_eq, Nat.mod_eq_of_lt hsmall,
    Nat.shiftRight_eq_div_pow, flitCount]
  omega

theorem logInv_init [NeZero n] (sched : N.Sched) :
    LogInv (State.init sched : State n N) ⟨[], none⟩ := by
  refine ⟨rfl, ?_, fun _ => rfl, ?_⟩
  · intro f hf; cases hf
  · intro h; cases h

/-- The invariant reads the registers of `txMeta` and the metadata written. -/
theorem LogInv.congr {s s' : State n N} {log : ServiceLog n} (h : LogInv s log)
    (hm : s'.metadataOut = s.metadataOut) (hst : s'.metaState = s.metaState)
    (hp : s'.metaSelectedPort = s.metaSelectedPort) (hq : s'.quota = s.quota) : LogInv s' log := by
  refine ⟨hm.trans h.metas, h.respects, ?_, ?_⟩
  · rw [hst]; exact h.idle
  · rw [hst, hp, hq]; exact h.serving

theorem used_append (v : Service n) (m : Metadata) :
    ({ v with sent := v.sent ++ [m] } : Service n).used = v.used + flitCount m := by
  simp [Service.used]

/-- Forwarding a metadata takes its flits from the quota, which has them. -/
theorem logInv_forward (hN : N.Lawful) {s : State n N} {log : ServiceLog n} (h : LogInv s log)
    (hst : s.metaState = .newPacket) {m : Metadata} (hq : flits N m ≤ s.quota)
    (peekMetadata : Fin n → Option Metadata) (metaToData : List (Fin n)) :
    LogInv { s with
      quota := s.quota - flits N m, peekMetadata, metaToData, metadataOut := s.metadataOut ++ [m] }
      (log.record (.forwarded m)) := by
  obtain ⟨v, hv, hport, hquota⟩ := h.serving hst
  have hle : flitCount m ≤ s.quota.toNat := by
    rw [← toNat_flits hN]
    exact BitVec.le_def.mp hq
  have hsub : (s.quota - flits N m).toNat = s.quota.toNat - flitCount m := by
    rw [BitVec.toNat_sub_of_le hq, toNat_flits hN]
  refine ⟨?_, h.respects, ?_, ?_⟩
  · show s.metadataOut ++ [m] = _
    rw [h.metas]
    simp [ServiceLog.sent, ServiceLog.record, hv]
  · intro hidle
    rw [show s.metaState = .metaIdle from hidle] at hst
    cases hst
  · intro _
    refine ⟨{ v with sent := v.sent ++ [m] }, ?_, hport, ?_⟩
    · simp [ServiceLog.record, hv]
    · rw [used_append]
      show (s.quota - flits N m).toNat + (v.used + flitCount m) = v.decision.quantum.toNat
      omega

/-- An eviction reports the quota register, which holds the rest of the grant. -/
theorem logInv_evict {s : State n N} {log : ServiceLog n} (h : LogInv s log)
    (hst : s.metaState = .newPacket) (nonEmpty : Bool) :
    LogInv (txMetaMachine.evict s s.metaSelectedPort nonEmpty).1
      (log.record (txMetaMachine.evict s s.metaSelectedPort nonEmpty).2) := by
  obtain ⟨v, hv, hport, hquota⟩ := h.serving hst
  refine ⟨?_, ?_, fun _ => rfl, ?_⟩
  · show s.metadataOut = _
    rw [h.metas]
    simp [ServiceLog.sent, ServiceLog.record, txMetaMachine.evict, hv]
  · intro f hf
    rw [txMetaMachine.evict, ServiceLog.record, hv] at hf
    rcases List.mem_append.mp hf with hf | hf
    · exact h.respects f hf
    · obtain rfl : f = ⟨v, s.metaSelectedPort, nonEmpty, s.quota⟩ := by simpa using hf
      refine ⟨hport, ?_, ?_⟩
      · show v.used ≤ v.decision.quantum.toNat
        omega
      · show s.quota.toNat = v.decision.quantum.toNat - v.used
        omega
  · intro hc; cases hc

theorem logInv_txMetaMachine (hN : N.Lawful) (f₁ f₂ : Bool) {s : State n N} {log : ServiceLog n}
    (h : LogInv s log) :
    LogInv (txMetaMachine f₁ f₂ s).1 (log.record (txMetaMachine f₁ f₂ s).2) := by
  unfold txMetaMachine
  split
  · rename_i hidle
    split
    · exact h
    · -- a new service starts with the whole grant
      rename_i decision rest hdec
      refine ⟨?_, h.respects, ?_, ?_⟩
      · show s.metadataOut = _
        rw [h.metas]
        simp [ServiceLog.sent, ServiceLog.record, h.idle hidle]
      · intro hc; cases hc
      · intro _
        exact ⟨⟨decision, []⟩, rfl, rfl, rfl⟩
  · rename_i hst
    split_ifs
    · exact h
    · dsimp only
      cases hm : s.peekMetadata s.metaSelectedPort with
      | none => exact logInv_evict h hst false
      | some m =>
        dsimp only
        by_cases hq : flits N m ≤ s.quota
        · rw [if_pos hq]
          exact logInv_forward hN h hst hq _ _
        · rw [if_neg hq]
          exact logInv_evict h hst true

theorem logInv_pickNextPacket {s : State n N} {log : ServiceLog n} (gateway : Option GatewayCmd)
    (full : Bool) (h : LogInv s log) : LogInv (pickNextPacket gateway full s) log := by
  have hg : LogInv (serveGateway gateway s) log := by
    unfold serveGateway regAccess
    split
    · split
      · exact h.congr rfl rfl rfl rfl
      · exact h
    · exact h
  have hu : LogInv { serveGateway gateway s with
      sched := (N.update (serveGateway gateway s).sched).2 } log := hg.congr rfl rfl rfl rfl
  have hr : ∀ t : State n N, LogInv t log → LogInv (passRequest t) log := by
    intro t ht
    unfold passRequest
    split
    · exact ht
    · exact ht.congr rfl rfl rfl rfl
  have hq : ∀ t : State n N, LogInv t log → LogInv (queueDecision full t) log := by
    intro t ht
    unfold queueDecision
    split_ifs
    · exact ht
    · split
      · exact ht
      · exact ht.congr rfl rfl rfl rfl
  unfold pickNextPacket
  dsimp only
  split_ifs
  · exact hu
  · exact hq _ (hr _ hu)

theorem logInv_schedulePorts [NeZero n] {s : State n N} {log : ServiceLog n} (full : Bool)
    (h : LogInv s log) : LogInv (schedulePorts full s) log := by
  unfold schedulePorts
  dsimp only
  split_ifs
  · exact h
  · exact h.congr rfl rfl rfl rfl
  · exact h.congr rfl rfl rfl rfl

theorem logInv_txData {s : State n N} {log : ServiceLog n} (full : Bool) (h : LogInv s log) :
    LogInv (txData full s) log := by
  unfold txData
  split
  · split
    · exact h
    · exact h.congr rfl rfl rfl rfl
  · split_ifs
    · exact h
    · dsimp only
      split
      · exact h
      · exact h.congr rfl rfl rfl rfl

theorem logInv_watch [NeZero n] (hN : N.Lawful) (w : State n N × ServiceLog n) (a : Act n)
    (h : LogInv w.1 w.2) : LogInv (watch w a).1 (watch w a).2 := by
  cases a with
  | pickNextPacket gateway full => exact logInv_pickNextPacket gateway full h
  | schedulePorts full => exact logInv_schedulePorts full h
  | updatePeek => exact h.congr rfl rfl rfl rfl
  | txMeta st =>
    have h₁ : LogInv { w.1 with events := fun _ => false } w.2 := h.congr rfl rfl rfl rfl
    have h₂ : LogInv (updatePeek (schedulePorts st.txRequestsFull
        { w.1 with events := fun _ => false })) w.2 :=
      (logInv_schedulePorts st.txRequestsFull h₁).congr rfl rfl rfl rfl
    exact logInv_txMetaMachine hN _ _ h₂
  | txData full => exact logInv_txData full h
  | arriveMeta p m => exact h.congr rfl rfl rfl rfl
  | arriveData p word => exact h.congr rfl rfl rfl rfl

/-! ### Runs -/

/-- A port with a metadata to send is still to be requested or pending. -/
def NoLostWakeup (s : State n N) : Prop :=
  ∀ p, (s.peekMetadata p).isSome = true → s.interruptSent p = false ∨ Pending s p

/-- Every service so far kept to its grant: the finished ones reported exactly the rest of it, and
the one in progress has not sent more than it.  The services account for all metadata written. -/
def GrantsRespected (s : State n N) (log : ServiceLog n) : Prop :=
  s.metadataOut = log.sent ∧ (∀ f ∈ log.finished, f.Respects) ∧
    ∀ v, log.current = some v → v.used ≤ v.decision.quantum.toNat

theorem WakeInv.noLostWakeup {s : State n N} (h : WakeInv s) : NoLostWakeup s := by
  intro p _
  by_cases hp : s.interruptSent p = true
  · exact .inr (h p hp)
  · exact .inl (Bool.not_eq_true _ ▸ hp)

theorem LogInv.grantsRespected {s : State n N} {log : ServiceLog n} (h : LogInv s log) :
    GrantsRespected s log := by
  refine ⟨h.metas, h.respects, ?_⟩
  intro v hv
  cases hst : s.metaState with
  | metaIdle =>
    rw [h.idle hst] at hv
    cases hv
  | newPacket =>
    obtain ⟨v', hv', -, hquota⟩ := h.serving hst
    obtain rfl : v = v' := by rw [hv] at hv'; exact Option.some.inj hv'
    omega

theorem lawful_roundRobin (n : Nat) (quantum : BitVec 32) : (roundRobin n quantum).Lawful where
  active_update h := h
  active_rpc _ _ _ _ h := h
  active_schedule := by
    intro (line : List (Fin n)) p
    show p ∈ if p ∈ line then line else line ++ [p]
    split_ifs with h
    · exact h
    · exact List.mem_append_right _ (List.mem_singleton_self p)
  schedule_of_active h := if_pos h
  active_schedule_other := by
    intro (line : List (Fin n)) p q _ (h : q ∈ line)
    show q ∈ if p ∈ line then line else line ++ [p]
    split_ifs
    · exact h
    · exact List.mem_append_left _ h
  active_updateFlow := by
    intro (line : List (Fin n)) p _
    show p ∈ if true && !line.contains p then line ++ [p] else line
    by_cases h : p ∈ line <;> simp [h]
  active_updateFlow_other := by
    intro (line : List (Fin n)) p q nonEmpty _ _ (h : q ∈ line)
    show q ∈ if nonEmpty && !line.contains p then line ++ [p] else line
    split_ifs
    · exact List.mem_append_left _ h
    · exact h
  nextFlow_active := by
    rintro (_ | ⟨p, line⟩) q quota line' h
    · cases h
    · cases h
      exact List.mem_cons_self
  active_nextFlow_other := by
    rintro (_ | ⟨p, line⟩) q quota line' r h hne hr
    · cases h
    · cases h
      exact (List.mem_cons.mp hr).resolve_left hne
  align_eq x := rfl

/-- A port with a packet of 40 bytes and one of 100 bytes is granted 4 flits: the first packet is
sent, the second does not fit, and the port is evicted with 2 flits left. -/
def evictionActs : List (Act 2) :=
  let go : TxMetaStalls := ⟨false, false, false⟩
  let port1 : Fin 2 := ⟨1, Nat.one_lt_two⟩
  [.arriveMeta port1 ⟨0, 1, 0, .inr ⟨0⟩, 0, 0, 40⟩, .arriveMeta port1 ⟨0, 1, 0, .inr ⟨0⟩, 0, 0, 100⟩,
    .updatePeek, .schedulePorts false, .schedulePorts false, .pickNextPacket none false,
    .txMeta go, .txMeta go, .txMeta go]

/-- The arbiter and its log at the end of `evictionActs`. -/
def evictionEnd : State 2 (roundRobin 2 4) × ServiceLog 2 :=
  haveI := neZero_two
  run watch (State.init [], ⟨[], none⟩) evictionActs

end Nica.Hls.Arbiter
