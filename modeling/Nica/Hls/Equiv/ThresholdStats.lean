import Nica.Hls.Equiv.ThresholdPipeline

/-!
# What the threshold ikernel forwards and counts

* `netIngressCall_cases`: a call of `net_ingress` takes a packet, with the answer of `can_transmit`, or leaves the
  streams as they are;
* `judgeInv_step`: the decisions, the outputs and the contexts are those of the packets that were taken and of the
  answers;
* `filtered_run`: in every run with a constant configuration, what is forwarded is decided for each packet by its own
  value, and the counters of an ikernel are those of its own packets.
-/

namespace Nica.Hls.Threshold

open Nica.Lib

variable {N : ContextManager ThresholdContext}

/-! ### What becomes of a packet -/

/-- A packet, and what `can_transmit` answered when it was taken. -/
abbrev Judged := Packet × Bool

section Judged

variable (config : IkernelId → ThresholdContext)

/-- The value of a packet with data: bytes 14 to 17. -/
def Judged.value (x : Judged) : BitVec 32 := (packetValue x.1).getD 0

/-- The context of its ikernel. -/
def Judged.context (x : Judged) : ThresholdContext := config x.1.metadata.ikernelId

/-- A packet is forwarded if its value is at least the threshold of its ikernel and there is room for it. -/
def Judged.forwarded (x : Judged) : Bool := (x.context config).thresholdValue ≤ x.value && x.2

/-- The metadata of a packet that is forwarded. -/
def Judged.outMetadata (x : Judged) : Metadata :=
  if (x.context config).ringId ≠ 0 then
    { x.1.metadata with ringId := (x.context config).ringId, var := .inr ⟨1⟩, length := 4 }
  else x.1.metadata

/-- The data of a packet that is forwarded: on a custom ring, the value alone. -/
def Judged.outBeats (x : Judged) : List AxiData :=
  if (x.context config).ringId ≠ 0 then [valueBeat x.value] else x.1.beats

/-- The decision for `egress`. -/
def Judged.decision (x : Judged) : Decision := ⟨x.value, (x.context config).ringId⟩

theorem egressBeats_decision (x : Judged) : egressBeats (x.1, x.decision config) = x.outBeats config := by
  unfold egressBeats Judged.outBeats
  by_cases hring : (x.context config).ringId = 0
  · rw [if_neg (not_not.mpr hring)]
    exact if_pos hring
  · rw [if_pos hring]
    exact if_neg hring

/-- What a packet does to the context of its ikernel. -/
def Judged.count (c : ThresholdContext) (x : Judged) : ThresholdContext :=
  c.updateStats x.value (!x.forwarded config) (!x.2)

end Judged

/-- What `can_transmit` answers in a call of `net_ingress` that takes a packet. -/
def transmits (s : State N) : Act → List Bool
  | .netIngress none tc full =>
    match s.credits.update.1, s.netMetadata.head, s.parsed.head with
    | false, some m, some _ =>
      if full then [] else [s.credits.canTransmit tc m.ikernelId.toNat (N.get s.contexts m.ikernelId).ringId 4 .HOST]
    | _, _, _ => []
  | _ => []

/-- The configuration is held constant: the commands of the gateway read registers, or have an address that is none. -/
def ReadsOnly : Act → Prop
  | .netIngress (some c) _ _ => c.read = true ∨ ThresholdContext.Register.ofAddress c.address = none
  | _ => True

/-- A call of `net_ingress` takes a packet, or leaves everything as it is but for the credits. -/
theorem netIngressCall_cases (s : State N) (cmd : Option GatewayCmd) (tc : TcPipelineDataCounts) (full : Bool)
    (hread : ReadsOnly (.netIngress cmd tc full)) :
    (transmits s (.netIngress cmd tc full) = [] ∧
      ∃ credits, netIngressCall cmd tc full s = { s with credits := credits }) ∨
    ∃ m v, s.netMetadata.head = some m ∧ s.parsed.head = some v ∧
      transmits s (.netIngress cmd tc full) =
        [s.credits.canTransmit tc m.ikernelId.toNat (N.get s.contexts m.ikernelId).ringId 4 .HOST] ∧
      netIngressCall cmd tc full s = ingress tc m v s := by
  cases cmd with
  | some c =>
    left
    refine ⟨rfl, s.credits, ?_⟩
    have hsame : (rpc N s.contexts c.address c.v c.id c.read).2.2 = s.contexts := by
      unfold rpc
      rcases hread with hread | hread
      · cases ThresholdContext.Register.ofAddress c.address with
        | none => rfl
        | some r => simp [hread]
      · rw [hread]
    simp only [netIngressCall, hsame]
  | none =>
    unfold netIngressCall transmits
    rcases s.credits.update with ⟨busy, credits⟩
    cases busy with
    | true => exact .inl ⟨rfl, credits, rfl⟩
    | false =>
      cases hm : s.netMetadata.head with
      | none => exact .inl ⟨rfl, s.credits, rfl⟩
      | some m =>
        cases hv : s.parsed.head with
        | none => exact .inl ⟨rfl, s.credits, rfl⟩
        | some v =>
          cases full with
          | true => exact .inl ⟨rfl, s.credits, rfl⟩
          | false => exact .inr ⟨m, v, rfl, rfl, rfl, rfl⟩

/-! ### The counters -/

section Counters

variable (config : IkernelId → ThresholdContext) (c : ThresholdContext) (x : Judged) (xs : List Judged)

theorem min_count : (x.count config c).min.toNat = min c.min.toNat x.value.toNat := by
  unfold Judged.count ThresholdContext.updateStats
  dsimp only
  split
  · next h =>
    rw [BitVec.lt_def] at h
    omega
  · next h =>
    rw [BitVec.lt_def] at h
    omega

theorem max_count : (x.count config c).max.toNat = max c.max.toNat x.value.toNat := by
  unfold Judged.count ThresholdContext.updateStats
  dsimp only
  split
  · next h =>
    rw [BitVec.lt_def] at h
    omega
  · next h =>
    rw [BitVec.lt_def] at h
    omega

/-- The packets leave the configuration alone. -/
theorem foldl_count_config : (xs.foldl (fun c x => x.count config c) c).thresholdValue = c.thresholdValue ∧
    (xs.foldl (fun c x => x.count config c) c).ringId = c.ringId := by
  induction xs generalizing c with
  | nil => exact ⟨rfl, rfl⟩
  | cons x xs ih => exact ih (x.count config c)

theorem foldl_count_min : (xs.foldl (fun c x => x.count config c) c).min.toNat =
    (xs.map fun x => x.value.toNat).foldl min c.min.toNat := by
  induction xs generalizing c with
  | nil => rfl
  | cons x xs ih => rw [List.foldl_cons, ih, List.map_cons, List.foldl_cons, min_count]

theorem foldl_count_max : (xs.foldl (fun c x => x.count config c) c).max.toNat =
    (xs.map fun x => x.value.toNat).foldl max c.max.toNat := by
  induction xs generalizing c with
  | nil => rfl
  | cons x xs ih => rw [List.foldl_cons, ih, List.map_cons, List.foldl_cons, max_count]

theorem foldl_count_sum : (xs.foldl (fun c x => x.count config c) c).sum =
    c.sum + BitVec.ofNat 64 (xs.map fun x => x.value.toNat).sum := by
  induction xs generalizing c with
  | nil => simp
  | cons x xs ih =>
    have hone : (x.count config c).sum = c.sum + BitVec.ofNat 64 x.value.toNat := by
      rw [BitVec.ofNat_toNat]
      rfl
    rw [List.foldl_cons, ih, hone, List.map_cons, List.sum_cons, BitVec.ofNat_add, BitVec.add_assoc]

theorem ofNat_count_cons (p : Judged → Bool) : (BitVec.ofNat 32 ((x :: xs).countP p) : BitVec 32) =
    (if p x then 1 else 0) + BitVec.ofNat 32 (xs.countP p) := by
  rw [List.countP_cons, Nat.add_comm, BitVec.ofNat_add]
  cases p x <;> rfl

/-- A counter that goes up by one for the packets with `p`. -/
theorem foldl_count_counter (f : ThresholdContext → BitVec 32) (p : Judged → Bool)
    (hf : ∀ c x, f (Judged.count config c x) = if p x then f c + 1 else f c) :
    f (xs.foldl (fun c x => x.count config c) c) = f c + BitVec.ofNat 32 (xs.countP p) := by
  induction xs generalizing c with
  | nil => simp
  | cons x xs ih =>
    rw [List.foldl_cons, ih, hf, ofNat_count_cons]
    cases p x
    · simp
    · rw [if_pos rfl, if_pos rfl, BitVec.add_assoc]

/-- From zero it counts them. -/
theorem foldl_count_counter_zero (f : ThresholdContext → BitVec 32) (p : Judged → Bool)
    (hf : ∀ c x, f (Judged.count config c x) = if p x then f c + 1 else f c) (hc : f c = 0) :
    f (xs.foldl (fun c x => x.count config c) c) = BitVec.ofNat 32 (xs.countP p) := by
  rw [foldl_count_counter config c xs f p hf, hc]
  exact BitVec.zero_add _

/-- Every packet is forwarded, dropped for its value, or dropped for want of room. -/
theorem countP_judged : xs.countP (Judged.forwarded config) + xs.countP (fun x => x.2 && !x.forwarded config) +
    xs.countP (fun x => !x.2) = xs.length := by
  induction xs with
  | nil => rfl
  | cons x xs ih =>
    obtain ⟨p, room⟩ := x
    rw [List.countP_cons, List.countP_cons, List.countP_cons, List.length_cons, ← ih]
    cases room
    · simp only [Judged.forwarded, Bool.and_false, Bool.false_and, Bool.not_false, Bool.false_eq_true, if_false, if_true]
      omega
    · cases Judged.forwarded config (p, true) <;>
        simp only [Bool.not_true, Bool.not_false, Bool.and_true, Bool.and_false, Bool.false_eq_true, if_false,
          if_true] <;>
        omega

end Counters

/-! ### The invariant -/

/-- The packets of an ikernel among those that were taken. -/
def ofIkernel (id : IkernelId) (xs : List Judged) : List Judged := xs.filter (·.1.metadata.ikernelId = id)

/-- The decisions, the outputs and the contexts after the packets that were taken with these answers. -/
structure JudgeInv (config : IkernelId → ThresholdContext) (packets : List Packet) (s : State N)
    (answers : List Bool) : Prop where
  inv : Inv packets s
  length : answers.length = s.netMetadata.past.length
  contexts : ∀ id, N.get s.contexts id =
    (ofIkernel id (packets.zip answers)).foldl (fun c x => x.count config c) (config id)
  decisions : s.decisions.sent = (packets.zip answers).map (Judged.decision config)
  passes : s.decisionPass.sent = (packets.zip answers).map (Judged.forwarded config)
  metadata : s.metadataOutput = ((packets.zip answers).filter (Judged.forwarded config)).map (Judged.outMetadata config)
  output : Filtering (Judged.outBeats config) (Judged.forwarded config) (packets.zip answers)
    s.decisionPass.past.length s.dropper s.dataEgressToFilter.past s.dataOutput

/-- Packets beside what is known of packets. -/
theorem zip_map_zip {α β γ : Type*} (as : List α) (bs : List β) (f : α × β → γ) :
    as.zip ((as.zip bs).map f) = (as.zip bs).map fun x => (x.1, f x) := by
  induction as generalizing bs with
  | nil => rfl
  | cons a as ih =>
    cases bs with
    | nil => rfl
    | cons b bs => rw [List.zip_cons_cons, List.map_cons, List.map_cons, List.zip_cons_cons, ih]

section Judge

variable {config : IkernelId → ThresholdContext} {packets : List Packet} {s : State N} {answers : List Bool}

theorem judgeInv_init {contexts : N.Table} (hcontexts : ∀ id, N.get contexts id = config id) (packets : List Packet) :
    JudgeInv config packets
      (State.init contexts (packets.map Packet.metadata) (packets.flatMap Packet.beats) : State N) [] where
  inv := inv_init contexts packets
  length := rfl
  contexts := by
    intro id
    rw [List.zip_nil_right]
    exact hcontexts id
  decisions := by
    rw [List.zip_nil_right]
    rfl
  passes := by
    rw [List.zip_nil_right]
    rfl
  metadata := by
    rw [List.zip_nil_right]
    rfl
  output := .zero _ _ _

namespace JudgeInv

/-- The context of an ikernel has the thresholds and the ring of the configuration. -/
theorem config_eq (h : JudgeInv config packets s answers) (id : IkernelId) :
    (N.get s.contexts id).thresholdValue = (config id).thresholdValue ∧
      (N.get s.contexts id).ringId = (config id).ringId := by
  rw [h.contexts id]
  exact foldl_count_config config (config id) _

theorem length_le (h : JudgeInv config packets s answers) : answers.length ≤ packets.length := by
  have hle := h.inv.length_decisions
  rwa [h.inv.decisions, ← h.length] at hle

/-- What `egress` writes is what goes out, if it passes. -/
theorem egress_prefix (h : JudgeInv config packets s answers) :
    s.dataEgressToFilter.sent <+: (packets.zip answers).flatMap (Judged.outBeats config) := by
  have hprefix := h.inv.egress_prefix
  have hbeats : (fun x : Judged => egressBeats (x.1, x.decision config)) = Judged.outBeats config := by
    funext x
    exact egressBeats_decision config x
  rwa [h.decisions, zip_map_zip, List.flatMap_map, hbeats] at hprefix

theorem isPacket_outBeats (hne : NoneEmpty packets) : ∀ x ∈ packets.zip answers, IsPacket (Judged.outBeats config x) := by
  intro x hx
  unfold Judged.outBeats
  split
  · exact ⟨[], _, rfl, rfl, by simp⟩
  · exact hne.isPacket x.1 (List.of_mem_zip hx).1

/-- The value that waits for `net_ingress` is that of the packet whose metadata waits. -/
theorem value_eq (h : JudgeInv config packets s answers) {p : Packet} {v : BitVec 32}
    (hp : packets[answers.length]? = some p) (hv : s.parsed.head = some v) : packetValue p = some v := by
  have hparsed := h.inv.parsed
  have hget : s.parsed.sent[answers.length]? = some v := by
    obtain ⟨rest, hrest⟩ := s.parsed.past_snoc_prefix_sent hv
    rw [h.length, ← h.inv.ingress, ← hrest, List.append_assoc, List.getElem?_append_right (Nat.le_refl _), Nat.sub_self]
    rfl
  have hlt := (List.getElem?_eq_some_iff.mp hget).1
  have hat := congrArg (fun l => l[answers.length]?) hparsed
  simp only [List.getElem?_map, hget, Option.map_some, List.getElem?_take_of_lt hlt, hp] at hat
  exact (Option.some.inj hat).symm

theorem parserCall (hne : NoneEmpty packets) (h : JudgeInv config packets s answers) (full : Bool) :
    JudgeInv config packets (Threshold.parser full s) answers := by
  have hinv := h.inv.parserCall hne full
  unfold Threshold.parser at hinv ⊢
  cases hd : s.dataDupToParser.head with
  | none => exact h
  | some d =>
    rw [hd] at hinv
    cases hs : s.parserState with
    | rest =>
      rw [hs] at hinv
      exact { h with inv := hinv }
    | first =>
      rw [hs] at hinv
      dsimp only at hinv ⊢
      split
      · exact h
      · next hfull =>
        rw [if_neg hfull] at hinv
        exact { h with inv := hinv }

/-- One more packet is taken. -/
theorem ingressCall (h : JudgeInv config packets s answers) (tc : TcPipelineDataCounts) {m : Metadata} {v : BitVec 32}
    (hN : N.Lawful) (hm : s.netMetadata.head = some m) (hv : s.parsed.head = some v) :
    JudgeInv config packets (Threshold.ingress tc m v s)
      (answers ++
        [s.credits.canTransmit tc m.ikernelId.toNat (N.get s.contexts m.ikernelId).ringId 4 .HOST]) := by
  obtain ⟨p, hp, rfl⟩ := exists_packet (by rw [h.inv.netMetadata]) hm
  rw [← h.length] at hp
  have hvalue := h.value_eq hp hv
  obtain ⟨hthreshold, hring⟩ := h.config_eq p.metadata.ikernelId
  rw [hring]
  generalize hroom : s.credits.canTransmit tc p.metadata.ikernelId.toNat (config p.metadata.ikernelId).ringId 4 .HOST =
    room
  have hzip := zip_snoc hp room
  have hx : Judged.value (p, room) = v := by
    unfold Judged.value
    rw [hvalue]
    rfl
  -- `net_ingress` decides as the packet is judged
  have hdrop : (decide (v < (config p.metadata.ikernelId).thresholdValue) || !room) =
      !Judged.forwarded config (p, room) := by
    simp only [Judged.forwarded, Judged.context, hx, Bool.not_and, ← decide_not, BitVec.not_le]
  have hcall : netIngress N s.contexts s.credits tc p.metadata v =
      { contexts := N.modify s.contexts p.metadata.ikernelId fun c => Judged.count config c (p, room)
        credits := (netIngress N s.contexts s.credits tc p.metadata v).credits
        ringId := (config p.metadata.ikernelId).ringId
        pass := Judged.forwarded config (p, room)
        metadata := if Judged.forwarded config (p, room) then Judged.outMetadata config (p, room) else p.metadata } := by
    unfold netIngress Judged.count
    simp only [hthreshold, hring, hroom, hdrop, hx, Bool.not_not]
    congr 1
    unfold Judged.outMetadata Judged.context
    cases Judged.forwarded config (p, room) <;> simp
  have hinv := h.inv.ingressCall tc hm hv
  unfold Threshold.ingress at hinv ⊢
  rw [hcall] at hinv ⊢
  dsimp only at hinv ⊢
  constructor
  · exact hinv
  · rw [List.length_append, List.length_singleton, h.length]
    exact (s.netMetadata.length_past_readIf_true hm).symm
  · intro id
    have hcontexts := h.contexts id
    rw [hzip, ofIkernel, List.filter_append, List.foldl_append]
    show N.get (N.modify _ _ _) id = _
    rw [hN]
    by_cases hid : id = p.metadata.ikernelId
    · subst hid
      rw [if_pos rfl, hcontexts]
      simp [ofIkernel]
    · have hid' : ¬p.metadata.ikernelId = id := fun heq => hid heq.symm
      rw [if_neg hid, hcontexts]
      simp [ofIkernel, hid']
  · rw [hzip, List.map_append, ← h.decisions, Fifo.sent_write]
    unfold Judged.decision Judged.context
    rw [← hx]
    rfl
  · rw [hzip, List.map_append, ← h.passes, Fifo.sent_write]
    rfl
  · rw [hzip, List.filter_append, List.map_append, ← h.metadata]
    cases hpass : Judged.forwarded config (p, room) <;> simp [hpass]
  · rw [hzip]
    refine h.output.extend ?_ _
    have hle := s.decisionPass.past_prefix_sent.length_le
    rwa [h.passes, List.length_map] at hle

theorem netIngressCall (h : JudgeInv config packets s answers) (hN : N.Lawful) (cmd : Option GatewayCmd)
    (tc : TcPipelineDataCounts) (full : Bool) (hread : ReadsOnly (.netIngress cmd tc full)) :
    JudgeInv config packets (Threshold.netIngressCall cmd tc full s)
      (answers ++ transmits s (.netIngress cmd tc full)) := by
  rcases netIngressCall_cases s cmd tc full hread with ⟨hnone, credits, heq⟩ | ⟨m, v, hm, hv, hsome, heq⟩
  · rw [hnone, List.append_nil, heq]
    exact { h with inv := { h.inv with } }
  · rw [hsome, heq]
    exact h.ingressCall tc hN hm hv

theorem egressCall (hne : NoneEmpty packets) (h : JudgeInv config packets s answers) (full : Bool) :
    JudgeInv config packets (Threshold.egress full s) answers := by
  have hinv := h.inv.egressCall hne full
  have hsame : (Threshold.egress full s).netMetadata = s.netMetadata ∧
      (Threshold.egress full s).contexts = s.contexts ∧
      (Threshold.egress full s).decisions.sent = s.decisions.sent ∧
      (Threshold.egress full s).decisionPass = s.decisionPass ∧
      (Threshold.egress full s).metadataOutput = s.metadataOutput ∧
      (Threshold.egress full s).dropper = s.dropper ∧
      (Threshold.egress full s).dataEgressToFilter.past = s.dataEgressToFilter.past ∧
      (Threshold.egress full s).dataOutput = s.dataOutput := by
    unfold Threshold.egress
    cases full with
    | true => simp
    | false =>
      cases s.egressState with
      | idle =>
        cases s.decisions.head with
        | none => simp
        | some d =>
          refine ⟨rfl, rfl, Fifo.sent_readIf _ _, rfl, rfl, rfl, ?_, rfl⟩
          show (if d.ringId ≠ 0 then s.dataEgressToFilter.write (valueBeat d.v) else s.dataEgressToFilter).past = _
          split <;> rfl
      | stream =>
        cases s.dataDupToEgress.head with
        | none => simp
        | some d =>
          refine ⟨rfl, rfl, rfl, rfl, rfl, rfl, ?_, rfl⟩
          show (if s.egressLastDecision.ringId = 0 then s.dataEgressToFilter.write d else s.dataEgressToFilter).past = _
          split <;> rfl
  obtain ⟨hmeta, hcontexts, hdecisions, hpass, hout, hdropper, hpast, hdata⟩ := hsame
  constructor
  · exact hinv
  · rw [hmeta]
    exact h.length
  · rw [hcontexts]
    exact h.contexts
  · rw [hdecisions]
    exact h.decisions
  · rw [hpass]
    exact h.passes
  · rw [hout]
    exact h.metadata
  · rw [hpass, hdropper, hpast, hdata]
    exact h.output

theorem filterCall (hne : NoneEmpty packets) (h : JudgeInv config packets s answers) :
    JudgeInv config packets (Threshold.filter s) answers := by
  have hpasses := h.passes
  refine { h with inv := h.inv.filterCall hne, passes := ?_, output := ?_ }
  · exact (Fifo.sent_readIf _ _).trans hpasses
  · exact h.output.filter (isPacket_outBeats hne) (by rw [hpasses]) h.egress_prefix

/-- **Every call of a unit keeps the invariant**, and adds the answer that it had from `can_transmit`. -/
theorem step (hN : N.Lawful) (hne : NoneEmpty packets) (h : JudgeInv config packets s answers) (a : Act)
    (ha : ReadsOnly a) : JudgeInv config packets (Threshold.step s a) (answers ++ transmits s a) := by
  -- the other units do not ask `can_transmit`
  have hnone : ∀ {s' : State N}, JudgeInv config packets s' answers → JudgeInv config packets s' (answers ++ []) := by
    intro s' h'
    rwa [List.append_nil]
  cases a with
  | netIngress cmd tc full => exact h.netIngressCall hN cmd tc full ha
  | dup full => exact hnone { h with inv := h.inv.dup full }
  | parser full => exact hnone (h.parserCall hne full)
  | egress full => exact hnone (h.egressCall hne full)
  | filter => exact hnone (h.filterCall hne)
  | hostCreditsUpdate full regs => exact hnone { h with inv := { h.inv with } }

end JudgeInv

end Judge

/-! ### The results -/

/-- A context before the first packet: the counters are zero and the minimum is the largest value. -/
def Fresh (c : ThresholdContext) : Prop :=
  c.min = -1 ∧ c.max = 0 ∧ c.count = 0 ∧ c.dropped = 0 ∧ c.droppedBackpressure = 0 ∧ c.sum = 0

/-- The counters of a context after the packets `mine` of its ikernel. -/
structure Counted (config : IkernelId → ThresholdContext) (c : ThresholdContext) (mine : List Judged) : Prop where
  min_eq : c.min.toNat = (mine.map fun x => x.value.toNat).foldl min (2 ^ 32 - 1)
  max_eq : c.max.toNat = (mine.map fun x => x.value.toNat).foldl max 0
  sum_eq : c.sum = BitVec.ofNat 64 (mine.map fun x => x.value.toNat).sum
  count_eq : c.count = BitVec.ofNat 32 mine.length
  /-- What is not forwarded is counted once, for want of room or for its value. -/
  dropped_eq : c.dropped = BitVec.ofNat 32 (mine.countP fun x => x.2 && !x.forwarded config)
  backpressure_eq : c.droppedBackpressure = BitVec.ofNat 32 (mine.countP fun x => !x.2)
  partition : mine.countP (fun x => !x.forwarded config) =
    mine.countP (fun x => x.2 && !x.forwarded config) + mine.countP (fun x => !x.2)
  total : c.count = BitVec.ofNat 32 (mine.countP (Judged.forwarded config)) + c.dropped + c.droppedBackpressure

/-- The outputs and the contexts, after the packets that were taken with these answers of `can_transmit`. -/
structure Filtered (config : IkernelId → ThresholdContext) (packets : List Packet) (s : State N)
    (answers : List Bool) : Prop where
  /-- There is an answer for every packet that was taken. -/
  answered : answers.length = s.netMetadata.past.length
  /-- The packets that are forwarded leave with their metadata, and their data in the same order. -/
  metadata : s.metadataOutput = ((packets.zip answers).filter (Judged.forwarded config)).map (Judged.outMetadata config)
  data : s.dataOutput <+: ((packets.zip answers).filter (Judged.forwarded config)).flatMap (Judged.outBeats config)
  /-- When the dropper has applied all decisions, nothing is missing. -/
  data_all : s.decisionPass.queue = [] → s.dropper.state = .decision →
    s.dataOutput = ((packets.zip answers).filter (Judged.forwarded config)).flatMap (Judged.outBeats config)
  counters : ∀ id, Counted config (N.get s.contexts id) (ofIkernel id (packets.zip answers))

theorem filter_flatMap_eq {α β : Type*} (p : α → Bool) (f : α → List β) (l : List α) :
    (l.filter p).flatMap f = l.flatMap fun x => if p x then f x else [] := by
  induction l with
  | nil => rfl
  | cons x l ih =>
    rw [List.flatMap_cons, ← ih]
    cases hp : p x <;> simp [hp]

section Results

variable {config : IkernelId → ThresholdContext} {packets : List Packet} {s : State N} {answers : List Bool}

/-- The counters of a context that starts fresh. -/
theorem counted_foldl {c : ThresholdContext} (hc : Fresh c) (mine : List Judged) :
    Counted config (mine.foldl (fun c x => x.count config c) c) mine := by
  obtain ⟨hmin, hmax, hcount, hdropped, hbackpressure, hsum⟩ := hc
  have hlength : (mine.foldl (fun c x => x.count config c) c).count = BitVec.ofNat 32 mine.length := by
    have h := foldl_count_counter_zero config c mine ThresholdContext.count (fun _ => true) (fun c x => rfl) hcount
    rwa [List.countP_true] at h
  have hdrops := foldl_count_counter_zero config c mine ThresholdContext.dropped
    (fun x => x.2 && !x.forwarded config) (fun c x => by
      unfold Judged.count ThresholdContext.updateStats
      rw [Bool.not_not, Bool.and_comm]) hdropped
  have hrooms := foldl_count_counter_zero config c mine ThresholdContext.droppedBackpressure (fun x => !x.2)
    (fun c x => rfl) hbackpressure
  have htotal := countP_judged config mine
  constructor
  · rw [foldl_count_min, hmin]
    rfl
  · rw [foldl_count_max, hmax]
    rfl
  · rw [foldl_count_sum, hsum]
    exact BitVec.zero_add _
  · exact hlength
  · exact hdrops
  · exact hrooms
  · have hnot := List.length_eq_countP_add_countP (Judged.forwarded config) (l := mine)
    have hbool : mine.countP (fun x => decide ¬x.forwarded config = true) = mine.countP fun x => !x.forwarded config :=
      List.countP_congr fun x _ => by simp
    omega
  · rw [hlength, hdrops, hrooms, ← BitVec.ofNat_add, ← BitVec.ofNat_add, htotal]

theorem JudgeInv.filtered (h : JudgeInv config packets s answers) (hfresh : ∀ id, Fresh (config id)) :
    Filtered config packets s answers where
  answered := h.length
  metadata := h.metadata
  data := by
    obtain ⟨due, -, -, -, hout⟩ := h.output
    rw [filter_flatMap_eq]
    exact hout.done_prefix_pieces
  data_all := by
    intro hqueue hstate
    obtain ⟨due, -, hidle, -, hout⟩ := h.output
    obtain rfl := hidle hstate
    have hlen : s.decisionPass.past.length = (packets.zip answers).length := by
      have hpasses := congrArg List.length h.passes
      rwa [Fifo.sent, hqueue, List.append_nil, List.length_map] at hpasses
    rw [ite_self, hlen, Owed, List.take_length, List.append_nil] at hout
    rw [hout, filter_flatMap_eq]
    rfl
  counters := by
    intro id
    rw [h.contexts id]
    exact counted_foldl (hfresh id) _

end Results

/-! ### Runs -/

/-- A packet of one beat with a value. -/
def valuePacket (id : IkernelId) (v : BitVec 32) : Packet where
  metadata := ⟨0, 0, id, .inl ⟨0, 0, 0, 0, 0, 0⟩, 0, 0, 32⟩
  beats := [⟨v.setWidth 256 <<< 112, -1, true⟩]
  framed := ⟨[], _, rfl, rfl, by simp⟩

/-- A threshold of 5 for all ikernels, and a ring for the first one. -/
def configOfRing (id : IkernelId) : ThresholdContext :=
  { ThresholdContext.init with thresholdValue := 5, ringId := if id = 1 then 3 else 0 }

/-- The ring has room for one message; a packet goes through all the units. -/
def takeOne : List Act :=
  [.dup false, .parser false, .netIngress none ⟨fun _ => 0, fun _ => 0⟩ false, .egress false, .egress false, .filter,
    .filter]

end Nica.Hls.Threshold
