import Nica.Hls.Equiv.PktgenBounds
import Nica.Hls.Equiv.PktgenHistory

/-!
# The bursts of the packet generator

The burst of an ikernel is in one place at a time: in an update on its way, in the context of the table, in a
command, or in the hands of `data_plane`.  `Place` is what there is of one ikernel, and `Place.Sound` says that the
place where the burst is holds the last packet and the number of its copies that are still to come.

Both units work on, so a new packet can come in while a copy of the context of the old one waits as a command.
The invariant `Inv` is kept by the steps at which there is no such command (`NoStaleCommand`), and by those of runs in
which an ikernel receives its next packet when the burst before it is complete (`Orderly`); in these it also says
that nothing but bursts has left.
-/

namespace Nica.Hls.Pktgen

open Nica.Lib

/-- The context of a packet with `n` copies to come. -/
structure Holds (c : Context) (p : Datagram) (n : ℕ) : Prop where
  metadata : c.metadata = p.metadata
  dataLength : c.dataLength.toNat = p.beats.length
  curPacket : c.curPacket.toNat = n

theorem Holds.id {c : Context} {p : Datagram} {n : ℕ} (h : Holds c p n) : c.id = p.id :=
  congrArg Metadata.ikernelId h.metadata

/-- What an update leaves in the table. -/
def merge (c old : Context) : Context :=
  { old with dataLength := c.dataLength, curPacket := stdMin c.curPacket old.burstSize, metadata := c.metadata }

theorem stdMin_eq_left {a b : BitVec 32} (h : a.toNat ≤ b.toNat) : stdMin a b = a := by
  have hlt : ¬b < a := by
    rw [BitVec.lt_def]
    omega
  exact if_neg hlt

/-- The largest count stands for a whole burst. -/
theorem stdMin_neg_one (b : BitVec 32) : stdMin (-1) b = b := by
  unfold stdMin
  split
  · rfl
  · rename_i h
    rw [BitVec.lt_def, show (-1 : BitVec 32).toNat = 2 ^ 32 - 1 by decide] at h
    apply BitVec.eq_of_toNat_eq
    have hb := b.isLt
    rw [show (-1 : BitVec 32).toNat = 2 ^ 32 - 1 by decide]
    omega

/-! ### One ikernel -/

/-- What there is of one ikernel: its updates on their way, its context in the table, whether it is active, whether a
packet of it is being received, the copies of its context that were handed to `data_plane`, and whether `data_plane`
has taken one up. -/
structure Place where
  pending : List Context
  context : Context
  active : Prop
  receiving : Prop
  served : List Context
  handed : Prop

namespace Place

/-- The burst is where it should be: `n` copies of the packet `last` are still to come.  If packets come in `ordered`,
each when the burst before it is complete, then nothing is awake without a copy to come. -/
structure Sound (ordered : Prop) (b : BitVec 32) (last : Option Datagram) (n : ℕ) (v : Place) : Prop where
  burstSize : v.context.burstSize = b
  fresh : last = none → v.pending = [] ∧ ¬v.active
  served : ∀ c ∈ v.served, v.pending = [] ∧ ¬v.receiving ∧ ∃ p, last = some p ∧ Holds c p n
  pending : ∀ p c, last = some p → ¬v.receiving → v.pending.getLast? = some c → Holds (merge c v.context) p n
  settled : ∀ p, last = some p → ¬v.receiving → v.pending = [] → v.served = [] → Holds v.context p n
  awake : ¬v.receiving → v.pending = [] → n ≠ 0 → v.active
  calm : ordered → v.active → ¬v.receiving ∧ (n ≠ 0 ∨ v.handed)
  idle : ordered → ∀ c ∈ v.pending, stdMin c.curPacket b ≠ 0 → ¬v.receiving ∧ n ≠ 0

variable {ordered : Prop} {b : BitVec 32} {last : Option Datagram} {n : ℕ} {v : Place} {c : Context} {p : Datagram}

/-- The first update takes effect. -/
theorem Sound.deliver (h : v.Sound ordered b last n) {rest : List Context} (hpending : v.pending = c :: rest) :
    Sound ordered b last n { v with
      pending := rest
      context := merge c v.context
      active := v.active ∨ stdMin c.curPacket v.context.burstSize ≠ 0 } where
  burstSize := h.burstSize
  fresh hlast := by
    have hnil := (h.fresh hlast).1
    rw [hpending] at hnil
    cases hnil
  served c' hc' := by
    have hnil := (h.served c' hc').1
    rw [hpending] at hnil
    cases hnil
  pending p c' hlast hrec hc' := by
    have hlater : v.pending.getLast? = some c' := by
      rw [hpending, List.getLast?_cons, hc']
      rfl
    exact h.pending p c' hlast hrec hlater
  settled p hlast hrec hnil _ := by
    have hnil : rest = [] := hnil
    subst hnil
    have hc : v.pending.getLast? = some c := by rw [hpending]; rfl
    exact h.pending p c hlast hrec hc
  awake hrec hnil hn := by
    have hnil : rest = [] := hnil
    subst hnil
    have hc : v.pending.getLast? = some c := by rw [hpending]; rfl
    cases hlast : last with
    | none =>
      have hnil := (h.fresh hlast).1
      rw [hpending] at hnil
      cases hnil
    | some p =>
      have hcur := (h.pending p c hlast hrec hc).curPacket
      refine .inr fun hzero => hn ?_
      rw [← hcur]
      exact congrArg BitVec.toNat hzero
  calm ho hactive := by
    have hc : c ∈ v.pending := by
      rw [hpending]
      exact List.mem_cons_self ..
    rcases hactive with hactive | hcur
    · exact h.calm ho hactive
    · rw [h.burstSize] at hcur
      obtain ⟨hrec, hn⟩ := h.idle ho c hc hcur
      exact ⟨hrec, .inl hn⟩
  idle ho c' hc' := by
    apply h.idle ho c'
    rw [hpending]
    exact List.mem_cons_of_mem c hc'

/-- A command is queued. -/
theorem Sound.command (h : v.Sound ordered b last n) (hpending : v.pending = []) (hrec : ¬v.receiving) (hactive : v.active)
    (hserved : v.served = []) : Sound ordered b last n { v with served := [v.context] } where
  burstSize := h.burstSize
  fresh hlast := absurd hactive (h.fresh hlast).2
  served c hc := by
    rw [List.mem_singleton.mp hc]
    refine ⟨hpending, hrec, ?_⟩
    cases hlast : last with
    | none => exact absurd hactive (h.fresh hlast).2
    | some p => exact ⟨p, rfl, h.settled p hlast hrec hpending hserved⟩
  pending := h.pending
  settled _ _ _ _ hc := by cases hc
  awake := h.awake
  calm := h.calm
  idle := h.idle

/-- A new packet begins, with no copy of an older context left. -/
theorem Sound.take (h : v.Sound ordered b last n) (hserved : v.served = []) (p : Datagram) (m : ℕ)
    (hdone : ordered → n = 0 ∧ ¬v.handed) :
    Sound ordered b (some p) m { v with receiving := True } where
  burstSize := h.burstSize
  fresh hlast := by cases hlast
  served c hc := by
    have hc : c ∈ v.served := hc
    rw [hserved] at hc
    cases hc
  pending _ _ _ hrec := absurd trivial hrec
  settled _ _ hrec := absurd trivial hrec
  awake hrec := absurd trivial hrec
  calm ho hactive := by
    obtain ⟨hn, hhand⟩ := hdone ho
    exact absurd (h.calm ho hactive).2 (not_or.mpr ⟨not_not.mpr hn, hhand⟩)
  idle ho c hc hcur := absurd (hdone ho).1 (h.idle ho c hc hcur).2

/-- A packet was received. -/
theorem Sound.receive (h : v.Sound ordered b (some p) b.toNat) (hrec : v.receiving) (hmeta : c.metadata = p.metadata)
    (hlen : c.dataLength.toNat = p.beats.length) (hcur : c.curPacket = -1) :
    Sound ordered b (some p) b.toNat { v with pending := v.pending ++ [c], receiving := False } where
  burstSize := h.burstSize
  fresh hlast := by cases hlast
  served c' hc' := absurd hrec (h.served c' hc').2.1
  pending q c' hq _ hc' := by
    cases hq
    rw [List.getLast?_concat, Option.some.injEq] at hc'
    subst hc'
    refine ⟨hmeta, hlen, ?_⟩
    show (stdMin c.curPacket v.context.burstSize).toNat = b.toNat
    rw [hcur, stdMin_neg_one, h.burstSize]
  settled _ _ _ hnil := absurd hnil (by simp)
  awake _ hnil := absurd hnil (by simp)
  calm ho hactive := absurd hrec (h.calm ho hactive).1
  idle ho c' hc' hcur' := by
    rcases List.mem_append.mp hc' with hc' | hc'
    · exact absurd hrec (h.idle ho c' hc' hcur').1
    · rw [List.mem_singleton.mp hc', hcur, stdMin_neg_one] at hcur'
      exact ⟨not_false, fun hzero => hcur' (BitVec.eq_of_toNat_eq hzero)⟩

/-- `data_plane` hands the context back. -/
theorem Sound.handBack (h : v.Sound ordered b last n) (hserved : v.served = [c]) (hn : n ≤ b.toNat) :
    Sound ordered b last n { v with
      pending := v.pending ++ [c]
      active := c.curPacket ≠ 0
      served := []
      handed := False } := by
  obtain ⟨hnil, hrec, p, rfl, hc⟩ := h.served c (by rw [hserved]; exact List.mem_singleton_self c)
  have hn0 : c.curPacket ≠ 0 → n ≠ 0 := by
    intro hcur hzero
    exact hcur (BitVec.eq_of_toNat_eq (hc.curPacket.trans hzero))
  refine ⟨h.burstSize, (by intro hlast; cases hlast), (by intro c' hc'; cases hc'), ?_, ?_, ?_, ?_, ?_⟩
  · intro q c' hq _ hc'
    cases hq
    rw [List.getLast?_concat, Option.some.injEq] at hc'
    subst hc'
    refine ⟨hc.metadata, hc.dataLength, ?_⟩
    show (stdMin c.curPacket v.context.burstSize).toNat = n
    rw [h.burstSize, stdMin_eq_left (by rw [hc.curPacket]; exact hn), hc.curPacket]
  · intro _ _ _ hnil
    exact absurd hnil (by simp)
  · intro _ hnil
    exact absurd hnil (by simp)
  · intro _ hcur
    exact ⟨hrec, .inl (hn0 hcur)⟩
  · intro _ c' hc' hcur
    have hc' : c' ∈ v.pending ++ [c] := hc'
    rw [hnil, List.nil_append, List.mem_singleton] at hc'
    rw [hc', stdMin_eq_left (by rw [hc.curPacket]; exact hn)] at hcur
    exact ⟨hrec, hn0 hcur⟩

/-- A copy begins. -/
theorem Sound.copy (h : v.Sound ordered b last (n + 1)) (hserved : v.served = [c]) (hhand : v.handed) :
    Sound ordered b last n { v with served := [{ c with curPacket := c.curPacket - 1 }] } := by
  obtain ⟨hpending, hrec, p, rfl, hc⟩ := h.served c (by rw [hserved]; exact List.mem_singleton_self c)
  have hactive := h.awake hrec hpending (Nat.succ_ne_zero n)
  refine ⟨h.burstSize, h.fresh, ?_, ?_, ?_, fun _ _ _ => hactive, fun _ _ => ⟨hrec, .inr hhand⟩, ?_⟩
  · intro c' hc'
    rw [List.mem_singleton.mp hc']
    refine ⟨hpending, hrec, p, rfl, hc.metadata, hc.dataLength, ?_⟩
    have hcur := hc.curPacket
    have hlt := c.curPacket.isLt
    show (c.curPacket - 1).toNat = n
    rw [BitVec.toNat_sub, show (1 : BitVec 32).toNat = 1 by decide]
    omega
  · intro q c' _ _ hc'
    have hnil : v.pending.getLast? = some c' := hc'
    rw [hpending] at hnil
    cases hnil
  · intro _ _ _ _ hnil
    cases hnil
  · intro _ c' hc'
    have hc' : c' ∈ v.pending := hc'
    rw [hpending] at hc'
    cases hc'

/-- `data_plane` takes up a command. -/
theorem Sound.takeCommand (h : v.Sound ordered b last n) : Sound ordered b last n { v with handed := True } :=
  { h with calm := fun ho hactive => ⟨(h.calm ho hactive).1, .inr trivial⟩ }

end Place

/-! ### The units -/

variable {S : Scheduler (BitVec 6)} {B : BitVec 6 → BitVec 32} {ps : List Datagram} {ds : List Departure}
  {ordered : Prop} {r : BitVec 6 → ℕ} {hand : List Context} {current : Option (BitVec 6 × ℕ)} {s : State S} {due : List AxiData}

/-- The copies of contexts that were handed to `data_plane`: that in its hands and the commands. -/
def served (hand : List Context) (s : State S) : List Context := hand ++ s.transmitCommands.queue.map Prod.fst

/-- The flow for which a command is to be written. -/
def selected (s : State S) : List (BitVec 6) :=
  match s.schedulerState with
  | .findNextIkernel => []
  | .transmitCommand => [s.schedIkernelId]

/-- The flows that the scheduler handed out. -/
def services (hand : List Context) (s : State S) : List (BitVec 6) := (served hand s).map Context.id ++ selected s

/-- What there is of an ikernel; `current` is the one of the packet that is being received, with the beats stored. -/
def place (hand : List Context) (current : Option (BitVec 6 × ℕ)) (s : State S) (i : BitVec 6) : Place where
  pending := lane Context.id s.contextUpdates.queue i
  context := s.contexts i
  active := S.active s.sched i
  receiving := current.map Prod.fst = some i
  served := lane Context.id (served hand s) i
  handed := i ∈ hand.map Context.id

/-- What holds in every state, and between the parts of a call. -/
structure Core (ordered : Prop) (B : BitVec 6 → BitVec 32) (ps : List Datagram) (ds : List Departure)
    (r : BitVec 6 → ℕ) (hand : List Context) (current : Option (BitVec 6 × ℕ)) (s : State S) : Prop where
  history : History B ps s.metadataInput.past.length ds r
  metadataOutput : s.metadataOutput = ds.map Departure.metadata
  stored : ∀ i p j b, lastOf ps s.metadataInput.past.length i = some p → p.beats[j]? = some b →
    (∀ n, current = some (i, n) → j < n) → s.data (address i j) = b
  circulates : S.Circulates (services hand s) s.sched
  sound : ∀ i, (place hand current s i).Sound ordered (B i) (lastOf ps s.metadataInput.past.length i) (r i)
  exact : ordered → ExactHistory B ps s.metadataInput.past.length ds r

theorem lane_eq_nil_of_nodup {cs : List Context} {i : BitVec 6} (h : i ∉ cs.map Context.id) :
    lane Context.id cs i = [] := by
  rw [lane, List.filter_eq_nil_iff]
  intro c hc hid
  exact h (List.mem_map.mpr ⟨c, hc, of_decide_eq_true hid⟩)

/-- Before the first packet. -/
theorem core_init (hS : S.Lawful) (dataLength : BitVec 6 → BitVec 32) :
    Core ordered B ps [] (fun _ => 0) [] none (State.init S B dataLength) where
  history := history_init B ps
  metadataOutput := rfl
  stored i p j b hp := by
    rw [show (State.init S B dataLength).metadataInput.past.length = 0 from rfl, lastOf, List.take_zero] at hp
    cases hp
  circulates := Scheduler.Circulates.start hS
  sound i := by
    have hlast : lastOf ps (State.init S B dataLength).metadataInput.past.length i = none := by
      rw [show (State.init S B dataLength).metadataInput.past.length = 0 from rfl, lastOf, List.take_zero]
      rfl
    rw [hlast]
    refine ⟨rfl, fun _ => ⟨rfl, hS.not_active_start i⟩, (by intro c hc; cases hc), ?_, ?_, ?_, ?_, ?_⟩
    · intro p c hp
      cases hp
    · intro p hp
      cases hp
    · intro _ _ hn
      exact absurd rfl hn
    · intro _ hactive
      exact absurd hactive (hS.not_active_start i)
    · intro _ c hc
      cases hc
  exact _ := exactHistory_init B ps

/-- Every copy of a context is of the last packet of its ikernel. -/
theorem Core.holds (h : Core ordered B ps ds r hand current s) {c : Context} (hc : c ∈ served hand s) :
    current.map Prod.fst ≠ some c.id ∧ lane Context.id s.contextUpdates.queue c.id = [] ∧
      ∃ p, lastOf ps s.metadataInput.past.length c.id = some p ∧ Holds c p (r c.id) := by
  have hmem : c ∈ (place hand current s c.id).served := List.mem_filter.mpr ⟨hc, decide_eq_true rfl⟩
  obtain ⟨hpending, hrec, hp⟩ := (h.sound c.id).served c hmem
  exact ⟨hrec, hpending, hp⟩

/-! ### `sched_wrapper` -/

/-- The gateway does not change the bursts. -/
def Programmed (B : BitVec 6 → BitVec 32) : Act → Prop
  | .schedWrapper (some (.burstSize id value)) _ => value = B id
  | .schedWrapper (some (.curPacket _ _)) _ => False
  | _ => True

theorem Core.gateway (h : Core ordered B ps ds r hand current s) {cmd : GatewayCmd} {full : Bool}
    (hcmd : Programmed B (.schedWrapper (some cmd) full)) : { s with contexts := cmd.apply s.contexts } = s := by
  have hsame : cmd.apply s.contexts = s.contexts := by
    cases cmd with
    | read => rfl
    | burstSize id value =>
      have hvalue : value = (s.contexts id).burstSize := hcmd.trans (h.sound id).burstSize.symm
      show Function.update s.contexts id { s.contexts id with burstSize := value } = s.contexts
      rw [hvalue]
      exact Function.update_eq_self id s.contexts
    | curPacket id value => exact absurd hcmd not_false
  rw [hsame]

theorem Core.update (hS : S.Lawful) (h : Core ordered B ps ds r hand current s) :
    Core ordered B ps ds r hand current { s with sched := (S.update s.sched).2 } :=
  { h with
    circulates := h.circulates.update hS
    sound := by
      intro i
      have hactive : S.active (S.update s.sched).2 i = S.active s.sched i := propext (hS.active_update s.sched i)
      have hi := h.sound i
      unfold place at hi ⊢
      dsimp only
      rw [hactive]
      exact hi }

/-- An update takes effect. -/
theorem Core.applyUpdate (hS : S.Lawful) (h : Core ordered B ps ds r hand current s) {c : Context}
    (hc : s.contextUpdates.head = some c) :
    Core ordered B ps ds r hand current (applyUpdate c { s with contextUpdates := s.contextUpdates.readIf true }) := by
  obtain ⟨q, hq⟩ := s.contextUpdates.queue_eq_of_head hc
  have hread : (s.contextUpdates.readIf true).queue = q := s.contextUpdates.queue_pop hq
  refine { h with circulates := ?_, sound := ?_ }
  · show S.Circulates (services hand s) (if stdMin c.curPacket (s.contexts c.id).burstSize ≠ 0 then
      S.schedule s.sched c.id else s.sched)
    split
    · exact h.circulates.schedule hS c.id
    · exact h.circulates
  · intro i
    have hi := h.sound i
    unfold place Pktgen.applyUpdate at *
    dsimp only at *
    rw [hread]
    rw [hq, lane_cons] at hi
    by_cases hid : i = c.id
    · subst hid
      rw [if_pos rfl] at hi
      rw [Function.update_self]
      have hdeliver := hi.deliver rfl
      have hactive : S.active (if stdMin c.curPacket (s.contexts c.id).burstSize ≠ 0 then
          S.schedule s.sched c.id else s.sched) c.id =
          (S.active s.sched c.id ∨ stdMin c.curPacket (s.contexts c.id).burstSize ≠ 0) := by
        apply propext
        split
        · rename_i hcur
          exact iff_of_true (hS.active_schedule s.sched c.id) (.inr hcur)
        · rename_i hcur
          exact (or_iff_left hcur).symm
      rw [hactive]
      exact hdeliver
    · rw [if_neg hid] at hi
      rw [Function.update_of_ne hid]
      have hactive : S.active (if stdMin c.curPacket (s.contexts c.id).burstSize ≠ 0 then
          S.schedule s.sched c.id else s.sched) i = S.active s.sched i := by
        apply propext
        split
        · exact hS.active_schedule_other hid
        · exact Iff.rfl
      rw [hactive]
      exact hi

theorem Core.select (hS : S.Lawful) (h : Core ordered B ps ds r hand current s) {id : BitVec 6} {quota : BitVec 32}
    {sched : S.State} (hstate : s.schedulerState = .findNextIkernel)
    (hnext : S.nextFlow s.sched = some (id, quota, sched)) :
    Core ordered B ps ds r hand current (select id quota sched s) := by
  refine { h with circulates := ?_, sound := ?_ }
  · have hcirc := h.circulates.nextFlow hS hnext
    have hselected : selected s = [] := by rw [selected, hstate]
    have hservices : services hand (Pktgen.select id quota sched s) = services hand s ++ [id] := by
      rw [services, services, hselected, List.append_nil]
      rfl
    rw [hservices]
    exact hcirc
  · intro i
    have hactive : S.active sched i = S.active s.sched i := propext (hS.active_nextFlow i hnext)
    have hi := h.sound i
    unfold place Pktgen.select at *
    dsimp only at *
    rw [hactive]
    exact hi

/-- A command is written when the context is up to date: no update is on its way and no packet of the ikernel is
being received. -/
theorem Core.transmitCommand (h : Core ordered B ps ds r hand current s) (full : Bool)
    (hstate : s.schedulerState = .transmitCommand) (hupdates : s.contextUpdates.head = none)
    (hcurrent : full = false → ¬ordered → current.map Prod.fst ≠ some s.schedIkernelId) :
    Core ordered B ps ds r hand current (transmitCommand full s) := by
  cases full with
  | true => exact h
  | false =>
    have hselected : selected s = [s.schedIkernelId] := by rw [selected, hstate]
    have hservices : services hand s = (served hand s).map Context.id ++ [s.schedIkernelId] := by
      rw [services, hselected]
    have hcirc := h.circulates
    rw [hservices] at hcirc
    have hnot : s.schedIkernelId ∉ (served hand s).map Context.id := fun hmem =>
      (List.nodup_append.mp hcirc.nodup).2.2 _ hmem _ (List.mem_singleton_self _) rfl
    have hactive : S.active s.sched s.schedIkernelId :=
      hcirc.active (List.mem_append_right _ (List.mem_singleton_self _))
    have hpending : ∀ i, lane Context.id s.contextUpdates.queue i = [] := by
      rw [List.head?_eq_none_iff.mp hupdates]
      exact fun _ => rfl
    have hsound := h.sound s.schedIkernelId
    have hrec : current.map Prod.fst ≠ some s.schedIkernelId := by
      by_cases ho : ordered
      · exact (hsound.calm ho hactive).1
      · exact hcurrent rfl ho
    have hcommand := hsound.command (hpending _) hrec hactive (lane_eq_nil_of_nodup hnot)
    have hid : (s.contexts s.schedIkernelId).id = s.schedIkernelId := by
      obtain ⟨-, -, p, hp, hholds⟩ := hcommand.served _ (List.mem_singleton_self _)
      exact hholds.id.trans (id_of_lastOf hp)
    have hserved : served hand (Pktgen.transmitCommand false s) =
        served hand s ++ [s.contexts s.schedIkernelId] := by
      show hand ++ (s.transmitCommands.queue ++ [(s.contexts s.schedIkernelId, s.quotaFromSched)]).map Prod.fst = _
      rw [List.map_append, ← List.append_assoc]
      rfl
    refine { h with circulates := ?_, sound := ?_ }
    · have hservices' : services hand (Pktgen.transmitCommand false s) =
          (served hand s).map Context.id ++ [s.schedIkernelId] := by
        rw [services, hserved, List.map_append, List.map_singleton, hid]
        exact List.append_nil _
      rw [hservices']
      exact hcirc
    · intro i
      by_cases hi : i = s.schedIkernelId
      · subst hi
        have hlane : lane Context.id (served hand (Pktgen.transmitCommand false s)) s.schedIkernelId =
            [s.contexts s.schedIkernelId] := by
          rw [hserved, lane_snoc, lane_eq_nil_of_nodup hnot, if_pos hid.symm]
          rfl
        unfold place at hcommand ⊢
        rw [hlane]
        exact hcommand
      · have hlane : lane Context.id (served hand (Pktgen.transmitCommand false s)) i =
            lane Context.id (served hand s) i := by
          rw [hserved, lane_snoc, if_neg (by rw [hid]; exact hi), List.append_nil]
        have hi := h.sound i
        unfold place at hi ⊢
        rw [hlane]
        exact hi

/-! ### `data_plane` -/

/-- A new packet begins, with no command of its ikernel in the queue. -/
theorem Core.takeMetadata (h : Core ordered B ps ds r [] none s) {p : Datagram}
    (hm : s.metadataInput.head = some p.metadata) (hp : ps[s.metadataInput.past.length]? = some p)
    (hstale : ¬ordered → ∀ c ∈ s.transmitCommands.queue, c.1.id ≠ p.id) (hdone : ordered → r p.id = 0) :
    Core ordered B ps (ds ++ [⟨p, none⟩]) (Function.update r p.id (B p.id).toNat) [] (some (p.id, 0))
      (takeMetadata p.metadata s) := by
  have hlen := s.metadataInput.length_past_readIf_true hm
  refine ⟨?_, ?_, ?_, h.circulates, ?_, ?_⟩
  · show History B ps (s.metadataInput.readIf true).past.length _ _
    rw [hlen]
    exact h.history.take hp
  · show s.metadataOutput ++ [p.metadata] = _
    rw [h.metadataOutput, List.map_append]
    rfl
  · intro i q j b hq hj hlt
    have hq : lastOf ps (s.metadataInput.readIf true).past.length i = some q := hq
    rw [hlen, lastOf_succ hp] at hq
    by_cases hi : i = p.id
    · have hzero := hlt 0 (by rw [hi])
      omega
    · rw [if_neg hi] at hq
      exact h.stored i q j b hq hj fun n hn => by cases hn
  · intro i
    show (place [] (some (p.id, 0)) (Pktgen.takeMetadata p.metadata s) i).Sound ordered (B i)
      (lastOf ps (s.metadataInput.readIf true).past.length i) _
    rw [hlen, lastOf_succ hp]
    by_cases hi : i = p.id
    · subst hi
      have hserved : (place [] none s p.id).served = [] := by
        apply lane_eq_nil_of_nodup
        intro hmem
        obtain ⟨c, hc, hid⟩ := List.mem_map.mp hmem
        obtain ⟨c', hc', rfl⟩ := List.mem_map.mp hc
        by_cases ho : ordered
        · have hactive := h.circulates.active (List.mem_append_left _ hmem)
          exact ((h.sound p.id).calm ho hactive).2.elim (fun hn => hn (hdone ho)) List.not_mem_nil
        · exact hstale ho c' hc' hid
      have htake := (h.sound p.id).take hserved p (B p.id).toNat fun ho => ⟨hdone ho, List.not_mem_nil⟩
      have hrec : ((some (p.id, 0)).map Prod.fst = some p.id) = True := eq_true rfl
      rw [if_pos rfl, Function.update_self]
      unfold place at htake ⊢
      rw [hrec]
      exact htake
    · have hrec : ((some (p.id, 0)).map Prod.fst = some i) = ((none : Option (BitVec 6 × ℕ)).map Prod.fst = some i) := by
        apply propext
        constructor
        · intro hc
          exact absurd (Option.some.inj hc).symm hi
        · intro hc
          cases hc
      have hsound := h.sound i
      rw [if_neg hi, Function.update_of_ne hi]
      unfold place at hsound ⊢
      rw [hrec]
      exact hsound
  · intro ho
    show ExactHistory B ps (s.metadataInput.readIf true).past.length _ _
    rw [hlen]
    exact (h.exact ho).take hp (hdone ho)

theorem address_inj {i i' : BitVec 6} {j j' : ℕ} (hj : j < dataSize) (hj' : j' < dataSize)
    (h : address i j = address i' j') : i = i' ∧ j = j' := by
  unfold address dataSize at *
  exact ⟨BitVec.eq_of_toNat_eq (by omega), by omega⟩

/-- A beat is stored. -/
theorem Core.store {i : BitVec 6} {n : ℕ} (h : Core ordered B ps ds r hand (some (i, n)) s)
    (hps : ∀ p ∈ ps, p.beats.length ≤ dataSize) {p : Datagram} {d : AxiData}
    (hp : lastOf ps s.metadataInput.past.length i = some p) (hd : p.beats[n]? = some d) :
    Core ordered B ps ds r hand (some (i, n + 1)) { s with data := Function.update s.data (address i n) d } := by
  refine { h with stored := ?_, sound := h.sound }
  intro i' q j b hq hj hlt
  have hlen : ∀ {i : BitVec 6} {q : Datagram} {j : ℕ} {b : AxiData},
      lastOf ps s.metadataInput.past.length i = some q → q.beats[j]? = some b → j < dataSize := by
    intro i q j b hq hj
    have hle := hps q (mem_of_lastOf hq)
    have hlt := (List.getElem?_eq_some_iff.mp hj).1
    omega
  show Function.update s.data (address i n) d (address i' j) = b
  by_cases haddr : address i' j = address i n
  · obtain ⟨rfl, rfl⟩ := address_inj (hlen hq hj) (hlen hp hd) haddr
    obtain rfl : p = q := Option.some.inj (hp.symm.trans hq)
    obtain rfl : d = b := Option.some.inj (hd.symm.trans hj)
    rw [haddr, Function.update_self]
  · rw [Function.update_of_ne haddr]
    apply h.stored i' q j b hq hj
    intro m hm
    cases hm
    have hlt := hlt (n + 1) rfl
    have hne : j ≠ n := fun hc => haddr (by rw [hc])
    omega

/-- The packet was received: its context goes out as an update. -/
theorem Core.receive {i : BitVec 6} {n : ℕ} (h : Core ordered B ps ds r hand (some (i, n)) s) {p : Datagram} {c : Context}
    (hp : lastOf ps s.metadataInput.past.length i = some p) (hn : p.beats.length = n) (hr : r i = (B i).toNat)
    (hmeta : c.metadata = p.metadata) (hlen : c.dataLength.toNat = p.beats.length) (hcur : c.curPacket = -1) :
    Core ordered B ps ds r hand none { s with contextUpdates := s.contextUpdates.write c } := by
  have hid : c.id = i := (congrArg Metadata.ikernelId hmeta).trans (id_of_lastOf hp)
  refine { h with stored := ?_, sound := ?_ }
  · intro i' q j b hq hj _
    apply h.stored i' q j b hq hj
    intro m hm
    cases hm
    obtain rfl : p = q := Option.some.inj (hp.symm.trans hq)
    rw [← hn]
    exact (List.getElem?_eq_some_iff.mp hj).1
  · intro i'
    have hi := h.sound i'
    unfold place at hi ⊢
    dsimp only [Fifo.queue_write]
    rw [lane_snoc, hid]
    by_cases hii : i' = i
    · subst hii
      have hp' : lastOf ps s.metadataInput.past.length i' = some p := hp
      rw [hp', hr] at hi
      have hreceive := hi.receive rfl hmeta hlen hcur
      have hrec : ((none : Option (BitVec 6 × ℕ)).map Prod.fst = some i') = False := eq_false (by intro hc; cases hc)
      rw [if_pos rfl, hp', hr, hrec]
      exact hreceive
    · have hrec : ((none : Option (BitVec 6 × ℕ)).map Prod.fst = some i') = ((some (i, n)).map Prod.fst = some i') := by
        apply propext
        constructor
        · intro hc
          cases hc
        · intro hc
          exact absurd (Option.some.inj hc).symm hii
      rw [if_neg hii, List.append_nil, hrec]
      exact hi

/-- `data_plane` takes up a command. -/
theorem Core.takeCommand (h : Core ordered B ps ds r [] current s) {c : Context} {quota : BitVec 32}
    (hc : s.transmitCommands.head = some (c, quota)) :
    Core ordered B ps ds r [c] current (takeCommand c quota s) := by
  obtain ⟨q, hq⟩ := s.transmitCommands.queue_eq_of_head hc
  have hserved : served [c] (Pktgen.takeCommand c quota s) = served [] s := by
    show [c] ++ (s.transmitCommands.readIf true).queue.map Prod.fst = s.transmitCommands.queue.map Prod.fst
    have hread : (s.transmitCommands.readIf true).queue = q := s.transmitCommands.queue_pop hq
    rw [hread, hq]
    rfl
  refine { h with circulates := ?_, sound := ?_ }
  · have hcirc := h.circulates
    rw [services, ← hserved] at hcirc
    exact hcirc
  · intro i
    have hi := h.sound i
    unfold place at hi ⊢
    rw [hserved]
    by_cases hid : i ∈ [c].map Context.id
    · have hhand : (i ∈ [c].map Context.id) = True := eq_true hid
      rw [hhand]
      exact hi.takeCommand
    · have hhand : (i ∈ [c].map Context.id) = (i ∈ ([] : List Context).map Context.id) := by
        apply propext
        exact iff_of_false hid List.not_mem_nil
      rw [hhand]
      exact hi

theorem nodup_ids (h : Core ordered B ps ds r hand current s) : ((served hand s).map Context.id).Nodup :=
  (List.nodup_append.mp h.circulates.nodup).1

/-- `data_plane` hands the context back. -/
theorem Core.handBack (hS : S.Lawful) {c : Context} (h : Core ordered B ps ds r [c] current s) (quota : BitVec 32) :
    Core ordered B ps ds r [] current { s with
      contextUpdates := s.contextUpdates.write c
      sched := S.updateFlow s.sched c.id (c.curPacket ≠ 0) quota } := by
  have hserved : served [c] s = c :: served [] s := rfl
  have hnot : c.id ∉ (served [] s).map Context.id := by
    have hnodup := nodup_ids h
    rw [hserved, List.map_cons] at hnodup
    exact (List.nodup_cons.mp hnodup).1
  refine { h with circulates := h.circulates.updateFlow hS _ quota, sound := ?_ }
  intro i
  have hi := h.sound i
  unfold place at hi ⊢
  dsimp only [Fifo.queue_write]
  rw [hserved, lane_cons] at hi
  rw [lane_snoc]
  show Place.Sound _ _ _ _ { served := lane Context.id (served [] s) i, .. }
  by_cases hid : i = c.id
  · subst hid
    have hnil := lane_eq_nil_of_nodup hnot
    rw [if_pos rfl, hnil] at hi
    have hback := hi.handBack rfl (h.history.le c.id)
    have hactive : S.active (S.updateFlow s.sched c.id (decide (c.curPacket ≠ 0)) quota) c.id = (c.curPacket ≠ 0) := by
      rw [hS.active_updateFlow, decide_eq_true_eq]
    have hhand : (c.id ∈ ([] : List Context).map Context.id) = False := eq_false List.not_mem_nil
    rw [if_pos rfl, hnil, hactive, hhand]
    exact hback
  · have hactive : S.active (S.updateFlow s.sched c.id (decide (c.curPacket ≠ 0)) quota) i = S.active s.sched i :=
      propext (hS.active_updateFlow_other _ quota hid)
    have hhand : (i ∈ ([] : List Context).map Context.id) = (i ∈ [c].map Context.id) := by
      apply propext
      exact iff_of_false List.not_mem_nil fun hc => hid (List.mem_singleton.mp hc)
    rw [if_neg hid] at hi
    rw [if_neg hid, List.append_nil, hactive, hhand]
    exact hi

/-- A copy begins. -/
theorem Core.startCopy (h : Core ordered B ps ds r [s.context] current s) (hcur : s.context.curPacket ≠ 0) :
    ∃ p n, lastOf ps s.metadataInput.past.length s.context.id = some p ∧ r s.context.id = n + 1 ∧
      Holds (startCopy s).context p n ∧
      Core ordered B ps (ds ++ [⟨p, some (n + 1)⟩]) (Function.update r s.context.id n) [(startCopy s).context] current
        (startCopy s) := by
  obtain ⟨hrec, hpending, p, hp, hholds⟩ := h.holds (c := s.context) (List.mem_cons_self ..)
  obtain ⟨n, hn⟩ : ∃ n, r s.context.id = n + 1 := by
    apply Nat.exists_eq_succ_of_ne_zero
    intro hzero
    have hnat := hholds.curPacket
    rw [hzero] at hnat
    exact hcur (BitVec.eq_of_toNat_eq hnat)
  have hcount : s.context.curPacket.toNat = n + 1 := hholds.curPacket.trans hn
  have hcopy : Holds (Pktgen.startCopy s).context p n := by
    refine ⟨hholds.metadata, hholds.dataLength, ?_⟩
    have hlt := s.context.curPacket.isLt
    show (s.context.curPacket - 1).toNat = n
    rw [BitVec.toNat_sub, show (1 : BitVec 32).toNat = 1 by decide]
    omega
  refine ⟨p, n, hp, hn, hcopy, ?_⟩
  refine ⟨h.history.copy hp hn, ?_, h.stored, h.circulates, ?_, fun ho => (h.exact ho).copy hp hn⟩
  · have hnumber : s.context.curPacket.setWidth 16 = BitVec.ofNat 16 (n + 1) := by
      rw [← hcount]
      exact (BitVec.ofNat_toNat 16 s.context.curPacket).symm
    show s.metadataOutput ++ [{ s.context.metadata with ipIdentification := s.context.curPacket.setWidth 16 }] = _
    rw [h.metadataOutput, List.map_append, hnumber, hholds.metadata]
    rfl
  · intro i
    have hi := h.sound i
    have hserved : served [s.context] s = s.context :: served [] s := rfl
    have hserved' : served [(Pktgen.startCopy s).context] (Pktgen.startCopy s) =
        (Pktgen.startCopy s).context :: served [] s := rfl
    have hid : (Pktgen.startCopy s).context.id = s.context.id := rfl
    have hnot : s.context.id ∉ (served [] s).map Context.id := by
      have hnodup := nodup_ids h
      rw [hserved, List.map_cons] at hnodup
      exact (List.nodup_cons.mp hnodup).1
    unfold place at hi ⊢
    rw [hserved, lane_cons] at hi
    rw [hserved', lane_cons, hid]
    by_cases hii : i = s.context.id
    · subst hii
      rw [if_pos rfl, hn, lane_eq_nil_of_nodup hnot] at hi
      rw [if_pos rfl, Function.update_self, lane_eq_nil_of_nodup hnot]
      exact hi.copy rfl (List.mem_cons_self ..)
    · rw [if_neg hii] at hi
      rw [if_neg hii, Function.update_of_ne hii]
      exact hi

/-! ### Every step -/

/-- The ikernel for which a call of `sched_wrapper` writes a command, if the commands are not full. -/
def commandFor (s : State S) : Option (BitVec 6) :=
  if (S.update s.sched).1 ∨ s.contextUpdates.head.isSome then none
  else
    match s.schedulerState with
    | .findNextIkernel => (S.nextFlow (S.update s.sched).2).map Prod.fst
    | .transmitCommand => some s.schedIkernelId

/-- No command is in the queue for the ikernel of the packet that is received: not when the packet is taken, and none
is written before its last beat. -/
def NoStaleCommand (s : State S) : Act → Prop
  | .dataPlane _ => s.state = .idle → ∀ m ∈ s.metadataInput.head, ∀ c ∈ s.transmitCommands.queue, c.1.id ≠ m.ikernelId
  | .schedWrapper none false => s.state = .inputPacket → commandFor s ≠ some s.metadata.ikernelId
  | _ => True

/-- The burst of the last packet of an ikernel is complete: as many packets have left as its packets call for. -/
def BurstDone (B : BitVec 6 → BitVec 32) (s : State S) (i : BitVec 6) : Prop :=
  (s.metadataOutput.map Metadata.ikernelId).count i =
    (1 + (B i).toNat) * (s.metadataInput.past.map Metadata.ikernelId).count i

/-- An ikernel receives a packet when the burst before it is complete. -/
def Orderly (B : BitVec 6 → BitVec 32) (s : State S) : Act → Prop
  | .dataPlane _ => s.state = .idle → ∀ m ∈ s.metadataInput.head, BurstDone B s m.ikernelId
  | _ => True

/-- The context in the hands of `data_plane`. -/
def handOf (s : State S) : List Context :=
  match s.state with
  | .duplicate => [s.context]
  | _ => []

/-- The packet that is being received: its ikernel and the number of beats stored. -/
def currentOf (s : State S) : Option (BitVec 6 × ℕ) :=
  match s.state with
  | .inputPacket => some (s.metadata.ikernelId, s.dataOffset)
  | _ => none

/-- The beats of the last departure that are still to leave. -/
def Leaving (B : BitVec 6 → BitVec 32) (ps : List Datagram) (r : BitVec 6 → ℕ) (due left : List AxiData)
    (s : State S) : Prop :=
  match s.state with
  | .idle => left = []
  | .inputPacket => left = due ∧ r s.metadata.ikernelId = (B s.metadata.ikernelId).toNat
  | .duplicate =>
    s.context.dataLength ≤ s.quota ∧
      (s.dataOffset = 0 ∧ left = [] ∧ s.context.curPacket ≠ 0 ∨
        s.dataOffset ≠ 0 ∧ ∃ p, lastOf ps s.metadataInput.past.length s.context.id = some p ∧
          left = p.beats.drop s.dataOffset ∧ s.dataOffset < p.beats.length)

structure Inv (ordered : Prop) (B : BitVec 6 → BitVec 32) (ps : List Datagram) (ds : List Departure)
    (r : BitVec 6 → ℕ) (due : List AxiData) (s : State S) : Prop where
  receiving : Receiving ps s due
  core : Core ordered B ps ds r (handOf s) (currentOf s) s
  leaving : ∃ left, s.dataOutput ++ left = ds.flatMap Departure.beats ∧ Leaving B ps r due left s

theorem inv_init (hS : S.Lawful) (dataLength : BitVec 6 → BitVec 32) :
    Inv ordered B ps [] (fun _ => 0) [] (State.init S B dataLength) :=
  ⟨receiving_init B dataLength, core_init hS dataLength, [], rfl, rfl⟩

theorem Core.schedWrapper (hS : S.Lawful) (h : Core ordered B ps ds r hand current s) (gateway : Option GatewayCmd)
    (full : Bool) (hB : Programmed B (.schedWrapper gateway full))
    (hcurrent : gateway = none → full = false → ¬ordered → ∀ i ∈ commandFor s, current.map Prod.fst ≠ some i) :
    Core ordered B ps ds r hand current (schedWrapper gateway full s) := by
  unfold Pktgen.schedWrapper
  cases gateway with
  | some cmd =>
    dsimp only
    rw [h.gateway hB]
    exact h
  | none =>
    have hupdate := h.update hS
    dsimp only
    split
    · exact hupdate
    · rename_i hbusy
      unfold serve
      split
      · rename_i c hc
        exact hupdate.applyUpdate hS hc
      · rename_i hnone
        have hcond : ¬((S.update s.sched).1 = true ∨ s.contextUpdates.head.isSome = true) := by
          rintro (hc | hc)
          · exact hbusy hc
          · have hnone : s.contextUpdates.head = none := hnone
            rw [hnone] at hc
            cases hc
        split
        · rename_i hfind
          split
          · exact hupdate
          · rename_i id quota sched hnext
            apply (hupdate.select hS hfind hnext).transmitCommand full rfl hnone
            intro hfull ho
            apply hcurrent rfl hfull ho id
            have hfind : s.schedulerState = .findNextIkernel := hfind
            have hnext : S.nextFlow (S.update s.sched).2 = some (id, quota, sched) := hnext
            rw [commandFor, if_neg hcond, hfind]
            dsimp only
            rw [hnext]
            rfl
        · rename_i htransmit
          apply hupdate.transmitCommand full htransmit hnone
          intro hfull ho
          apply hcurrent rfl hfull ho s.schedIkernelId
          have htransmit : s.schedulerState = .transmitCommand := htransmit
          rw [commandFor, if_neg hcond, htransmit]
          rfl

theorem Inv.schedWrapper (hS : S.Lawful) (h : Inv ordered B ps ds r due s) (gateway : Option GatewayCmd)
    (full : Bool) (hB : Programmed B (.schedWrapper gateway full))
    (hstale : ¬ordered → NoStaleCommand s (.schedWrapper gateway full)) :
    Inv ordered B ps ds r due (schedWrapper gateway full s) := by
  have hsame := sameData_schedWrapper gateway full s
  have hhand : handOf (Pktgen.schedWrapper gateway full s) = handOf s := by
    unfold handOf
    rw [hsame.state, hsame.context]
  have hcurrent : currentOf (Pktgen.schedWrapper gateway full s) = currentOf s := by
    unfold currentOf
    rw [hsame.state, hsame.metadata, hsame.dataOffset]
  refine ⟨hsame.receiving h.receiving, ?_, ?_⟩
  · rw [hhand, hcurrent]
    apply h.core.schedWrapper hS gateway full hB
    rintro rfl rfl ho i hi hrec
    have hstale := hstale ho
    unfold currentOf at hrec
    split at hrec
    · rename_i hstate
      obtain rfl := Option.some.inj hrec
      exact hstale hstate hi
    · cases hrec
  · obtain ⟨left, hleft, hleaving⟩ := h.leaving
    refine ⟨left, ?_, ?_⟩
    · rw [hsame.dataOutput]
      exact hleft
    · unfold Leaving
      rw [hsame.state, hsame.metadata, hsame.context, hsame.quota, hsame.dataOffset, hsame.metadataInput]
      exact hleaving

/-- A context goes back to the table, or its packet is sent once more. -/
theorem inv_checkQuantumComplete (hS : S.Lawful) (canTransmit : Bool) (hrec : Receiving ps s due)
    (hstate : s.state ≠ .inputPacket) (hcore : Core ordered B ps ds r [s.context] none s)
    (hout : s.dataOutput = ds.flatMap Departure.beats) :
    Inv ordered B ps ds r due (checkQuantumComplete canTransmit s) := by
  refine ⟨receiving_checkQuantumComplete canTransmit hrec hstate, ?_, [], ?_, ?_⟩
  · unfold checkQuantumComplete
    split
    · exact { hcore with sound := hcore.sound }
    · have hback := hcore.handBack hS s.quota
      exact { hback with sound := hback.sound }
  · rw [List.append_nil, ← hout]
    unfold checkQuantumComplete
    split
    · rfl
    · rfl
  · unfold checkQuantumComplete
    split
    · rename_i h
      exact ⟨h.1, .inl ⟨rfl, rfl, h.2.1⟩⟩
    · rfl

theorem inputPacket_more {d : AxiData} (hd : s.dataInput.head = some d) (hl : d.last = false) :
    inputPacket s = { s with
      dataInput := s.dataInput.readIf true
      data := Function.update s.data (address s.metadata.ikernelId s.dataOffset) d
      dataOffset := s.dataOffset + 1
      dataOutput := s.dataOutput ++ [d]
      state := .inputPacket } := by
  simp only [inputPacket, hd, hl, Bool.false_eq_true, if_false]

theorem inputPacket_last {d : AxiData} (hd : s.dataInput.head = some d) (hl : d.last = true) :
    inputPacket s = { s with
      dataInput := s.dataInput.readIf true
      data := Function.update s.data (address s.metadata.ikernelId s.dataOffset) d
      dataOffset := s.dataOffset + 1
      dataOutput := s.dataOutput ++ [d]
      contextUpdates := s.contextUpdates.write ⟨-1, 0, BitVec.ofNat 32 (s.dataOffset + 1), s.metadata⟩
      state := .idle } := by
  simp only [inputPacket, hd, hl, if_true]

/-- A beat of a packet is received. -/
theorem Inv.inputPacket (h : Inv ordered B ps ds r due s) (hin : Input ps s)
    (hps : ∀ p ∈ ps, p.beats.length ≤ dataSize) (hstate : s.state = .inputPacket) :
    ∃ due', Inv ordered B ps ds r due' (inputPacket s) := by
  cases hd : s.dataInput.head with
  | none =>
    rw [inputPacket_none hd]
    exact ⟨due, h⟩
  | some d =>
    obtain ⟨rest, rfl, hbeat⟩ := h.receiving.beat hin hstate hd
    obtain ⟨rest', hrest, hend, -⟩ := h.receiving.head_eq hin hstate hd
    obtain rfl : rest = rest' := (List.cons.inj hrest).2
    obtain ⟨k, p, front, hk, hp, hm, hbeats, hoffset, -⟩ := h.receiving.receiving hstate
    obtain ⟨left, hleft, hleaving⟩ := h.leaving
    have hcore := h.core
    rw [handOf, currentOf, hstate] at hcore
    rw [Leaving, hstate] at hleaving
    obtain ⟨rfl, hr⟩ := hleaving
    have hid : s.metadata.ikernelId = p.id := congrArg Metadata.ikernelId hm
    have hlast : lastOf ps s.metadataInput.past.length s.metadata.ikernelId = some p := by
      rw [hk, lastOf_succ hp, if_pos hid]
    have hget : p.beats[s.dataOffset]? = some d := by
      rw [hbeats, ← hoffset, List.getElem?_append_right (Nat.le_refl _), Nat.sub_self]
      rfl
    have hstore := hcore.store hps hlast hget
    have hlen : p.beats.length = s.dataOffset + 1 + rest.length := by
      rw [hbeats, List.length_append, List.length_cons, hoffset]
      omega
    have hsent : s.dataOutput ++ [d] ++ rest = ds.flatMap Departure.beats := by
      rw [List.append_assoc, List.singleton_append]
      exact hleft
    cases hl : d.last with
    | false =>
      rw [inputPacket_more hd hl] at hbeat ⊢
      exact ⟨rest, hbeat, { hstore with sound := hstore.sound }, rest, hsent, rfl, hr⟩
    | true =>
      have hnil := hend hl
      subst hnil
      have hle := hps p (List.mem_of_getElem? hp)
      have hlength : (BitVec.ofNat 32 (s.dataOffset + 1)).toNat = p.beats.length := by
        rw [BitVec.toNat_ofNat, hlen, List.length_nil, Nat.add_zero]
        apply Nat.mod_eq_of_lt
        rw [hlen] at hle
        unfold dataSize at hle
        omega
      have hreceive := hstore.receive (c := ⟨-1, 0, BitVec.ofNat 32 (s.dataOffset + 1), s.metadata⟩) hlast hlen hr hm
        hlength rfl
      rw [inputPacket_last hd hl] at hbeat ⊢
      exact ⟨[], hbeat, { hreceive with sound := hreceive.sound }, [], hsent, rfl⟩

/-- A new packet is taken. -/
theorem Inv.takeMetadata (h : Inv ordered B ps ds r due s) (hin : Input ps s) (hstate : s.state = .idle)
    {m : Metadata} (hm : s.metadataInput.head = some m)
    (hstale : ¬ordered → ∀ c ∈ s.transmitCommands.queue, c.1.id ≠ m.ikernelId)
    (hdone : ordered → r m.ikernelId = 0) :
    ∃ ds' r' due', Inv ordered B ps ds' r' due' (takeMetadata m s) := by
  obtain ⟨p, hp, rfl, hrec⟩ := h.receiving.takeMetadata hin hstate hm
  obtain ⟨left, hleft, hleaving⟩ := h.leaving
  have hcore := h.core
  rw [handOf, currentOf, hstate] at hcore
  rw [Leaving, hstate] at hleaving
  subst hleaving
  have htake := hcore.takeMetadata hm hp hstale hdone
  refine ⟨_, _, _, hrec, htake, p.beats, ?_, rfl, ?_⟩
  · rw [List.flatMap_append, ← hleft, List.append_nil, List.flatMap_singleton]
    rfl
  · exact Function.update_self ..

/-- A copy goes on. -/
theorem Inv.duplicate (hS : S.Lawful) (h : Inv ordered B ps ds r due s) (hstate : s.state = .duplicate)
    (canTransmit : Bool) : ∃ ds' r', Inv ordered B ps ds' r' due (duplicate canTransmit s) := by
  obtain ⟨left, hleft, hleaving⟩ := h.leaving
  have hcore := h.core
  rw [handOf, currentOf, hstate] at hcore
  rw [Leaving, hstate] at hleaving
  obtain ⟨hquota, hoffset⟩ := hleaving
  -- behind the metadata, the beats from the offset on are to leave
  have hbegin : ∃ ds' r' p, Core ordered B ps ds' r' [(beginCopy s).context] none (beginCopy s) ∧
      lastOf ps s.metadataInput.past.length s.context.id = some p ∧ p.beats.length = s.context.dataLength.toNat ∧
      s.dataOutput ++ p.beats.drop s.dataOffset = ds'.flatMap Departure.beats ∧ s.dataOffset < p.beats.length := by
    rcases hoffset with ⟨hzero, rfl, hcur⟩ | ⟨hne, p, hp, rfl, hlt⟩
    · obtain ⟨p, n, hp, -, hholds, hcopy⟩ := hcore.startCopy hcur
      rw [beginCopy, if_pos hzero]
      refine ⟨_, _, p, hcopy, hp, hholds.dataLength.symm, ?_, ?_⟩
      · rw [hzero, List.flatMap_append, ← hleft, List.append_nil, List.flatMap_singleton]
        rfl
      · rw [hzero]
        exact List.length_pos_of_ne_nil p.isPacket.ne_nil
    · rw [beginCopy, if_neg hne]
      obtain ⟨-, -, q, hq, hholds⟩ := hcore.holds (c := s.context) (List.mem_cons_self ..)
      obtain rfl : p = q := Option.some.inj (hp.symm.trans hq)
      exact ⟨ds, r, p, hcore, hp, hholds.dataLength.symm, hleft, hlt⟩
  obtain ⟨ds', r', p, hcopy, hp, hlength, hsent, hlt⟩ := hbegin
  obtain ⟨hm, hd, hs, hoff, -, -, -, -, -, -, hlen, hid⟩ := beginCopy_same s
  have hbeat : (beginCopy s).data (address (beginCopy s).context.id (beginCopy s).dataOffset) =
      p.beats[s.dataOffset] := by
    rw [hid, hoff]
    apply hcopy.stored s.context.id p s.dataOffset
    · rw [hm]
      exact hp
    · exact List.getElem?_eq_getElem hlt
    · intro n hn
      cases hn
  have houtput : (sendBeat (beginCopy s)).dataOutput = s.dataOutput ++ [p.beats[s.dataOffset]] := by
    show (beginCopy s).dataOutput ++ [(beginCopy s).data _] = _
    rw [hbeat]
    unfold beginCopy
    split
    · rfl
    · rfl
  have hoffset' : (sendBeat (beginCopy s)).dataOffset = s.dataOffset + 1 := congrArg (· + 1) hoff
  have hquota' : (beginCopy s).quota = s.quota := by
    unfold beginCopy
    split
    · rfl
    · rfl
  have hne : (beginCopy s).state ≠ .inputPacket := by
    rw [hs, hstate]
    decide
  have hrec : Receiving ps (sendBeat (beginCopy s)) due := by
    apply h.receiving.rest
    · exact congrArg Fifo.past hm
    · exact congrArg Fifo.past hd
    · rw [hstate]
      decide
    · exact hne
  rw [List.drop_eq_getElem_cons hlt, ← List.singleton_append, ← List.append_assoc, ← houtput] at hsent
  refine ⟨ds', r', ?_⟩
  unfold Pktgen.duplicate
  dsimp only
  split
  · -- that was the last beat
    rename_i hend
    have hnil : p.beats.drop (s.dataOffset + 1) = [] := by
      apply List.drop_eq_nil_of_le
      rw [hlength, ← hlen, ← hoffset']
      exact hend
    rw [hnil, List.append_nil] at hsent
    apply inv_checkQuantumComplete hS canTransmit
    · exact hrec.rest rfl rfl hne hne
    · exact hne
    · exact { hcopy with sound := hcopy.sound }
    · exact hsent
  · rename_i hmore
    have hmore : s.dataOffset + 1 < p.beats.length := by
      rw [hlength, ← hlen, ← hoffset']
      exact Nat.lt_of_not_le hmore
    have hstate' : (sendBeat (beginCopy s)).state = .duplicate := hs.trans hstate
    refine ⟨hrec, ?_, p.beats.drop (s.dataOffset + 1), hsent, ?_⟩
    · rw [handOf, currentOf, hstate']
      exact { hcopy with sound := hcopy.sound }
    · rw [Leaving, hstate']
      refine ⟨?_, .inr ⟨?_, p, ?_, ?_, ?_⟩⟩
      · show (beginCopy s).context.dataLength ≤ (beginCopy s).quota
        rw [hlen, hquota']
        exact hquota
      · exact Nat.succ_ne_zero _
      · show lastOf ps (beginCopy s).metadataInput.past.length (beginCopy s).context.id = some p
        rw [hm, hid]
        exact hp
      · rw [hoffset']
      · rw [hoffset']
        exact hmore

/-- When as many packets have left as the bursts call for, no copy is to come. -/
theorem Core.done_of_burstDone (h : Core ordered B ps ds r hand current s) (ho : ordered) (hin : Input ps s)
    {i : BitVec 6} (hdone : BurstDone B s i) : r i = 0 := by
  have hlen := (h.exact ho).length i
  have hpast : s.metadataInput.past = (ps.take s.metadataInput.past.length).map Datagram.metadata := by
    rw [List.map_take]
    exact List.prefix_iff_eq_take.mp (s.metadataInput.past_prefix_sent.trans hin.1)
  have hids : s.metadataOutput.map Metadata.ikernelId = ds.map Departure.id := by
    rw [h.metadataOutput, List.map_map]
    exact List.map_congr_left fun d _ => d.ikernelId_metadata
  unfold BurstDone at hdone
  rw [hids, hpast, List.map_map, ← length_lane Departure.id ds i] at hdone
  rw [hdone, length_lane] at hlen
  exact Nat.add_eq_left.mp hlen

/-- A call of `data_plane`. -/
theorem Inv.dataPlane (hS : S.Lawful) (hps : ∀ p ∈ ps, p.beats.length ≤ dataSize)
    (h : Inv ordered B ps ds r due s) (hin : Input ps s) (canTransmit : Bool)
    (hstale : ¬ordered → NoStaleCommand s (.dataPlane canTransmit))
    (hdone : ordered → Orderly B s (.dataPlane canTransmit)) :
    ∃ ds' r' due', Inv ordered B ps ds' r' due' (dataPlane canTransmit s) := by
  unfold Pktgen.dataPlane
  cases hstate : s.state with
  | idle =>
    dsimp only
    cases hm : s.metadataInput.head with
    | some m =>
      obtain ⟨ds', r', due', htake⟩ := h.takeMetadata hin hstate hm (fun ho => hstale ho hstate m hm)
        (fun ho => h.core.done_of_burstDone ho hin (hdone ho hstate m hm))
      have hin' : Input ps (Pktgen.takeMetadata m s) := by
        refine ⟨?_, hin.2⟩
        show (s.metadataInput.readIf true).sent <+: _
        rw [Fifo.sent_readIf]
        exact hin.1
      obtain ⟨due'', hinput⟩ := htake.inputPacket hin' hps rfl
      exact ⟨ds', r', due'', hinput⟩
    | none =>
      dsimp only
      cases hc : s.transmitCommands.head with
      | none => exact ⟨ds, r, due, h⟩
      | some c =>
        obtain ⟨left, hleft, hleaving⟩ := h.leaving
        have hcore := h.core
        rw [handOf, currentOf, hstate] at hcore
        rw [Leaving, hstate] at hleaving
        subst hleaving
        rw [List.append_nil] at hleft
        refine ⟨ds, r, due, inv_checkQuantumComplete hS canTransmit ?_ ?_ (hcore.takeCommand hc) hleft⟩
        · exact h.receiving.rest rfl rfl (by rw [hstate]; decide) (by rw [takeCommand, hstate]; decide)
        · rw [takeCommand, hstate]
          decide
  | inputPacket =>
    obtain ⟨due', hinput⟩ := h.inputPacket hin hps hstate
    exact ⟨ds, r, due', hinput⟩
  | duplicate =>
    obtain ⟨ds', r', hcopy⟩ := h.duplicate hS hstate canTransmit
    exact ⟨ds', r', due, hcopy⟩

theorem Inv.step (hS : S.Lawful) (hps : ∀ p ∈ ps, p.beats.length ≤ dataSize) (h : Inv ordered B ps ds r due s)
    (hin : Input ps s) (a : Act) (hB : Programmed B a) (hstale : ¬ordered → NoStaleCommand s a)
    (hdone : ordered → Orderly B s a) : ∃ ds' r' due', Inv ordered B ps ds' r' due' (step s a) := by
  cases a with
  | arriveMetadata m =>
    exact ⟨ds, r, due, h.receiving.congr rfl rfl rfl rfl rfl, { h.core with sound := h.core.sound }, h.leaving⟩
  | arriveData d =>
    exact ⟨ds, r, due, h.receiving.congr rfl rfl rfl rfl rfl, { h.core with sound := h.core.sound }, h.leaving⟩
  | schedWrapper gateway full => exact ⟨ds, r, due, h.schedWrapper hS gateway full hB hstale⟩
  | dataPlane canTransmit => exact h.dataPlane hS hps hin canTransmit hstale hdone

end Nica.Hls.Pktgen
