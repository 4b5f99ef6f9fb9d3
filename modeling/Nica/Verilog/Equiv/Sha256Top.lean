import Nica.Lib.Lanes
import Nica.Lib.Owed
import Nica.Verilog.Sha256Top
import Mathlib.Data.List.Range
import Mathlib.Data.Nat.ModEq

/-!
# Digests in the order of the messages

Message `i` goes to unit `i % n`, and digest `i` comes from there.  Each unit works through its share of the
messages in order, the fifo of a unit never holds blocks of more than one message, and the output control takes
digest `c` from the unit that `c % n` names only when this unit holds it.  So the digests that are read are those
of the messages in their order, and once nothing moves any more they are all there (`digests_run`).
-/

namespace Nica.Verilog.Sha256Top

open Nica.Lib
open Nica.Verilog.Sha256 (Regs)

/-! ### Messages -/

/-- The blocks of a message as the producer sends them. -/
def beatsOf : List (List (BitVec 8)) → List Beat
  | [] => []
  | [b] => [⟨b, true⟩]
  | b :: b' :: bs => ⟨b, false⟩ :: beatsOf (b' :: bs)

/-- A message of 1 to 16 blocks. -/
structure Message where
  blocks : List (List (BitVec 8))
  one_le : 1 ≤ blocks.length
  le : blocks.length ≤ shaFifoDepth

namespace Message

def beats (m : Message) : List Beat := beatsOf m.blocks

def digest (m : Message) : List (BitVec 8) := Sha256.sha256 m.blocks

end Message

theorem map_data_beatsOf (bs : List (List (BitVec 8))) : (beatsOf bs).map Beat.data = bs := by
  fun_induction beatsOf bs with
  | case1 => rfl
  | case2 b => rfl
  | case3 b b' bs ih => rw [List.map_cons, ih]

/-- Only the last block is marked. -/
theorem last_of_beatsOf {bs : List (List (BitVec 8))} {eaten due : List Beat} {b : Beat}
    (h : beatsOf bs = eaten ++ b :: due) : b.last = due.isEmpty := by
  induction eaten generalizing bs with
  | nil =>
    match bs with
    | [] => cases h
    | [c] => cases h; rfl
    | c :: c' :: bs =>
      obtain ⟨rfl, rfl⟩ := List.cons.inj h
      match bs with
      | [] => rfl
      | _ :: _ => rfl
  | cons x eaten ih =>
    match bs with
    | [] => cases h
    | [c] =>
      have := congrArg List.length h
      simp [beatsOf] at this
    | c :: c' :: bs => exact ih (List.cons.inj h).2

theorem Message.length_beats (m : Message) : m.beats.length = m.blocks.length := by
  rw [← List.length_map Beat.data, Message.beats, map_data_beatsOf]

theorem Message.beats_ne_nil (m : Message) : m.beats ≠ [] := by
  intro h
  have hlen := m.length_beats
  have hone := m.one_le
  rw [h, List.length_nil] at hlen
  omega

/-- What a core holds after these blocks. -/
def absorbed (beats : List Beat) : Regs :=
  (beats.map Beat.data).foldl Sha256.block Sha256.digestInit

theorem absorbed_snoc (beats : List Beat) (b : Beat) : absorbed (beats ++ [b]) = Sha256.block (absorbed beats) b.data := by
  rw [absorbed, List.map_append, List.foldl_append]
  rfl

theorem Message.bytes_absorbed (m : Message) : (absorbed m.beats).bytes = m.digest := by
  rw [absorbed, Message.beats, map_data_beatsOf]
  rfl

/-! ### The share of a unit -/

/-- The blocks of message `i`, if there is one. -/
def beatsAt (msgs : List Message) (i : Nat) : List Beat := (msgs[i]?.map Message.beats).getD []

/-- The blocks that unit `j` of `n` has to get of the first `d` messages. -/
def stream (msgs : List Message) (n j d : Nat) : List Beat :=
  (lane (· % n) (List.range d) j).flatMap (beatsAt msgs)

section Share

variable {msgs : List Message} {n j : Nat}

theorem beatsAt_eq {i : Nat} {m : Message} (h : msgs[i]? = some m) : beatsAt msgs i = m.beats := by
  rw [beatsAt, h]
  rfl

theorem beatsAt_of_le {i : Nat} (h : msgs.length ≤ i) : beatsAt msgs i = [] := by
  rw [beatsAt, List.getElem?_eq_none h]
  rfl

theorem exists_message {i : Nat} (h : beatsAt msgs i ≠ []) : ∃ m, msgs[i]? = some m := by
  cases hm : msgs[i]? with
  | some m => exact ⟨m, rfl⟩
  | none => exact absurd (by rw [beatsAt, hm]; rfl) h

theorem beatsAt_ne_nil {i : Nat} (h : i < msgs.length) : beatsAt msgs i ≠ [] := by
  rw [beatsAt_eq (List.getElem?_eq_getElem h)]
  exact Message.beats_ne_nil _

theorem last_of_beatsAt {i : Nat} {eaten due : List Beat} {b : Beat} (h : beatsAt msgs i = eaten ++ b :: due) :
    b.last = due.isEmpty := by
  obtain ⟨m, hm⟩ := exists_message (by rw [h]; simp)
  rw [beatsAt_eq hm] at h
  exact last_of_beatsOf h

theorem stream_zero (msgs : List Message) (n j : Nat) : stream msgs n j 0 = [] := rfl

theorem stream_succ (msgs : List Message) (n j d : Nat) :
    stream msgs n j (d + 1) = stream msgs n j d ++ if j = d % n then beatsAt msgs d else [] := by
  rw [stream, List.range_succ, lane_snoc, List.flatMap_append]
  congr 1
  split
  · exact List.flatMap_singleton ..
  · rfl

theorem stream_mono {d d' : Nat} (h : d ≤ d') : stream msgs n j d <+: stream msgs n j d' := by
  induction d', h using Nat.le_induction with
  | base => exact List.prefix_refl _
  | succ d' _ ih =>
    rw [stream_succ]
    exact ih.trans (List.prefix_append _ _)

/-- Messages of other units do not count. -/
theorem stream_eq {d d' : Nat} (h : d ≤ d') (hd : ∀ i, d ≤ i → i < d' → i % n ≠ j) :
    stream msgs n j d' = stream msgs n j d := by
  induction d', h using Nat.le_induction with
  | base => rfl
  | succ d' hle ih =>
    have hne : ¬j = d' % n := fun h => hd d' hle (Nat.lt_succ_self _) h.symm
    rw [stream_succ, if_neg hne, List.append_nil]
    exact ih fun i hi hi' => hd i hi (hi'.trans (Nat.lt_succ_self _))

/-- The next message of the same unit comes `n` later. -/
theorem mod_ne_of_between {i k : Nat} (h : i < k) (hk : k < i + n) : k % n ≠ i % n := by
  intro heq
  have hdvd : n ∣ k - i := (Nat.modEq_iff_dvd' h.le).mp heq.symm
  have hle := Nat.le_of_dvd (by omega) hdvd
  omega

theorem stream_add (msgs : List Message) {i : Nat} (hi : i % n = j) (hn : 0 < n) :
    stream msgs n j (i + n) = stream msgs n j i ++ beatsAt msgs i := by
  rw [stream_eq (d := i + 1) (by omega), stream_succ, if_pos hi.symm]
  intro k hk hk'
  rw [← hi]
  exact mod_ne_of_between (by omega) hk'

theorem stream_self (msgs : List Message) (hj : j < n) : stream msgs n j j = [] := by
  rw [stream_eq (d := 0) (Nat.zero_le j), stream_zero]
  intro k _ hk
  rw [Nat.mod_eq_of_lt (by omega)]
  omega

/-- What comes next to a unit that has taken `eaten` of message `i`. -/
theorem lt_of_next {i d : Nat} {eaten : List Beat} {b : Beat}
    (h : stream msgs n j i ++ eaten ++ [b] <+: stream msgs n j d) : i < d := by
  by_contra hd
  have hle := (h.trans (stream_mono (Nat.le_of_not_lt hd))).length_le
  simp only [List.length_append, List.length_singleton] at hle
  omega

theorem due_of_next {i d : Nat} (hi : i % n = j) {eaten due : List Beat} {b : Beat}
    (hmsg : beatsAt msgs i = eaten ++ due) (hdue : due ≠ [])
    (h : stream msgs n j i ++ eaten ++ [b] <+: stream msgs n j d) : ∃ rest, due = b :: rest := by
  have hd := lt_of_next h
  have hnext : stream msgs n j i ++ eaten ++ due <+: stream msgs n j d := by
    have : stream msgs n j (i + 1) <+: stream msgs n j d := stream_mono (Nat.succ_le_of_lt hd)
    rwa [stream_succ, if_pos hi.symm, hmsg, ← List.append_assoc] at this
  obtain ⟨c, rest, rfl⟩ := List.exists_cons_of_ne_nil hdue
  have hc : stream msgs n j i ++ eaten ++ [c] <+: stream msgs n j d := by
    refine List.IsPrefix.trans ⟨rest, ?_⟩ hnext
    rw [List.append_assoc, List.singleton_append]
  have heq := (List.prefix_of_prefix_length_le h hc (by simp)).eq_of_length (by simp)
  obtain rfl : b = c := by simpa using heq
  exact ⟨rest, rfl⟩

end Share

/-! ### One unit -/

/-- The unit asks nothing of its core or its fifo. -/
structure Quiet (u : ShaUnit) : Prop where
  init : u.shaInit = false
  next : u.shaNext = false
  rdy : u.shafifooutRdy = false

/-- What is in the registers of a unit that has given `eaten` of a message to its core and has `due` before it. -/
def UnitPhase (u : ShaUnit) (eaten due : List Beat) : Prop :=
  match u.shaState with
  | .idle => Quiet u ∧ u.shaOutValid = false ∧ u.core.busy = none ∧ u.shaBusy = false ∧ eaten = []
  | .readFirst =>
    Quiet u ∧ u.shaOutValid = false ∧ u.core.busy = none ∧ (∃ b, u.shaFifo.head = some b) ∧ eaten = [] ∧ due ≠ []
  | .readRest =>
    u.shafifooutRdy = true ∧ u.shaOutValid = false ∧ u.core.busy = none ∧
      (∃ b, u.shaFifo.head = some b ∧ u.shaLast = b.last) ∧ due ≠ [] ∧
      ((u.shaInit = true ∧ eaten = []) ∨
        (u.shaInit = false ∧ u.shaNext = true ∧ u.core.digest = absorbed eaten))
  | .waitOutputValid =>
    Quiet u ∧ u.shaOutValid = false ∧ u.core.busy.getD u.core.digest = absorbed eaten ∧ u.shaLast = due.isEmpty ∧
      eaten ≠ []
  | .waitNext => Quiet u ∧ u.shaOutValid = false ∧ u.core = ⟨none, absorbed eaten⟩ ∧ due ≠ []
  | .readNext =>
    Quiet u ∧ u.shaOutValid = false ∧ u.core = ⟨none, absorbed eaten⟩ ∧ (∃ b, u.shaFifo.head = some b) ∧ due ≠ []
  | .waitOutputRead => Quiet u ∧ u.shaOutValid = true ∧ u.core = ⟨none, absorbed eaten⟩ ∧ due = [] ∧ eaten ≠ []

/-- Unit `j` has finished its share of the messages before `i` and is at message `i`. -/
structure UnitAt (msgs : List Message) (n j i : Nat) (u : ShaUnit) (eaten due : List Beat) : Prop where
  message : beatsAt msgs i = eaten ++ due
  past : u.shaFifo.past = stream msgs n j i ++ eaten
  phase : UnitPhase u eaten due

def UnitInv (msgs : List Message) (n j i : Nat) (u : ShaUnit) : Prop :=
  ∃ eaten due, UnitAt msgs n j i u eaten due

section Unit

variable {msgs : List Message} {n j i d : Nat} {u : ShaUnit} {eaten due : List Beat}

theorem UnitAt.past_snoc (h : UnitAt msgs n j i u eaten due) (hsent : u.shaFifo.sent <+: stream msgs n j d) {b : Beat}
    (hb : u.shaFifo.head = some b) : stream msgs n j i ++ eaten ++ [b] <+: stream msgs n j d := by
  rw [← h.past]
  exact (u.shaFifo.past_snoc_prefix_sent hb).trans hsent

theorem shafifoout_of_head {b : Beat} (h : u.shaFifo.head = some b) (inp : UnitInputs) : u.shafifoout inp = b := by
  rw [ShaUnit.shafifoout, h]
  rfl

/-- Without a request the core of a unit that is not busy stays as it is. -/
theorem Core.clock_quiet {c : Core} (hc : c.busy = none) (block : List (BitVec 8)) (done : Bool) (scratch : Regs) :
    c.clock false false block done scratch = c := by
  rw [Core.clock, hc]
  rfl

/-- A core keeps what it will hold, whatever is asked of it, while it is busy. -/
theorem Core.result_clock {c : Core} (block : List (BitVec 8)) (done : Bool) (scratch : Regs) :
    (c.clock false false block done scratch).busy.getD (c.clock false false block done scratch).digest =
      c.busy.getD c.digest := by
  rcases c with ⟨_ | result, digest⟩
  · rfl
  · cases done <;> rfl

variable (hi : i % n = j) (hd : d ≤ msgs.length) (hsent : u.shaFifo.sent <+: stream msgs n j d)
  (inp : UnitInputs) (shafifoin : Option Beat)

/-- What goes into the fifo is not in the way of what is read. -/
theorem past_clock (read : Bool) :
    (u.clock inp shafifoin read).shaFifo.past = (u.shaFifo.readIf u.shafifooutRdy).past :=
  Fifo.past_put ..

include hsent hd in
/-- A unit that waits for its next message finds the first block of it. -/
theorem UnitAt.clock_idle (h : UnitAt msgs n j i u eaten due) (hs : u.shaState = .idle) :
    UnitInv msgs n j i (u.clock inp shafifoin false) := by
  have hphase := h.phase
  simp only [UnitPhase, hs] at hphase
  obtain ⟨⟨hinit, hnext, hrdy⟩, hvalid, hcore, hbusy, rfl⟩ := hphase
  refine ⟨[], due, h.message, ?_, ?_⟩
  · rw [past_clock, hrdy]
    exact h.past
  cases hvld : u.shafifooutVld with
  | false =>
    simp only [UnitPhase, ShaUnit.clock, ShaUnit.control, hs, hvld, hinit, hnext, Core.clock_quiet hcore]
    exact ⟨⟨rfl, rfl, rfl⟩, hvalid, hcore, trivial, trivial⟩
  | true =>
    obtain ⟨b, hb⟩ := Fifo.exists_head _ hvld
    have hdue : due ≠ [] := by
      have := beatsAt_ne_nil ((lt_of_next (h.past_snoc hsent hb)).trans_le hd)
      rwa [h.message] at this
    simp only [UnitPhase, ShaUnit.clock, ShaUnit.control, hs, hvld, hbusy, hinit, hnext, hrdy, Core.clock_quiet hcore]
    exact ⟨⟨rfl, rfl, rfl⟩, hvalid, hcore, ⟨b, Fifo.head_put_of_head _ hb _⟩, trivial, hdue⟩

theorem UnitAt.clock_readFirst (h : UnitAt msgs n j i u eaten due) (hs : u.shaState = .readFirst) :
    UnitInv msgs n j i (u.clock inp shafifoin false) := by
  have hphase := h.phase
  simp only [UnitPhase, hs] at hphase
  obtain ⟨⟨hinit, hnext, hrdy⟩, hvalid, hcore, ⟨b, hb⟩, rfl, hdue⟩ := hphase
  refine ⟨[], due, h.message, ?_, ?_⟩
  · rw [past_clock, hrdy]
    exact h.past
  simp only [UnitPhase, ShaUnit.clock, ShaUnit.control, hs, hinit, hnext, hrdy, Core.clock_quiet hcore]
  refine ⟨trivial, hvalid, hcore, ⟨b, Fifo.head_put_of_head _ hb _, ?_⟩, hdue, Or.inl ⟨trivial, trivial⟩⟩
  rw [shafifoout_of_head hb]

theorem UnitAt.clock_readNext (h : UnitAt msgs n j i u eaten due) (hs : u.shaState = .readNext) :
    UnitInv msgs n j i (u.clock inp shafifoin false) := by
  have hphase := h.phase
  simp only [UnitPhase, hs] at hphase
  obtain ⟨⟨hinit, hnext, hrdy⟩, hvalid, hcore, ⟨b, hb⟩, hdue⟩ := hphase
  have hquiet : u.core.busy = none := by rw [hcore]
  refine ⟨eaten, due, h.message, ?_, ?_⟩
  · rw [past_clock, hrdy]
    exact h.past
  simp only [UnitPhase, ShaUnit.clock, ShaUnit.control, hs, hinit, hnext, hrdy, Core.clock_quiet hquiet]
  refine ⟨trivial, hvalid, hquiet, ⟨b, Fifo.head_put_of_head _ hb _, ?_⟩, hdue, Or.inr ⟨trivial, trivial, ?_⟩⟩
  · rw [shafifoout_of_head hb]
  · rw [hcore]

include hi hsent in
/-- The core takes the block at the head of the fifo, which is the next one of message `i`. -/
theorem UnitAt.clock_readRest (h : UnitAt msgs n j i u eaten due) (hs : u.shaState = .readRest) :
    UnitInv msgs n j i (u.clock inp shafifoin false) := by
  have hphase := h.phase
  simp only [UnitPhase, hs] at hphase
  obtain ⟨hrdy, hvalid, hcore, ⟨b, hb, hlast⟩, hdue, hask⟩ := hphase
  obtain ⟨rest, rfl⟩ := due_of_next hi h.message hdue (h.past_snoc hsent hb)
  refine ⟨eaten ++ [b], rest, ?_, ?_, ?_⟩
  · rw [h.message, List.append_assoc, List.singleton_append]
  · rw [past_clock, hrdy, Fifo.past_readIf_true _ hb, h.past, List.append_assoc]
  have hbusy : u.core.clock u.shaInit u.shaNext (u.shafifoout inp).data inp.done inp.scratch =
      ⟨some (absorbed (eaten ++ [b])), inp.scratch⟩ := by
    rw [shafifoout_of_head hb, Core.clock, hcore, absorbed_snoc]
    rcases hask with ⟨hinit, rfl⟩ | ⟨hinit, hnext, hdigest⟩
    · simp [hinit, absorbed]
    · simp [hinit, hnext, hdigest]
  simp only [UnitPhase, ShaUnit.clock, ShaUnit.control, hs, hbusy]
  refine ⟨⟨rfl, rfl, rfl⟩, hvalid, rfl, ?_, by simp⟩
  rw [hlast]
  exact last_of_beatsAt h.message

theorem UnitAt.clock_waitOutputValid (h : UnitAt msgs n j i u eaten due) (hs : u.shaState = .waitOutputValid) :
    UnitInv msgs n j i (u.clock inp shafifoin false) := by
  have hphase := h.phase
  simp only [UnitPhase, hs] at hphase
  obtain ⟨⟨hinit, hnext, hrdy⟩, hvalid, hcore, hlast, heaten⟩ := hphase
  refine ⟨eaten, due, h.message, ?_, ?_⟩
  · rw [past_clock, hrdy]
    exact h.past
  cases hbusy : u.core.busy with
  | some result =>
    simp only [UnitPhase, ShaUnit.clock, ShaUnit.control, Core.ready, hs, hbusy, hinit, hnext, Option.isNone_some,
      Bool.false_eq_true, if_false]
    exact ⟨⟨rfl, rfl, hrdy⟩, hvalid, (Core.result_clock ..).trans hcore, hlast, heaten⟩
  | none =>
    have hheld : u.core = ⟨none, absorbed eaten⟩ := by
      rw [hbusy] at hcore
      rw [← hbusy, ← hcore]
      rfl
    cases hdue : due with
    | nil =>
      rw [hdue] at hlast
      simp only [UnitPhase, ShaUnit.clock, ShaUnit.control, Core.ready, hs, hbusy, hinit, hnext, hlast,
        Core.clock_quiet hbusy, Option.isNone_none, List.isEmpty_nil, if_true]
      exact ⟨⟨rfl, rfl, hrdy⟩, trivial, hheld, trivial, heaten⟩
    | cons b rest =>
      rw [hdue] at hlast
      simp only [UnitPhase, ShaUnit.clock, ShaUnit.control, Core.ready, hs, hbusy, hinit, hnext, hlast,
        Core.clock_quiet hbusy, Option.isNone_none, List.isEmpty_cons, Bool.false_eq_true,
        if_true, if_false]
      exact ⟨⟨rfl, rfl, hrdy⟩, hvalid, hheld, by simp⟩

theorem UnitAt.clock_waitNext (h : UnitAt msgs n j i u eaten due) (hs : u.shaState = .waitNext) :
    UnitInv msgs n j i (u.clock inp shafifoin false) := by
  have hphase := h.phase
  simp only [UnitPhase, hs] at hphase
  obtain ⟨⟨hinit, hnext, hrdy⟩, hvalid, hcore, hdue⟩ := hphase
  have hquiet : u.core.busy = none := by rw [hcore]
  refine ⟨eaten, due, h.message, ?_, ?_⟩
  · rw [past_clock, hrdy]
    exact h.past
  cases hvld : u.shafifooutVld with
  | false =>
    simp only [UnitPhase, ShaUnit.clock, ShaUnit.control, hs, hvld, hinit, hnext, Core.clock_quiet hquiet]
    exact ⟨⟨rfl, rfl, hrdy⟩, hvalid, hcore, hdue⟩
  | true =>
    obtain ⟨b, hb⟩ := Fifo.exists_head _ hvld
    simp only [UnitPhase, ShaUnit.clock, ShaUnit.control, hs, hvld, hinit, hnext, hrdy, Core.clock_quiet hquiet]
    exact ⟨⟨rfl, rfl, rfl⟩, hvalid, hcore, ⟨b, Fifo.head_put_of_head _ hb _⟩, hdue⟩

include hi in
/-- A digest that is read makes way for the next message of the share. -/
theorem UnitAt.clock_waitOutputRead (h : UnitAt msgs n j i u eaten due) (hn : 0 < n) (hs : u.shaState = .waitOutputRead)
    (read : Bool) : UnitInv msgs n j (if read then i + n else i) (u.clock inp shafifoin read) := by
  have hphase := h.phase
  simp only [UnitPhase, hs] at hphase
  obtain ⟨⟨hinit, hnext, hrdy⟩, hvalid, hcore, rfl, heaten⟩ := hphase
  have hquiet : u.core.busy = none := by rw [hcore]
  cases read with
  | false =>
    refine ⟨eaten, [], h.message, ?_, ?_⟩
    · rw [past_clock, hrdy]
      exact h.past
    simp only [UnitPhase, ShaUnit.clock, ShaUnit.control, hs, hinit, hnext, Core.clock_quiet hquiet,
      Bool.false_eq_true, if_false]
    exact ⟨⟨rfl, rfl, hrdy⟩, hvalid, hcore, trivial, heaten⟩
  | true =>
    refine ⟨[], beatsAt msgs (i + n), rfl, ?_, ?_⟩
    · have hmsg := h.message
      rw [List.append_nil] at hmsg
      rw [past_clock, hrdy, if_pos rfl, stream_add msgs hi hn, hmsg, List.append_nil]
      exact h.past
    simp only [UnitPhase, ShaUnit.clock, ShaUnit.control, hs, hinit, hnext, Core.clock_quiet hquiet, if_true]
    exact ⟨⟨rfl, rfl, hrdy⟩, trivial, hquiet, trivial, trivial⟩

include hi hsent hd in
/-- One clock of a unit whose fifo carries its share of the messages.  If its digest is read, it is through with
message `i`, and the next of its share is message `i + n`. -/
theorem UnitInv.clock (h : UnitInv msgs n j i u) (hn : 0 < n) {read : Bool}
    (hread : read = true → u.shaState = .waitOutputRead) :
    UnitInv msgs n j (if read then i + n else i) (u.clock inp shafifoin read) := by
  obtain ⟨eaten, due, h⟩ := h
  by_cases hs : u.shaState = .waitOutputRead
  · exact h.clock_waitOutputRead hi inp shafifoin hn hs read
  obtain rfl : read = false := by
    cases read with
    | false => rfl
    | true => exact absurd (hread rfl) hs
  cases hs' : u.shaState with
  | idle => exact h.clock_idle hd hsent inp shafifoin hs'
  | readFirst => exact h.clock_readFirst inp shafifoin hs'
  | readRest => exact h.clock_readRest hi hsent inp shafifoin hs'
  | waitOutputValid => exact h.clock_waitOutputValid inp shafifoin hs'
  | waitNext => exact h.clock_waitNext inp shafifoin hs'
  | readNext => exact h.clock_readNext inp shafifoin hs'
  | waitOutputRead => exact absurd hs' hs

end Unit

/-! ### The input side -/

/-- What `fifo2sha` is about when `d` messages were taken up and `due` is left of the last of them. -/
def DispatchPhase {n : Nat} (s : State n) (d : Nat) (due : List Beat) : Prop :=
  match s.fifo2shaState with
  | .idle =>
    due = [] ∧ s.shaSelect.toNat = d % n ∧ s.shafifoinVld = 0 ∧ (s.fifo2shaRdy = true → s.ik2shaFifo.head = none)
  | .waitNextBlock =>
    due ≠ [] ∧ s.shaSelect.toNat = (d - 1) % n ∧ s.shafifoinVld = 0 ∧ s.fifo2shaRdy = false
  | .readNextBlock =>
    due ≠ [] ∧ s.shaSelect.toNat = (d - 1) % n ∧ s.shafifoinVld = 0 ∧ s.fifo2shaRdy = false ∧
      ∃ b, s.ik2shaFifo.head = some b
  | .readRest =>
    due ≠ [] ∧ s.shaSelect.toNat = (d - 1) % n ∧ s.shafifoinVld = .twoPow 32 ((d - 1) % n) ∧ s.fifo2shaRdy = true ∧
      ∃ b, s.ik2shaFifo.head = some b
  | .lastBlock =>
    due = [] ∧ 0 < d ∧ s.shaSelect.toNat = (d - 1) % n ∧ s.shafifoinVld = 0 ∧ s.fifo2shaRdy = false

/-- The fifos of the units have got their shares of the first `d` messages but for `due`. -/
structure Dispatching {n : Nat} (msgs : List Message) (s : State n) (d : Nat) (due : List Beat) : Prop where
  le : d ≤ msgs.length
  source : s.ik2sha.sent = msgs.flatMap Message.beats
  input : s.ik2shaFifo.sent = s.ik2sha.past
  owed : Owed Message.beats msgs d s.ik2shaFifo.past due
  message : due ≠ [] → 0 < d ∧ ∃ eaten, beatsAt msgs (d - 1) = eaten ++ due
  sent : ∀ j : Fin n, (s.units j).shaFifo.sent ++ (if j.val = (d - 1) % n then due else []) = stream msgs n j d
  room : ∀ j : Fin n, j.val = (d - 1) % n → due ≠ [] →
    (s.units j).shaFifo.queue.length + due.length ≤ shaFifoDepth
  phase : DispatchPhase s d due

theorem succ_mod {n : Nat} (hn : 0 < n) (e : Nat) :
    (e + 1) % n = if e % n < n - 1 then e % n + 1 else 0 := by
  have hlt := Nat.mod_lt e hn
  rw [← Nat.mod_add_mod]
  split
  · exact Nat.mod_eq_of_lt (by omega)
  · rw [show e % n + 1 = n by omega, Nat.mod_self]

section Dispatch

variable {n : Nat} {msgs : List Message} {s : State n} {d : Nat} {due : List Beat} (i : Inputs n)

theorem sent_clock_unit (j : Fin n) :
    ((clock s i).units j).shaFifo.sent = (s.units j).shaFifo.sent ++
      (if (s.units j).shafifoinRdy then if s.shafifoinVld.getLsbD j then some (s.fifo2sha i) else none
        else none).toList := by
  show (((s.units j).shaFifo.readIf _).put _).sent = _
  rw [Fifo.sent_put, Fifo.sent_readIf]

theorem length_queue_clock_unit (j : Fin n) :
    ((clock s i).units j).shaFifo.queue.length ≤ (s.units j).shaFifo.queue.length +
      (if (s.units j).shafifoinRdy then if s.shafifoinVld.getLsbD j then some (s.fifo2sha i) else none
        else none).toList.length := by
  show (((s.units j).shaFifo.readIf _).queue ++ _).length ≤ _
  rw [List.length_append]
  exact Nat.add_le_add_right (Fifo.length_queue_readIf_le ..) _

/-- Nothing comes to a unit that is not asked to take the block on the wires. -/
theorem clock_unit_of_vld {j : Fin n} (h : s.shafifoinVld.getLsbD j = false) :
    ((clock s i).units j).shaFifo.sent = (s.units j).shaFifo.sent ∧
      ((clock s i).units j).shaFifo.queue.length ≤ (s.units j).shaFifo.queue.length := by
  have hsent := sent_clock_unit (s := s) i j
  have hqueue := length_queue_clock_unit (s := s) i j
  have hnone : (if (s.units j).shafifoinRdy then if s.shafifoinVld.getLsbD j then some (s.fifo2sha i) else none
      else none) = none := by
    rw [h]
    split <;> rfl
  rw [hnone] at hsent hqueue
  exact ⟨by simpa using hsent, by simpa using hqueue⟩

theorem clock_unit_of_zero (h : s.shafifoinVld = 0) (j : Fin n) :
    ((clock s i).units j).shaFifo.sent = (s.units j).shaFifo.sent ∧
      ((clock s i).units j).shaFifo.queue.length ≤ (s.units j).shaFifo.queue.length :=
  clock_unit_of_vld i (by rw [h]; exact BitVec.getLsbD_zero)

theorem past_clock_source : (clock s i).ik2sha.past = s.ik2sha.past ++ (s.accepted i).toList := by
  show (s.ik2sha.readIf _).past = _
  rw [Fifo.past_readIf]
  rfl

theorem past_clock_input : (clock s i).ik2shaFifo.past = (s.ik2shaFifo.readIf s.fifo2shaRdy).past :=
  Fifo.past_put ..

theorem fifo2sha_of_head {b : Beat} (h : s.ik2shaFifo.head = some b) : s.fifo2sha i = b := by
  rw [State.fifo2sha, h]
  rfl

theorem Dispatching.source_clock (h : Dispatching msgs s d due) :
    (clock s i).ik2sha.sent = msgs.flatMap Message.beats :=
  (Fifo.sent_readIf ..).trans h.source

theorem Dispatching.input_clock (h : Dispatching msgs s d due) :
    (clock s i).ik2shaFifo.sent = (clock s i).ik2sha.past := by
  rw [past_clock_source, ← h.input]
  show ((s.ik2shaFifo.readIf _).put _).sent = _
  rw [Fifo.sent_put, Fifo.sent_readIf]

/-- The input fifo carries the messages. -/
theorem Dispatching.input_prefix (h : Dispatching msgs s d due) :
    s.ik2shaFifo.sent <+: msgs.flatMap Message.beats := by
  rw [h.input, ← h.source]
  exact s.ik2sha.past_prefix_sent

/-- A clock in which no block is moved and no message taken up. -/
theorem Dispatching.still (h : Dispatching msgs s d due) (hvld : s.shafifoinVld = 0)
    (hread : s.ik2shaFifo.readIf s.fifo2shaRdy = s.ik2shaFifo) (hphase : DispatchPhase (clock s i) d due) :
    Dispatching msgs (clock s i) d due where
  le := h.le
  source := h.source_clock i
  input := h.input_clock i
  owed := by
    rw [past_clock_input, hread]
    exact h.owed
  message := h.message
  sent j := by
    rw [(clock_unit_of_zero i hvld j).1]
    exact h.sent j
  room j hj hdue := by
    have := h.room j hj hdue
    have := (clock_unit_of_zero i hvld j).2
    omega
  phase := hphase

theorem readIf_false {b : Bool} (h : b = false) (f : Fifo Beat) : f.readIf b = f := by
  rw [h]
  rfl

/-- The next message is taken up when the fifo of its unit is empty. -/
theorem Dispatching.clock_idle (h : Dispatching msgs s d due) (hs : s.fifo2shaState = .idle) :
    ∃ d' due', Dispatching msgs (clock s i) d' due' := by
  have hphase := h.phase
  simp only [DispatchPhase, hs] at hphase
  obtain ⟨rfl, hsel, hvld, hrdy⟩ := hphase
  have hread : s.ik2shaFifo.readIf s.fifo2shaRdy = s.ik2shaFifo := by
    cases hr : s.fifo2shaRdy with
    | false => rfl
    | true => exact Fifo.readIf_of_head_eq_none _ (hrdy hr) _
  by_cases hgo : (s.fifo2shaVld && s.selectedShafifoFree) = true
  · obtain ⟨hhead, hfree⟩ := Bool.and_eq_true_iff.mp hgo
    obtain ⟨b, hb⟩ := Fifo.exists_head _ hhead
    obtain ⟨m, rest, hm, hbeats⟩ := h.owed.exists_next h.input_prefix (fun m _ => m.beats_ne_nil) hb
    have hlt := (List.getElem?_eq_some_iff.mp hm).1
    refine ⟨d + 1, m.beats, hlt, h.source_clock i, h.input_clock i, ?_, ?_, ?_, ?_, ?_⟩
    · rw [past_clock_input, hread]
      exact h.owed.start hm
    · exact fun _ => ⟨Nat.succ_pos d, [], beatsAt_eq hm⟩
    · intro j
      have hsent := h.sent j
      rw [ite_self, List.append_nil] at hsent
      rw [(clock_unit_of_zero i hvld j).1, hsent, stream_succ, Nat.add_sub_cancel, beatsAt_eq hm]
    · intro j hj _
      have hempty : (s.units j).shaFifo.queue = [] := by
        rw [Nat.add_sub_cancel, ← hsel] at hj
        rw [State.selectedShafifoFree, dif_pos (by rw [← hj]; exact j.isLt)] at hfree
        have hjj : (⟨s.shaSelect.toNat, by rw [← hj]; exact j.isLt⟩ : Fin n) = j := Fin.ext hj.symm
        rw [hjj, ShaUnit.shafifooutVld, Bool.not_not] at hfree
        exact List.isEmpty_iff.mp hfree
      have hlen := (clock_unit_of_zero i hvld j).2
      have hle := m.le
      rw [hempty, List.length_nil] at hlen
      rw [m.length_beats]
      omega
    · simp only [DispatchPhase, clock, State.fifo2shaControl, hs, hgo, if_true]
      exact ⟨m.beats_ne_nil, hsel, trivial, trivial, b, by rw [hread]; exact Fifo.head_put_of_head _ hb _⟩
  · refine ⟨d, [], h.still i hvld hread ?_⟩
    simp only [DispatchPhase, clock, State.fifo2shaControl, hs, hgo, Bool.false_eq_true, if_false]
    exact ⟨trivial, hsel, trivial, fun h => h.elim⟩

theorem Dispatching.clock_waitNextBlock (h : Dispatching msgs s d due) (hs : s.fifo2shaState = .waitNextBlock) :
    Dispatching msgs (clock s i) d due := by
  have hphase := h.phase
  simp only [DispatchPhase, hs] at hphase
  obtain ⟨hdue, hsel, hvld, hrdy⟩ := hphase
  refine h.still i hvld (readIf_false hrdy _) ?_
  cases hhead : s.fifo2shaVld with
  | false =>
    simp only [DispatchPhase, clock, State.fifo2shaControl, hs, hhead]
    exact ⟨hdue, hsel, hvld, hrdy⟩
  | true =>
    obtain ⟨b, hb⟩ := Fifo.exists_head _ hhead
    simp only [DispatchPhase, clock, State.fifo2shaControl, hs, hhead, if_true]
    exact ⟨hdue, hsel, hvld, hrdy, b, by rw [hrdy]; exact Fifo.head_put_of_head _ hb _⟩

theorem Dispatching.clock_readNextBlock (h : Dispatching msgs s d due) (hs : s.fifo2shaState = .readNextBlock) :
    Dispatching msgs (clock s i) d due := by
  have hphase := h.phase
  simp only [DispatchPhase, hs] at hphase
  obtain ⟨hdue, hsel, hvld, hrdy, b, hb⟩ := hphase
  refine h.still i hvld (readIf_false hrdy _) ?_
  simp only [DispatchPhase, clock, State.fifo2shaControl, hs]
  refine ⟨hdue, hsel, ?_, trivial, b, by rw [hrdy]; exact Fifo.head_put_of_head _ hb _⟩
  rw [State.selectedShaUnit, hsel]

/-- The last block was moved, and the next message goes to the next unit. -/
theorem Dispatching.clock_lastBlock (h : Dispatching msgs s d due) (hn : 0 < n) (hn32 : n ≤ 32)
    (hs : s.fifo2shaState = .lastBlock) : Dispatching msgs (clock s i) d due := by
  have hphase := h.phase
  simp only [DispatchPhase, hs] at hphase
  obtain ⟨rfl, hd, hsel, hvld, hrdy⟩ := hphase
  refine h.still i hvld (readIf_false hrdy _) ?_
  simp only [DispatchPhase, clock, State.fifo2shaControl, hs]
  refine ⟨trivial, ?_, trivial, fun h => by cases h⟩
  obtain ⟨e, rfl⟩ := Nat.exists_eq_succ_of_ne_zero hd.ne'
  rw [Nat.succ_sub_one] at hsel
  rw [Nat.succ_eq_add_one, succ_mod hn, hsel]
  split
  · rw [BitVec.toNat_add, hsel]
    exact Nat.mod_eq_of_lt (by show e % n + 1 < 32; omega)
  · rfl

/-- A block goes from the input fifo to the unit of its message. -/
theorem Dispatching.clock_readRest (h : Dispatching msgs s d due) (hn : 0 < n) (hs : s.fifo2shaState = .readRest) :
    ∃ due', Dispatching msgs (clock s i) d due' := by
  have hphase := h.phase
  simp only [DispatchPhase, hs] at hphase
  obtain ⟨hdue, hsel, hvld, hrdy, b, hb⟩ := hphase
  obtain ⟨c, rest, rfl⟩ := List.exists_cons_of_ne_nil hdue
  obtain rfl : b = c := h.owed.head_eq h.input_prefix hb
  have hlt := Nat.mod_lt (d - 1) hn
  have hbit : ∀ j : Fin n, s.shafifoinVld.getLsbD j = decide ((d - 1) % n = j.val) := by
    intro j
    rw [hvld, BitVec.getLsbD_twoPow, decide_eq_true (by omega), Bool.true_and]
  -- the fifo of the unit has room for what is left of the message
  have hunit : ∀ j : Fin n, j.val = (d - 1) % n →
      ((clock s i).units j).shaFifo.sent = (s.units j).shaFifo.sent ++ [b] ∧
        ((clock s i).units j).shaFifo.queue.length ≤ (s.units j).shaFifo.queue.length + 1 := by
    intro j hj
    have hsent := sent_clock_unit (s := s) i j
    have hqueue := length_queue_clock_unit (s := s) i j
    have hroom := h.room j hj (by simp)
    have hrdy' : (s.units j).shafifoinRdy = true := by
      rw [List.length_cons] at hroom
      exact decide_eq_true (by omega)
    rw [hrdy', hbit j, decide_eq_true hj.symm, fifo2sha_of_head i hb] at hsent hqueue
    exact ⟨hsent, hqueue⟩
  have hother : ∀ j : Fin n, j.val ≠ (d - 1) % n →
      ((clock s i).units j).shaFifo.sent = (s.units j).shaFifo.sent :=
    fun j hj => (clock_unit_of_vld i (by rw [hbit j]; exact decide_eq_false fun h => hj h.symm)).1
  obtain ⟨hd, eaten, heaten⟩ := h.message hdue
  refine ⟨rest, h.le, h.source_clock i, h.input_clock i, ?_, ?_, ?_, ?_, ?_⟩
  · rw [past_clock_input, hrdy, Fifo.past_readIf_true _ hb]
    exact h.owed.advance
  · exact fun _ => ⟨hd, eaten ++ [b], by rw [heaten, List.append_assoc, List.singleton_append]⟩
  · intro j
    have hsent := h.sent j
    by_cases hj : j.val = (d - 1) % n
    · rw [if_pos hj] at hsent ⊢
      rw [(hunit j hj).1, List.append_assoc, List.singleton_append, hsent]
    · rw [if_neg hj] at hsent ⊢
      rw [hother j hj, hsent]
  · intro j hj _
    have hroom := h.room j hj (by simp)
    have hle := (hunit j hj).2
    rw [List.length_cons] at hroom
    omega
  · have hlast : (s.fifo2sha i).last = rest.isEmpty := by
      rw [fifo2sha_of_head i hb]
      exact last_of_beatsAt heaten
    cases rest with
    | nil =>
      simp only [DispatchPhase, clock, State.fifo2shaControl, hs, hlast, List.isEmpty_nil, if_true]
      exact ⟨trivial, hd, hsel, trivial, trivial⟩
    | cons c rest =>
      simp only [DispatchPhase, clock, State.fifo2shaControl, hs, hlast, List.isEmpty_cons, Bool.false_eq_true,
        if_false]
      exact ⟨by simp, hsel, trivial, trivial⟩

theorem Dispatching.clock (h : Dispatching msgs s d due) (hn : 0 < n) (hn32 : n ≤ 32) :
    ∃ d' due', Dispatching msgs (clock s i) d' due' := by
  cases hs : s.fifo2shaState with
  | idle => exact h.clock_idle i hs
  | waitNextBlock => exact ⟨d, due, h.clock_waitNextBlock i hs⟩
  | readNextBlock => exact ⟨d, due, h.clock_readNextBlock i hs⟩
  | readRest => exact ⟨d, h.clock_readRest i hn hs⟩
  | lastBlock => exact ⟨d, due, h.clock_lastBlock i hn hn32 hs⟩

end Dispatch

/-! ### The output side -/

theorem find_twoPow : ∀ k : Fin 32, (List.range 32).find? (fun j => BitVec.twoPow 32 k = .twoPow 32 j) = some k.val := by
  decide

/-- Unit `j` is at message `next j`, the first of its share among those whose digests have not been taken.  The
digests of the first `c` messages went to the output fifo. -/
structure Collecting {n : Nat} (msgs : List Message) (s : State n) (c : Nat) (next : Fin n → Nat) : Prop where
  unit : ∀ j : Fin n, UnitInv msgs n j (next j) (s.units j)
  share : ∀ j : Fin n, next j % n = j
  ge : ∀ j, c ≤ next j
  lt : ∀ j, next j < c + n
  counter : s.shaReadCounter = .twoPow 32 (c % n)
  vld : s.sha2fifoInputVld = true →
    (∀ j : Fin n, j.val = c % n → (s.units j).shaState = .waitOutputRead) ∧ s.sha2ikFifo.queue.length < fifoDepth
  out : s.sha2ikFifo.sent = (msgs.take c).map Message.digest

section Collect

variable {n : Nat} {msgs : List Message} {s : State n} {c : Nat} {next : Fin n → Nat} (hn : 0 < n) (hn32 : n ≤ 32)

/-- The unit whose turn it is has message `c`. -/
theorem Collecting.next_eq (h : Collecting msgs s c next) {j : Fin n} (hj : j.val = c % n) : next j = c := by
  by_contra hne
  have hge := h.ge j
  exact mod_ne_of_between (i := c) (by omega) (h.lt j) ((h.share j).trans hj)

theorem state_of_outValid {u : ShaUnit} {eaten due : List Beat} (h : UnitPhase u eaten due)
    (hvalid : u.shaOutValid = true) : u.shaState = .waitOutputRead := by
  cases hs : u.shaState <;> simp_all [UnitPhase]

include hn hn32

theorem Collecting.selectedOutput (h : Collecting msgs s c next) : s.selectedOutput = c % n := by
  have hlt := Nat.mod_lt c hn
  rw [State.selectedOutput, h.counter, find_twoPow ⟨c % n, by omega⟩]
  rfl

theorem Collecting.read_iff (h : Collecting msgs s c next) (j : Fin n) :
    s.shaReadCounter.getLsbD j = decide (j.val = c % n) := by
  have hlt := Nat.mod_lt c hn
  rw [h.counter, BitVec.getLsbD_twoPow, decide_eq_true (by omega : c % n < 32), Bool.true_and]
  exact decide_eq_decide.mpr eq_comm

theorem Collecting.selectedOutputValid (h : Collecting msgs s c next) {j : Fin n} (hj : j.val = c % n) :
    s.selectedShaOutputValid = (s.units j).shaOutValid := by
  have hsel := (h.selectedOutput hn hn32).trans hj.symm
  have hjj : (⟨s.selectedOutput, by rw [hsel]; exact j.isLt⟩ : Fin n) = j := Fin.ext hsel
  rw [State.selectedShaOutputValid, dif_pos (by rw [hsel]; exact j.isLt), hjj]

/-- A unit that waits for its digest to be taken shows the digest of its message. -/
theorem Collecting.digest (h : Collecting msgs s c next) {j : Fin n} (hj : j.val = c % n)
    (hs : (s.units j).shaState = .waitOutputRead) :
    ∃ m, msgs[c]? = some m ∧ s.sha2fifoData = m.digest := by
  obtain ⟨eaten, due, hunit⟩ := h.unit j
  have hphase := hunit.phase
  simp only [UnitPhase, hs] at hphase
  obtain ⟨-, -, hcore, rfl, heaten⟩ := hphase
  have hmsg := hunit.message
  rw [h.next_eq hj, List.append_nil] at hmsg
  obtain ⟨m, hm⟩ := exists_message (by rw [hmsg]; exact heaten)
  refine ⟨m, hm, ?_⟩
  have hsel := h.selectedOutput hn hn32
  rw [beatsAt_eq hm] at hmsg
  rw [State.sha2fifoData, dif_pos (by rw [hsel, ← hj]; exact j.isLt)]
  have hjj : (⟨s.selectedOutput, by rw [hsel, ← hj]; exact j.isLt⟩ : Fin n) = j := Fin.ext (hsel.trans hj.symm)
  rw [hjj, hcore, ← hmsg]
  exact m.bytes_absorbed

/-- No digest is taken from a unit that has none, and what is taken is digest `c`. -/
theorem Collecting.read (h : Collecting msgs s c next) (j : Fin n) :
    (s.sha2fifoInputVld && s.shaReadCounter.getLsbD j) = true → (s.units j).shaState = .waitOutputRead := by
  rw [Bool.and_eq_true, h.read_iff hn hn32 j, decide_eq_true_iff]
  rintro ⟨hvld, hj⟩
  exact (h.vld hvld).1 j hj

/-- The units that are read next, and those that were. -/
theorem Collecting.unit_clock (h : Collecting msgs s c next) {d : Nat} {due : List Beat}
    (hdisp : Dispatching msgs s d due) (i : Inputs n) (j : Fin n) :
    UnitInv msgs n j (if s.sha2fifoInputVld && s.shaReadCounter.getLsbD j then next j + n else next j)
      ((clock s i).units j) := by
  have hsent : (s.units j).shaFifo.sent <+: stream msgs n j d := ⟨_, hdisp.sent j⟩
  exact (h.unit j).clock (h.share j) hdisp.le hsent (i.units j) _ hn (h.read hn hn32 j)

theorem Collecting.clock (h : Collecting msgs s c next) {d : Nat} {due : List Beat}
    (hdisp : Dispatching msgs s d due) (i : Inputs n) : ∃ c' next', Collecting msgs (clock s i) c' next' := by
  have hlt := Nat.mod_lt c hn
  have hunit := h.unit_clock hn hn32 hdisp i
  have hpast : (Sha256Top.clock s i).sha2ikFifo.sent = s.sha2ikFifo.sent ++
      (if s.sha2fifoInputVld && s.sha2fifoOutputRdy then some s.sha2fifoData else none).toList := by
    show ((s.sha2ikFifo.readIf _).put _).sent = _
    rw [Fifo.sent_put, Fifo.sent_readIf]
  cases hvld : s.sha2fifoInputVld with
  | false =>
    simp only [hvld, Bool.false_and, Bool.false_eq_true, if_false, Option.toList_none, List.append_nil] at hunit hpast
    refine ⟨c, next, hunit, h.share, h.ge, h.lt, ?_, ?_, hpast.trans h.out⟩
    · show s.nextReadCounter = _
      rw [State.nextReadCounter, hvld]
      exact h.counter
    · intro hnext
      have hnext' : s.nextInputVld = true := hnext
      rw [State.nextInputVld, hvld, Bool.not_false, Bool.and_true, Bool.and_eq_true] at hnext'
      obtain ⟨hvalid, hrdy⟩ := hnext'
      constructor
      · -- the unit has a digest and keeps it, as none is taken in this clock
        intro j hj
        rw [h.selectedOutputValid hn hn32 hj] at hvalid
        obtain ⟨eaten, due, hj'⟩ := h.unit j
        have hs := state_of_outValid hj'.phase hvalid
        simp [Sha256Top.clock, ShaUnit.clock, ShaUnit.control, hs, hvld]
      · show ((s.sha2ikFifo.readIf _).put _).queue.length < fifoDepth
        have hle := s.sha2ikFifo.length_queue_readIf_le i.sha2ikRdy
        have hroom := of_decide_eq_true hrdy
        simp only [hvld, Bool.false_and, Bool.false_eq_true, if_false, Fifo.put_none]
        omega
  | true =>
    obtain ⟨hwait, hroom⟩ := h.vld hvld
    obtain ⟨m, hm, hdata⟩ := h.digest hn hn32 (j := ⟨c % n, hlt⟩) rfl (hwait ⟨c % n, hlt⟩ rfl)
    have hrdy : s.sha2fifoOutputRdy = true := decide_eq_true hroom
    refine ⟨c + 1, fun j => if j.val = c % n then next j + n else next j, ?_, ?_, ?_, ?_, ?_, ?_, ?_⟩
    · intro j
      have hj := hunit j
      simp only [hvld, Bool.true_and, h.read_iff hn hn32 j, decide_eq_true_iff] at hj
      exact hj
    · intro j
      have hj := h.share j
      split
      · rw [Nat.add_mod_right]
        exact hj
      · exact hj
    · intro j
      have hge := h.ge j
      split
      · omega
      · rename_i hne
        -- only the unit whose turn it was had message `c`
        have hne' : next j ≠ c := fun heq => hne (by rw [← h.share j, heq])
        omega
    · intro j
      have hlt' := h.lt j
      split
      · rename_i hj
        rw [h.next_eq hj]
        omega
      · omega
    · show s.nextReadCounter = _
      rw [State.nextReadCounter, hvld, if_pos rfl, h.counter, BitVec.getLsbD_twoPow, succ_mod hn]
      by_cases hlast : c % n < n - 1
      · have hne : ¬c % n = n - 1 := by omega
        rw [if_pos hlast, decide_eq_false hne, Bool.and_false, if_neg (by simp), BitVec.twoPow, BitVec.twoPow,
          BitVec.shiftLeft_add]
      · have heq : c % n = n - 1 := by omega
        rw [if_neg hlast, decide_eq_true (by omega : c % n < 32), decide_eq_true heq]
        rfl
    · intro hnext
      have hnext' : s.nextInputVld = true := hnext
      simp [State.nextInputVld, hvld] at hnext'
    · rw [hpast, hvld, hrdy, h.out, hdata, take_succ_eq hm, List.map_append]
      rfl

end Collect

/-! ### Runs -/

/-- Both sides, at their own places in the messages. -/
def Inv {n : Nat} (msgs : List Message) (s : State n) : Prop :=
  ∃ d due c next, Dispatching msgs s d due ∧ Collecting msgs s c next

/-- The producer is about to send these messages. -/
def State.ofMessages (n : Nat) (fifo2shaRdy : Bool) (msgs : List Message) : State n :=
  State.init n fifo2shaRdy (msgs.flatMap Message.beats)

theorem inv_init (n : Nat) (fifo2shaRdy : Bool) (msgs : List Message) :
    Inv msgs (State.ofMessages n fifo2shaRdy msgs) := by
  refine ⟨0, [], 0, Fin.val, ⟨Nat.zero_le _, rfl, rfl, Owed.zero _ _, fun h => absurd rfl h, ?_, ?_, ?_⟩, ?_⟩
  · intro j
    rw [ite_self]
    rfl
  · exact fun _ _ h => absurd rfl h
  · exact ⟨rfl, (Nat.zero_mod n).symm, rfl, fun _ => rfl⟩
  · refine ⟨?_, fun j => Nat.mod_eq_of_lt j.isLt, fun j => Nat.zero_le _, fun j => by omega, ?_, ?_, rfl⟩
    · intro j
      refine ⟨[], beatsAt msgs j, rfl, ?_, ⟨rfl, rfl, rfl⟩, rfl, rfl, rfl, rfl⟩
      rw [stream_self msgs j.isLt]
      rfl
    · show (1 : BitVec 32) = _
      rw [Nat.zero_mod]
      rfl
    · intro h
      cases h

theorem Inv.clock {n : Nat} (hn : 0 < n) (hn32 : n ≤ 32) {msgs : List Message} {s : State n} (i : Inputs n)
    (h : Inv msgs s) : Inv msgs (clock s i) := by
  obtain ⟨d, due, c, next, hdisp, hcoll⟩ := h
  obtain ⟨d', due', hdisp'⟩ := hdisp.clock i hn hn32
  obtain ⟨c', next', hcoll'⟩ := hcoll.clock hn hn32 hdisp i
  exact ⟨d', due', c', next', hdisp', hcoll'⟩

theorem inv_run {n : Nat} (hn : 0 < n) (hn32 : n ≤ 32) (fifo2shaRdy : Bool) (msgs : List Message)
    (ins : List (Inputs n)) : Inv msgs (run clock (State.ofMessages n fifo2shaRdy msgs) ins) :=
  run_invariant (fun _ i h => h.clock hn hn32 i) ins _ (inv_init n fifo2shaRdy msgs)

/-! ### Nothing moves any more -/

/-- A clock in which the producer, the consumer and the cores are ready changes nothing. -/
def Settled {n : Nat} (s : State n) : Prop :=
  ∃ i : Inputs n, i.ik2shaVld = true ∧ i.sha2ikRdy = true ∧ (∀ j, (i.units j).done = true) ∧ clock s i = s

section Settled

/-- A unit that does not move waits for a block, or for its digest to be taken. -/
theorem ShaUnit.settled {u : ShaUnit} {eaten due : List Beat} (hphase : UnitPhase u eaten due) {inp : UnitInputs}
    (hdone : inp.done = true) {shafifoin : Option Beat} {read : Bool} (h : u.clock inp shafifoin read = u) :
    u.shaState = .waitOutputRead ∨ u.shaFifo.head = none ∧ (due = [] → eaten = []) := by
  have hstate : (u.clock inp shafifoin read).shaState = u.shaState := congrArg ShaUnit.shaState h
  change (u.control inp read).shaState = _ at hstate
  have hempty : u.shafifooutVld = false → u.shaFifo.head = none := by
    intro hvld
    rw [ShaUnit.shafifooutVld, Fifo.empty_eq_isNone_head] at hvld
    simpa using hvld
  cases hs : u.shaState with
  | idle =>
    simp only [UnitPhase, hs] at hphase
    obtain ⟨-, -, -, hbusy, rfl⟩ := hphase
    refine Or.inr ⟨hempty ?_, fun _ => rfl⟩
    simpa [ShaUnit.control, hs, hbusy] using hstate
  | waitNext =>
    simp only [UnitPhase, hs] at hphase
    refine Or.inr ⟨hempty ?_, fun hdue => absurd hdue hphase.2.2.2⟩
    simpa [ShaUnit.control, hs] using hstate
  | waitOutputRead => exact Or.inl rfl
  | readFirst => simp [ShaUnit.control, hs] at hstate
  | readRest => simp [ShaUnit.control, hs] at hstate
  | readNext => simp [ShaUnit.control, hs] at hstate
  | waitOutputValid =>
    -- the core finishes in this clock, or it is ready and the unit goes on
    have hcore : u.core.clock u.shaInit u.shaNext (u.shafifoout inp).data inp.done inp.scratch = u.core :=
      congrArg ShaUnit.core h
    cases hbusy : u.core.busy with
    | none =>
      cases hlast : u.shaLast <;> simp [ShaUnit.control, hs, Core.ready, hbusy, hlast] at hstate
    | some result =>
      have := congrArg Core.busy hcore
      simp [Core.clock, hbusy, hdone] at this

variable {n : Nat} {msgs : List Message} {s : State n} {d : Nat} {due : List Beat} {c : Nat} {next : Fin n → Nat}

/-- No digest is taken before its message was dispatched. -/
theorem Collecting.le (h : Collecting msgs s c next) (hdisp : Dispatching msgs s d due) (hn : 0 < n) (hdue : due = [])
    (hd : d < msgs.length) : c ≤ d := by
  by_contra hlt
  obtain ⟨j, hj⟩ : ∃ j : Fin n, j.val = d % n := ⟨⟨d % n, Nat.mod_lt d hn⟩, rfl⟩
  obtain ⟨eaten, due', hunit⟩ := h.unit j
  have hsent := hdisp.sent j
  rw [hdue, ite_self, List.append_nil] at hsent
  have hpast := (Fifo.past_prefix_sent _).length_le.trans (congrArg List.length hsent).le
  have hprefix : stream msgs n j (d + 1) <+: stream msgs n j (next j) :=
    stream_mono (le_trans (by omega) (h.ge j))
  have hmore := hprefix.length_le
  have hbeats := List.length_pos_of_ne_nil (beatsAt_ne_nil hd)
  rw [hunit.past, List.length_append] at hpast
  rw [stream_succ, if_pos hj, List.length_append] at hmore
  omega

/-- The input fifo is empty when neither the producer nor `fifo2sha` moves. -/
theorem Dispatching.drained (h : Dispatching msgs s d due) {i : Inputs n} (hvld : i.ik2shaVld = true)
    (hstill : Sha256Top.clock s i = s) (hempty : s.ik2shaFifo.head = none) : due = [] ∧ msgs.length ≤ d := by
  have hsource : s.ik2sha.head = none := by
    have hrdy : s.ik2fifoRdy = true := by
      rw [Fifo.head, List.head?_eq_none_iff] at hempty
      rw [State.ik2fifoRdy, hempty]
      rfl
    have hread : s.ik2sha.readIf (i.ik2shaVld && s.ik2fifoRdy) = s.ik2sha := congrArg State.ik2sha hstill
    rw [hvld, hrdy] at hread
    exact s.ik2sha.head_eq_none_of_readIf hread
  have hall : s.ik2shaFifo.past = msgs.flatMap Message.beats := by
    rw [Fifo.past_eq_sent _ hempty, h.input, Fifo.past_eq_sent _ hsource, h.source]
  have hdue : due = [] := by
    have hle := h.owed.all_prefix_pieces.length_le
    rw [← hall, List.length_append] at hle
    exact List.eq_nil_of_length_eq_zero (by omega)
  refine ⟨hdue, ?_⟩
  by_contra hlt
  -- the next message would come behind all of them
  obtain ⟨m, hm⟩ : ∃ m, msgs[d]? = some m := ⟨_, List.getElem?_eq_getElem (Nat.lt_of_not_le hlt)⟩
  have howed := h.owed
  rw [hdue] at howed
  have hle := (howed.start hm).all_prefix_pieces.length_le
  have hpos := List.length_pos_of_ne_nil m.beats_ne_nil
  rw [← hall, List.length_append] at hle
  omega

/-- The unit whose turn it is would have its digest taken, and the one that is selected would get its message. -/
theorem Inv.settled (hn : 0 < n) (hn32 : n ≤ 32) (h : Inv msgs s) (hset : Settled s) :
    s.sha2ikFifo.past = msgs.map Message.digest := by
  obtain ⟨d, due, c, next, hdisp, hcoll⟩ := h
  obtain ⟨i, hvld, hrdy, hdone, hstill⟩ := hset
  have hout : s.sha2ikFifo.head = none := by
    have hpast : (Sha256Top.clock s i).sha2ikFifo.past = s.sha2ikFifo.past := by rw [hstill]
    change ((s.sha2ikFifo.readIf i.sha2ikRdy).put _).past = _ at hpast
    rw [Fifo.past_put, hrdy, Fifo.past_readIf, if_pos rfl] at hpast
    simpa using hpast
  have hnone : s.selectedShaOutputValid = false := by
    have hnext : s.nextInputVld = s.sha2fifoInputVld := congrArg State.sha2fifoInputVld hstill
    have hroom : s.sha2fifoOutputRdy = true := by
      rw [Fifo.head, List.head?_eq_none_iff] at hout
      rw [State.sha2fifoOutputRdy, hout]
      rfl
    rw [State.nextInputVld, hroom, Bool.and_true] at hnext
    cases hv : s.sha2fifoInputVld with
    | false => simpa [hv] using hnext
    | true => simp [hv] at hnext
  suffices hc : msgs.length ≤ c by
    rw [Fifo.past_eq_sent _ hout, hcoll.out, List.take_of_length_le hc]
  by_contra hlt
  obtain ⟨j, hj⟩ : ∃ j : Fin n, j.val = c % n := ⟨⟨c % n, Nat.mod_lt c hn⟩, rfl⟩
  obtain ⟨eaten, due', hunit⟩ := hcoll.unit j
  have hstillUnit := congrFun (congrArg State.units hstill) j
  rcases ShaUnit.settled hunit.phase (hdone j) hstillUnit with hs | ⟨hhead, hbegun⟩
  · -- its digest is there to be taken
    have hphase := hunit.phase
    simp only [UnitPhase, hs] at hphase
    rw [hcoll.selectedOutputValid hn hn32 hj, hphase.2.1] at hnone
    cases hnone
  have hmsg := hunit.message
  rw [hcoll.next_eq hj] at hmsg
  have hdue' : due' ≠ [] := by
    rintro rfl
    rw [hbegun rfl] at hmsg
    exact beatsAt_ne_nil (Nat.lt_of_not_le hlt) hmsg
  have hd : due = [] → d ≤ c := by
    rintro rfl
    by_contra hcd
    -- all of message `c` would be in the fifo of the unit
    have hsent := hdisp.sent j
    rw [ite_self, List.append_nil, ← Fifo.past_eq_sent _ hhead, hunit.past, hcoll.next_eq hj] at hsent
    have hprefix : stream msgs n j (c + 1) <+: stream msgs n j d := stream_mono (Nat.lt_of_not_le hcd)
    have hle := hprefix.length_le
    have hpos := List.length_pos_of_ne_nil hdue'
    rw [← hsent, stream_succ, if_pos hj, hmsg] at hle
    simp only [List.length_append] at hle
    omega
  have hstate : (Sha256Top.clock s i).fifo2shaState = s.fifo2shaState := congrArg State.fifo2shaState hstill
  change (s.fifo2shaControl i).fifo2shaState = _ at hstate
  have hvld' : s.fifo2shaVld = true := by
    rw [State.fifo2shaVld, Fifo.empty_eq_isNone_head]
    cases hempty : s.ik2shaFifo.head with
    | some b => rfl
    | none =>
      obtain ⟨hnil, hle⟩ := hdisp.drained hvld hstill hempty
      have := hd hnil
      omega
  have hphase := hdisp.phase
  cases hs : s.fifo2shaState with
  | idle =>
    simp only [DispatchPhase, hs] at hphase
    obtain ⟨rfl, hsel, -, -⟩ := hphase
    have hle := hcoll.le hdisp hn rfl (by have := hd rfl; omega)
    obtain rfl : d = c := Nat.le_antisymm (hd rfl) hle
    have hfree : s.selectedShafifoFree = true := by
      have hjj : (⟨s.shaSelect.toNat, by rw [hsel, ← hj]; exact j.isLt⟩ : Fin n) = j := Fin.ext (hsel.trans hj.symm)
      rw [State.selectedShafifoFree, dif_pos (by rw [hsel, ← hj]; exact j.isLt), hjj, ShaUnit.shafifooutVld,
        Fifo.empty_eq_isNone_head, hhead]
      rfl
    simp [State.fifo2shaControl, hs, hvld', hfree] at hstate
  | waitNextBlock => simp [State.fifo2shaControl, hs, hvld'] at hstate
  | readNextBlock => simp [State.fifo2shaControl, hs] at hstate
  | readRest => cases hl : (s.fifo2sha i).last <;> simp [State.fifo2shaControl, hs, hl] at hstate
  | lastBlock => simp [State.fifo2shaControl, hs] at hstate

end Settled

/-- **Digests in the order of the messages**: whatever the producer, the consumer and the cores are in wait for, the
digests that were read are those of the first messages, in their order, and when nothing moves any more all of
them were read. -/
theorem digests_run {n : Nat} (hn : 0 < n) (hn32 : n ≤ 32) (fifo2shaRdy : Bool) (msgs : List Message)
    (ins : List (Inputs n)) :
    (run clock (State.ofMessages n fifo2shaRdy msgs) ins).sha2ikFifo.past <+: msgs.map Message.digest ∧
      (Settled (run clock (State.ofMessages n fifo2shaRdy msgs) ins) →
        (run clock (State.ofMessages n fifo2shaRdy msgs) ins).sha2ikFifo.past = msgs.map Message.digest) := by
  have h := inv_run hn hn32 fifo2shaRdy msgs ins
  refine ⟨?_, h.settled hn hn32⟩
  obtain ⟨d, due, c, next, -, hcoll⟩ := h
  have hpast := Fifo.past_prefix_sent (run clock (State.ofMessages n fifo2shaRdy msgs) ins).sha2ikFifo
  rw [hcoll.out] at hpast
  exact hpast.trans (map_take_isPrefix _ _ _)

/-- Two messages, of two blocks and of one. -/
def twoMessages : List Message :=
  [⟨[List.replicate 64 0x61, List.replicate 64 0x62], by decide, by decide⟩, ⟨[List.replicate 64 0x63], by decide, by decide⟩]

/-- A clock in which nothing is stalled. -/
def free (n : Nat) : Inputs n where
  ik2shaVld := true
  sha2ikRdy := true
  fifo2sha := ⟨[], false⟩
  units _ := ⟨true, Sha256.digestInit, ⟨[], false⟩⟩

theorem digests_run_twoMessages :
    (run clock (State.ofMessages 2 true twoMessages) (List.replicate 24 (free 2))).sha2ikFifo.past <+:
        twoMessages.map Message.digest ∧
      (Settled (run clock (State.ofMessages 2 true twoMessages) (List.replicate 24 (free 2))) →
        (run clock (State.ofMessages 2 true twoMessages) (List.replicate 24 (free 2))).sha2ikFifo.past =
          twoMessages.map Message.digest) :=
  digests_run (by decide) (by decide) true twoMessages (List.replicate 24 (free 2))

example : (run clock (State.ofMessages 2 true twoMessages) (List.replicate 24 (free 2))).sha2ikFifo.past.length = 2 := by
  decide

end Nica.Verilog.Sha256Top
