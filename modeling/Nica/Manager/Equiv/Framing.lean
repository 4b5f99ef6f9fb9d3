import Nica.Libnica.Equiv.Wire
import Nica.Manager.Equiv.Chunking

/-!
# Which requests the parser consumes and answers

A request is a header and a body whose length the header tells.  The parser goes by the structure of the
handler and not by the header, and leaves the body of an unknown opcode in the buffer.
`answered_iff_frames`: for any table of handlers, every request of a sequence is consumed and answered exactly
once if and only if each has the length of its structure (none, for an unknown opcode) and no exception leaves
its handler.
-/

namespace Nica.Manager.Rpc

open Nica.Lib Nica.Libnica Protocol
open Nica.Libnica.Wire (Byte headerSize)

/-- A request whose header tells the length of its body. -/
structure Frame where
  opcode : BitVec 16
  flags : BitVec 16
  status : BitVec 16
  body : List Byte
  fits : body.length < 2 ^ 16

/-- The bytes of a request. -/
def Frame.bytes (f : Frame) : List Byte :=
  Wire.Header.pack ⟨f.opcode, BitVec.ofNat 16 f.body.length, f.flags, f.status⟩ ++ f.body

/-! ### Frames -/

section Frames

variable {σ : Type} {table : BitVec 16 → Option (Entry σ)} {p p' : Protocol σ} {f : Frame}

/-- What is left of the environment after a request. -/
def after (table : BitVec 16 → Option (Entry σ)) (env : σ) (f : Frame) : σ :=
  match table f.opcode with
  | none => env
  | some e => (e.serve f.body env).env

/-- The messages that are sent for a request. -/
def answersTo (table : BitVec 16 → Option (Entry σ)) (env : σ) (f : Frame) : List (List Byte) :=
  match table f.opcode with
  | none => [emptyMessage f.opcode Wire.enosys]
  | some e => (e.serve f.body env).sent

/-- The request has the length that the parser takes, and no exception leaves its handler. -/
def FrameOk (table : BitVec 16 → Option (Entry σ)) (env : σ) (f : Frame) : Prop :=
  match table f.opcode with
  | none => f.body = []
  | some e => f.body.length = e.size ∧ (e.serve f.body env).raises = false

/-- `count opcode` messages are sent for a request that is answered. -/
structure Talks (table : BitVec 16 → Option (Entry σ)) (count : BitVec 16 → ℕ) : Prop where
  unknown : ∀ opcode, table opcode = none → count opcode = 1
  served : ∀ opcode e, table opcode = some e → ∀ args env, (e.serve args env).raises = false →
    (e.serve args env).sent.length = count opcode
  pos : ∀ opcode, 0 < count opcode

/-- The loop of `data_received` to its end. -/
def settle (table : BitVec 16 → Option (Entry σ)) (p : Protocol σ) : Protocol σ :=
  loop table (p.rounds + 1) p

theorem settle_again (h : round table p = .again p') : settle table p = settle table p' := by
  unfold settle
  rw [loop_again h]
  exact loop_eq (round_again h).1 (Nat.lt_succ_self _)

theorem settle_enough (h : round table p = .enough p') : settle table p = p' := loop_enough h

theorem settle_raised (h : round table p = .raised p') : settle table p = p' := loop_raised h

/-- The header of a request has been read. -/
def afterHeader (p : Protocol σ) (f : Frame) : Protocol σ :=
  { p with
    buf := f.body
    curHdr := some ⟨f.opcode, BitVec.ofNat 16 f.body.length, f.flags, f.status⟩ }

theorem header_frame (hbuf : p.buf = []) :
    (p.push f.bytes).header = ⟨f.opcode, BitVec.ofNat 16 f.body.length, f.flags, f.status⟩ := by
  unfold header push Frame.bytes
  rw [hbuf, List.nil_append, Wire.take_pack, Wire.unpack_pack]

theorem takeHeader_frame (hbuf : p.buf = []) : (p.push f.bytes).takeHeader = afterHeader p f := by
  have hdrop : (p.push f.bytes).buf.drop headerSize = f.body := by
    unfold push Frame.bytes
    simp only [hbuf, List.nil_append, Wire.drop_pack]
  unfold takeHeader
  rw [header_frame hbuf, hdrop]
  rfl

theorem headerSize_le_frame : headerSize ≤ (p.push f.bytes).buf.length := by
  have h8 : headerSize = 8 := rfl
  unfold push Frame.bytes
  rw [List.length_append, List.length_append, Wire.length_pack, h8]
  omega

theorem dataReceived_unknown (hbuf : p.buf = []) (hcur : p.curHandler = none)
    (htable : table f.opcode = none) :
    dataReceived table p f.bytes =
      settle table ((afterHeader p f).sendMsg (emptyMessage f.opcode Wire.enosys)) := by
  have hopcode : (p.push f.bytes).header.opcode = f.opcode := by rw [header_frame hbuf]
  have hround := round_unknown (p := p.push f.bytes) hcur headerSize_le_frame (by rw [hopcode]; exact htable)
  rw [hopcode, takeHeader_frame hbuf] at hround
  exact settle_again hround

theorem dataReceived_known {e : Entry σ} (hbuf : p.buf = []) (hcur : p.curHandler = none)
    (htable : table f.opcode = some e) :
    dataReceived table p f.bytes = settle table { afterHeader p f with curHandler := some f.opcode } := by
  have hopcode : (p.push f.bytes).header.opcode = f.opcode := by rw [header_frame hbuf]
  have hround := round_known (p := p.push f.bytes) (e := e) hcur headerSize_le_frame
    (by rw [hopcode]; exact htable)
  rw [hopcode, takeHeader_frame hbuf] at hround
  exact settle_again hround

/-- A request that is in order is consumed and answered. -/
theorem dataReceived_frame (hbuf : p.buf = []) (hcur : p.curHandler = none) (hok : FrameOk table p.env f) :
    ∃ handled, dataReceived table p f.bytes =
      { p with
        curHdr := none
        env := after table p.env f
        sent := p.sent ++ answersTo table p.env f
        handled := handled } := by
  unfold FrameOk at hok
  unfold after answersTo
  cases htable : table f.opcode with
  | none =>
    simp only [htable] at hok
    refine ⟨p.handled, ?_⟩
    rw [dataReceived_unknown hbuf hcur htable]
    refine (settle_enough (round_short
      (p := (afterHeader p f).sendMsg (emptyMessage f.opcode Wire.enosys)) hcur ?_)).trans ?_
    · show f.body.length < headerSize
      rw [hok]
      decide
    · simp only [afterHeader, sendMsg, hok, hbuf]
  | some e =>
    simp only [htable] at hok
    obtain ⟨hlen, hraises⟩ := hok
    have htake : f.body.take e.size = f.body := List.take_of_length_le hlen.le
    have hdrop : f.body.drop e.size = [] := List.drop_eq_nil_of_le hlen.le
    refine ⟨p.handled ++ [(f.opcode, f.body)], ?_⟩
    rw [dataReceived_known hbuf hcur htable]
    have hserved : ({ afterHeader p f with curHandler := some f.opcode } : Protocol σ).served e =
        e.serve f.body p.env := by
      show e.serve (f.body.take e.size) p.env = _
      rw [htake]
    refine (settle_again (round_served rfl htable hlen.ge (by rw [hserved]; exact hraises))).trans ?_
    refine (settle_enough (round_short rfl ?_)).trans ?_
    · show (f.body.drop e.size).length < headerSize
      rw [hdrop]
      decide
    · unfold answer
      rw [hserved]
      simp only [afterHeader, htake, hdrop, hbuf, hcur]

theorem length_sent_le (table : BitVec 16 → Option (Entry σ)) (p : Protocol σ) (n : ℕ) :
    p.sent.length ≤ (loop table n p).sent.length := by
  induction n generalizing p with
  | zero => exact Nat.le_refl _
  | succ n ih =>
    cases roundCase table p with
    | known e hcur hle htable =>
      rw [loop_again (round_known hcur hle htable)]
      exact ih { p.takeHeader with curHandler := some p.header.opcode }
    | unknown hcur hle htable =>
      rw [loop_again (round_unknown hcur hle htable)]
      refine le_trans ?_ (ih _)
      simp only [sendMsg, takeHeader, List.length_append]
      omega
    | short hcur hlt =>
      rw [loop_enough (round_short hcur hlt)]
    | served opcode e hcur htable hle hraises =>
      rw [loop_again (round_served hcur htable hle hraises)]
      refine le_trans ?_ (ih _)
      simp only [answer, List.length_append]
      omega
    | raised opcode e hcur htable hle hraises =>
      rw [loop_raised (round_raised hcur htable hle hraises)]
      simp only [answer, List.length_append]
      omega
    | waits opcode hcur hlt =>
      rw [loop_enough (round_waits hcur hlt)]

/-- Bytes in the buffer do not vanish: they stay there, or a handler waits, or something is sent. -/
theorem settle_not_quiet {count : BitVec 16 → ℕ} (htalks : Talks table count) (hcur : p.curHandler = none)
    (hbuf : p.buf ≠ []) : ¬ ((settle table p).buf = [] ∧ (settle table p).curHandler = none ∧
      (settle table p).sent.length = p.sent.length) := by
  rintro ⟨hempty, hidle, hsame⟩
  cases roundCase table p with
  | known e _ hle htable =>
    rw [settle_again (round_known hcur hle htable)] at hempty hidle hsame
    generalize hq : ({ p.takeHeader with curHandler := some p.header.opcode } : Protocol σ) = q
      at hempty hidle hsame
    have hqcur : q.curHandler = some p.header.opcode := by rw [← hq]
    have hqsent : q.sent = p.sent := by rw [← hq]; rfl
    rcases Nat.lt_or_ge q.buf.length e.size with hlt | hge
    · rw [settle_enough (round_waits hqcur fun e' he' => by rw [htable] at he'; cases he'; exact hlt)] at hidle
      rw [hqcur] at hidle
      cases hidle
    · cases hraises : (q.served e).raises with
      | true =>
        rw [settle_raised (round_raised hqcur htable hge hraises)] at hidle
        have : q.curHandler = none := hidle
        rw [hqcur] at this
        cases this
      | false =>
        rw [settle_again (round_served hqcur htable hge hraises)] at hsame
        have hlen := length_sent_le table { q.answer p.header.opcode e with curHandler := none }
          (({ q.answer p.header.opcode e with curHandler := none } : Protocol σ).rounds + 1)
        have hcount := htalks.served _ e htable _ _ hraises
        have hpos := htalks.pos p.header.opcode
        unfold settle at hsame
        simp only [answer, List.length_append, hqsent, served] at hlen hsame hcount
        omega
  | unknown _ hle htable =>
    rw [settle_again (round_unknown hcur hle htable)] at hsame
    have hlen := length_sent_le table (p.takeHeader.sendMsg (emptyMessage p.header.opcode Wire.enosys))
      ((p.takeHeader.sendMsg (emptyMessage p.header.opcode Wire.enosys)).rounds + 1)
    unfold settle at hsame
    rw [hsame] at hlen
    simp only [sendMsg, takeHeader, List.length_append, List.length_singleton] at hlen
    omega
  | short _ hlt =>
    rw [settle_enough (round_short hcur hlt)] at hempty
    exact hbuf hempty
  | served opcode e hcur' | raised opcode e hcur' | waits opcode hcur' =>
    rw [hcur] at hcur'
    cases hcur'

/-- A request that is not in order leaves bytes in the buffer or a handler that waits, or the number of
messages is not right. -/
theorem frameOk_of_answered {count : BitVec 16 → ℕ} (htalks : Talks table count) (hbuf : p.buf = [])
    (hcur : p.curHandler = none) (hempty : (dataReceived table p f.bytes).buf = [])
    (hidle : (dataReceived table p f.bytes).curHandler = none)
    (hsent : (dataReceived table p f.bytes).sent.length = p.sent.length + count f.opcode) :
    FrameOk table p.env f := by
  unfold FrameOk
  cases htable : table f.opcode with
  | none =>
    rw [dataReceived_unknown hbuf hcur htable] at hempty hidle hsent
    by_contra hbody
    refine settle_not_quiet htalks (p := (afterHeader p f).sendMsg (emptyMessage f.opcode Wire.enosys))
      hcur hbody ⟨hempty, hidle, ?_⟩
    rw [hsent, htalks.unknown _ htable]
    simp only [sendMsg, afterHeader, List.length_append, List.length_singleton]
  | some e =>
    rw [dataReceived_known hbuf hcur htable] at hempty hidle hsent
    generalize hq : ({ afterHeader p f with curHandler := some f.opcode } : Protocol σ) = q
      at hempty hidle hsent
    have hqcur : q.curHandler = some f.opcode := by rw [← hq]
    have hqbuf : q.buf = f.body := by rw [← hq]; rfl
    have hqsent : q.sent = p.sent := by rw [← hq]; rfl
    have hqserved : q.served e = e.serve (f.body.take e.size) p.env := by rw [← hq]; rfl
    rcases Nat.lt_or_ge f.body.length e.size with hlt | hge
    · -- the handler waits for the rest of its structure
      rw [settle_enough (round_waits hqcur fun e' he' => by
        rw [htable] at he'; cases he'; rw [hqbuf]; exact hlt), hqcur] at hidle
      cases hidle
    · cases hraises : (q.served e).raises with
      | true =>
        rw [settle_raised (round_raised hqcur htable (by rw [hqbuf]; exact hge) hraises)] at hidle
        have : q.curHandler = none := hidle
        rw [hqcur] at this
        cases this
      | false =>
        rw [settle_again (round_served hqcur htable (by rw [hqbuf]; exact hge) hraises)] at hempty hidle hsent
        have hcount := htalks.served _ e htable _ _ hraises
        have hrest : f.body.drop e.size = [] := by
          by_contra hrest
          refine settle_not_quiet htalks (p := { q.answer f.opcode e with curHandler := none }) rfl
            (by rw [← hqbuf] at hrest; exact hrest) ⟨hempty, hidle, ?_⟩
          rw [hsent]
          simp only [answer, served, List.length_append, hqsent]
          rw [hcount]
        have hlen : f.body.length = e.size := by
          have := List.drop_eq_nil_iff.mp hrest
          omega
        refine ⟨hlen, ?_⟩
        rw [hqserved, List.take_of_length_le hlen.le] at hraises
        exact hraises

/-! ### Sequences of requests -/

/-- The parser has consumed the requests, and what it sent are the responses to them, in order. -/
def Answers (R : σ → Frame → List (List Byte) → Prop) (table : BitVec 16 → Option (Entry σ)) :
    σ → List Frame → List (List Byte) → Prop
  | _, [], sent => sent = []
  | env, f :: fs, sent =>
    ∃ response rest, sent = response ++ rest ∧ R env f response ∧ Answers R table (after table env f) fs rest

/-- Every request of the sequence is consumed and answered, however the bytes arrive: after any number of
requests no byte and no handler waits, and what was sent are the responses to these requests. -/
def Answered (R : σ → Frame → List (List Byte) → Prop) (table : BitVec 16 → Option (Entry σ)) (env : σ)
    (frames : List Frame) : Prop :=
  ∀ pre, pre <+: frames → ∀ chunks : List (List Byte), chunks.flatten = pre.flatMap Frame.bytes →
    (run (dataReceived table) (.init env) chunks).buf = [] ∧
      (run (dataReceived table) (.init env) chunks).curHandler = none ∧
      Answers R table env pre (run (dataReceived table) (.init env) chunks).sent

section Sequence

variable {R : σ → Frame → List (List Byte) → Prop} {count : BitVec 16 → ℕ}

theorem length_answers (hlen : ∀ env f response, R env f response → response.length = count f.opcode)
    {frames : List Frame} {env : σ} {sent : List (List Byte)} (h : Answers R table env frames sent) :
    sent.length = (frames.map fun f => count f.opcode).sum := by
  induction frames generalizing env sent with
  | nil =>
    cases h
    rfl
  | cons f frames ih =>
    obtain ⟨response, rest, rfl, hresponse, hrest⟩ := h
    rw [List.length_append, hlen env f response hresponse, ih hrest, List.map_cons, List.sum_cons]

/-- Requests that are in order, one call of `data_received` each. -/
theorem run_frames (hok : ∀ env f, FrameOk table env f → R env f (answersTo table env f))
    {frames : List Frame} (hbuf : p.buf = []) (hcur : p.curHandler = none)
    (hal : Along (after table) (FrameOk table) p.env frames) :
    (run (dataReceived table) p (frames.map Frame.bytes)).buf = [] ∧
      (run (dataReceived table) p (frames.map Frame.bytes)).curHandler = none ∧
      (run (dataReceived table) p (frames.map Frame.bytes)).escaped = p.escaped ∧
      (run (dataReceived table) p (frames.map Frame.bytes)).env = run (after table) p.env frames ∧
      ∃ sent, (run (dataReceived table) p (frames.map Frame.bytes)).sent = p.sent ++ sent ∧
        Answers R table p.env frames sent := by
  induction frames generalizing p with
  | nil => exact ⟨hbuf, hcur, rfl, rfl, [], (List.append_nil _).symm, rfl⟩
  | cons f frames ih =>
    obtain ⟨handled, hnext⟩ := dataReceived_frame hbuf hcur hal.1
    rw [List.map_cons, run_cons, run_cons, hnext]
    obtain ⟨hbuf', hcur', hescaped, henv, sent, hsent, hanswers⟩ :=
      ih (p := { p with
        curHdr := none
        env := after table p.env f
        sent := p.sent ++ answersTo table p.env f
        handled := handled }) hbuf hcur hal.2
    refine ⟨hbuf', hcur', hescaped, henv, answersTo table p.env f ++ sent, ?_, ?_⟩
    · rw [hsent, List.append_assoc]
    · exact ⟨_, _, rfl, hok _ _ hal.1, hanswers⟩

/-- **Framing.**  Every request of a sequence is consumed and answered exactly if each of them is in order. -/
theorem answered_iff_frames (htalks : Talks table count)
    (hlen : ∀ env f response, R env f response → response.length = count f.opcode)
    (hok : ∀ env f, FrameOk table env f → R env f (answersTo table env f)) (env : σ) (frames : List Frame) :
    Answered R table env frames ↔ Along (after table) (FrameOk table) env frames := by
  constructor
  · intro h
    -- by induction on the requests that are known to be in order
    suffices ∀ pre, pre <+: frames → Along (after table) (FrameOk table) env pre from
      this frames (List.prefix_refl _)
    intro pre
    induction pre using List.reverseRecOn with
    | nil => exact fun _ => trivial
    | append_singleton pre f ih =>
      intro hpre
      have hal := ih ((List.prefix_append pre [f]).trans hpre)
      obtain ⟨hbuf, hcur, -, henv, sent, hsent, hanswers⟩ := run_frames (p := .init env) hok rfl rfl hal
      have hflat : (((pre ++ [f]).map Frame.bytes)).flatten = (pre ++ [f]).flatMap Frame.bytes := rfl
      obtain ⟨hempty, hidle, hall⟩ := h (pre ++ [f]) hpre _ hflat
      rw [List.map_append, run_append] at hempty hidle hall
      rw [along_append]
      refine ⟨hal, ?_, trivial⟩
      rw [show run (after table) env pre = _ from henv.symm]
      refine frameOk_of_answered htalks hbuf hcur hempty hidle ?_
      have hnow := length_answers hlen hall
      have hbefore := length_answers hlen hanswers
      rw [List.map_append, List.sum_append] at hnow
      rw [hsent, List.length_append, hbefore]
      exact hnow.trans (by simp [Protocol.init])
  · rintro hal pre ⟨suf, rfl⟩ chunks hchunks
    have hpre := ((along_append pre suf env).mp hal).1
    obtain ⟨hbuf, hcur, hescaped, -, sent, hsent, hanswers⟩ := run_frames (p := .init env) hok rfl rfl hpre
    have hsettled : Settled table (.init env) := round_short rfl (show 0 < headerSize by decide)
    rw [← run_eq_run hsettled (show (pre.map Frame.bytes).flatten = chunks.flatten from hchunks.symm) hescaped]
    refine ⟨hbuf, hcur, ?_⟩
    rw [hsent]
    exact hanswers

end Sequence

end Frames

end Nica.Manager.Rpc
