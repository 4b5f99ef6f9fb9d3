import Nica.Manager.Rpc

/-!
# The parser does not depend on how the bytes arrive

A round of the loop that finds enough bytes reads only the bytes that it consumes, so it does the same when
more of them have arrived, and a round that does not leaves everything to the next call of `data_received`
(`round_spec`).  Hence receiving two chunks is receiving them as one
(`dataReceived_append`), as long as no exception leaves a handler, and any chunks are as good as the whole
stream (`run_eq_dataReceived`).
-/

namespace Nica.Manager.Rpc

open Nica.Lib Nica.Libnica
open Nica.Libnica.Wire (Byte headerSize)

namespace Protocol

variable {σ : Type} {table : BitVec 16 → Option (Entry σ)} {p p' : Protocol σ}

/-- More bytes arrive. -/
def push (p : Protocol σ) (more : List Byte) : Protocol σ := { p with buf := p.buf ++ more }

/-! ### One round -/

section Round

variable {opcode : BitVec 16} {e : Entry σ}

theorem round_known (hcur : p.curHandler = none) (hle : headerSize ≤ p.buf.length)
    (htable : table p.header.opcode = some e) :
    round table p = .again { p.takeHeader with curHandler := some p.header.opcode } := by
  simp [round, headerDataReceived, hcur, hle, htable]

theorem round_unknown (hcur : p.curHandler = none) (hle : headerSize ≤ p.buf.length)
    (htable : table p.header.opcode = none) :
    round table p = .again (p.takeHeader.sendMsg (emptyMessage p.header.opcode Wire.enosys)) := by
  simp [round, headerDataReceived, hcur, hle, htable]

theorem round_short (hcur : p.curHandler = none) (hlt : p.buf.length < headerSize) :
    round table p = .enough { p with curHdr := none } := by
  simp [round, headerDataReceived, hcur, Nat.not_le.mpr hlt]

theorem round_served (hcur : p.curHandler = some opcode) (htable : table opcode = some e)
    (hle : e.size ≤ p.buf.length) (hraises : (p.served e).raises = false) :
    round table p = .again { p.answer opcode e with curHandler := none } := by
  simp [round, funcWrapper, hcur, htable, hle, hraises]

theorem round_raised (hcur : p.curHandler = some opcode) (htable : table opcode = some e)
    (hle : e.size ≤ p.buf.length) (hraises : (p.served e).raises = true) :
    round table p = .raised { p.answer opcode e with escaped := p.escaped + 1 } := by
  simp [round, funcWrapper, hcur, htable, hle, hraises]

theorem round_waits (hcur : p.curHandler = some opcode)
    (hlt : ∀ e, table opcode = some e → p.buf.length < e.size) : round table p = .enough p := by
  cases htable : table opcode with
  | none => simp [round, hcur, htable]
  | some e => simp [round, funcWrapper, hcur, htable, hlt e htable]

/-- The cases of a round: it reads a header, of a request that is known or not, it calls a handler, which
returns or raises, or it waits for more bytes. -/
inductive RoundCase (table : BitVec 16 → Option (Entry σ)) (p : Protocol σ) : Prop
  | known (e : Entry σ) (hcur : p.curHandler = none) (hle : headerSize ≤ p.buf.length)
      (htable : table p.header.opcode = some e)
  | unknown (hcur : p.curHandler = none) (hle : headerSize ≤ p.buf.length)
      (htable : table p.header.opcode = none)
  | short (hcur : p.curHandler = none) (hlt : p.buf.length < headerSize)
  | served (opcode : BitVec 16) (e : Entry σ) (hcur : p.curHandler = some opcode)
      (htable : table opcode = some e) (hle : e.size ≤ p.buf.length) (hraises : (p.served e).raises = false)
  | raised (opcode : BitVec 16) (e : Entry σ) (hcur : p.curHandler = some opcode)
      (htable : table opcode = some e) (hle : e.size ≤ p.buf.length) (hraises : (p.served e).raises = true)
  | waits (opcode : BitVec 16) (hcur : p.curHandler = some opcode)
      (hlt : ∀ e, table opcode = some e → p.buf.length < e.size)

theorem roundCase (table : BitVec 16 → Option (Entry σ)) (p : Protocol σ) : RoundCase table p := by
  cases hcur : p.curHandler with
  | none =>
    rcases Nat.lt_or_ge p.buf.length headerSize with hlt | hle
    · exact .short hcur hlt
    · cases htable : table p.header.opcode with
      | none => exact .unknown hcur hle htable
      | some e => exact .known e hcur hle htable
  | some opcode =>
    cases htable : table opcode with
    | none => exact .waits opcode hcur fun e he => by rw [htable] at he; cases he
    | some e =>
      rcases Nat.lt_or_ge p.buf.length e.size with hlt | hle
      · refine .waits opcode hcur fun e' he => ?_
        rw [htable] at he
        cases he
        exact hlt
      · cases hraises : (p.served e).raises with
        | false => exact .served opcode e hcur htable hle hraises
        | true => exact .raised opcode e hcur htable hle hraises

end Round

theorem take_push {n : ℕ} (hn : n ≤ p.buf.length) (more : List Byte) :
    (p.push more).buf.take n = p.buf.take n :=
  List.take_append_of_le_length hn

theorem drop_push {n : ℕ} (hn : n ≤ p.buf.length) (more : List Byte) :
    (p.push more).buf.drop n = p.buf.drop n ++ more :=
  List.drop_append_of_le_length hn

theorem le_length_push {n : ℕ} (hn : n ≤ p.buf.length) (more : List Byte) :
    n ≤ (p.push more).buf.length :=
  hn.trans (by rw [push, List.length_append]; exact Nat.le_add_right _ _)

theorem header_push (hle : headerSize ≤ p.buf.length) (more : List Byte) :
    (p.push more).header = p.header := by
  rw [header, take_push hle, header]

theorem takeHeader_push (hle : headerSize ≤ p.buf.length) (more : List Byte) :
    (p.push more).takeHeader = p.takeHeader.push more := by
  unfold takeHeader
  rw [header_push hle, drop_push hle]
  rfl

theorem served_push {e : Entry σ} (hle : e.size ≤ p.buf.length) (more : List Byte) :
    (p.push more).served e = p.served e := by
  unfold served
  rw [take_push hle]
  rfl

theorem answer_push {opcode : BitVec 16} {e : Entry σ} (hle : e.size ≤ p.buf.length) (more : List Byte) :
    (p.push more).answer opcode e = (p.answer opcode e).push more := by
  unfold answer
  rw [served_push hle, take_push hle, drop_push hle]
  rfl

/-- What the loop needs to know of a round.  With enough bytes it does the same when more of them are there,
and it brings the loop nearer to its end; without, the next call starts where it stopped. -/
theorem round_spec (table : BitVec 16 → Option (Entry σ)) (p : Protocol σ) :
    match round table p with
    | .again p' => p'.rounds < p.rounds ∧ p'.escaped = p.escaped ∧
        ∀ more, round table (p.push more) = .again (p'.push more)
    | .enough p' => p'.escaped = p.escaped ∧ round table p' = .enough p' ∧
        ∀ more, (p'.push more).rounds = (p.push more).rounds ∧
          round table (p'.push more) = round table (p.push more)
    | .raised p' => p'.escaped = p.escaped + 1 ∧
        ∀ more, round table (p.push more) = .raised (p'.push more) := by
  have hsize : headerSize = 8 := rfl
  cases roundCase table p with
  | known e hcur hle htable =>
    rw [round_known hcur hle htable]
    refine ⟨?_, rfl, fun more => ?_⟩
    · simp only [rounds, takeHeader, hcur, hsize, List.length_drop, Option.isSome_some, if_true] at hle ⊢
      omega
    · rw [round_known (p := p.push more) (e := e) hcur (le_length_push hle more)
        (by rw [header_push hle]; exact htable), takeHeader_push hle, header_push hle]
      rfl
  | unknown hcur hle htable =>
    rw [round_unknown hcur hle htable]
    refine ⟨?_, rfl, fun more => ?_⟩
    · simp only [rounds, takeHeader, sendMsg, hcur, hsize, List.length_drop] at hle ⊢
      omega
    · rw [round_unknown (p := p.push more) hcur (le_length_push hle more)
        (by rw [header_push hle]; exact htable), takeHeader_push hle, header_push hle]
      rfl
  | short hcur hlt =>
    rw [round_short hcur hlt]
    refine ⟨rfl, round_short hcur hlt, fun more => ⟨rfl, ?_⟩⟩
    -- the header is overwritten before anything reads it
    unfold round
    simp only [push, hcur]
    rfl
  | served opcode e hcur htable hle hraises =>
    rw [round_served hcur htable hle hraises]
    refine ⟨?_, rfl, fun more => ?_⟩
    · simp only [rounds, answer, hcur, List.length_drop, Option.isSome_some, Option.isSome_none, if_true,
        Bool.false_eq_true, if_false]
      omega
    · rw [round_served (p := p.push more) hcur htable (le_length_push hle more)
        (by rw [served_push hle]; exact hraises), answer_push hle]
      rfl
  | raised opcode e hcur htable hle hraises =>
    rw [round_raised hcur htable hle hraises]
    refine ⟨rfl, fun more => ?_⟩
    rw [round_raised (p := p.push more) hcur htable (le_length_push hle more)
      (by rw [served_push hle]; exact hraises), answer_push hle]
    rfl
  | waits opcode hcur hlt =>
    have hwait := round_waits hcur hlt
    rw [hwait]
    exact ⟨rfl, hwait, fun _ => ⟨rfl, rfl⟩⟩

theorem round_again (h : round table p = .again p') :
    p'.rounds < p.rounds ∧ p'.escaped = p.escaped ∧
      ∀ more, round table (p.push more) = .again (p'.push more) := by
  have hspec := round_spec table p
  rwa [h] at hspec

theorem round_enough (h : round table p = .enough p') :
    p'.escaped = p.escaped ∧ round table p' = .enough p' ∧
      ∀ more, (p'.push more).rounds = (p.push more).rounds ∧
        round table (p'.push more) = round table (p.push more) := by
  have hspec := round_spec table p
  rwa [h] at hspec

theorem round_escapes (h : round table p = .raised p') :
    p'.escaped = p.escaped + 1 ∧ ∀ more, round table (p.push more) = .raised (p'.push more) := by
  have hspec := round_spec table p
  rwa [h] at hspec

/-! ### The loop -/

theorem loop_again {n : ℕ} (h : round table p = .again p') : loop table (n + 1) p = loop table n p' := by
  rw [loop, h]

theorem loop_enough {n : ℕ} (h : round table p = .enough p') : loop table (n + 1) p = p' := by
  rw [loop, h]

theorem loop_raised {n : ℕ} (h : round table p = .raised p') : loop table (n + 1) p = p' := by
  rw [loop, h]

/-- More rounds than the bound make no difference. -/
theorem loop_eq {n m : ℕ} (hn : p.rounds < n) (hm : p.rounds < m) : loop table n p = loop table m p := by
  induction n generalizing p m with
  | zero => omega
  | succ n ih =>
    obtain ⟨m, rfl⟩ : ∃ k, m = k + 1 := ⟨m - 1, by omega⟩
    cases hround : round table p with
    | again q =>
      have := (round_again hround).1
      rw [loop_again hround, loop_again hround]
      exact ih (by omega) (by omega)
    | enough q => rw [loop_enough hround, loop_enough hround]
    | raised q => rw [loop_raised hround, loop_raised hround]

theorem escaped_le_loop (n : ℕ) : p.escaped ≤ (loop table n p).escaped := by
  induction n generalizing p with
  | zero => exact Nat.le_refl _
  | succ n ih =>
    cases hround : round table p with
    | again q =>
      rw [loop_again hround, ← (round_again hround).2.1]
      exact ih
    | enough q =>
      rw [loop_enough hround]
      exact (round_enough hround).1.ge
    | raised q =>
      rw [loop_raised hround, (round_escapes hround).1]
      exact Nat.le_succ _

/-- The rounds that the first bytes allow come first. -/
theorem loop_push {n m m' : ℕ} (more : List Byte) (hn : p.rounds < n) (hm : (p.push more).rounds < m)
    (hm' : ((loop table n p).push more).rounds < m') (hok : (loop table n p).escaped = p.escaped) :
    loop table m (p.push more) = loop table m' ((loop table n p).push more) := by
  induction n generalizing p m with
  | zero => omega
  | succ n ih =>
    obtain ⟨m, rfl⟩ : ∃ k, m = k + 1 := ⟨m - 1, by omega⟩
    cases hround : round table p with
    | again q =>
      have hpush := (round_again hround).2.2 more
      have hlt := (round_again hround).1
      have hlt' := (round_again hpush).1
      rw [loop_again hround] at hm' hok ⊢
      rw [loop_again hpush]
      exact ih (by omega) (by omega) hm' (hok.trans (round_again hround).2.1.symm)
    | enough q =>
      obtain ⟨hrounds, hnext⟩ := (round_enough hround).2.2 more
      rw [loop_enough hround] at hm' ⊢
      obtain ⟨m', rfl⟩ : ∃ k, m' = k + 1 := ⟨m' - 1, by omega⟩
      rw [loop_eq (m := m' + 1) hm (by omega), loop, loop, hnext]
    | raised q =>
      have := (round_escapes hround).1
      rw [loop_raised hround] at hok
      omega

/-- An exception in the first bytes leaves a handler also when more bytes follow at once. -/
theorem escaped_loop_push {n m : ℕ} (more : List Byte) (hn : p.rounds < n) (hm : (p.push more).rounds < m) :
    (loop table n p).escaped ≤ (loop table m (p.push more)).escaped := by
  induction n generalizing p m with
  | zero => omega
  | succ n ih =>
    obtain ⟨m, rfl⟩ : ∃ k, m = k + 1 := ⟨m - 1, by omega⟩
    cases hround : round table p with
    | again q =>
      have hpush := (round_again hround).2.2 more
      have hlt := (round_again hround).1
      have hlt' := (round_again hpush).1
      rw [loop_again hround, loop_again hpush]
      exact ih (by omega) (by omega)
    | enough q =>
      rw [loop_enough hround, (round_enough hround).1]
      exact escaped_le_loop (p := p.push more) _
    | raised q =>
      rw [loop_raised hround, loop_raised ((round_escapes hround).2 more)]
      exact Nat.le_refl _

/-! ### Chunks -/

/-- The loop has nothing to do. -/
def Settled (table : BitVec 16 → Option (Entry σ)) (p : Protocol σ) : Prop := round table p = .enough p

theorem settled_loop {n : ℕ} (hn : p.rounds < n) (hok : (loop table n p).escaped = p.escaped) :
    Settled table (loop table n p) := by
  induction n generalizing p with
  | zero => omega
  | succ n ih =>
    cases hround : round table p with
    | again q =>
      have hlt := (round_again hround).1
      rw [loop_again hround] at hok ⊢
      exact ih (by omega) (hok.trans (round_again hround).2.1.symm)
    | enough q =>
      rw [loop_enough hround]
      exact (round_enough hround).2.1
    | raised q =>
      have := (round_escapes hround).1
      rw [loop_raised hround] at hok
      omega

theorem settled_dataReceived {data : List Byte}
    (hok : (dataReceived table p data).escaped = p.escaped) : Settled table (dataReceived table p data) :=
  settled_loop (p := p.push data) (Nat.lt_succ_self _) hok

theorem dataReceived_nil (h : Settled table p) : dataReceived table p [] = p := by
  have hpush : p.push [] = p := by
    unfold push
    rw [List.append_nil]
  show loop table ((p.push []).rounds + 1) (p.push []) = p
  rw [hpush, loop_enough h]

/-- Two chunks are as good as one. -/
theorem dataReceived_append {a b : List Byte} (hok : (dataReceived table p a).escaped = p.escaped) :
    dataReceived table p (a ++ b) = dataReceived table (dataReceived table p a) b := by
  have hpush : p.push (a ++ b) = (p.push a).push b := by
    unfold push
    rw [List.append_assoc]
  show loop table ((p.push (a ++ b)).rounds + 1) (p.push (a ++ b)) = _
  rw [hpush]
  exact loop_push b (Nat.lt_succ_self _) (Nat.lt_succ_self _) (Nat.lt_succ_self _) hok

theorem escaped_dataReceived_append (table : BitVec 16 → Option (Entry σ)) (p : Protocol σ) (a b : List Byte) :
    (dataReceived table p a).escaped ≤ (dataReceived table p (a ++ b)).escaped := by
  have hpush : p.push (a ++ b) = (p.push a).push b := by
    unfold push
    rw [List.append_assoc]
  show _ ≤ (loop table ((p.push (a ++ b)).rounds + 1) (p.push (a ++ b))).escaped
  rw [hpush]
  exact escaped_loop_push b (Nat.lt_succ_self _) (Nat.lt_succ_self _)

theorem escaped_le_dataReceived (table : BitVec 16 → Option (Entry σ)) (p : Protocol σ) (a : List Byte) :
    p.escaped ≤ (dataReceived table p a).escaped :=
  escaped_le_loop (p := p.push a) _

theorem escaped_le_run (table : BitVec 16 → Option (Entry σ)) (p : Protocol σ) (chunks : List (List Byte)) :
    p.escaped ≤ (run (dataReceived table) p chunks).escaped := by
  induction chunks generalizing p with
  | nil => exact Nat.le_refl _
  | cons a chunks ih => exact (escaped_le_dataReceived table p a).trans (ih _)

/-- Chunks that raise nothing are as good as the whole stream. -/
theorem run_eq_dataReceived {chunks : List (List Byte)} (hp : Settled table p)
    (hok : (run (dataReceived table) p chunks).escaped = p.escaped) :
    run (dataReceived table) p chunks = dataReceived table p chunks.flatten := by
  induction chunks generalizing p with
  | nil => exact (dataReceived_nil hp).symm
  | cons a chunks ih =>
    have hfirst : (dataReceived table p a).escaped = p.escaped := by
      have h₁ := escaped_le_dataReceived table p a
      have h₂ := escaped_le_run table (dataReceived table p a) chunks
      rw [run_cons] at hok
      omega
    rw [run_cons, List.flatten_cons, dataReceived_append hfirst]
    exact ih (settled_dataReceived hfirst) (by rw [run_cons] at hok; omega)

/-- Nor does the whole stream raise anything that some chunks do not. -/
theorem escaped_run_of_dataReceived {chunks : List (List Byte)} (hp : Settled table p)
    (hok : (dataReceived table p chunks.flatten).escaped = p.escaped) :
    (run (dataReceived table) p chunks).escaped = p.escaped := by
  induction chunks generalizing p with
  | nil => rfl
  | cons a chunks ih =>
    rw [List.flatten_cons] at hok
    have hfirst : (dataReceived table p a).escaped = p.escaped := by
      have h₁ := escaped_le_dataReceived table p a
      have h₂ := escaped_dataReceived_append table p a chunks.flatten
      omega
    rw [dataReceived_append hfirst] at hok
    rw [run_cons]
    exact (ih (settled_dataReceived hfirst) (hok.trans hfirst.symm)).trans hfirst

/-- **Chunking.**  Two ways to cut one stream, of which one raises nothing. -/
theorem run_eq_run {chunks chunks' : List (List Byte)} (hp : Settled table p)
    (hsame : chunks.flatten = chunks'.flatten)
    (hok : (run (dataReceived table) p chunks).escaped = p.escaped) :
    run (dataReceived table) p chunks = run (dataReceived table) p chunks' := by
  have hwhole := run_eq_dataReceived hp hok
  have hok' : (run (dataReceived table) p chunks').escaped = p.escaped := by
    refine escaped_run_of_dataReceived hp ?_
    rw [← hsame, ← hwhole]
    exact hok
  rw [hwhole, run_eq_dataReceived hp hok', hsame]

end Protocol

/-! ### The manager -/

open Protocol

/-- `opcode_handlers` of the class of a connection. -/
def handlers : Kind → ℕ → BitVec 16 → Option (Entry Env)
  | .client, c => clientHandlers c
  | .hypervisor _, c => vmHandlers c

/-- `receive_fd` is called in the handler of the opcode. -/
def receivesFd (kind : Kind) (opcode : BitVec 16) : Bool := kind = .client ∧ (opcode = 4 ∨ opcode = 5)

/-- No exception left a handler, and none of those that were called received a descriptor. -/
def Plain (kind : Kind) (p : Protocol Env) : Prop :=
  p.escaped = 0 ∧ ∀ x ∈ p.handled, receivesFd kind x.1 = false

/-- Two ways to cut a stream into calls of `data_received`: the same handlers are called with the same
arguments, the same bytes are sent, and the same bytes and the same handler are left. -/
theorem run_chunks_eq (kind : Kind) (c : ℕ) (env : Env) (chunks chunks' : List (List Byte))
    (hsame : chunks.flatten = chunks'.flatten)
    (hplain : Plain kind (run (dataReceived (handlers kind c)) (.init env) chunks)) :
    run (dataReceived (handlers kind c)) (.init env) chunks =
      run (dataReceived (handlers kind c)) (.init env) chunks' :=
  run_eq_run (round_short rfl (show 0 < headerSize by decide)) hsame hplain.1

/-- A manager with a client and a VM. -/
def exampleEnv : Env :=
  ⟨runFrom (Manager.init ⟨[0x65], 0x0a000002, 0x02, 0x2b49fec3d30c464da6a1171f9e4443f1, 64⟩)
    [.connect .client, .connect (.hypervisor none)], []⟩

/-- `ik_destroy` of the handle 7, which is not there, an unknown opcode, and the first bytes of a header. -/
def exampleStream : List Byte := [2, 0, 4, 0, 1, 0, 0, 0, 7, 0, 0, 0, 99, 0, 0, 0, 1, 0, 0, 0, 3, 0]

/-- The stream byte by byte, or cut in the middle of a header. -/
theorem run_chunks_eq_example :
    Plain .client (run (dataReceived (handlers .client 0)) (.init exampleEnv) (exampleStream.map fun b => [b])) ∧
      run (dataReceived (handlers .client 0)) (.init exampleEnv) (exampleStream.map fun b => [b]) =
        run (dataReceived (handlers .client 0)) (.init exampleEnv)
          [exampleStream.take 15, exampleStream.drop 15] := by
  have hplain : Plain .client
      (run (dataReceived (handlers .client 0)) (.init exampleEnv) (exampleStream.map fun b => [b])) := by
    unfold Plain
    decide +kernel
  exact ⟨hplain, run_chunks_eq .client 0 exampleEnv _ _ (by decide) hplain⟩

end Nica.Manager.Rpc
