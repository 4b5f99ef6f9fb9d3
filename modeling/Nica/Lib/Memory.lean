import Nica.Lib.Fifo
import Mathlib.Logic.Function.Basic

/-!
# A memory that serves its commands in order

Commands are posted to a stream and served one at a time, after any delay; the answers of the reads wait in a
second stream.  `replay` is the meaning of a sequence of commands: the cells that it leaves and the answers
of its reads.  `Served` says that a memory is where the commands served so far take it, so the answers are
those of `replay` whatever the delays were (`Served.responses_of_replay`).
-/

namespace Nica.Lib

variable {ι α : Type*} [DecidableEq ι]

inductive MemCommand (ι α : Type*)
  | write (i : ι) (a : α)
  | read (i : ι)

/-- The cells after one command. -/
def MemCommand.apply (cells : ι → α) : MemCommand ι α → ι → α
  | .write i a => Function.update cells i a
  | .read _ => cells

/-- The answer of a command to be served with these cells. -/
def MemCommand.answer (cells : ι → α) : MemCommand ι α → Option α
  | .write _ _ => none
  | .read i => some (cells i)

/-- The cells after a sequence of commands, and the answers of its reads. -/
def replay (cells : ι → α) : List (MemCommand ι α) → (ι → α) × List α
  | [] => (cells, [])
  | c :: cs => ((replay (c.apply cells) cs).1, (c.answer cells).toList ++ (replay (c.apply cells) cs).2)

theorem replay_append (cells : ι → α) (cs ds : List (MemCommand ι α)) :
    replay cells (cs ++ ds) =
      ((replay (replay cells cs).1 ds).1, (replay cells cs).2 ++ (replay (replay cells cs).1 ds).2) := by
  induction cs generalizing cells with
  | nil => rfl
  | cons c cs ih =>
    rw [List.cons_append, replay, ih]
    simp only [replay, List.append_assoc]

/-- An answer is what the commands before the read left in its cell. -/
theorem replay_answer {cells : ι → α} {cs : List (MemCommand ι α)} {n : ℕ} {a : α}
    (h : (replay cells cs).2[n]? = some a) :
    ∃ before i after, cs = before ++ .read i :: after ∧ (replay cells before).2.length = n ∧
      a = (replay cells before).1 i := by
  induction cs generalizing cells n with
  | nil => cases h
  | cons c cs ih =>
    cases c with
    | write i b =>
      have h' : (replay (Function.update cells i b) cs).2[n]? = some a := h
      obtain ⟨before, j, after, rfl, hlen, ha⟩ := ih h'
      exact ⟨.write i b :: before, j, after, rfl, hlen, ha⟩
    | read i =>
      have h' : (cells i :: (replay cells cs).2)[n]? = some a := h
      cases n with
      | zero =>
        cases h'
        exact ⟨[], i, cs, rfl, rfl, rfl⟩
      | succ n =>
        obtain ⟨before, j, after, rfl, hlen, ha⟩ := ih h'
        exact ⟨.read i :: before, j, after, rfl, congrArg (· + 1) hlen, ha⟩

/-- The cells, the commands and the answers. -/
structure Memory (ι α : Type*) where
  cells : ι → α
  commands : Fifo (MemCommand ι α)
  responses : Fifo α

namespace Memory

variable {m : Memory ι α} {start : ι → α}

def init (start : ι → α) : Memory ι α := ⟨start, .nil, .nil⟩

/-- Post a command. -/
def post (m : Memory ι α) (c : MemCommand ι α) : Memory ι α := { m with commands := m.commands.write c }

/-- Serve the oldest command. -/
def serve (m : Memory ι α) : Memory ι α :=
  match m.commands.head with
  | none => m
  | some c =>
    { cells := c.apply m.cells
      commands := m.commands.pop
      responses := m.responses.put (c.answer m.cells) }

/-- Take the oldest answer. -/
def getResponse (m : Memory ι α) : Memory ι α := { m with responses := m.responses.pop }

/-- The memory is where the commands that were served take it. -/
def Served (start : ι → α) (m : Memory ι α) : Prop :=
  replay start m.commands.past = (m.cells, m.responses.sent)

theorem served_init : (init start).Served start := rfl

theorem Served.post (h : m.Served start) (c : MemCommand ι α) : (m.post c).Served start := h

theorem Served.getResponse (h : m.Served start) : m.getResponse.Served start := by
  unfold Served at h ⊢
  rw [Memory.getResponse, Fifo.sent_pop]
  exact h

theorem Served.serve (h : m.Served start) : m.serve.Served start := by
  unfold Memory.serve
  cases hhead : m.commands.head with
  | none => exact h
  | some c =>
    obtain ⟨q, hq⟩ := m.commands.queue_eq_of_head hhead
    unfold Served at h ⊢
    simp only [Fifo.past_pop _ hq, Fifo.sent_put, replay_append, h, replay, List.append_nil]

/-- Serving takes commands from the one stream and puts answers into the other. -/
theorem serve_streams (m : Memory ι α) :
    m.serve.commands.sent = m.commands.sent ∧ m.serve.responses.past = m.responses.past := by
  unfold serve
  cases hhead : m.commands.head with
  | none => exact ⟨rfl, rfl⟩
  | some c => exact ⟨Fifo.sent_pop _, rfl⟩

/-- The answers are those of all commands posted, in order, as far as they were served. -/
theorem Served.responses_of_replay (h : m.Served start) :
    m.responses.sent <+: (replay start m.commands.sent).2 := by
  unfold Served at h
  show m.responses.sent <+: (replay start (m.commands.past ++ m.commands.queue)).2
  rw [replay_append, h]
  exact List.prefix_append _ _

end Memory

end Nica.Lib
