import Nica.Lib.Run
import Nica.Hls.Types

/-!
# Units that merge a side stream into the packets of a data stream

`ntl::push_header` puts a header in front of a packet and `ntl::push_suffix` a few bytes behind it.  For every
packet, `enable` says whether that is done and `empty` whether there is a data packet at all; the header or the
suffix comes on a stream of its own.  The `ntl` submodule is not part of the sources: `Merger` is what they use
of it, its registers and one call of `reorder`.

A merger is seen here with its streams and nothing else: `State`, and the steps `Act` of its environment and
itself.  What is assumed of one is stated in these terms (`Merger.Concatenates`).
-/

namespace Nica.Hls

open Nica.Lib

/-- What one call of `reorder` reads and writes. -/
structure MergerIo where
  readExtra : Bool
  readEmpty : Bool
  readEnable : Bool
  readData : Bool
  out : Option AxiData
deriving DecidableEq, Repr

/-- The interface: `reorder` is given the heads of the streams it reads and whether it finds the output full.
The side stream has elements of type `α`. -/
structure Merger (α : Type) where
  Reg : Type
  start : Reg
  reorder : Reg → Option α → Option Bool → Option Bool → Option AxiData → Bool → Reg × MergerIo

namespace Merger

variable {α : Type}

/-- A merger with its streams. -/
structure State (M : Merger α) where
  reg : M.Reg
  extra : Fifo α
  empty : Fifo Bool
  enable : Fifo Bool
  data : Fifo AxiData
  out : Fifo AxiData

/-- A merger after reset. -/
def State.init (M : Merger α) : State M := ⟨M.start, .nil, .nil, .nil, .nil, .nil⟩

/-- One step: a call of the merger, an arrival on one of its streams, or a read of its output. -/
inductive Act (α : Type)
  | reorder (outFull : Bool)
  | extra (x : α)
  | empty (e : Bool)
  | enable (e : Bool)
  | data (b : AxiData)
  | takeOut
deriving DecidableEq, Repr

variable {M : Merger α}

def step (s : State M) : Act α → State M
  | .reorder full =>
    let (reg, io) := M.reorder s.reg s.extra.head s.empty.head s.enable.head s.data.head full
    { reg
      extra := s.extra.readIf io.readExtra
      empty := s.empty.readIf io.readEmpty
      enable := s.enable.readIf io.readEnable
      data := s.data.readIf io.readData
      out := s.out.put io.out }
  | .extra x => { s with extra := s.extra.write x }
  | .empty e => { s with empty := s.empty.write e }
  | .enable e => { s with enable := s.enable.write e }
  | .data b => { s with data := s.data.write b }
  | .takeOut => { s with out := s.out.readIf true }

/-! ### The contract -/

/-- What a merger gets for one packet. -/
structure Job (α : Type) where
  enable : Bool
  empty : Bool
  extra : List α
  data : List AxiData

/-- The pieces of a job are framed: those of the side stream as `Extra` says if it is used, and the data as a
packet if there is any. -/
structure Job.Framed (Extra : List α → Prop) (j : Job α) : Prop where
  extra : if j.enable then Extra j.extra else j.extra = []
  data : if j.empty then j.data = [] else IsPacket j.data

/-- What arrived at a merger is a prefix of the pieces of the jobs. -/
structure Delivers (jobs : List (Job α)) (s : State M) : Prop where
  extra : s.extra.sent <+: jobs.flatMap Job.extra
  empty : s.empty.sent <+: jobs.map Job.empty
  enable : s.enable.sent <+: jobs.map Job.enable
  data : s.data.sent <+: jobs.flatMap Job.data

/-- Everything has arrived. -/
structure Arrived (jobs : List (Job α)) (s : State M) : Prop where
  extra : s.extra.sent = jobs.flatMap Job.extra
  empty : s.empty.sent = jobs.map Job.empty
  enable : s.enable.sent = jobs.map Job.enable
  data : s.data.sent = jobs.flatMap Job.data

theorem Arrived.delivers {jobs : List (Job α)} {s : State M} (h : Arrived jobs s) : Delivers jobs s :=
  ⟨h.extra ▸ List.prefix_refl _, h.empty ▸ List.prefix_refl _, h.enable ▸ List.prefix_refl _,
    h.data ▸ List.prefix_refl _⟩

/-- **The contract of a merger**: whatever the order of the steps, it writes `merge j` for one job after the
other; it does not stop before the last job that arrived; and it lets a packet pass if it is not enabled. -/
structure Concatenates (M : Merger α) (Extra : List α → Prop) (merge : Job α → List AxiData) : Prop where
  sent_prefix : ∀ {s : State M}, Reachable step (State.init M) s → ∀ {jobs}, (∀ j ∈ jobs, j.Framed Extra) →
    Delivers jobs s → s.out.sent <+: jobs.flatMap merge
  sent_eq : ∀ {s : State M}, Reachable step (State.init M) s → ∀ {jobs}, (∀ j ∈ jobs, j.Framed Extra) →
    Arrived jobs s → step s (.reorder false) = s → s.out.sent = jobs.flatMap merge
  merge_of_disabled : ∀ j, j.enable = false → merge j = j.data
  isPacket_merge : ∀ j, j.Framed Extra → j.enable = true → IsPacket (merge j)

end Merger

end Nica.Hls
