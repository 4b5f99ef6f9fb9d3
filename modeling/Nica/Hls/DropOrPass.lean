import Nica.Hls.Types

/-!
# `drop_or_pass` (`nica/hls/drop_or_pass.hpp`)

`filter` reads a decision, and then copies the beats of one packet or leaves them out.
-/

namespace Nica.Hls

open Nica.Lib

inductive DropOrPassState
  | decision
  | stream
deriving DecidableEq, Repr

/-- The registers of `drop_or_pass`. -/
structure DropOrPass where
  state : DropOrPassState
  pass : Bool
deriving DecidableEq, Repr

namespace DropOrPass

def init : DropOrPass := ⟨.decision, false⟩

/-- What a call reads and writes. -/
structure Io where
  readDecision : Bool := false
  readData : Bool := false
  data : Option AxiData := none
deriving DecidableEq, Repr

/-- The case `STREAM`. -/
def stream (u : DropOrPass) (data : Option AxiData) : DropOrPass × Io :=
  match data with
  | none => (u, {})
  | some d =>
    ({ u with state := if d.last then .decision else u.state },
      { readData := true, data := if u.pass then some d else none })

/-- `filter`. -/
def filter (u : DropOrPass) (decision : Option Bool) (data : Option AxiData) : DropOrPass × Io :=
  match u.state with
  | .decision =>
    match decision with
    | none => (u, {})
    | some pass =>
      -- the case falls through to `STREAM`
      let (u, io) := stream ⟨.stream, pass⟩ data
      (u, { io with readDecision := true })
  | .stream => stream u data

end DropOrPass

end Nica.Hls
