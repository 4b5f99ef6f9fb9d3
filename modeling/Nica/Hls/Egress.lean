import Nica.Hls.Arbiter
import Nica.Hls.Builder

/-!
# From the traffic classes to the network port (`nica/hls/nica.cpp`)

The arbiter writes `hdr_arbiter_to_builder` and `data_arbiter_to_builder`, which the builder reads.
-/

namespace Nica.Hls.Egress

open Nica.Lib

variable {n : ℕ} {N : Arbiter.Ntl n} {M : Merger AxiData}

/-- The arbiter and the builder. -/
structure State (n : ℕ) (N : Arbiter.Ntl n) (M : Merger AxiData) where
  arbiter : Arbiter.State n N
  builder : Builder.State M

/-- Both after reset, with the scheduler in the state `sched`. -/
def State.init [NeZero n] (M : Merger AxiData) (sched : N.Sched) : State n N M :=
  ⟨.init sched, .init M⟩

/-- What the arbiter has written in a step arrives at the builder. -/
def feed (keepBytes : ℕ → BitVec 32) (metas : List Metadata) (beats : List AxiData) (b : Builder.State M) :
    Builder.State M :=
  run (Builder.step keepBytes) b (metas.map .arriveMeta ++ beats.map .arriveData)

/-- One step: a step of the arbiter, arrivals at the traffic classes included, or a call of the builder. -/
inductive Act (n : ℕ)
  | arbiter (a : Arbiter.Act n)
  | builder (c : Builder.Call)
deriving DecidableEq, Repr

def step [NeZero n] (keepBytes : ℕ → BitVec 32) (s : State n N M) : Act n → State n N M
  | .arbiter a =>
    let t := Arbiter.step s.arbiter a
    { arbiter := t
      builder := feed keepBytes (t.metadataOut.drop s.arbiter.metadataOut.length)
        (t.out.drop s.arbiter.out.length) s.builder }
  | .builder c => { s with builder := Builder.call keepBytes s.builder c }

end Nica.Hls.Egress
