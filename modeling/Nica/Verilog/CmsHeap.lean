import Nica.Lib.TopK
import Nica.Lib.Run
import Mathlib.Algebra.GroupWithZero.Nat

/-!
# The heap of the Count-Min sketch (`ikernels/verilog/cms_heap.v`, `heap_stage.v`, `last_heap_stage.v`)

The heap is a row of `HEAP_DEPTH` stages with one pair of a key and a value each.  A pair that is written to the first
stage runs down the row, two clocks a stage; a read takes the pair of the last stage, and the others move down by one,
in two clocks.

`clock` is one rising edge: every register on the right-hand side is the value before the edge.  A `last_heap_stage` is
a `heap_stage` without the registers that feed the next stage, so `HeapStage` has its registers and three more.
-/

namespace Nica.Verilog.CmsHeap

open Nica.Lib

/-- A key with its value. -/
structure Pair where
  key : BitVec 32
  value : BitVec 32
deriving DecidableEq, Repr

/-- Nothing, as the heap has it. -/
def Pair.zero : Pair := ⟨0, 0⟩

/-! ### Stages -/

/-- `K_TEST` .. `PASSTHRU`. -/
inductive HState
  | kTest
  | vTest
  | kvWrite
  | passthru
deriving DecidableEq, Repr

/-- The inputs of a stage, except for `heap_read`: `key_in` and `value_in` are `kvIn`. -/
structure StageInputs where
  keyTestIn : BitVec 32
  kvIn : Pair
  kvInValid : Bool
deriving DecidableEq, Repr

/-- The registers of a `last_heap_stage`: `key` and `value` are `kv`. -/
structure LastHeapStage where
  hstate : HState
  kvValid : Bool
  stageValid : Bool
  kv : Pair
deriving DecidableEq, Repr

/-- The registers of a `heap_stage`: `key_out_r` and `value_out_r` are `kvOutR`. -/
structure HeapStage extends LastHeapStage where
  keyTest : BitVec 32
  kvOutR : Pair
deriving DecidableEq, Repr

namespace LastHeapStage

/-- The reset. -/
def reset : LastHeapStage := ⟨.kTest, false, false, .zero⟩

/-- One clock.  A read comes before a pair that arrives. -/
def clock (s : LastHeapStage) (i : StageInputs) (heapRead : Bool) : LastHeapStage :=
  match s.hstate with
  | .kTest =>
    if heapRead then { s with kvValid := false, hstate := .passthru, kv := i.kvIn }
    else if i.kvInValid then
      { s with
        kvValid := false
        hstate := if (s.stageValid && i.keyTestIn == s.kv.key) || !s.stageValid then .kvWrite else .vTest }
    else { s with kvValid := false }
  | .kvWrite => { s with hstate := .kTest, stageValid := true, kv := i.kvIn }
  | .vTest =>
    { s with hstate := .kTest, kvValid := true, kv := if s.kv.value < i.kvIn.value then i.kvIn else s.kv }
  | .passthru => { s with hstate := .kTest, stageValid := false, kv := i.kvIn }

end LastHeapStage

namespace HeapStage

/-- The reset, which leaves `key_test` as it is. -/
def reset (s : HeapStage) : HeapStage := ⟨.reset, s.keyTest, .zero⟩

/-- One clock. -/
def clock (s : HeapStage) (i : StageInputs) (heapRead : Bool) : HeapStage where
  toLastHeapStage := s.toLastHeapStage.clock i heapRead
  keyTest := if s.hstate = .vTest then i.keyTestIn else s.keyTest
  kvOutR :=
    match s.hstate with
    | .kTest => if heapRead then s.kv else s.kvOutR
    | .kvWrite => s.kv
    | .vTest => if s.kv.value < i.kvIn.value then s.kv else i.kvIn
    | .passthru => s.kv

/-- What the next stage has on its inputs. -/
def outputs (s : HeapStage) : StageInputs := ⟨s.keyTest, s.kvOutR, s.kvValid⟩

end HeapStage

/-! ### The heap -/

/-- The registers of `cms_heap`; `stages` are `heap_top` and those that are generated. -/
structure State where
  stages : List HeapStage
  heapLast : LastHeapStage
  kvOutReadyQ : Bool
  bubbleHeap : Bool
  bubbleInflight : Bool
  kvValid : Bool
  kvValidQ : Bool
  heapSettleWindow : BitVec 16
deriving DecidableEq

/-- The inputs of `cms_heap`: `key_in` and `value_in` are `kvIn`. -/
structure Inputs where
  apReset : Bool
  kvIn : Pair
  kvInValid : Bool
  kvOutReady : Bool
deriving DecidableEq, Repr

/-- One clock of stages in a row, of which the first has the inputs `i`. -/
def clockStages (heapRead : Bool) : StageInputs → List HeapStage → List HeapStage
  | _, [] => []
  | i, s :: stages => s.clock i heapRead :: clockStages heapRead s.outputs stages

/-- The inputs of what comes behind stages in a row. -/
def outputsOf : StageInputs → List HeapStage → StageInputs
  | i, [] => i
  | _, s :: stages => outputsOf s.outputs stages

namespace State

/-- `HEAP_DEPTH`. -/
def heapDepth (s : State) : ℕ := s.stages.length + 1

/-- The reset. -/
def reset (s : State) : State where
  stages := s.stages.map HeapStage.reset
  heapLast := .reset
  kvOutReadyQ := false
  bubbleHeap := false
  bubbleInflight := false
  kvValid := true
  kvValidQ := false
  heapSettleWindow := 0

/-- The inputs of `heap_top`: `key_in_stage0` and `value_in_stage0`. -/
def top (s : State) (i : Inputs) : StageInputs :=
  let kvInStage0 : Pair := if s.bubbleInflight then .zero else i.kvIn
  ⟨kvInStage0.key, kvInStage0, i.kvInValid⟩

/-- `key_out` and `value_out`. -/
def kvOut (s : State) : Pair := s.heapLast.kv

def kvOutValid (s : State) : Bool := s.kvValid && s.heapSettleWindow == 0

/-- One clock without the reset. -/
def update (s : State) (i : Inputs) : State :=
  let rising := i.kvOutReady && !s.kvOutReadyQ
  { stages := clockStages s.bubbleHeap (s.top i) s.stages
    heapLast := s.heapLast.clock (outputsOf (s.top i) s.stages) s.bubbleHeap
    kvOutReadyQ := i.kvOutReady
    bubbleHeap := if s.bubbleHeap then false else rising
    bubbleInflight := if s.kvValidQ then false else if rising then true else s.bubbleInflight
    kvValid := if s.kvValidQ then true else if rising then false else s.kvValid
    kvValidQ := if s.kvValidQ then false else s.bubbleHeap
    heapSettleWindow :=
      if i.kvInValid then BitVec.ofNat 16 (2 * s.heapDepth)
      else if s.heapSettleWindow > 0 then s.heapSettleWindow - 1
      else s.heapSettleWindow }

end State

/-- One rising edge of `ap_clk`. -/
def clock (s : State) (i : Inputs) : State := if i.apReset then s.reset else s.update i

end Nica.Verilog.CmsHeap
