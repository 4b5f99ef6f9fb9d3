import Nica.Lib.Fifo
import Nica.Lib.Run
import Nica.Verilog.Sha256
import Mathlib.Logic.Function.Basic

/-!
# The SHA-256 units behind their queues (`nica/verilog/sha256_top.v`)

`sha256_top` digests messages of one or more blocks on `NUM_SHA_UNITS` units that work in parallel.  The
`fifo2sha` state machine moves the messages from the input fifo to the fifos of the units, one message to each
unit in turn; a state machine for each unit feeds its core block by block; and the output control takes the
digests from the units in the same turn and writes them to the output fifo.

`clock` is one rising edge after the reset: every register on the right-hand side is the value before the edge.
The environment chooses in each clock whether the producer has its next block ready, whether the consumer takes
a digest, which of the busy cores finish, and what the wires carry that nothing drives.  The fifos are generated:
they accept while they are not full and show their first element while they are not empty.  Of a core, `Core` says
what its users rely on: it is not ready while it is busy, and then holds the digest of the blocks since `init`.
-/

namespace Nica.Verilog.Sha256Top

open Nica.Lib
open Nica.Verilog.Sha256 (Regs)

/-- A block of a message, on an AXI stream. -/
structure Beat where
  data : List (BitVec 8)
  last : Bool
deriving DecidableEq, Repr

/-! ### Cores -/

/-- A `sha256_core`: the digest it will hold when it is through, if it is busy, and its output. -/
structure Core where
  busy : Option Regs
  digest : Regs
deriving DecidableEq, Repr

def Core.ready (c : Core) : Bool := c.busy.isNone

/-- One clock of a core.  The digest lines show anything while it is busy. -/
def Core.clock (c : Core) (init next : Bool) (block : List (BitVec 8)) (done : Bool) (scratch : Regs) : Core :=
  match c.busy with
  | none =>
    if init then ⟨some (Sha256.block Sha256.digestInit block), scratch⟩
    else if next then ⟨some (Sha256.block c.digest block), scratch⟩
    else c
  | some result => if done then ⟨none, result⟩ else ⟨some result, scratch⟩

/-! ### Units -/

/-- `SHA_IDLE` .. `SHA_WAIT_OUTPUT_READ`. -/
inductive ShaState
  | idle
  | readFirst
  | waitNext
  | readNext
  | readRest
  | waitOutputValid
  | waitOutputRead
deriving DecidableEq, Repr

/-- What stands for one value of `j` in the `generate` block. -/
structure ShaUnit where
  shaFifo : Fifo Beat
  shaState : ShaState
  shaInit : Bool
  shaNext : Bool
  shaLast : Bool
  shaBusy : Bool
  shafifooutRdy : Bool
  shaOutValid : Bool
  core : Core
deriving DecidableEq, Repr

/-- A unit after the reset. -/
def ShaUnit.init : ShaUnit where
  shaFifo := .nil
  shaState := .idle
  shaInit := false
  shaNext := false
  shaLast := false
  shaBusy := false
  shafifooutRdy := false
  shaOutValid := false
  core := ⟨none, ⟨0, 0, 0, 0, 0, 0, 0, 0⟩⟩

/-- The depth of the fifo of a unit, `axis_16x512b_fifo`. -/
def shaFifoDepth : Nat := 16

/-- What the environment chooses for a unit: whether its core finishes if it is busy, what the digest lines show
meanwhile, and what the fifo shows if it is empty. -/
structure UnitInputs where
  done : Bool
  scratch : Regs
  shafifoout : Beat
deriving DecidableEq, Repr

namespace ShaUnit

def shafifooutVld (u : ShaUnit) : Bool := !u.shaFifo.empty

/-- `shafifoout_data` and `shafifoout_last`. -/
def shafifoout (u : ShaUnit) (i : UnitInputs) : Beat := u.shaFifo.head.getD i.shafifoout

def shafifoinRdy (u : ShaUnit) : Bool := u.shaFifo.queue.length < shaFifoDepth

/-- The state machine of a unit.  `read` is `sha2fifo_input_vld & sha_read_counter[j]`. -/
def control (u : ShaUnit) (i : UnitInputs) (read : Bool) : ShaUnit :=
  match u.shaState with
  | .idle =>
    { u with
      shaInit := false
      shaNext := false
      shaBusy := false
      shafifooutRdy := false
      shaState := if u.shafifooutVld && !u.shaBusy then .readFirst else .idle }
  | .readFirst =>
    { u with
      shaBusy := true
      shaInit := true
      shafifooutRdy := true
      shaLast := (u.shafifoout i).last
      shaState := .readRest }
  | .readRest =>
    { u with
      shaInit := false
      shaNext := false
      shafifooutRdy := false
      shaState := .waitOutputValid }
  | .waitNext => { u with shaState := if u.shafifooutVld then .readNext else .waitNext }
  | .readNext =>
    { u with
      shaNext := true
      shafifooutRdy := true
      shaLast := (u.shafifoout i).last
      shaState := .readRest }
  | .waitOutputValid =>
    if u.core.ready then
      if u.shaLast then { u with shaState := .waitOutputRead, shaOutValid := true }
      else { u with shaState := .waitNext }
    else u
  | .waitOutputRead =>
    if read then { u with shaOutValid := false, shaBusy := false, shaState := .idle } else u

/-- One clock of a unit.  `shafifoin` is the block on the input of its fifo, if `shafifoin_vld[j]` is set. -/
def clock (u : ShaUnit) (i : UnitInputs) (shafifoin : Option Beat) (read : Bool) : ShaUnit :=
  { u.control i read with
    shaFifo := (u.shaFifo.readIf u.shafifooutRdy).put (if u.shafifoinRdy then shafifoin else none)
    core := u.core.clock u.shaInit u.shaNext (u.shafifoout i).data i.done i.scratch }

end ShaUnit

/-! ### The whole -/

/-- `FIFO2SHA_IDLE` .. `FIFO2SHA_LAST_BLOCK`. -/
inductive Fifo2shaState
  | idle
  | waitNextBlock
  | readNextBlock
  | readRest
  | lastBlock
deriving DecidableEq, Repr

/-- The registers, fifos and cores with `n` units.  `ik2sha` is the producer: the blocks it has yet to send. -/
structure State (n : Nat) where
  ik2sha : Fifo Beat
  ik2shaFifo : Fifo Beat
  fifo2shaState : Fifo2shaState
  fifo2shaRdy : Bool
  shafifoinVld : BitVec 32
  shaSelect : BitVec 5
  units : Fin n → ShaUnit
  shaReadCounter : BitVec 32
  sha2fifoInputVld : Bool
  sha2ikFifo : Fifo (List (BitVec 8))

/-- After the reset, which leaves `fifo2sha_rdy` as it is.  The producer is about to send `beats`. -/
def State.init (n : Nat) (fifo2shaRdy : Bool) (beats : List Beat) : State n where
  ik2sha := ⟨[], beats⟩
  ik2shaFifo := .nil
  fifo2shaState := .idle
  fifo2shaRdy := fifo2shaRdy
  shafifoinVld := 0
  shaSelect := 0
  units := fun _ => ShaUnit.init
  shaReadCounter := 1
  sha2fifoInputVld := false
  sha2ikFifo := .nil

/-- The depth of `axis_512x512b_fifo` and `axis_512x256b_fifo`. -/
def fifoDepth : Nat := 512

/-- What the environment chooses in one clock. -/
structure Inputs (n : Nat) where
  ik2shaVld : Bool
  sha2ikRdy : Bool
  /-- What the input fifo shows if it is empty. -/
  fifo2sha : Beat
  units : Fin n → UnitInputs

namespace State

variable {n : Nat} (s : State n) (i : Inputs n)

def ik2fifoRdy : Bool := s.ik2shaFifo.queue.length < fifoDepth

def fifo2shaVld : Bool := !s.ik2shaFifo.empty

/-- `fifo2sha_data` and `fifo2sha_last`. -/
def fifo2sha : Beat := s.ik2shaFifo.head.getD i.fifo2sha

/-- The multiplexer over `sha_select`.  A number from `n` on is that of no unit. -/
def selectedShafifoFree : Bool :=
  if h : s.shaSelect.toNat < n then !(s.units ⟨s.shaSelect.toNat, h⟩).shafifooutVld else false

def selectedShaUnit : BitVec 32 := .twoPow 32 s.shaSelect.toNat

/-- The unit that the cases over `sha_read_counter` select; any other value selects unit 0. -/
def selectedOutput : Nat :=
  ((List.range 32).find? fun j => s.shaReadCounter = .twoPow 32 j).getD 0

def selectedShaOutputValid : Bool :=
  if h : s.selectedOutput < n then (s.units ⟨s.selectedOutput, h⟩).shaOutValid else false

def sha2fifoData : List (BitVec 8) :=
  if h : s.selectedOutput < n then (s.units ⟨s.selectedOutput, h⟩).core.digest.bytes else []

def sha2fifoOutputRdy : Bool := s.sha2ikFifo.queue.length < fifoDepth

/-- The producer's next block, if it is valid and the input fifo has room. -/
def accepted : Option Beat := if i.ik2shaVld && s.ik2fifoRdy then s.ik2sha.head else none

/-- The state machine `fifo2sha`. -/
def fifo2shaControl : State n :=
  match s.fifo2shaState with
  | .idle =>
    { s with
      fifo2shaRdy := false
      shafifoinVld := 0
      fifo2shaState := if s.fifo2shaVld && s.selectedShafifoFree then .readNextBlock else .idle }
  | .lastBlock =>
    { s with
      fifo2shaRdy := false
      shafifoinVld := 0
      fifo2shaState := .idle
      shaSelect := if s.shaSelect.toNat < n - 1 then s.shaSelect + 1 else 0 }
  | .readNextBlock =>
    { s with
      fifo2shaRdy := true
      shafifoinVld := s.selectedShaUnit
      fifo2shaState := .readRest }
  | .readRest =>
    { s with
      fifo2shaRdy := false
      shafifoinVld := 0
      fifo2shaState := if (s.fifo2sha i).last then .lastBlock else .waitNextBlock }
  | .waitNextBlock =>
    { s with fifo2shaState := if s.fifo2shaVld then .readNextBlock else .waitNextBlock }

/-- The output control: the next value of `sha_read_counter`. -/
def nextReadCounter : BitVec 32 :=
  if s.sha2fifoInputVld then
    if s.shaReadCounter.getLsbD (n - 1) then 1 else s.shaReadCounter <<< 1
  else s.shaReadCounter

/-- The output control: the next value of `sha2fifo_input_vld`. -/
def nextInputVld : Bool :=
  s.selectedShaOutputValid && s.sha2fifoOutputRdy && !s.sha2fifoInputVld

end State

/-- One rising edge of `clk`. -/
def clock {n : Nat} (s : State n) (i : Inputs n) : State n :=
  { s.fifo2shaControl i with
    ik2sha := s.ik2sha.readIf (i.ik2shaVld && s.ik2fifoRdy)
    ik2shaFifo := (s.ik2shaFifo.readIf s.fifo2shaRdy).put (s.accepted i)
    units := fun j => (s.units j).clock (i.units j)
      (if s.shafifoinVld.getLsbD j then some (s.fifo2sha i) else none)
      (s.sha2fifoInputVld && s.shaReadCounter.getLsbD j)
    shaReadCounter := s.nextReadCounter
    sha2fifoInputVld := s.nextInputVld
    sha2ikFifo := (s.sha2ikFifo.readIf i.sha2ikRdy).put
      (if s.sha2fifoInputVld && s.sha2fifoOutputRdy then some s.sha2fifoData else none) }

end Nica.Verilog.Sha256Top
