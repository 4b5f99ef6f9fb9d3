import Nica.Lib.CarrySave
import Nica.Verilog.Sha256
import Mathlib.Algebra.GroupWithZero.Nat

/-!
# The SHA-256 core clock by clock (`nica/verilog/sha256_core.v`, `sha256_w_mem.v`, `csa_32x3.v`, `csa_32x4.v`,
`csa_32x6.v`, `sha256_stream.v`)

`clock` is one rising edge: every register on the right-hand side is the value before the edge, and the signals of the
state machine (`ctrlFsm`) say which registers are written.  A round takes one clock; its sums come from carry-save
adders, and the last addition of each is an ordinary one.

`Stream` is the wrapper that starts a new digest after the last block of a message.
-/

namespace Nica.Verilog.Sha256Core

open Nica.Lib
open Nica.Verilog.Sha256 (Regs)

/-! ### Carry-save adders -/

/-- `{carry[30:0], 1'b0}`. -/
def twice (carry : BitVec 32) : BitVec 32 := carry.extractLsb' 0 31 ++ 0#1

/-- `csa_32x3`: the sum and the carries. -/
def csa32x3 (in1 in2 in3 : BitVec 32) : BitVec 32 × BitVec 32 :=
  (CarrySave.sum in1 in2 in3, CarrySave.carry in1 in2 in3)

/-- `csa_32x4`. -/
def csa32x4 (in1 in2 in3 in4 : BitVec 32) : BitVec 32 × BitVec 32 :=
  let (sum1, carry1) := csa32x3 in1 in2 in3
  csa32x3 in4 sum1 (twice carry1)

/-- `csa_32x6`. -/
def csa32x6 (in1 in2 in3 in4 in5 in6 : BitVec 32) : BitVec 32 × BitVec 32 :=
  let (sum1, carry1) := csa32x3 in1 in2 in3
  let (sum2, carry2) := csa32x3 in4 in5 in6
  let (sum3, carry3) := csa32x3 sum1 sum2 (twice carry1)
  csa32x3 sum3 (twice carry2) (twice carry3)

/-! ### `sha256_w_mem` -/

/-- The registers of `sha256_w_mem`. -/
structure WMem where
  wMem : Fin 16 → BitVec 32
  wCtrReg : BitVec 6
deriving DecidableEq

namespace WMem

/-- After the reset. -/
def init : WMem := ⟨fun _ => 0, 0⟩

/-- `w_mem[i]`; an index has four bits. -/
def word (m : WMem) (i : ℕ) : BitVec 32 := m.wMem ⟨i % 16, Nat.mod_lt i (by decide)⟩

/-- `csa_32x4_1`: the sum and the carries of the next word. -/
def wCsa (m : WMem) : BitVec 32 × BitVec 32 :=
  let w0 := m.word 0
  let w1 := m.word 1
  let w9 := m.word 9
  let w14 := m.word 14
  let d0 := w1.rotateRight 7 ^^^ w1.rotateRight 18 ^^^ (w1 >>> 3)
  let d1 := w14.rotateRight 17 ^^^ w14.rotateRight 19 ^^^ (w14 >>> 10)
  csa32x4 d0 d1 w0 w9

/-- `w_new`. -/
def wNew (m : WMem) : BitVec 32 := m.wCsa.1 + twice m.wCsa.2

/-- `select_w`: `w_sum` and `w_carry`. -/
def selectW (m : WMem) : BitVec 32 × BitVec 32 :=
  if m.wCtrReg < 16 then (m.word m.wCtrReg.toNat, 0) else m.wCsa

/-- Word `i` of the block. -/
def blockWord (block : BitVec 512) (i : Fin 16) : BitVec 32 := block.extractLsb' (480 - 32 * i) 32

/-- `w_mem_update_logic`. -/
def wMemUpdate (m : WMem) (block : BitVec 512) (init next : Bool) : Fin 16 → BitVec 32 :=
  if next && decide (m.wCtrReg > 15) then fun i => if h : i.val + 1 < 16 then m.wMem ⟨i.val + 1, h⟩ else m.wNew
  else if init then blockWord block
  else m.wMem

/-- One clock. -/
def clock (m : WMem) (block : BitVec 512) (init next : Bool) : WMem where
  wMem := m.wMemUpdate block init next
  wCtrReg := if next then m.wCtrReg + 1 else if init then 0 else m.wCtrReg

end WMem

/-! ### `sha256_core` -/

/-- `CTRL_IDLE` .. `CTRL_DONE`. -/
inductive Ctrl
  | idle
  | rounds
  | done
deriving DecidableEq, Repr

/-- `SHA224_H0_0` .. `SHA224_H0_7`. -/
def digestInit224 : Regs where
  a := 0xc1059ed8
  b := 0x367cd507
  c := 0x3070dd17
  d := 0xf70e5939
  e := 0xffc00b31
  f := 0x68581511
  g := 0x64f98fa7
  h := 0xbefa4fa4

/-- The first digest of a message; `mode` chooses SHA-256. -/
def digestInit (mode : Bool) : Regs := if mode then Sha256.digestInit else digestInit224

/-- The registers: `a_reg` .. `h_reg` are `regs`, and `H0_reg` .. `H7_reg` are `hRegs`. -/
structure State where
  regs : Regs
  hRegs : Regs
  tCtrReg : BitVec 6
  digestValidReg : Bool
  sha256CtrlReg : Ctrl
  wMemInst : WMem
deriving DecidableEq

/-- The inputs of one clock. -/
structure Inputs where
  resetN : Bool
  init : Bool
  next : Bool
  mode : Bool
  block : BitVec 512
deriving DecidableEq, Repr

/-- What `sha256_ctrl_fsm` drives. -/
structure Signals where
  digestInit : Bool
  digestUpdate : Bool
  stateInit : Bool
  stateUpdate : Bool
  firstBlock : Bool
  readyFlag : Bool
  wInit : Bool
  wNext : Bool
  tCtrInc : Bool
  tCtrRst : Bool
  digestValidNew : Bool
  digestValidWe : Bool
  sha256CtrlNew : Ctrl
  sha256CtrlWe : Bool
deriving DecidableEq, Repr

namespace State

/-- After the reset. -/
def reset : State where
  regs := ⟨0, 0, 0, 0, 0, 0, 0, 0⟩
  hRegs := ⟨0, 0, 0, 0, 0, 0, 0, 0⟩
  tCtrReg := 0
  digestValidReg := false
  sha256CtrlReg := .idle
  wMemInst := .init

/-- `sha256_ctrl_fsm`.  A block is the first one whenever `init` is set, whether or not `next` is. -/
def ctrlFsm (s : State) (init next : Bool) : Signals :=
  match s.sha256CtrlReg with
  | .idle =>
    { digestInit := init, digestUpdate := false, stateInit := init || next, stateUpdate := false, firstBlock := init,
      readyFlag := true, wInit := init || next, wNext := false, tCtrInc := false, tCtrRst := init || next,
      digestValidNew := false, digestValidWe := init || next,
      sha256CtrlNew := if init || next then .rounds else .idle, sha256CtrlWe := init || next }
  | .rounds =>
    { digestInit := false, digestUpdate := false, stateInit := false, stateUpdate := true, firstBlock := false,
      readyFlag := false, wInit := false, wNext := true, tCtrInc := true, tCtrRst := false, digestValidNew := false,
      digestValidWe := false, sha256CtrlNew := if s.tCtrReg = 63 then .done else .idle,
      sha256CtrlWe := s.tCtrReg = 63 }
  | .done =>
    { digestInit := false, digestUpdate := true, stateInit := false, stateUpdate := false, firstBlock := false,
      readyFlag := false, wInit := false, wNext := false, tCtrInc := false, tCtrRst := false, digestValidNew := true,
      digestValidWe := true, sha256CtrlNew := .idle, sha256CtrlWe := true }

/-- `k_data`. -/
def kData (s : State) : BitVec 32 := Sha256.kConstants.getD s.tCtrReg.toNat 0

/-- `t1_logic` with `csa_32x6_1`: `t1_sum` and `t1_carry`. -/
def t1 (s : State) : BitVec 32 × BitVec 32 :=
  let r := s.regs
  let sum1 := r.e.rotateRight 6 ^^^ r.e.rotateRight 11 ^^^ r.e.rotateRight 25
  let ch := (r.e &&& r.f) ^^^ (~~~r.e &&& r.g)
  csa32x6 r.h sum1 ch s.kData s.wMemInst.selectW.1 (twice s.wMemInst.selectW.2)

/-- `t2_logic`: `t2_sum0` and `t2_maj`. -/
def t2 (s : State) : BitVec 32 × BitVec 32 :=
  let r := s.regs
  (r.a.rotateRight 2 ^^^ r.a.rotateRight 13 ^^^ r.a.rotateRight 22, (r.a &&& r.b) ^^^ (r.a &&& r.c) ^^^ (r.b &&& r.c))

/-- `state_logic` of one round, with `a_new_csa` and `e_new_csa`. -/
def stateUpdate (s : State) : Regs :=
  let r := s.regs
  let aNew := csa32x4 s.t1.1 (twice s.t1.2) s.t2.1 s.t2.2
  let eNew := csa32x3 s.t1.1 (twice s.t1.2) r.d
  { a := aNew.1 + twice aNew.2, b := r.a, c := r.b, d := r.c, e := eNew.1 + twice eNew.2, f := r.e, g := r.f, h := r.g }

/-- `state_logic`: `a_new` .. `h_new`, if they are written. -/
def stateLogic (s : State) (sig : Signals) (mode : Bool) : Regs :=
  if sig.stateUpdate then s.stateUpdate
  else if sig.stateInit then if sig.firstBlock then digestInit mode else s.hRegs
  else s.regs

/-- `digest_logic`: `H0_new` .. `H7_new`, if they are written. -/
def digestLogic (s : State) (sig : Signals) (mode : Bool) : Regs :=
  if sig.digestUpdate then Sha256.digestUpdate s.hRegs s.regs
  else if sig.digestInit then digestInit mode
  else s.hRegs

/-- `reg_update` with the reset released. -/
def regUpdate (s : State) (i : Inputs) : State :=
  let sig := s.ctrlFsm i.init i.next
  { regs := s.stateLogic sig i.mode
    hRegs := s.digestLogic sig i.mode
    tCtrReg := if sig.tCtrInc then s.tCtrReg + 1 else if sig.tCtrRst then 0 else s.tCtrReg
    digestValidReg := if sig.digestValidWe then sig.digestValidNew else s.digestValidReg
    sha256CtrlReg := if sig.sha256CtrlWe then sig.sha256CtrlNew else s.sha256CtrlReg
    wMemInst := s.wMemInst.clock i.block sig.wInit sig.wNext }

/-- The output `ready`. -/
def ready (s : State) : Bool := s.sha256CtrlReg = .idle

end State

/-- One rising edge of `clk`. -/
def clock (s : State) (i : Inputs) : State := if i.resetN then s.regUpdate i else .reset

/-! ### `sha256_stream` -/

/-- The core with the register of the wrapper. -/
structure Stream where
  firstBlock : Bool
  core : State
deriving DecidableEq

/-- The inputs of the wrapper in one clock. -/
structure StreamInputs where
  rst : Bool
  mode : Bool
  sTdata : BitVec 512
  sTlast : Bool
  sTvalid : Bool
deriving DecidableEq, Repr

namespace Stream

/-- After the reset. -/
def init : Stream := ⟨true, .reset⟩

/-- The block is taken in this clock: `s_tvalid_i & s_tready_o`. -/
def accepts (s : Stream) (i : StreamInputs) : Bool := i.sTvalid && s.core.ready

/-- One rising edge of `clk`. -/
def clock (s : Stream) (i : StreamInputs) : Stream where
  firstBlock := if i.rst then true else if s.accepts i then i.sTlast else s.firstBlock
  core := Sha256Core.clock s.core
    ⟨!i.rst, i.sTvalid && s.firstBlock, i.sTvalid && !s.firstBlock, i.mode, i.sTdata⟩

end Stream

end Nica.Verilog.Sha256Core
