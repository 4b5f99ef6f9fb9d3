import Nica.Lib.Run
import Nica.Verilog.Equiv.Sha256Standard
import Nica.Verilog.Sha256Top

/-!
# The core clock by clock is the core that its users see

`toCore` forgets how far a core has come with a block: what is left is whether it is busy, with the digest that it
will hold (`Sha256Top.Core`).  Each clock of the registers is a clock of that machine (`run_refines_core`), and a
block takes 65 clocks, whatever is on the inputs meanwhile (`ready_after_block`).

* `csa32x6_sum` and its siblings: the adders add.
* `State.stateUpdate_eq`: a round of the registers is a round of `Sha256.rounds`.
* `regUpdate_start`, `regUpdate_rounds`, `regUpdate_done`: what a clock does to the digest that is on its way.
* `digest_run`: after any run the digest is that of the standard.
-/

namespace Nica.Verilog.Sha256Core

open Nica.Lib
open Nica.Verilog.Sha256 (Regs)
open Nica.Verilog.Sha256Top (Core)

/-! ### The adders -/

theorem twice_eq (carry : BitVec 32) : twice carry = carry <<< 1 := by
  ext i hi
  rw [twice, BitVec.getElem_append, BitVec.getElem_shiftLeft]
  by_cases h : i < 1
  · simp [h]
  · simp [h, BitVec.getLsbD_eq_getElem (show i - 1 < 32 by omega)]

section Adders

variable (in1 in2 in3 in4 in5 in6 : BitVec 32)

theorem csa32x3_sum : (csa32x3 in1 in2 in3).1 + twice (csa32x3 in1 in2 in3).2 = in1 + in2 + in3 := by
  rw [twice_eq]
  exact CarrySave.sum_add_carry in1 in2 in3

theorem csa32x4_sum :
    (csa32x4 in1 in2 in3 in4).1 + twice (csa32x4 in1 in2 in3 in4).2 = in1 + in2 + in3 + in4 := by
  refine (csa32x3_sum in4 (csa32x3 in1 in2 in3).1 (twice (csa32x3 in1 in2 in3).2)).trans ?_
  rw [BitVec.add_assoc, csa32x3_sum, BitVec.add_comm]

theorem csa32x6_sum :
    (csa32x6 in1 in2 in3 in4 in5 in6).1 + twice (csa32x6 in1 in2 in3 in4 in5 in6).2 =
      in1 + in2 + in3 + in4 + in5 + in6 := by
  obtain ⟨x, hx⟩ : ∃ x, csa32x3 in1 in2 in3 = x := ⟨_, rfl⟩
  obtain ⟨y, hy⟩ : ∃ y, csa32x3 in4 in5 in6 = y := ⟨_, rfl⟩
  have h₁ := csa32x3_sum in1 in2 in3
  have h₂ := csa32x3_sum in4 in5 in6
  have h₃ := csa32x3_sum x.1 y.1 (twice x.2)
  have h₄ := csa32x3_sum (csa32x3 x.1 y.1 (twice x.2)).1 (twice y.2) (twice (csa32x3 x.1 y.1 (twice x.2)).2)
  simp only [csa32x6, hx, hy]
  rw [hx] at h₁
  rw [hy] at h₂
  calc (csa32x3 _ _ _).1 + twice (csa32x3 _ _ _).2
      = (csa32x3 x.1 y.1 (twice x.2)).1 + twice (csa32x3 x.1 y.1 (twice x.2)).2 + twice y.2 := by
        rw [h₄]
        ac_rfl
    _ = (x.1 + twice x.2) + (y.1 + twice y.2) := by
        rw [h₃]
        ac_rfl
    _ = in1 + in2 + in3 + in4 + in5 + in6 := by
        rw [h₁, h₂]
        ac_rfl

end Adders

/-! ### The window of the schedule -/

namespace WMem

variable (m : WMem)

theorem wNew_eq : m.wNew = Sha256.wNew (List.ofFn m.wMem) := by
  refine (csa32x4_sum _ _ _ _).trans ?_
  simp only [Sha256.wNew, List.getD_eq_getElem?_getD, List.getElem?_ofFn]
  simp only [Nat.reduceLT, dif_pos, Option.getD_some]
  show _ + m.word 0 + m.word 9 = _ + m.word 9 + _ + m.word 0
  ac_rfl

/-- The word of a round, once its two parts are added. -/
theorem selectW_eq : m.selectW.1 + twice m.selectW.2 = Sha256.selectW m.wCtrReg.toNat (List.ofFn m.wMem) := by
  unfold selectW Sha256.selectW
  by_cases h : m.wCtrReg < 16
  · have hlt : m.wCtrReg.toNat < 16 := h
    rw [if_pos h, if_pos hlt]
    simp only [List.getD_eq_getElem?_getD, List.getElem?_ofFn, hlt, dif_pos, Option.getD_some, word, Nat.mod_eq_of_lt hlt]
    rw [twice_eq]
    exact BitVec.add_zero _
  · have hge : ¬ m.wCtrReg.toNat < 16 := h
    rw [if_neg h, if_neg hge]
    exact m.wNew_eq

/-- In a round the window slides as it does in `Sha256.rounds`. -/
theorem ofFn_clock_next (block : BitVec 512) :
    List.ofFn (m.clock block false true).wMem = Sha256.wNext m.wCtrReg.toNat (List.ofFn m.wMem) := by
  unfold clock wMemUpdate Sha256.wNext
  by_cases h : m.wCtrReg > 15
  · have hge : ¬ m.wCtrReg.toNat < 16 := by
      have : 15 < m.wCtrReg.toNat := h
      omega
    rw [if_pos (by simpa using h), if_neg hge, ← m.wNew_eq]
    simp only [List.ofFn_succ, List.ofFn_zero, List.tail_cons, List.cons_append, List.nil_append]
    rfl
  · have hlt : m.wCtrReg.toNat < 16 := by
      have : ¬ 15 < m.wCtrReg.toNat := h
      omega
    rw [if_neg (by simpa using h), if_pos hlt]
    rfl

end WMem

/-! ### Rounds -/

/-- A round of the registers. -/
theorem State.stateUpdate_eq (s : State) :
    s.stateUpdate = Sha256.stateUpdate s.kData
      (Sha256.selectW s.wMemInst.wCtrReg.toNat (List.ofFn s.wMemInst.wMem)) s.regs := by
  have ht1 : s.t1.1 + twice s.t1.2 = _ := csa32x6_sum _ _ _ _ _ _
  have ha := csa32x4_sum s.t1.1 (twice s.t1.2) s.t2.1 s.t2.2
  have he := csa32x3_sum s.t1.1 (twice s.t1.2) s.regs.d
  rw [ht1] at ha he
  rw [← WMem.selectW_eq]
  refine Regs.mk.injEq .. |>.mpr ⟨?_, rfl, rfl, rfl, ?_, rfl, rfl, rfl⟩
  · refine ha.trans ?_
    dsimp only [State.t2]
    ac_rfl
  · refine he.trans ?_
    ac_rfl

/-- The bytes of a block, the most significant first. -/
def blockBytes (block : BitVec 512) : List (BitVec 8) := (List.range 64).map fun i => block.extractLsb' (504 - 8 * i) 8

/-- Four bytes are a word. -/
theorem blockWords_map (g : ℕ → BitVec 8) (n : ℕ) :
    Sha256.blockWords ((List.range (4 * n)).map g) =
      (List.range n).map fun i => g (4 * i) ++ g (4 * i + 1) ++ g (4 * i + 2) ++ g (4 * i + 3) := by
  induction n generalizing g with
  | zero => rfl
  | succ n ih =>
    have hrange : (List.range (4 * (n + 1))).map g =
        g 0 :: g 1 :: g 2 :: g 3 :: (List.range (4 * n)).map fun i => g (i + 4) := by
      rw [show 4 * (n + 1) = 4 * n + 1 + 1 + 1 + 1 by omega]
      simp only [List.range_succ_eq_map, List.map_cons, List.map_map]
      rfl
    rw [hrange, Sha256.blockWords, ih, List.range_succ_eq_map, List.map_cons, List.map_map]
    rfl

/-- Four bytes in a row are a word of the vector. -/
theorem extractLsb'_word (block : BitVec 512) (k : ℕ) :
    block.extractLsb' (k + 24) 8 ++ block.extractLsb' (k + 16) 8 ++ block.extractLsb' (k + 8) 8 ++
      block.extractLsb' k 8 = block.extractLsb' k 32 := by
  rw [BitVec.extractLsb'_append_extractLsb'_eq_extractLsb' (show k + 24 = k + 16 + 8 by omega),
    BitVec.extractLsb'_append_extractLsb'_eq_extractLsb' (show k + 16 = k + 8 + 8 by omega),
    BitVec.extractLsb'_append_extractLsb'_eq_extractLsb' rfl]

theorem blockWords_blockBytes (block : BitVec 512) :
    Sha256.blockWords (blockBytes block) = List.ofFn (WMem.blockWord block) := by
  rw [blockBytes, blockWords_map _ 16, List.ofFn_eq_map, ← List.map_coe_finRange_eq_range, List.map_map]
  apply List.map_congr_left
  intro i _
  have hi := i.isLt
  refine Eq.trans ?_ (extractLsb'_word block (480 - 32 * i))
  simp only [Function.comp_apply]
  rw [show 504 - 8 * (4 * i.val) = 480 - 32 * i + 24 by omega, show 504 - 8 * (4 * i.val + 1) = 480 - 32 * i + 16 by omega,
    show 504 - 8 * (4 * i.val + 2) = 480 - 32 * i + 8 by omega, show 504 - 8 * (4 * i.val + 3) = 480 - 32 * i by omega]

/-! ### The clocks of a block -/

/-- The digest that a core is on its way to: that of the blocks it has taken. -/
def State.result (s : State) : Regs :=
  match s.sha256CtrlReg with
  | .idle => s.hRegs
  | .rounds => Sha256.digestUpdate s.hRegs (Sha256.rounds s.tCtrReg.toNat (Sha256.kConstants.drop s.tCtrReg.toNat)
      (List.ofFn s.wMemInst.wMem) s.regs)
  | .done => Sha256.digestUpdate s.hRegs s.regs

/-- What the users of a core see of it. -/
def toCore (s : State) : Core := ⟨if s.ready then none else some s.result, s.hRegs⟩

/-- The two counters count the same rounds. -/
def State.Counting (s : State) : Prop := s.sha256CtrlReg = .rounds → s.wMemInst.wCtrReg = s.tCtrReg

theorem counting_reset : State.reset.Counting := fun h => by cases h

theorem counting_clock {s : State} (h : s.Counting) (i : Inputs) : (clock s i).Counting := by
  unfold Sha256Core.clock
  split
  · intro hc
    match hs : s.sha256CtrlReg with
    | .idle =>
      -- only a clock that takes a block leaves this state, and it resets both
      by_cases hib : i.init || i.next
      · simp [State.regUpdate, State.ctrlFsm, WMem.clock, hs, hib]
      · simp [State.regUpdate, State.ctrlFsm, hs, hib] at hc
    | .rounds => simp [State.regUpdate, State.ctrlFsm, WMem.clock, hs, h hs]
    | .done => simp [State.regUpdate, State.ctrlFsm, hs] at hc
  · exact counting_reset

section Clock

variable {s : State} {i : Inputs}

/-- A clock that takes a block. -/
theorem regUpdate_start (hs : s.sha256CtrlReg = .idle) (h : i.init || i.next) :
    (s.regUpdate i).result = Sha256.block (if i.init then digestInit i.mode else s.hRegs) (blockBytes i.block) ∧
      (s.regUpdate i).sha256CtrlReg = .rounds ∧ (s.regUpdate i).tCtrReg = 0 ∧ (s.regUpdate i).digestValidReg = false := by
  have hc : (s.regUpdate i).sha256CtrlReg = .rounds := by simp [State.regUpdate, State.ctrlFsm, hs, h]
  have ht : (s.regUpdate i).tCtrReg = 0 := by simp [State.regUpdate, State.ctrlFsm, hs, h]
  have hv : (s.regUpdate i).digestValidReg = false := by simp [State.regUpdate, State.ctrlFsm, hs, h]
  have hw : (s.regUpdate i).wMemInst.wMem = WMem.blockWord i.block := by
    simp [State.regUpdate, State.ctrlFsm, WMem.clock, WMem.wMemUpdate, hs, h]
  have hr : (s.regUpdate i).regs = if i.init then digestInit i.mode else s.hRegs := by
    simp [State.regUpdate, State.ctrlFsm, State.stateLogic, hs, h]
  have hH : (s.regUpdate i).hRegs = if i.init then digestInit i.mode else s.hRegs := by
    simp [State.regUpdate, State.ctrlFsm, State.digestLogic, hs]
  refine ⟨?_, hc, ht, hv⟩
  rw [State.result, hc]
  simp only [ht, hw, hr, hH]
  rw [Sha256.block, blockWords_blockBytes]
  rfl

/-- A clock in which the core has nothing to do. -/
theorem regUpdate_idle (hs : s.sha256CtrlReg = .idle) (h : ¬ (i.init || i.next)) :
    (s.regUpdate i).hRegs = s.hRegs ∧ (s.regUpdate i).sha256CtrlReg = .idle ∧
      (s.regUpdate i).digestValidReg = s.digestValidReg := by
  have hi : i.init = false := by simp_all
  have hn : i.next = false := by simp_all
  refine ⟨?_, ?_, ?_⟩
  · simp [State.regUpdate, State.ctrlFsm, State.digestLogic, hs, hi]
  · simp [State.regUpdate, State.ctrlFsm, hs, hi, hn]
  · simp [State.regUpdate, State.ctrlFsm, hs, hi, hn]

/-- A clock of a round. -/
theorem regUpdate_rounds (hs : s.sha256CtrlReg = .rounds) (hcnt : s.Counting) :
    (s.regUpdate i).result = s.result ∧ (s.regUpdate i).tCtrReg = s.tCtrReg + 1 ∧
      (s.regUpdate i).sha256CtrlReg = (if s.tCtrReg = 63 then .done else .rounds) ∧
      (s.regUpdate i).digestValidReg = s.digestValidReg := by
  have hc : (s.regUpdate i).sha256CtrlReg = if s.tCtrReg = 63 then .done else .rounds := by
    simp only [State.regUpdate, State.ctrlFsm, hs]
    by_cases h63 : s.tCtrReg = 63
    · rw [if_pos h63, if_pos h63, if_pos (decide_eq_true h63)]
    · rw [if_neg h63, if_neg h63, if_neg (by simpa using h63)]
  have ht : (s.regUpdate i).tCtrReg = s.tCtrReg + 1 := by simp [State.regUpdate, State.ctrlFsm, hs]
  have hv : (s.regUpdate i).digestValidReg = s.digestValidReg := by simp [State.regUpdate, State.ctrlFsm, hs]
  have hH : (s.regUpdate i).hRegs = s.hRegs := by simp [State.regUpdate, State.ctrlFsm, State.digestLogic, hs]
  have hr : (s.regUpdate i).regs = s.stateUpdate := by simp [State.regUpdate, State.ctrlFsm, State.stateLogic, hs]
  have hw : List.ofFn (s.regUpdate i).wMemInst.wMem = Sha256.wNext s.tCtrReg.toNat (List.ofFn s.wMemInst.wMem) := by
    rw [← hcnt hs]
    refine Eq.trans ?_ (WMem.ofFn_clock_next s.wMemInst i.block)
    simp [State.regUpdate, State.ctrlFsm, hs]
  -- the state before the clock has one round more to go
  have hlt : s.tCtrReg.toNat < Sha256.kConstants.length := s.tCtrReg.isLt
  have hbefore : s.result = Sha256.digestUpdate s.hRegs (Sha256.rounds (s.tCtrReg.toNat + 1)
      (Sha256.kConstants.drop (s.tCtrReg.toNat + 1)) (List.ofFn (s.regUpdate i).wMemInst.wMem) s.stateUpdate) := by
    rw [State.result, hs]
    simp only
    rw [List.drop_eq_getElem_cons hlt, Sha256.rounds, hw, State.stateUpdate_eq, hcnt hs, State.kData,
      List.getD_eq_getElem _ _ hlt]
  refine ⟨?_, ht, hc, hv⟩
  rw [hbefore, State.result, hc]
  by_cases h63 : s.tCtrReg = 63
  · rw [if_pos h63]
    simp only [hH, hr, h63]
    rfl
  · have hne : s.tCtrReg.toNat ≠ 63 := fun h => h63 (BitVec.eq_of_toNat_eq h)
    have ht1 : (s.tCtrReg + 1).toNat = s.tCtrReg.toNat + 1 := by
      have := s.tCtrReg.isLt
      rw [BitVec.toNat_add, show (1 : BitVec 6).toNat = 1 from rfl]
      omega
    rw [if_neg h63]
    simp only [hH, hr, ht, ht1]

/-- The clock after the last round. -/
theorem regUpdate_done (hs : s.sha256CtrlReg = .done) :
    (s.regUpdate i).hRegs = s.result ∧ (s.regUpdate i).sha256CtrlReg = .idle ∧
      (s.regUpdate i).digestValidReg = true := by
  refine ⟨?_, ?_, ?_⟩
  · simp [State.regUpdate, State.ctrlFsm, State.digestLogic, State.result, hs]
  · simp [State.regUpdate, State.ctrlFsm, hs]
  · simp [State.regUpdate, State.ctrlFsm, hs]

end Clock

/-! ### The core of `sha256_top` -/

/-- What a clock of the core is to its users. -/
structure CoreInputs where
  init : Bool
  next : Bool
  block : List (BitVec 8)
  done : Bool
  scratch : Regs

def coreClock (c : Core) (i : CoreInputs) : Core := c.clock i.init i.next i.block i.done i.scratch

/-- The core finishes in the clock after its last round, and shows its registers. -/
def toCoreInputs (s : State) (i : Inputs) : CoreInputs where
  init := i.init
  next := i.next
  block := blockBytes i.block
  done := s.sha256CtrlReg = .done
  scratch := (clock s i).hRegs

/-- One clock. -/
theorem toCore_clock {s : State} {i : Inputs} (hcnt : s.Counting) (hr : i.resetN = true) (hm : i.mode = true) :
    toCore (clock s i) = coreClock (toCore s) (toCoreInputs s i) := by
  have hclock : clock s i = s.regUpdate i := if_pos hr
  match hs : s.sha256CtrlReg with
  | .idle =>
    by_cases h : i.init || i.next
    · obtain ⟨hres, hc, -, -⟩ := regUpdate_start hs h
      by_cases hi : i.init = true
      · rw [if_pos hi] at hres
        simp [toCore, coreClock, toCoreInputs, Core.clock, State.ready, hclock, hs, hc, hi, hres, digestInit, hm]
      · have hn : i.next = true := by simpa [hi] using h
        rw [if_neg hi] at hres
        simp [toCore, coreClock, toCoreInputs, Core.clock, State.ready, hclock, hs, hc, hi, hn, hres]
    · obtain ⟨hH, hc, -⟩ := regUpdate_idle hs h
      have hi : i.init = false := by simp_all
      have hn : i.next = false := by simp_all
      simp [toCore, coreClock, toCoreInputs, Core.clock, State.ready, hclock, hs, hc, hi, hn, hH]
  | .rounds =>
    obtain ⟨hres, -, hc, -⟩ := regUpdate_rounds (i := i) hs hcnt
    have hnot : (s.regUpdate i).sha256CtrlReg ≠ .idle := by
      rw [hc]
      split <;> decide
    simp [toCore, coreClock, toCoreInputs, Core.clock, State.ready, hclock, hs, hnot, hres]
  | .done =>
    obtain ⟨hH, hc, -⟩ := regUpdate_done (i := i) hs
    simp [toCore, coreClock, toCoreInputs, Core.clock, State.ready, hclock, hs, hc, hH]

/-- **The registers refine the core of `sha256_top`**: whatever is on the inputs, with the reset released and in the
mode that `sha256_top` ties them to, every run of the one is a run of the other. -/
theorem run_refines_core (ins : List Inputs) (h : ∀ i ∈ ins, i.resetN = true ∧ i.mode = true) :
    toCore (run clock .reset ins) =
      run coreClock ⟨none, ⟨0, 0, 0, 0, 0, 0, 0, 0⟩⟩ (trace clock (fun s i => [toCoreInputs s i]) .reset ins) := by
  have hstep : ∀ s i log, (i.resetN = true ∧ i.mode = true) →
      (s.Counting ∧ toCore s = run coreClock ⟨none, ⟨0, 0, 0, 0, 0, 0, 0, 0⟩⟩ log) →
      (clock s i).Counting ∧
        toCore (clock s i) = run coreClock ⟨none, ⟨0, 0, 0, 0, 0, 0, 0, 0⟩⟩ (log ++ [toCoreInputs s i]) := by
    rintro s i log ⟨hr, hm⟩ ⟨hcnt, hs⟩
    refine ⟨counting_clock hcnt i, ?_⟩
    rw [run_append, ← hs]
    exact toCore_clock hcnt hr hm
  exact (run_trace_induction hstep ins .reset [] (along_of_forall ins _ h) ⟨counting_reset, rfl⟩).2

/-- The padded message `abc`. -/
def abc : BitVec 512 := BitVec.ofNat 512 (0x61626380 * 2 ^ 480 + 24)

/-- A clock with nothing on the inputs. -/
def quiet : Inputs := ⟨true, false, false, true, 0⟩

theorem run_refines_core_abc :
    toCore (run clock .reset [⟨true, true, false, true, abc⟩, quiet]) =
      run coreClock ⟨none, ⟨0, 0, 0, 0, 0, 0, 0, 0⟩⟩
        (trace clock (fun s i => [toCoreInputs s i]) .reset [⟨true, true, false, true, abc⟩, quiet]) :=
  run_refines_core _ (by decide)

/-! ### How long a block takes -/

/-- `n` clocks later in the rounds. -/
theorem run_rounds (ins : List Inputs) {s : State} (hs : s.sha256CtrlReg = .rounds) (hcnt : s.Counting)
    (hr : ∀ i ∈ ins, i.resetN = true) (hlen : s.tCtrReg.toNat + ins.length ≤ 63) :
    (run clock s ins).sha256CtrlReg = .rounds ∧ (run clock s ins).Counting ∧
      (run clock s ins).tCtrReg.toNat = s.tCtrReg.toNat + ins.length ∧ (run clock s ins).result = s.result ∧
      (run clock s ins).digestValidReg = s.digestValidReg := by
  induction ins generalizing s with
  | nil => exact ⟨hs, hcnt, rfl, rfl, rfl⟩
  | cons i ins ih =>
    rw [List.length_cons] at hlen
    have hclock : clock s i = s.regUpdate i := if_pos (hr i (List.mem_cons_self ..))
    obtain ⟨hres, ht, hc, hv⟩ := regUpdate_rounds (i := i) hs hcnt
    have hne : s.tCtrReg ≠ 63 := by
      intro h
      have h63 : s.tCtrReg.toNat = 63 := congrArg BitVec.toNat h
      omega
    have ht1 : (clock s i).tCtrReg.toNat = s.tCtrReg.toNat + 1 := by
      rw [hclock, ht, BitVec.toNat_add, show (1 : BitVec 6).toNat = 1 from rfl]
      omega
    rw [if_neg hne, ← hclock] at hc
    rw [← hclock] at hres hv
    obtain ⟨h₁, h₂, h₃, h₄, h₅⟩ := ih hc (counting_clock hcnt i) (fun j hj => hr j (List.mem_cons_of_mem _ hj)) (by omega)
    refine ⟨h₁, h₂, ?_, h₄.trans hres, h₅.trans hv⟩
    rw [run_cons, h₃, ht1, List.length_cons]
    omega

/-- A clock after the last round is over. -/
theorem run_last_round (ins : List Inputs) {s : State} (hs : s.sha256CtrlReg = .rounds) (hcnt : s.Counting)
    (hr : ∀ i ∈ ins, i.resetN = true) (hlen : s.tCtrReg.toNat + ins.length = 64) :
    (run clock s ins).sha256CtrlReg = .done ∧ (run clock s ins).result = s.result ∧
      (run clock s ins).digestValidReg = s.digestValidReg := by
  have hlt : s.tCtrReg.toNat < 64 := s.tCtrReg.isLt
  obtain ⟨ins, i, rfl⟩ : ∃ l i, ins = l ++ [i] := by
    refine ⟨_, _, (List.dropLast_append_getLast (l := ins) ?_).symm⟩
    rintro rfl
    rw [List.length_nil] at hlen
    omega
  rw [List.length_append, List.length_singleton] at hlen
  obtain ⟨hc, hcnt', ht, hres, hv⟩ :=
    run_rounds ins hs hcnt (fun j hj => hr j (List.mem_append_left _ hj)) (by omega)
  have h63 : (run clock s ins).tCtrReg = 63 := by
    apply BitVec.eq_of_toNat_eq
    rw [ht]
    show _ = 63
    omega
  have hclock : run clock s (ins ++ [i]) = (run clock s ins).regUpdate i := by
    rw [run_append]
    exact if_pos (hr i (List.mem_append_right _ (List.mem_singleton_self i)))
  obtain ⟨hres', -, hc', hv'⟩ := regUpdate_rounds (i := i) hc hcnt'
  rw [if_pos h63] at hc'
  rw [hclock]
  exact ⟨hc', hres'.trans hres, hv'.trans hv⟩

theorem counting_of_reachable {s : State} (h : Reachable clock .reset s) : s.Counting := by
  obtain ⟨ins, rfl⟩ := h
  exact run_invariant (P := State.Counting) (fun _ i hs => counting_clock hs i) ins _ counting_reset

/-- **A block takes 65 clocks**: from a core that is ready and is given a block, whatever is on its inputs from then
on, with the reset released; until then it neither is ready nor shows a valid digest. -/
theorem ready_after_block {s : State} (hs : Reachable clock .reset s) (hready : s.ready) {i : Inputs}
    (hi : i.resetN = true ∧ (i.init || i.next)) (ins : List Inputs) (hr : ∀ j ∈ ins, j.resetN = true) :
    (ins.length < 65 → (run clock s (i :: ins)).ready = false ∧ (run clock s (i :: ins)).digestValidReg = false) ∧
      (ins.length = 65 → (run clock s (i :: ins)).ready = true ∧ (run clock s (i :: ins)).digestValidReg = true ∧
        toVars (run clock s (i :: ins)).hRegs = Sha2.sha256.compress (WMem.blockWord i.block)
          (toVars (if i.init then digestInit i.mode else s.hRegs))) := by
  have hidle : s.sha256CtrlReg = .idle := by simpa [State.ready] using hready
  have hclock : clock s i = s.regUpdate i := if_pos hi.1
  obtain ⟨hres, hc, ht, hv⟩ := regUpdate_start hidle hi.2
  have hcnt : (clock s i).Counting := counting_clock (counting_of_reachable hs) i
  rw [← hclock] at hres hc ht hv
  have ht0 : (clock s i).tCtrReg.toNat = 0 := congrArg BitVec.toNat ht
  constructor
  · intro hlen
    rcases Nat.lt_or_ge ins.length 64 with hlt | hge
    · obtain ⟨hc', -, -, -, hv'⟩ := run_rounds ins hc hcnt hr (by omega)
      exact ⟨by simp [State.ready, hc'], hv'.trans hv⟩
    · obtain ⟨hc', -, hv'⟩ := run_last_round ins hc hcnt hr (by omega)
      exact ⟨by simp [State.ready, hc'], hv'.trans hv⟩
  · intro hlen
    obtain ⟨ins, j, rfl⟩ : ∃ l j, ins = l ++ [j] := by
      refine ⟨_, _, (List.dropLast_append_getLast (l := ins) ?_).symm⟩
      rintro rfl
      simp at hlen
    rw [List.length_append, List.length_singleton] at hlen
    obtain ⟨hc', hres', -⟩ :=
      run_last_round ins hc hcnt (fun k hk => hr k (List.mem_append_left _ hk)) (by omega)
    have hlast : run clock s (i :: (ins ++ [j])) = (run clock (clock s i) ins).regUpdate j := by
      rw [run_cons, run_append]
      exact if_pos (hr j (List.mem_append_right _ (List.mem_singleton_self j)))
    obtain ⟨hH, hc'', hv''⟩ := regUpdate_done (i := j) hc'
    rw [hlast]
    refine ⟨by simp [State.ready, hc''], hv'', ?_⟩
    rw [hH, hres', hres]
    exact toVars_block _ (blockWords_blockBytes i.block) _

theorem ready_after_block_abc :
    (run clock .reset (⟨true, true, false, true, abc⟩ :: List.replicate 65 quiet)).ready = true ∧
      toVars (run clock .reset (⟨true, true, false, true, abc⟩ :: List.replicate 65 quiet)).hRegs =
        Sha2.sha256.compress (WMem.blockWord abc) (toVars Sha256.digestInit) := by
  obtain ⟨hready, -, hdigest⟩ := (ready_after_block (.refl clock .reset) (by decide)
    (i := ⟨true, true, false, true, abc⟩) (by decide) (List.replicate 65 quiet)
    fun j hj => by rw [List.eq_of_mem_replicate hj]; rfl).2 (List.length_replicate ..)
  exact ⟨hready, hdigest⟩

/-! ### Digests -/

/-- What a clock adds to what the digest is made of. -/
inductive Event
  | reset
  | block (init : Option Bool) (block : BitVec 512)

/-- A reset, or the block that the core takes; the first one of a message comes with the mode. -/
def taken (s : State) (i : Inputs) : List Event :=
  if i.resetN then
    if s.ready && (i.init || i.next) then [.block (if i.init then some i.mode else none) i.block] else []
  else [.reset]

/-- The first chaining value of a mode. -/
noncomputable def initial (mode : Bool) : Sha2.Vars 32 := if mode then Sha2.initial256 else Sha2.initial224

/-- The chaining value after an event.  Without a first block the chain begins with what the reset left. -/
noncomputable def chainEvent (v : Sha2.Vars 32) : Event → Sha2.Vars 32
  | .reset => toVars State.reset.hRegs
  | .block init block => Sha2.sha256.compress (WMem.blockWord block) (init.elim v initial)

theorem toVars_digestInit (mode : Bool) : toVars (digestInit mode) = initial mode := by
  cases mode with
  | true => exact toVars_digestInit256
  | false => exact toVars_digestInit224

/-- No reset since the last block. -/
def EndsWithBlock (log : List Event) : Prop := ∃ init block, log.getLast? = some (.block init block)

/-- What a run keeps between the registers and the events so far. -/
structure Chained (s : State) (log : List Event) : Prop where
  counting : s.Counting
  result : toVars s.result = log.foldl chainEvent (toVars State.reset.hRegs)
  busy : s.sha256CtrlReg ≠ .idle → EndsWithBlock log
  valid : s.digestValidReg = true ↔ s.sha256CtrlReg = .idle ∧ EndsWithBlock log

theorem chained_reset : Chained .reset [] where
  counting := counting_reset
  result := rfl
  busy h := absurd rfl h
  valid := by simp [State.reset, EndsWithBlock]

theorem chained_clock {s : State} {log : List Event} (h : Chained s log) (i : Inputs) :
    Chained (clock s i) (log ++ taken s i) := by
  by_cases hr : i.resetN = true
  · have hclock : clock s i = s.regUpdate i := if_pos hr
    have hcnt := counting_clock h.counting i
    -- a core that is not idle takes nothing
    have hbusy : s.sha256CtrlReg ≠ .idle → log ++ taken s i = log := by
      intro hne
      simp [taken, hr, State.ready, hne]
    rw [hclock] at hcnt ⊢
    match hs : s.sha256CtrlReg with
    | .idle =>
      have hready : s.ready = true := decide_eq_true hs
      by_cases hib : i.init || i.next
      · obtain ⟨hres, hc, -, hv⟩ := regUpdate_start hs hib
        have htaken : taken s i = [.block (if i.init then some i.mode else none) i.block] := by
          simp [taken, hr, hready, hib]
        have hends : EndsWithBlock (log ++ taken s i) := ⟨_, _, by rw [htaken, List.getLast?_concat]⟩
        refine ⟨hcnt, ?_, fun _ => hends, ?_⟩
        · have hidle : s.result = s.hRegs := by rw [State.result, hs]
          rw [hres, toVars_block _ (blockWords_blockBytes i.block), htaken, List.foldl_append, ← h.result, hidle]
          by_cases hi : i.init = true
          · rw [if_pos hi, if_pos hi, toVars_digestInit]
            rfl
          · rw [if_neg hi, if_neg hi]
            rfl
        · simp [hv, hc]
      · obtain ⟨hH, hc, hv⟩ := regUpdate_idle hs hib
        have htaken : log ++ taken s i = log := by simp [taken, hr, hready, hib]
        rw [htaken]
        refine ⟨hcnt, ?_, fun hne => absurd hc hne, ?_⟩
        · rw [← h.result, State.result, State.result, hc, hs]
          exact congrArg toVars hH
        · rw [hv, h.valid, hs, hc]
    | .rounds =>
      have hne : s.sha256CtrlReg ≠ .idle := by simp [hs]
      obtain ⟨hres, -, hc, hv⟩ := regUpdate_rounds (i := i) hs h.counting
      have hne' : (s.regUpdate i).sha256CtrlReg ≠ .idle := by
        rw [hc]
        split <;> decide
      rw [hbusy hne]
      refine ⟨hcnt, (congrArg toVars hres).trans h.result, fun _ => h.busy hne, ?_⟩
      rw [hv]
      exact h.valid.trans (iff_of_false (fun hi => hne hi.1) fun hi => hne' hi.1)
    | .done =>
      have hne : s.sha256CtrlReg ≠ .idle := by simp [hs]
      obtain ⟨hH, hc, hv⟩ := regUpdate_done (i := i) hs
      rw [hbusy hne]
      refine ⟨hcnt, ?_, fun hi => absurd hc hi, iff_of_true hv ⟨hc, h.busy hne⟩⟩
      rw [← h.result, ← hH, State.result, hc]
  · have hclock : clock s i = .reset := if_neg hr
    have htaken : taken s i = [.reset] := if_neg hr
    rw [hclock, htaken]
    refine ⟨counting_reset, ?_, fun hne => absurd rfl hne, ?_⟩
    · rw [List.foldl_append]
      rfl
    · simp [State.reset, EndsWithBlock]

theorem chained_run (ins : List Inputs) : Chained (run clock .reset ins) (trace clock taken .reset ins) :=
  run_trace_induction (C := fun _ _ => True) (P := Chained) (fun _ i _ _ hs => chained_clock hs i) ins _ []
    (along_of_forall ins _ fun _ _ => trivial) chained_reset

/-- **The digest after any run** of the core is that of the blocks that it has taken since the last first one, once it
is through with them; and the digest is valid exactly then. -/
theorem digest_run (ins : List Inputs) :
    let s := run clock .reset ins
    let log := trace clock taken .reset ins
    (s.ready → toVars s.hRegs = log.foldl chainEvent (toVars State.reset.hRegs)) ∧
      (s.digestValidReg = true ↔ s.ready = true ∧ EndsWithBlock log) := by
  intro s log
  have h : Chained s log := chained_run ins
  constructor
  · intro hready
    have hs : s.sha256CtrlReg = .idle := of_decide_eq_true hready
    rw [← h.result, State.result, hs]
  · rw [h.valid, State.ready, decide_eq_true_iff]

/-! ### Messages -/

/-- A block on the input of the wrapper. -/
structure Beat where
  block : BitVec 512
  last : Bool
  mode : Bool

namespace Stream

/-- A reset (`none`), or the block that is accepted. -/
def taken (s : Stream) (i : StreamInputs) : List (Option Beat) :=
  if i.rst then [none] else if s.accepts i then [some ⟨i.sTdata, i.sTlast, i.mode⟩] else []

/-- Whether the next block is the first one of a message. -/
def firstAfter : Bool → List (Option Beat) → Bool
  | first, [] => first
  | _, none :: log => firstAfter true log
  | _, some b :: log => firstAfter b.last log

/-- What the core sees of it. -/
def events : Bool → List (Option Beat) → List Event
  | _, [] => []
  | _, none :: log => .reset :: events true log
  | first, some b :: log => .block (if first then some b.mode else none) b.block :: events b.last log

theorem firstAfter_append (first : Bool) (log₁ log₂ : List (Option Beat)) :
    firstAfter first (log₁ ++ log₂) = firstAfter (firstAfter first log₁) log₂ := by
  induction log₁ generalizing first with
  | nil => rfl
  | cons x log₁ ih => cases x <;> exact ih _

theorem events_append (first : Bool) (log₁ log₂ : List (Option Beat)) :
    events first (log₁ ++ log₂) = events first log₁ ++ events (firstAfter first log₁) log₂ := by
  induction log₁ generalizing first with
  | nil => rfl
  | cons x log₁ ih => cases x <;> exact congrArg _ (ih _)

theorem endsWithBlock_events (log : List (Option Beat)) (b : Beat) : EndsWithBlock (events true (log ++ [some b])) := by
  rw [events_append]
  exact ⟨_, _, List.getLast?_concat⟩

/-- What a run of the wrapper keeps. -/
structure Chained (s : Stream) (log : List (Option Beat)) : Prop where
  first : s.firstBlock = firstAfter true log
  core : Sha256Core.Chained s.core (events true log)

theorem chained_clock {s : Stream} {log : List (Option Beat)} (h : s.Chained log) (i : StreamInputs) :
    (s.clock i).Chained (log ++ s.taken i) := by
  have hevents : events s.firstBlock (s.taken i) = Sha256Core.taken s.core
      ⟨!i.rst, i.sTvalid && s.firstBlock, i.sTvalid && !s.firstBlock, i.mode, i.sTdata⟩ := by
    unfold taken Sha256Core.taken accepts
    cases i.rst <;> cases i.sTvalid <;> cases s.core.ready <;> cases s.firstBlock <;> rfl
  constructor
  · rw [firstAfter_append, ← h.first]
    unfold clock taken
    by_cases hr : i.rst = true
    · simp [hr, firstAfter]
    · by_cases ha : s.accepts i = true <;> simp [hr, ha, firstAfter]
  · rw [events_append, ← h.first, hevents]
    exact Sha256Core.chained_clock h.core _

theorem chained_run (ins : List StreamInputs) : (run clock .init ins).Chained (trace clock taken .init ins) :=
  run_trace_induction (C := fun _ _ => True) (P := Chained) (fun _ i _ _ hs => chained_clock hs i) ins _ []
    (along_of_forall ins _ fun _ _ => trivial) ⟨rfl, chained_reset⟩

/-- The blocks of a message after its first one only go on with the chain. -/
theorem foldl_chainEvent_rest (rest : List Beat) (hopen : ∀ b ∈ rest.dropLast, b.last = false) (v : Sha2.Vars 32) :
    (events false (rest.map some)).foldl chainEvent v =
      Sha2.sha256.chain v (rest.map fun b => WMem.blockWord b.block) := by
  induction rest generalizing v with
  | nil => rfl
  | cons b rest ih =>
    cases rest with
    | nil => rfl
    | cons b' rest =>
      have hb : b.last = false := hopen b (List.mem_cons_self ..)
      show (events b.last ((b' :: rest).map some)).foldl chainEvent _ = _
      rw [hb]
      exact ih (fun x hx => hopen x (List.mem_cons_of_mem _ hx)) _

/-- A message from its first block on. -/
theorem foldl_chainEvent_message (b : Beat) (rest : List Beat) (hopen : ∀ x ∈ (b :: rest).dropLast, x.last = false)
    (v : Sha2.Vars 32) :
    (events true ((b :: rest).map some)).foldl chainEvent v =
      Sha2.sha256.chain (initial b.mode) ((b :: rest).map fun b => WMem.blockWord b.block) := by
  cases rest with
  | nil => rfl
  | cons b' rest =>
    have hb : b.last = false := hopen b (List.mem_cons_self ..)
    show (events b.last ((b' :: rest).map some)).foldl chainEvent _ = _
    rw [hb, foldl_chainEvent_rest _ fun x hx => hopen x (List.mem_cons_of_mem _ hx)]
    rfl

/-- **Messages one after another**: whenever the digest of the wrapper is valid, it is that of the blocks of the
message that it is in, whatever was on its inputs before. -/
theorem stream_digest (ins : List StreamInputs) {before : List (Option Beat)} {b : Beat} {rest : List Beat}
    (hlog : trace clock taken .init ins = before ++ (b :: rest).map some) (hbefore : firstAfter true before = true)
    (hopen : ∀ x ∈ (b :: rest).dropLast, x.last = false) :
    ((run clock .init ins).core.digestValidReg = true ↔ (run clock .init ins).core.ready = true) ∧
      ((run clock .init ins).core.digestValidReg = true → toVars (run clock .init ins).core.hRegs =
        Sha2.sha256.chain (initial b.mode) ((b :: rest).map fun b => WMem.blockWord b.block)) := by
  have h := (chained_run ins).core
  rw [hlog] at h
  have hends : EndsWithBlock (events true (before ++ (b :: rest).map some)) := by
    rw [← List.dropLast_append_getLast (List.cons_ne_nil b rest), List.map_append, ← List.append_assoc]
    exact endsWithBlock_events _ _
  have hvalid : (run clock .init ins).core.digestValidReg = true ↔ (run clock .init ins).core.sha256CtrlReg = .idle := by
    rw [h.valid]
    exact and_iff_left hends
  rw [events_append, hbefore] at h
  refine ⟨hvalid.trans decide_eq_true_iff.symm, fun hv => ?_⟩
  have hres := h.result
  rw [State.result, hvalid.mp hv, List.foldl_append, foldl_chainEvent_message _ _ hopen] at hres
  exact hres

/-- A clock without a block. -/
def quiet : StreamInputs := ⟨false, true, 0, false, false⟩

theorem stream_digest_abc :
    toVars (run clock .init (⟨false, true, abc, true, true⟩ :: List.replicate 66 quiet)).core.hRegs =
      Sha2.sha256.chain Sha2.initial256 [WMem.blockWord abc] := by
  have hlog : trace clock taken .init (⟨false, true, abc, true, true⟩ :: List.replicate 66 quiet) =
      [] ++ [(⟨abc, true, true⟩ : Beat)].map some := rfl
  have hvalid :
      (run clock .init (⟨false, true, abc, true, true⟩ :: List.replicate 66 quiet)).core.digestValidReg = true := by
    decide +kernel
  exact (stream_digest _ hlog rfl (by simp)).2 hvalid

end Stream

end Nica.Verilog.Sha256Core
