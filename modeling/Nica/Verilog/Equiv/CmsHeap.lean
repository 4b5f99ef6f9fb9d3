import Nica.Verilog.CmsHeap

/-!
# The stages of the heap are a row of slots

Pairs are on their way down the stages while others arrive.  `rowOf` is the row that the stages hold once those on
their way have come to rest: an older pair is always further down, so the stages behind a stage have dealt with
all that it let pass before.

* `LastHeapStage.row_clock`: a clock of one stage does to the row what its pair does to it.
* `rowOf_clock`: a clock of all stages leaves the row as it is, but for a pair that the first one starts to test.
* `inTime_clock`: how far a pair still has to go, against the settle window.
* `shift_clock`: the two clocks of a read move the row by one slot.
-/

namespace Nica.Verilog.CmsHeap

open Nica.Lib

/-! ### One stage -/

/-- The pair on the inputs runs down a row. -/
def arrive (i : StageInputs) (row : List (Slot Pair)) : List (Slot Pair) :=
  sift Pair.key (fun p => p.value.toNat) i.keyTestIn i.kvIn row

theorem arrive_cons (i : StageInputs) (c : Slot Pair) (row : List (Slot Pair)) :
    arrive i (c :: row) =
      if c.valid ∧ c.item.key ≠ i.keyTestIn then
        if c.item.value < i.kvIn.value then ⟨true, i.kvIn⟩ :: arrive ⟨i.keyTestIn, c.item, true⟩ row
        else c :: arrive i row
      else ⟨true, i.kvIn⟩ :: row := rfl

namespace LastHeapStage

variable {s : LastHeapStage} {i i' : StageInputs}

/-- The pair of a stage. -/
def slot (s : LastHeapStage) : Slot Pair := ⟨s.stageValid, s.kv⟩

/-- The row from this stage on, if `rest` is the row behind it. -/
def row (s : LastHeapStage) (i : StageInputs) (rest : List (Slot Pair)) : List (Slot Pair) :=
  if s.hstate = .kTest ∧ i.kvInValid = false then s.slot :: rest else arrive i (s.slot :: rest)

/-- The state is that which the pair on the inputs has led to. -/
structure Tested (s : LastHeapStage) (i : StageInputs) : Prop where
  notRead : s.hstate ≠ .passthru
  vTest : s.hstate = .vTest → s.stageValid = true ∧ s.kv.key ≠ i.keyTestIn
  kvWrite : s.hstate = .kvWrite → s.stageValid = false ∨ s.kv.key = i.keyTestIn
  idle : s.hstate ≠ .kTest → s.kvValid = false

/-- A stage leaves `K_TEST` for a pair alone. -/
theorem valid_of_clock (h : s.Tested i) (hs : (s.clock i false).hstate ≠ .kTest) :
    s.hstate = .kTest ∧ i.kvInValid = true := by
  have hnot := h.notRead
  match hst : s.hstate with
  | .kTest =>
    refine ⟨rfl, ?_⟩
    by_contra hv
    apply hs
    simp [clock, hst, hv]
  | .vTest => simp [clock, hst] at hs
  | .kvWrite => simp [clock, hst] at hs
  | .passthru => exact absurd hst hnot

/-- The pair stays on the inputs for the clock after its test. -/
def Held (s : LastHeapStage) (i i' : StageInputs) : Prop :=
  s.hstate ≠ .kTest → i'.keyTestIn = i.keyTestIn ∧ i'.kvIn = i.kvIn

theorem tested_clock (h : s.Tested i) (hheld : (s.clock i false).Held i i') : (s.clock i false).Tested i' := by
  by_cases hk : (s.clock i false).hstate = .kTest
  · exact ⟨by simp [hk], by simp [hk], by simp [hk], fun hne => absurd hk hne⟩
  obtain ⟨hst, hv⟩ := valid_of_clock h hk
  obtain ⟨hkey, -⟩ := hheld hk
  rw [clock, hst] at hk ⊢
  simp only [Bool.false_eq_true, if_false, hv, if_true] at hk ⊢
  refine ⟨?_, ?_, ?_, fun _ => rfl⟩
  · show (if _ then HState.kvWrite else HState.vTest) ≠ .passthru
    split <;> decide
  · show (if _ then HState.kvWrite else HState.vTest) = .vTest → s.stageValid = true ∧ s.kv.key ≠ i'.keyTestIn
    rw [hkey]
    intro hvt
    by_cases hc : ((s.stageValid && i.keyTestIn == s.kv.key) || !s.stageValid) = true
    · rw [if_pos hc] at hvt
      cases hvt
    · cases hval : s.stageValid with
      | false => simp [hval] at hc
      | true => exact ⟨rfl, fun hne => hc (by simp [hval, hne])⟩
  · show (if _ then HState.kvWrite else HState.vTest) = .kvWrite → s.stageValid = false ∨ s.kv.key = i'.keyTestIn
    rw [hkey]
    intro hkw
    by_cases hc : ((s.stageValid && i.keyTestIn == s.kv.key) || !s.stageValid) = true
    · cases hval : s.stageValid with
      | false => exact Or.inl rfl
      | true => exact Or.inr (by simpa [hval] using hc : i.keyTestIn = s.kv.key).symm
    · rw [if_neg hc] at hkw
      cases hkw

/-- What a stage lets pass in `V_TEST`. -/
def passed (s : LastHeapStage) (i : StageInputs) : StageInputs :=
  ⟨i.keyTestIn, if s.kv.value < i.kvIn.value then s.kv else i.kvIn, true⟩

/-- A stage that tests nothing. -/
theorem row_of_kTest (h : s.hstate = .kTest) (i : StageInputs) (rest : List (Slot Pair)) :
    s.row i rest = if i.kvInValid = true then arrive i (s.slot :: rest) else s.slot :: rest := by
  unfold row
  cases hv : i.kvInValid with
  | false => rw [if_pos ⟨h, rfl⟩, if_neg Bool.false_ne_true]
  | true => rw [if_neg (fun hk => Bool.noConfusion hk.2), if_pos rfl]

/-- A stage in the middle of a test. -/
theorem row_of_ne (h : s.hstate ≠ .kTest) (i : StageInputs) (rest : List (Slot Pair)) :
    s.row i rest = arrive i (s.slot :: rest) := if_neg fun hk => h hk.1

/-- A stage with another pair on its inputs, if it does not test the one before. -/
theorem row_inputs (hi : i.kvInValid = false) (hheld : s.Held i i') (rest : List (Slot Pair)) :
    s.row i' rest = if s.hstate = .kTest ∧ i'.kvInValid = true then arrive i' (s.row i rest) else s.row i rest := by
  by_cases hk : s.hstate = .kTest
  · have hrow : s.row i rest = s.slot :: rest := (row_of_kTest hk i rest).trans (if_neg (by simp [hi]))
    rw [hrow, row_of_kTest hk i']
    exact if_congr (and_iff_right hk).symm rfl rfl
  · obtain ⟨hkey, hkv⟩ := hheld hk
    rw [row_of_ne hk, row_of_ne hk, if_neg fun h => hk h.1, arrive, arrive, hkey, hkv]

theorem tested_inputs (h : s.Tested i) (hheld : s.Held i i') : s.Tested i' := by
  refine ⟨h.notRead, fun hk => ?_, fun hk => ?_, h.idle⟩
  · rw [(hheld (by simp [hk])).1]
    exact h.vTest hk
  · rw [(hheld (by simp [hk])).1]
    exact h.kvWrite hk

/-- A clock after which a stage tests nothing, by what it makes of the row. -/
theorem row_clock_of_kTest (hk : (s.clock i false).hstate = .kTest) {rest rest' : List (Slot Pair)}
    (h : (s.clock i false).slot :: rest' = s.row i rest) :
    (s.clock i false).row i' rest' =
      if (s.clock i false).hstate = .kTest ∧ i'.kvInValid = true then arrive i' (s.row i rest) else s.row i rest := by
  rw [row_of_kTest hk, h]
  exact if_congr (and_iff_right hk).symm rfl rfl

/-- One clock of a stage.  Behind it, the row becomes what the pair that it lets pass makes of it. -/
theorem row_clock (h : s.Tested i) (hheld : (s.clock i false).Held i i') (rest : List (Slot Pair)) :
    (s.clock i false).row i' (if s.hstate = .vTest then arrive (s.passed i) rest else rest) =
      if (s.clock i false).hstate = .kTest ∧ i'.kvInValid = true then arrive i' (s.row i rest) else s.row i rest := by
  have hnot := h.notRead
  match hst : s.hstate with
  | .kTest =>
    rw [if_neg (by decide)]
    cases hv : i.kvInValid with
    | false =>
      have hclock : s.clock i false = { s with kvValid := false } := by simp [clock, hst, hv]
      apply row_clock_of_kTest
      · rw [hclock]
        exact hst
      · rw [hclock, row_of_kTest hst]
        exact (if_neg (by simp [hv])).symm
    | true =>
      -- the pair is now being tested
      have hk : (s.clock i false).hstate ≠ .kTest := by
        simp only [clock, hst, hv]
        simp only [Bool.false_eq_true, if_false, if_true]
        split <;> decide
      have hslot : (s.clock i false).slot = s.slot := by simp [clock, hst, hv, slot]
      obtain ⟨hkey, hkv⟩ := hheld hk
      rw [row_of_ne hk, if_neg (fun hkt : _ ∧ _ => hk hkt.1), row_of_kTest hst, if_pos hv, hslot]
      simp only [arrive, hkey, hkv]
  | .vTest =>
    have hclock : s.clock i false =
        { s with hstate := .kTest, kvValid := true, kv := if s.kv.value < i.kvIn.value then i.kvIn else s.kv } := by
      simp [clock, hst]
    obtain ⟨hval, hne⟩ := h.vTest hst
    rw [if_pos rfl]
    apply row_clock_of_kTest
    · rw [hclock]
    · have harrive : arrive i (s.slot :: rest) = if s.kv.value < i.kvIn.value then
          ⟨true, i.kvIn⟩ :: arrive ⟨i.keyTestIn, s.kv, true⟩ rest else s.slot :: arrive i rest :=
        (arrive_cons i s.slot rest).trans (if_pos ⟨hval, hne⟩)
      rw [row_of_ne (by simp [hst]), harrive, hclock]
      simp only [slot, passed, hval]
      split <;> rfl
  | .kvWrite =>
    have hclock : s.clock i false = { s with hstate := .kTest, stageValid := true, kv := i.kvIn } := by
      simp [clock, hst]
    rw [if_neg (by decide)]
    apply row_clock_of_kTest
    · rw [hclock]
    · have harrive : arrive i (s.slot :: rest) = ⟨true, i.kvIn⟩ :: rest := by
        refine (arrive_cons i s.slot rest).trans (if_neg ?_)
        rintro ⟨hval, hne⟩
        rcases h.kvWrite hst with hfalse | heq
        · exact Bool.noConfusion (hfalse.symm.trans hval)
        · exact hne heq
      rw [row_of_ne (by simp [hst]), harrive, hclock]
      rfl
  | .passthru => exact absurd hst hnot

end LastHeapStage

/-! ### The stages in a row -/

/-- The first stage of a row. -/
def first (last : LastHeapStage) : List HeapStage → LastHeapStage
  | [] => last
  | s :: _ => s.toLastHeapStage

/-- What the stages hold once all pairs on their way have come to rest; `last` is the last stage. -/
def rowOf (last : LastHeapStage) : StageInputs → List HeapStage → List (Slot Pair)
  | i, [] => last.row i []
  | i, s :: stages => s.row i (rowOf last s.outputs stages)

/-- Each stage has been led to its state by what is on its inputs. -/
def Tested (last : LastHeapStage) : StageInputs → List HeapStage → Prop
  | i, [] => last.Tested i
  | i, s :: stages => s.Tested i ∧ Tested last s.outputs stages

section Stages

variable {last : LastHeapStage}

theorem tested_first {i : StageInputs} {stages : List HeapStage} (h : Tested last i stages) :
    (first last stages).Tested i := by
  cases stages with
  | nil => exact h
  | cons s stages => exact h.1

/-- The stages with another pair on the inputs. -/
theorem rowOf_inputs {stages : List HeapStage} {i i' : StageInputs} (hi : i.kvInValid = false)
    (hheld : (first last stages).Held i i') :
    rowOf last i' stages = if (first last stages).hstate = .kTest ∧ i'.kvInValid = true then
      arrive i' (rowOf last i stages) else rowOf last i stages := by
  cases stages with
  | nil => exact LastHeapStage.row_inputs hi hheld []
  | cons s stages => exact LastHeapStage.row_inputs hi hheld _

theorem tested_inputs {stages : List HeapStage} {i i' : StageInputs} (h : Tested last i stages)
    (hheld : (first last stages).Held i i') : Tested last i' stages := by
  cases stages with
  | nil => exact LastHeapStage.tested_inputs h hheld
  | cons s stages => exact ⟨LastHeapStage.tested_inputs h.1 hheld, h.2⟩

theorem first_clockStages (heapRead : Bool) (i : StageInputs) (stages : List HeapStage) :
    first (last.clock (outputsOf i stages) heapRead) (clockStages heapRead i stages) =
      (first last stages).clock i heapRead := by
  cases stages <;> rfl

/-- A stage keeps its outputs while the next one tests them. -/
theorem held_outputs {s : HeapStage} {i : StageInputs} (h : s.Tested i) {next : LastHeapStage}
    (hnext : next.Tested s.outputs) : (next.clock s.outputs false).Held s.outputs (s.clock i false).outputs := by
  intro hne
  obtain ⟨-, hv⟩ := LastHeapStage.valid_of_clock hnext hne
  have hk : s.hstate = .kTest := by
    by_contra hk
    exact Bool.noConfusion ((h.idle hk).symm.trans hv)
  simp [HeapStage.outputs, HeapStage.clock, hk]

/-- What a stage has on its outputs after a clock. -/
theorem outputs_clock {s : HeapStage} {i : StageInputs} (h : s.Tested i) :
    (s.hstate = .vTest → (s.clock i false).outputs = s.passed i) ∧
      (s.hstate ≠ .vTest → (s.clock i false).outputs.kvInValid = false) := by
  constructor
  · intro hk
    simp [HeapStage.outputs, HeapStage.clock, LastHeapStage.clock, LastHeapStage.passed, hk]
  · intro hne
    have hidle := h.idle
    match hk : s.hstate with
    | .kTest => cases hv : i.kvInValid <;> simp [HeapStage.outputs, HeapStage.clock, LastHeapStage.clock, hk, hv]
    | .kvWrite => simpa [HeapStage.outputs, HeapStage.clock, LastHeapStage.clock, hk] using hidle (by simp [hk])
    | .vTest => exact absurd hk hne
    | .passthru => exact absurd hk h.notRead

/-- **A clock of the stages** leaves the row as it is, but for a pair that the first stage has on its inputs next. -/
theorem rowOf_clock {stages : List HeapStage} {i i' : StageInputs} (h : Tested last i stages)
    (hheld : ((first last stages).clock i false).Held i i') :
    rowOf (last.clock (outputsOf i stages) false) i' (clockStages false i stages) =
        (if ((first last stages).clock i false).hstate = .kTest ∧ i'.kvInValid = true then
          arrive i' (rowOf last i stages) else rowOf last i stages) ∧
      Tested (last.clock (outputsOf i stages) false) i' (clockStages false i stages) := by
  induction stages generalizing i i' with
  | nil =>
    refine ⟨?_, LastHeapStage.tested_clock h hheld⟩
    have hrow := LastHeapStage.row_clock h hheld []
    rwa [show (if last.hstate = .vTest then arrive (last.passed i) [] else []) = [] from ite_self ..] at hrow
  | cons s stages ih =>
    obtain ⟨hs, hstages⟩ := h
    have hnext := tested_first hstages
    have hheld' := held_outputs hs hnext
    obtain ⟨hrow, htested⟩ := ih hstages hheld'
    refine ⟨?_, LastHeapStage.tested_clock hs hheld, htested⟩
    obtain ⟨hpassed, hnone⟩ := outputs_clock hs
    -- the stages behind this one take up what it lets pass
    have hbehind : rowOf (last.clock (outputsOf s.outputs stages) false) (s.clock i false).outputs
        (clockStages false s.outputs stages) = if s.hstate = .vTest then arrive (s.passed i) (rowOf last s.outputs stages)
          else rowOf last s.outputs stages := by
      rw [hrow]
      by_cases hk : s.hstate = .vTest
      · have hquiet : ((first last stages).clock s.outputs false).hstate = .kTest := by
          by_contra hne
          obtain ⟨-, hv⟩ := LastHeapStage.valid_of_clock hnext hne
          exact Bool.noConfusion ((hs.idle (by simp [hk])).symm.trans hv)
        rw [hpassed hk, if_pos ⟨hquiet, rfl⟩, if_pos hk]
      · rw [if_neg hk, if_neg]
        rintro ⟨-, hv⟩
        exact Bool.noConfusion ((hnone hk).symm.trans hv)
    show (s.clock i false).row i' (rowOf _ (s.clock i false).outputs _) = _
    refine (congrArg _ hbehind).trans ?_
    exact LastHeapStage.row_clock hs hheld _

/-! ### Coming to rest -/

/-- The settle window is `w`: a pair that is still on its way has not been in the heap for longer. -/
def InTime (w : ℕ) (last : LastHeapStage) : List HeapStage → Prop
  | [] => last.hstate ≠ .kTest → 2 ≤ w
  | s :: stages => (s.hstate ≠ .kTest → 2 * (stages.length + 2) ≤ w) ∧
      (s.kvValid = true → 2 * (stages.length + 2) ≤ w + 1) ∧ InTime w last stages

@[simp]
theorem length_clockStages (heapRead : Bool) (i : StageInputs) (stages : List HeapStage) :
    (clockStages heapRead i stages).length = stages.length := by
  induction stages generalizing i with
  | nil => rfl
  | cons s stages ih => exact congrArg (· + 1) (ih _)

/-- A pair moves on in each clock that the window counts. -/
theorem inTime_clock {w w' : ℕ} (hw : w ≤ w' + 1) {stages : List HeapStage} {i : StageInputs}
    (ht : Tested last i stages) (h : InTime w last stages) (hi : i.kvInValid = true → 2 * (stages.length + 1) ≤ w') :
    InTime w' (last.clock (outputsOf i stages) false) (clockStages false i stages) := by
  induction stages generalizing i with
  | nil =>
    intro hne
    exact hi (LastHeapStage.valid_of_clock ht hne).2
  | cons s stages ih =>
    obtain ⟨hs, hstages⟩ := ht
    obtain ⟨h₁, h₂, h₃⟩ := h
    refine ⟨fun hne => ?_, fun hv => ?_, ih hstages h₃ fun hv => ?_⟩
    · rw [length_clockStages]
      exact hi (LastHeapStage.valid_of_clock hs hne).2
    · rw [length_clockStages]
      have hvt : s.hstate = .vTest := by
        by_contra hne
        exact Bool.noConfusion (((outputs_clock hs).2 hne).symm.trans hv)
      have := h₁ (by simp [hvt])
      omega
    · have := h₂ hv
      omega

/-- No pair is on its way. -/
def Quiet (last : LastHeapStage) (stages : List HeapStage) : Prop :=
  last.hstate = .kTest ∧ ∀ s ∈ stages, s.hstate = .kTest ∧ s.kvValid = false

theorem quiet_of_inTime {stages : List HeapStage} (h : InTime 0 last stages) : Quiet last stages := by
  induction stages with
  | nil =>
    refine ⟨?_, by simp⟩
    by_contra hne
    exact absurd (h hne) (by decide)
  | cons s stages ih =>
    obtain ⟨h₁, h₂, h₃⟩ := h
    obtain ⟨hlast, hstages⟩ := ih h₃
    refine ⟨hlast, List.forall_mem_cons.mpr ⟨⟨?_, ?_⟩, hstages⟩⟩
    · by_contra hne
      have := h₁ hne
      omega
    · by_contra hv
      have := h₂ (by simpa using hv)
      omega

theorem inTime_of_quiet {stages : List HeapStage} (h : Quiet last stages) (w : ℕ) : InTime w last stages := by
  obtain ⟨hlast, hstages⟩ := h
  induction stages with
  | nil => exact fun hne => absurd hlast hne
  | cons s stages ih =>
    obtain ⟨⟨hk, hv⟩, hrest⟩ := List.forall_mem_cons.mp hstages
    exact ⟨fun hne => absurd hk hne, fun hvt => Bool.noConfusion (hv.symm.trans hvt), ih hrest⟩

theorem first_of_quiet {stages : List HeapStage} (h : Quiet last stages) : (first last stages).hstate = .kTest := by
  cases stages with
  | nil => exact h.1
  | cons s stages => exact (h.2 s (List.mem_cons_self ..)).1

/-- The stages as slots. -/
def slotsOf (last : LastHeapStage) (stages : List HeapStage) : List (Slot Pair) :=
  stages.map (fun s => s.slot) ++ [last.slot]

/-- At rest the row is what the stages hold. -/
theorem rowOf_of_quiet {stages : List HeapStage} (h : Quiet last stages) {i : StageInputs} (hi : i.kvInValid = false) :
    rowOf last i stages = slotsOf last stages := by
  obtain ⟨hlast, hstages⟩ := h
  induction stages generalizing i with
  | nil => exact if_pos ⟨hlast, hi⟩
  | cons s stages ih =>
    obtain ⟨⟨hk, hv⟩, hrest⟩ := List.forall_mem_cons.mp hstages
    rw [rowOf, ih hv hrest]
    exact if_pos ⟨hk, hi⟩

theorem tested_of_quiet {stages : List HeapStage} (h : Quiet last stages) (i : StageInputs) : Tested last i stages := by
  obtain ⟨hlast, hstages⟩ := h
  have htested : ∀ {s : LastHeapStage} (j : StageInputs), s.hstate = .kTest → s.Tested j := fun _ hk =>
    ⟨by simp [hk], by simp [hk], by simp [hk], fun hne => absurd hk hne⟩
  induction stages generalizing i with
  | nil => exact htested i hlast
  | cons s stages ih =>
    obtain ⟨⟨hk, -⟩, hrest⟩ := List.forall_mem_cons.mp hstages
    exact ⟨htested i hk, ih _ hrest⟩

/-! ### Reads -/

/-- A read: the pair of the last slot goes, the others move down by one, and no slot is valid. -/
def shift (row : List (Slot Pair)) : List (Slot Pair) := ⟨false, .zero⟩ :: row.dropLast.map fun c => ⟨false, c.item⟩

/-- **The two clocks of a read.** -/
theorem shift_clock {stages : List HeapStage} (h : Quiet last stages) (i i' : StageInputs) :
    let stages' := clockStages true i stages
    let last' := last.clock (outputsOf i stages) true
    slotsOf (last'.clock (outputsOf i' stages') false) (clockStages false i' stages') =
        ⟨false, i'.kvIn⟩ :: (slotsOf last stages).dropLast.map (fun c => ⟨false, c.item⟩) ∧
      Quiet (last'.clock (outputsOf i' stages') false) (clockStages false i' stages') := by
  obtain ⟨hlast, hstages⟩ := h
  induction stages generalizing i i' with
  | nil =>
    have hclock : (last.clock i true).clock i' false = ⟨.kTest, false, false, i'.kvIn⟩ := by
      simp [LastHeapStage.clock, hlast]
    simp only [clockStages, outputsOf, hclock]
    exact ⟨rfl, rfl, by simp⟩
  | cons s stages ih =>
    obtain ⟨⟨hk, hv⟩, hrest⟩ := List.forall_mem_cons.mp hstages
    obtain ⟨hslots, hquiet⟩ := ih s.outputs (s.clock i true).outputs hrest
    have hclock : ((s.clock i true).clock i' false).toLastHeapStage = ⟨.kTest, false, false, i'.kvIn⟩ := by
      simp [HeapStage.clock, LastHeapStage.clock, hk]
    have hout : (s.clock i true).outputs.kvIn = s.kv := by
      simp [HeapStage.outputs, HeapStage.clock, hk]
    have hne : slotsOf last stages ≠ [] := by simp [slotsOf]
    rw [hout] at hslots
    refine ⟨?_, hquiet.1, List.forall_mem_cons.mpr ⟨?_, hquiet.2⟩⟩
    · have hshift : (slotsOf last (s :: stages)).dropLast = s.slot :: (slotsOf last stages).dropLast :=
        List.dropLast_cons_of_ne_nil hne
      rw [hshift, List.map_cons]
      exact congrArg₂ List.cons (congrArg LastHeapStage.slot hclock) hslots
    · rw [hclock]
      exact ⟨rfl, rfl⟩

end Stages

end Nica.Verilog.CmsHeap
