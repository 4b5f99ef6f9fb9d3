import Nica.Hls.PktgenRegisters

/-!
# Access to the registers of the packet generator

`reg_read` should change nothing and return what `reg_write` wrote.  Both functions leave the address
`PKTGEN_SCHEDULER` itself out of the window of the scheduler, and `reg_read` tells the scheduler to write.  So an
access works when its address is below the window, or no register is there, or the read happens to write what the
register holds (`accessible_iff`).
-/

namespace Nica.Hls.Pktgen

variable {N : ContextManager Context} {R : SchedulerRegisters}

/-- A read changes nothing, a register that was written can be read back, and the window of the scheduler begins at
`PKTGEN_SCHEDULER`.  `old` is what `value` holds when `reg_read` is called. -/
structure Accessible (s : Registers N R) (address : ℤ) (id : IkernelId) (v old : BitVec 32) : Prop where
  read_frame : (regRead s address old id).registers = s
  read_back : (regWrite s address v id).status = .done →
    (regRead (regWrite s address v id).registers address old id).status = .done ∧
      (regRead (regWrite s address v id).registers address old id).value = v
  window : ∀ offset, 0 ≤ offset → address = pktgenScheduler + offset → (R.get s.sched offset id).isSome →
    (regWrite s address v id).status = .done

/-! ### The three kinds of address -/

section Cases

variable {s : Registers N R} {address : ℤ} {id : IkernelId} {v old : BitVec 32}

theorem schedAccess_of_some {x : BitVec 32} (hx : R.get s.sched (address - pktgenScheduler) id = some x) :
    schedAccess s address v id false =
      ⟨.done, v, { s with sched := R.set s.sched (address - pktgenScheduler) id v }⟩ := by
  rw [schedAccess, SchedulerRegisters.rpc, hx]
  rfl

theorem schedAccess_of_none (hx : R.get s.sched (address - pktgenScheduler) id = none) :
    schedAccess s address v id false = ⟨.fail, -1, s⟩ := by
  rw [schedAccess, SchedulerRegisters.rpc, hx]

/-- Below the window, the burst registers read back what was written and nothing else is there. -/
theorem accessible_of_lt (hN : N.Lawful) (h : address < pktgenScheduler) : Accessible s address id v old := by
  have hle : ¬address > pktgenScheduler := by omega
  have hget : ∀ f : Context → Context, N.get (N.modify s.contexts id f) id = f (N.get s.contexts id) := by
    intro f
    rw [hN, if_pos rfl]
  refine ⟨?_, ?_, fun offset ho ha => by omega⟩
  · by_cases hb : address = pktgenBurstSize ∨ address = pktgenCurPacket
    · rw [regRead, if_neg hle, if_pos hb]
      rcases hb with rfl | rfl <;> rfl
    · rw [regRead, if_neg hle, if_neg hb]
  · by_cases hb : address = pktgenBurstSize ∨ address = pktgenCurPacket
    · intro _
      rw [regRead, if_neg hle, if_pos hb, regWrite, if_neg hle, if_pos hb]
      rcases hb with rfl | rfl
      · refine ⟨rfl, ?_⟩
        exact congrArg Context.burstSize (hget _)
      · refine ⟨rfl, ?_⟩
        exact congrArg Context.curPacket (hget _)
    · intro hdone
      rw [regWrite, if_neg hle, if_neg hb] at hdone
      cases hdone

/-- At the start of the window nothing is accessible, which is right when the scheduler has no register there. -/
theorem accessible_start_iff :
    Accessible s pktgenScheduler id v old ↔ R.get s.sched 0 id = none := by
  have hb : ¬(pktgenScheduler = pktgenBurstSize ∨ pktgenScheduler = pktgenCurPacket) := by decide
  have hwrite : regWrite s pktgenScheduler v id = ⟨.fail, v, s⟩ := by
    rw [regWrite, if_neg (Int.lt_irrefl pktgenScheduler), if_neg hb]
  have hread : regRead s pktgenScheduler old id = ⟨.fail, old, s⟩ := by
    rw [regRead, if_neg (Int.lt_irrefl pktgenScheduler), if_neg hb]
  constructor
  · intro h
    by_contra hsome
    have hdone := h.window 0 (Int.le_refl 0) (Int.add_zero _).symm (Option.isSome_iff_ne_none.mpr hsome)
    rw [hwrite] at hdone
    cases hdone
  · intro hnone
    refine ⟨by rw [hread], fun hdone => ?_, fun offset _ ha hsome => ?_⟩
    · rw [hwrite] at hdone
      cases hdone
    · obtain rfl : offset = 0 := by omega
      rw [hnone] at hsome
      cases hsome

/-- In the window a read is a write of what `value` holds. -/
theorem accessible_window_iff (hR : R.Lawful) (h : pktgenScheduler < address) :
    Accessible s address id v old ↔
      ∀ x, R.get s.sched (address - pktgenScheduler) id = some x → x = old ∧ v = old := by
  have hread : ∀ (t : Registers N R) w, regRead t address w id = schedAccess t address w id false :=
    fun t w => if_pos h
  have hwrite : regWrite s address v id = schedAccess s address v id false := if_pos h
  constructor
  · intro hacc x hx
    have hsome : (R.get s.sched (address - pktgenScheduler) id).isSome := by rw [hx]; rfl
    constructor
    · have hframe := hacc.read_frame
      rw [hread, schedAccess_of_some hx] at hframe
      have hset : R.set s.sched (address - pktgenScheduler) id old = s.sched := congrArg Registers.sched hframe
      have hget := hR.get_set s.sched (address - pktgenScheduler) id old hsome
      rw [hset, hx] at hget
      exact Option.some.inj hget
    · have hback := hacc.read_back
      rw [hwrite, schedAccess_of_some hx, hread] at hback
      have hx' := hR.get_set s.sched (address - pktgenScheduler) id v hsome
      have hval := (hback rfl).2
      rw [schedAccess_of_some hx'] at hval
      exact hval.symm
  · intro hx
    rcases hg : R.get s.sched (address - pktgenScheduler) id with - | x
    · refine ⟨by rw [hread, schedAccess_of_none hg], fun hdone => ?_, fun offset _ ha hsome => ?_⟩
      · rw [hwrite, schedAccess_of_none hg] at hdone
        cases hdone
      · rw [show offset = address - pktgenScheduler by omega, hg] at hsome
        cases hsome
    · obtain ⟨rfl, rfl⟩ := hx x hg
      have hset := hR.set_get _ _ _ _ hg
      refine ⟨?_, fun _ => ?_, fun _ _ _ _ => by rw [hwrite, schedAccess_of_some hg]⟩
      · rw [hread, schedAccess_of_some hg, hset]
      · rw [hwrite, schedAccess_of_some hg, hset, hread, schedAccess_of_some hg]
        exact ⟨rfl, rfl⟩

end Cases

/-- A register is accessible as it should be exactly when its address is below the window of the scheduler, or the
scheduler has no register there, or, above the start of the window, the read finds in `value` what the register holds
and what is written. -/
theorem accessible_iff (hN : N.Lawful) (hR : R.Lawful) (s : Registers N R) (address : ℤ) (id : IkernelId)
    (v old : BitVec 32) :
    Accessible s address id v old ↔
      address < pktgenScheduler ∨ R.get s.sched (address - pktgenScheduler) id = none ∨
        (pktgenScheduler < address ∧ R.get s.sched (address - pktgenScheduler) id = some old ∧ v = old) := by
  rcases Int.lt_trichotomy address pktgenScheduler with hlt | rfl | hgt
  · exact iff_of_true (accessible_of_lt hN hlt) (.inl hlt)
  · rw [accessible_start_iff, Int.sub_self]
    simp only [Int.lt_irrefl, false_or, false_and, or_false]
  · rw [accessible_window_iff hR hgt]
    constructor
    · intro h
      rcases hg : R.get s.sched (address - pktgenScheduler) id with - | x
      · exact .inr (.inl rfl)
      · obtain ⟨rfl, hv⟩ := h x hg
        exact .inr (.inr ⟨hgt, rfl, hv⟩)
    · intro h x hx
      rw [hx] at h
      rcases h with hlt | hnone | ⟨-, hold, hv⟩
      · omega
      · cases hnone
      · exact ⟨Option.some.inj hold, hv⟩

/-- A scheduler with registers at the offsets 0 and 1 that hold 7, and contexts that are all empty. -/
def sevens : Registers (.plain Context) (.plain [0, 1]) :=
  ⟨fun _ => ⟨0, 0, 0, Metadata.init⟩, fun _ _ => 7⟩

/-- A read that finds 7 in `value` leaves a register with 7 alone. -/
theorem accessible_sevens : Accessible sevens 0x21 3 7 7 :=
  (accessible_iff (ContextManager.lawful_plain _) (SchedulerRegisters.lawful_plain _) sevens 0x21 3 7 7).mpr
    (.inr (.inr ⟨by decide, by decide, rfl⟩))

/-- A read that finds 0 in `value` writes it to the register. -/
theorem not_accessible_sevens : ¬Accessible sevens 0x21 3 7 0 := by
  intro h
  have hreg := congrFun (congrFun (congrArg Registers.sched h.read_frame) 1) 3
  revert hreg
  decide

end Nica.Hls.Pktgen
