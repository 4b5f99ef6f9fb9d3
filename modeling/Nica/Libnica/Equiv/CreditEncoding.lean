import Nica.Libnica.Equiv.CreditSafety
import Nica.Manager.Equiv.Replies
import Nica.Manager.Equiv.RingIds

/-!
# The word of a credit update

`NICA.update_credits` shifts its arguments into one word and does not mask them; the ikernel's register cuts
the word into fields.  `Lands` says that an update of a ring arrives as it was meant, and `lands_iff` for which
requests it does: the field of `max_msn` ends below the reset flag, and the word has 32 bits.
-/

namespace Nica.Libnica

open Nica.Lib Nica.Lib.Prog Nica.Hls Nica.Manager

/-! ### The register -/

/-- Register `0x50` of `ikernel_wrapper::reg_access` (`emulation/emu-top.cpp`): the fields of the register are
put together to a word, which is read or replaced, and shifted out again, the lowest field first. -/
def regAccess (regs : CreditUpdateRegisters) (value : BitVec 32) (read : Bool) :
    CreditUpdateRegisters × BitVec 32 :=
  let msnRing : BitVec 32 := BitVec.ofNat 32 regs.reset.toNat
  let msnRing := msnRing <<< 16 ||| regs.maxMsn.setWidth 32
  let msnRing := msnRing <<< 7 ||| regs.ringId.setWidth 32
  -- `var_access`
  let (msnRing, value) := if read then (msnRing, msnRing) else (value, value)
  let ringId := msnRing.setWidth 7
  let msnRing := msnRing >>> 7
  let maxMsn := msnRing.setWidth 16
  let msnRing := msnRing >>> 16
  (⟨ringId, maxMsn, msnRing.getLsbD 0⟩, value)

/-- The emulation and the hardware agree on the fields of a word. -/
theorem regAccess_write (regs : CreditUpdateRegisters) (value : BitVec 32) :
    regAccess regs value false = (creditRegisters value, value) := by
  simp only [regAccess, creditRegisters, Bool.false_eq_true, if_false, Prod.mk.injEq, and_true,
    CreditUpdateRegisters.mk.injEq]
  refine ⟨?_, ?_, ?_⟩
  · ext i hi
    simp
  · ext i hi
    simp
  · simp

/-- Reading the register leaves it as it is. -/
theorem regAccess_read (regs : CreditUpdateRegisters) (value : BitVec 32) :
    (regAccess regs value true).1 = regs := by
  obtain ⟨ringId, maxMsn, reset⟩ := regs
  simp only [regAccess, if_true, CreditUpdateRegisters.mk.injEq]
  refine ⟨?_, ?_, ?_⟩
  · ext i hi
    simp
  · ext i hi
    have hin : 7 + i < 32 := by omega
    simp [hi, hin]
  · cases reset <;> simp

/-! ### The word -/

section Word

variable {ring m : ℕ} {reset : Bool}

theorem testBit_creditWord (ring m : ℕ) (reset : Bool) (i : ℕ) :
    (Rpc.creditWord ring m reset).testBit i =
      (ring.testBit i || (decide (7 ≤ i) && m.testBit (i - 7)) ||
        (decide (23 ≤ i) && reset.toNat.testBit (i - 23))) := by
  simp [Rpc.creditWord, Nat.testBit_shiftLeft]

/-- The word of an update without reset can be packed if and only if `max_msn` has no bit beyond the word. -/
theorem creditWord_lt_iff (hring : ring < 2 ^ 7) : Rpc.creditWord ring m false < 2 ^ 32 ↔ m < 2 ^ 25 := by
  constructor
  · intro hword
    have hle : m <<< 7 ≤ Rpc.creditWord ring m false := Nat.le_trans Nat.right_le_or Nat.left_le_or
    rw [Nat.shiftLeft_eq] at hle
    omega
  · intro hm
    have hshift : m <<< 7 < 2 ^ 32 := by
      rw [Nat.shiftLeft_eq]
      omega
    exact Nat.or_lt_two_pow (Nat.or_lt_two_pow (by omega) hshift) (by simp)

/-- The fields of the word: the lowest bit of `max_msn` beyond its field falls on the reset flag, and the others
lie above it. -/
theorem creditRegisters_word (hring : ring < 2 ^ 7) :
    creditRegisters (BitVec.ofNat 32 (Rpc.creditWord ring m reset)) =
      ⟨BitVec.ofNat 7 ring, BitVec.ofNat 16 m, m.testBit 16 || reset⟩ := by
  have hhigh : ∀ i, 7 ≤ i → ring.testBit i = false := fun i hi =>
    Nat.testBit_lt_two_pow (Nat.lt_of_lt_of_le hring (Nat.pow_le_pow_right (by decide) hi))
  unfold creditRegisters
  congr 1
  · apply BitVec.eq_of_getLsbD_eq
    intro i hi
    have hlow : decide (7 ≤ i) = false ∧ decide (23 ≤ i) = false ∧ i < 32 := by
      simp only [decide_eq_false_iff_not]
      omega
    simp only [BitVec.getLsbD_extractLsb', BitVec.getLsbD_ofNat, testBit_creditWord]
    simp [hlow, hi]
  · apply BitVec.eq_of_getLsbD_eq
    intro i hi
    have hmid : decide (23 ≤ 7 + i) = false ∧ 7 + i < 32 := by
      simp only [decide_eq_false_iff_not]
      omega
    simp only [BitVec.getLsbD_extractLsb', BitVec.getLsbD_ofNat, testBit_creditWord]
    simp [hhigh (7 + i) (Nat.le_add_right 7 i), hmid, hi]
  · simp only [BitVec.getLsbD_ofNat, testBit_creditWord, hhigh 23 (by decide)]
    cases reset <;> simp

/-- Decoding undoes encoding where `max_msn` fits its field. -/
theorem creditRegisters_encode (hring : ring < 2 ^ 7) (hm : m < 2 ^ 16) (reset : Bool) :
    Rpc.creditWord ring m reset < 2 ^ 32 ∧
      creditRegisters (BitVec.ofNat 32 (Rpc.creditWord ring m reset)) =
        ⟨BitVec.ofNat 7 ring, BitVec.ofNat 16 m, reset⟩ := by
  constructor
  · have hshift : m <<< 7 < 2 ^ 32 := by
      rw [Nat.shiftLeft_eq]
      omega
    refine Nat.or_lt_two_pow (Nat.or_lt_two_pow (by omega) hshift) ?_
    cases reset <;> decide
  · rw [creditRegisters_word hring, Nat.testBit_lt_two_pow hm, Bool.false_or]

end Word

/-! ### The requests -/

/-- The update of a ring's credits on the connection `c`: `cr_update_credits` of a client, `update_credits` of
a VM. -/
def updateRequest (s : State) (c : ℕ) (ringId maxMsn : BitVec 32) : Mgr Response :=
  match (s.conns c).kind with
  | .client => Client.handler (.crUpdateCredits ringId maxMsn)
  | .hypervisor _ => Hypervisor.handler (.updateCredits ringId maxMsn)

/-- The word of a write to the register. -/
def CreditWrite.word (w : CreditWrite) : BitVec 32 := BitVec.ofNat 32 (Rpc.creditWord w.ring w.maxMsn w.reset)

/-- Whatever the commands to the hardware come to, the word of the update can be packed, and what reaches the
register is an update of this ring to `maxMsn` modulo `2 ^ 16`, and no reset. -/
def Lands (s : State) (c : ℕ) (ringId maxMsn : BitVec 32) : Prop :=
  ∀ hw, (exec (updateRequest s c ringId maxMsn) (s.enter c hw)).1 ≠ .error .structError ∧
    ∀ w, (exec (updateRequest s c ringId maxMsn) (s.enter c hw)).2.hw.credits = s.hw.credits ++ [w] →
      creditRegisters (CreditWrite.word w) = ⟨ringId.setWidth 7, maxMsn.setWidth 16, false⟩

/-- An update raises `struct.error` if its word has more than 32 bits; otherwise it is written, or the hardware
fails. -/
theorem post_updateCredits_word (s : State) (ring : ℤ) (maxMsn : ℕ) (reset : Bool) :
    Post (updateCredits ring maxMsn reset) s
      (fun _ s' => Rpc.creditWord ring maxMsn reset < 2 ^ 32 ∧
        s'.hw.credits = s.hw.credits ++ [⟨ring, maxMsn, reset, s.rings.lookup ring⟩])
      (fun e s' => (e ≠ .structError ↔ Rpc.creditWord ring maxMsn reset < 2 ^ 32) ∧
        (s'.hw.credits = s.hw.credits ∨
          s'.hw.credits = s.hw.credits ++ [⟨ring, maxMsn, reset, s.rings.lookup ring⟩])) := by
  unfold updateCredits
  split
  · rename_i hword
    exact ⟨iff_of_false (fun h => h rfl) (Nat.not_lt.mpr hword), .inl rfl⟩
  · rename_i hword
    have hword : Rpc.creditWord ring maxMsn reset < 2 ^ 32 := Nat.not_le.mp hword
    simp only [post_bind, post_get, post_pure]
    refine Post.imp ((post_access _ s).and (Rpc.throws_access _ s)) ?_ ?_
    · rintro _ _ ⟨⟨os, rfl⟩, -⟩
      exact ⟨hword, rfl⟩
    · rintro e _ ⟨⟨os, hs'⟩, hcaught⟩
      refine ⟨iff_of_true ?_ hword, ?_⟩
      · rintro rfl
        exact hcaught
      · rcases hs' with rfl | rfl
        · exact .inl rfl
        · exact .inr rfl

/-- An accepted update: the connection holds the ring. -/
theorem exec_updateRequest {s : State} {c : ℕ} {ringId : BitVec 32}
    (hheld : handle ringId ∈ (s.conns c).customRingIkernels) (maxMsn : BitVec 32) (hw : List Outcome) :
    exec (updateRequest s c ringId maxMsn) (s.enter c hw) =
      exec (do updateCredits (handle ringId) maxMsn.toNat false; return .ok [0]) (s.enter c hw) := by
  have hself : exec self (s.enter c hw) = (.ok (s.conns c), s.enter c hw) := rfl
  unfold updateRequest
  cases (s.conns c).kind with
  | client =>
    obtain ⟨r, hr⟩ := Option.isSome_iff_exists.mp (AList.lookup_isSome.mpr hheld)
    show exec (self >>= _) _ = _
    rw [exec_bind_ok hself, hr]
  | hypervisor tc =>
    have hcheck : exec (Hypervisor.checkRingId (handle ringId)) (s.enter c hw) = (.ok (), s.enter c hw) := by
      show exec (self >>= _) _ = _
      rw [exec_bind_ok hself, if_neg (not_not.mpr hheld)]
      rfl
    show exec (Hypervisor.checkRingId (handle ringId) >>= _) _ = _
    rw [exec_bind_ok hcheck]

variable {s : State} {c : ℕ} {ringId maxMsn : BitVec 32}

/-- An accepted update of a ring that has a 7-bit id lands if and only if its `max_msn` fits the word and leaves
the reset flag alone. -/
theorem lands_iff_of_held (hheld : handle ringId ∈ (s.conns c).customRingIkernels) (hring : ringId.toNat < 2 ^ 7) :
    Lands s c ringId maxMsn ↔ maxMsn.toNat < 2 ^ 25 ∧ maxMsn.getLsbD 16 = false := by
  have hlt : Rpc.creditWord (handle ringId) maxMsn.toNat false < 2 ^ 32 ↔ maxMsn.toNat < 2 ^ 25 :=
    creditWord_lt_iff hring
  have hdecode : ∀ n, creditRegisters (CreditWrite.word ⟨handle ringId, maxMsn.toNat, false, n⟩) =
      ⟨ringId.setWidth 7, maxMsn.setWidth 16, false⟩ ↔ maxMsn.getLsbD 16 = false := by
    intro n
    have heq : creditRegisters (CreditWrite.word ⟨handle ringId, maxMsn.toNat, false, n⟩) =
        ⟨BitVec.ofNat 7 ringId.toNat, BitVec.ofNat 16 maxMsn.toNat, maxMsn.toNat.testBit 16 || false⟩ :=
      creditRegisters_word hring
    simp [heq, BitVec.ofNat_toNat, BitVec.testBit_toNat]
  constructor
  · intro hlands
    -- the hardware takes the command
    obtain ⟨hsent, hwritten⟩ := hlands []
    rw [exec_updateRequest hheld] at hsent hwritten
    by_cases hm : maxMsn.toNat < 2 ^ 25
    · refine ⟨hm, (hdecode (s.rings.lookup (handle ringId))).mp (hwritten _ ?_)⟩
      have hword : ¬ 2 ^ 32 ≤ ((handle ringId).toNat ||| maxMsn.toNat <<< 7 ||| false.toNat <<< 23) :=
        Nat.not_le.mpr (hlt.mpr hm)
      unfold updateCredits
      rw [if_neg hword]
      rfl
    · refine absurd ?_ hsent
      have hword : 2 ^ 32 ≤ ((handle ringId).toNat ||| maxMsn.toNat <<< 7 ||| false.toNat <<< 23) :=
        Nat.not_lt.mp (mt hlt.mp hm)
      unfold updateCredits
      rw [if_pos hword]
      rfl
  · rintro ⟨hm, hbit⟩ hw
    have hlast : ∀ (w : CreditWrite) (n : Option ℕ),
        s.hw.credits ++ [⟨handle ringId, maxMsn.toNat, false, n⟩] = s.hw.credits ++ [w] →
        creditRegisters (CreditWrite.word w) = ⟨ringId.setWidth 7, maxMsn.setWidth 16, false⟩ := by
      intro w n heq
      rw [← (List.cons.inj (List.append_cancel_left heq)).1]
      exact (hdecode n).mpr hbit
    rw [exec_updateRequest hheld, exec_bind]
    have hpost := post_updateCredits_word (s.enter c hw) (handle ringId) maxMsn.toNat false
    unfold Post at hpost
    rcases hex : exec (updateCredits (handle ringId) maxMsn.toNat false) (s.enter c hw) with ⟨e | u, s'⟩
    · rw [hex] at hpost
      obtain ⟨hne, hcredits⟩ := hpost
      refine ⟨fun h => hne.mpr (hlt.mpr hm) (Except.error.inj h), ?_⟩
      intro w heq
      rcases hcredits with hsame | hone
      · have hlen := congrArg List.length (hsame.symm.trans heq)
        simp [State.enter] at hlen
      · exact hlast w _ (hone.symm.trans heq)
    · rw [hex] at hpost
      refine ⟨fun h => (by cases h), ?_⟩
      intro w heq
      exact hlast w _ (hpost.2.symm.trans heq)

/-- **Credit updates.**  Take any run of the manager over hardware that reports a number of contexts within the
ids of `ring_id_t`, and any update of a ring that its connection holds.  The update lands if and only if
`max_msn` is below `2 ^ 25` and its bit 16 is clear; and where `max_msn` is below `2 ^ 16`, decoding undoes
encoding. -/
theorem lands_iff (cfg : Config) (hrings : cfg.numRings ≠ 0) (hwidth : cfg.numRings.toNat ≤ 2 ^ 7)
    (acts : List Action) (c : ℕ) (ringId maxMsn : BitVec 32)
    (hheld : handle ringId ∈ ((runFrom (init cfg) acts).conns c).customRingIkernels) :
    (Lands (runFrom (init cfg) acts) c ringId maxMsn ↔
        maxMsn.toNat < 2 ^ 25 ∧ maxMsn.getLsbD 16 = false) ∧
      ∀ ring m : ℕ, ring < 2 ^ 7 → m < 2 ^ 16 → ∀ reset : Bool,
        Rpc.creditWord ring m reset < 2 ^ 32 ∧
          creditRegisters (BitVec.ofNat 32 (Rpc.creditWord ring m reset)) =
            ⟨BitVec.ofNat 7 ring, BitVec.ofNat 16 m, reset⟩ := by
  have hctx := held_isContext cfg hrings acts hheld
  have hring : ringId.toNat < 2 ^ 7 := by
    have hlt : (ringId.toNat : ℤ) < cfg.numRings.toNat := hctx.2
    omega
  exact ⟨lands_iff_of_held hheld hring, fun _ _ hring hm reset => creditRegisters_encode hring hm reset⟩

/-- A client with an ikernel and ring 1. -/
def oneRing : List Action := [.connect .client, plainCreate, .client 0 (.crCreate 0 0) []]

theorem held_oneRing : handle 1 ∈ ((runFrom (init thresholdConfig) oneRing).conns 0).customRingIkernels := by
  decide +kernel

theorem lands_iff_oneRing : Lands (runFrom (init thresholdConfig) oneRing) 0 1 0x20007 :=
  (lands_iff thresholdConfig (by decide) (by decide) oneRing 0 1 0x20007 held_oneRing).1.mpr (by decide)

/-- The update of ring 1 to `2 ^ 16` resets the ring, and the update to `2 ^ 25` is not written at all. -/
theorem not_lands_oneRing : ¬ Lands (runFrom (init thresholdConfig) oneRing) 0 1 0x10000 ∧
    ¬ Lands (runFrom (init thresholdConfig) oneRing) 0 1 0x2000000 := by
  rw [lands_iff_of_held held_oneRing (by decide), lands_iff_of_held held_oneRing (by decide)]
  decide

end Nica.Libnica
