import Nica.Manager.Equiv.Atomicity
import Nica.Manager.Equiv.Framing

/-!
# The exceptions that leave a handler

`rpc` turns the exceptions `TimeoutError` and `OSError` of a handler into a status, if the latter has an errno;
any other leaves the handler, and the request is not answered.  `ClientReplies` and `VmReplies` say when no
exception leaves a handler, by what the state is before the request; `decides_client` and `decides_vm` are the
proofs.
-/

namespace Nica.Manager.Rpc

open Nica.Lib Nica.Lib.Prog Nica.Libnica Protocol
open Nica.Libnica.Wire (Byte Member)

/-! ### The exceptions of the handlers -/

/-- The exceptions that `rpc` turns into a status. -/
def Caught : Exn → Prop
  | .timeoutError => True
  | .osError (some _) => True
  | _ => False

/-- Those that `ik_destroy` catches as well. -/
def CaughtOrKey (e : Exn) : Prop := Caught e ∨ e = .keyError

theorem throws_access (effect : BitVec 32 → Hardware → Hardware) : Throws Caught (access effect) := by
  unfold access
  refine .get_bind fun s => ?_
  split
  · exact (throws_modify _).bind fun _ => throws_pure _
  · exact (throws_modify _).bind fun _ => throws_pure _
  · rename_i fault done os hos
    refine (throws_modify _).bind fun _ => throws_throw ?_
    cases fault <;> trivial

/-- A command returns, or raises what `rpc` catches. -/
theorem post_access_caught {s : State} {effect : BitVec 32 → Hardware → Hardware}
    (heffect : ∀ v hw, (effect v hw).outcomes = hw.outcomes) :
    Post (access effect) s
      (fun _ s' => Returns s.hw.outcomes ∧
        ∃ hw, s' = { s with hw := hw } ∧ hw.outcomes = s.hw.outcomes.tail)
      (fun e _ => ¬ Returns s.hw.outcomes ∧ Caught e) :=
  ((post_access_returns heffect).and (throws_access effect s)).imp (fun _ _ h => h.1)
    (fun _ _ h => ⟨h.1.1, h.2⟩)

theorem throws_getIkernel (id : ℤ) : Throws Caught (getIkernel id) := by
  unfold getIkernel
  refine .get_bind fun s => ?_
  split
  · exact throws_pure _
  · exact throws_throw trivial

theorem throws_ikAttach (id : ℤ) (flow : Flow) : Throws Caught (ikAttach id flow) := by
  unfold ikAttach ikernelAttach attach
  refine .get_bind fun s => (throws_getIkernel id).bind fun r => Throws.bind (.get_bind fun s => ?_) fun _ =>
    (throws_modify _).bind fun _ => throws_pure _
  split
  · exact throws_throw_bind trivial _
  · refine (throws_access _).bind fun v => ?_
    split
    · exact throws_throw_bind trivial _
    · refine (throws_access _).bind fun w => ?_
      split
      · exact throws_throw_bind trivial _
      · exact (throws_modify _).bind fun _ => throws_pure _

theorem throws_ikernelDetach (r : Ref) (flow : Flow) : Throws Caught (ikernelDetach r flow) := by
  unfold ikernelDetach detach
  refine .get_bind fun s => ?_
  split
  · exact throws_throw_bind trivial _
  · refine Throws.bind (.get_bind fun s => ?_) fun _ => throws_modify _
    split
    · exact throws_throw_bind trivial _
    · refine (throws_access _).bind fun v => (throws_access _).bind fun w =>
        (throws_modify _).bind fun _ => ?_
      split
      · exact throws_throw trivial
      · exact throws_pure _

theorem throws_ikDetach (id : ℤ) (flow : Flow) : Throws Caught (ikDetach id flow) := by
  unfold ikDetach
  exact .get_bind fun s => (throws_getIkernel id).bind fun r => throws_ikernelDetach r _

theorem throws_ikernelCrDestroy (r : Ref) (ring : ℤ) : Throws CaughtOrKey (ikernelCrDestroy r ring) := by
  unfold ikernelCrDestroy crDestroy setCustomRing
  refine Throws.bind (Throws.bind (Throws.bind ((throws_access _).mono fun _ => .inl) fun _ => throws_pure _)
    fun _ => throws_modify _) fun _ => .get_bind fun s => ?_
  split
  · exact throws_throw_bind (.inr rfl) _
  · exact throws_modify _

theorem throws_destroy (r : Ref) : Throws CaughtOrKey (destroy r) := by
  unfold destroy deallocateIkernel
  refine .get_bind fun s =>
    (Throws.drain (fun flow => (throws_ikernelDetach r flow).mono fun _ => .inl) _).bind fun _ =>
      .get_bind fun s => (Throws.drain (throws_ikernelCrDestroy r) _).bind fun _ => .get_bind fun s =>
        Throws.bind (Throws.bind ((throws_getIkernel _).mono fun _ => .inl) fun r =>
          (throws_modify _).bind fun _ => .get_bind fun s => Throws.bind ?_ fun _ => throws_modify _)
          fun _ => throws_modify _
  unfold deallocateDram
  split
  · exact throws_pure _
  · exact throws_modify _

/-! ### Creation -/

/-- A number that `struct` packs into 32 bits. -/
def Packable (x : ℤ) : Prop := 0 ≤ x ∧ x < 2 ^ 32

/-- No exception leaves a creation: if the UUID is known, the pool has an id, the region is at a page, the size
of a memcached cache is a 32-bit number, and so is the id. -/
def CreateReplies (s : State) (uuid : Uuid) (log : ℕ) (tc : Option (Fin 3)) : Prop :=
  uuid ∈ s.uuids → ∃ id, (s.ikernelIds.getId 3 (tcCondition tc)).1 = some id ∧
    (∀ base stop, log ≠ 0 → firstFit (2 ^ requestedLog log) s.freeList = some (base, stop) →
      base % 2 ^ 12 = 0) ∧
    ((log ≠ 0 → (firstFit (2 ^ requestedLog log) s.freeList).isSome) → Returns s.hw.outcomes →
      uuid = memcachedUuid → 6 ≤ log ∧ log < 2 ^ 32 + 6) ∧
    (Completes s uuid log → Packable id)

theorem post_setMapping_caught {s : State} {id : ℤ} {base : ℕ} :
    Post (setMapping id base) s (fun _ _ => True) (fun e _ => Caught e ↔ base % 2 ^ 12 = 0) := by
  unfold setMapping
  split
  · rename_i hbase
    exact iff_of_false (fun h => h) hbase
  · rename_i hbase
    have hthrows : Throws Caught (do
        let _ ← access (fun _ hw => { hw with mmu := hw.mmu ++ [(0x9000 + 4 * id, base >>> 12)] })
        pure () : Mgr Unit) := (throws_access _).bind fun _ => throws_pure _
    exact (hthrows s).imp (fun _ _ h => h) (fun e _ h => iff_of_true h (not_not.mp hbase))

theorem post_gatewayWrite_caught {s : State} {r : Ref} {id value : ℤ} {address : BitVec 32} :
    Post (gatewayWrite r id address value) s (fun _ _ => True) (fun e _ => Caught e ↔ Packable value) := by
  unfold gatewayWrite
  split
  · rename_i hrange
    refine iff_of_false (fun h => h) fun h => ?_
    obtain ⟨hlow, hhigh⟩ := h
    omega
  · rename_i hrange
    have hthrows : Throws Caught (do
        let _ ← access (fun _ hw =>
          { hw with gateway := hw.gateway ++ [⟨r, id, address, some value⟩] })
        pure () : Mgr Unit) := (throws_access _).bind fun _ => throws_pure _
    refine (hthrows s).imp (fun _ _ h => h) (fun e _ h => iff_of_true h ⟨?_, ?_⟩) <;> omega

theorem throws_allocateDram (log : ℕ) : Throws Caught (allocateDram log) := by
  unfold allocateDram
  split
  · exact throws_pure _
  · refine .get_bind fun s => ?_
    split
    · exact (throws_modify _).bind fun _ => throws_pure _
    · exact throws_throw trivial

/-- A creation returns with an id of the pool, or raises what `rpc` catches exactly under the condition. -/
theorem post_ikCreate_replies (s : State) (uuid : Uuid) (log : ℕ) (tc : Option (Fin 3)) :
    Post (ikCreate uuid log tc) s
      (fun r s' => CreateReplies s uuid log tc ↔ Packable (s'.heap r).ikernelId)
      (fun e _ => Caught e ↔ CreateReplies s uuid log tc) := by
  unfold ikCreate allocateIkernel getIkernelId
  simp only [post_bind, post_get]
  rcases hidx : s.uuids.findIdx? (fun u => u = uuid) with _ | index
  · refine iff_of_true trivial fun hmem => ?_
    obtain ⟨index, hsome⟩ := exists_findIdx? hmem
    rw [hidx] at hsome
    cases hsome
  have hmem := mem_of_findIdx? hidx
  simp only [post_bind, post_get, post_modify]
  cases hid : (s.ikernelIds.getId 3 (tcCondition tc)).1 with
  | none =>
    refine iff_of_false (fun h => h) fun h => ?_
    obtain ⟨id, hsome, -⟩ := h hmem
    rw [hid] at hsome
    cases hsome
  | some id =>
    -- the condition, now that the UUID is known and the pool has an id
    have hiff : CreateReplies s uuid log tc ↔
        (∀ base stop, log ≠ 0 → firstFit (2 ^ requestedLog log) s.freeList = some (base, stop) →
          base % 2 ^ 12 = 0) ∧
        ((log ≠ 0 → (firstFit (2 ^ requestedLog log) s.freeList).isSome) → Returns s.hw.outcomes →
          uuid = memcachedUuid → 6 ≤ log ∧ log < 2 ^ 32 + 6) ∧
        (Completes s uuid log → Packable id) := by
      constructor
      · intro h
        obtain ⟨id', hsome, hrest⟩ := h hmem
        rw [hid] at hsome
        cases hsome
        exact hrest
      · exact fun h _ => ⟨id, hid, h⟩
    rw [post_pure]
    refine ((post_allocateDram log).and (throws_allocateDram log _)).imp ?_ ?_
    swap
    · rintro _ _ ⟨⟨hne, hfit, rfl⟩, hcaught⟩
      refine iff_of_true hcaught (hiff.mpr ⟨?_, ?_, ?_⟩)
      · intro base stop _ hsome
        rw [hfit] at hsome
        cases hsome
      · intro hroom
        rw [hfit] at hroom
        exact absurd (hroom hne) (by simp)
      · intro hcompletes
        obtain ⟨base, stop, hsome, -⟩ := hcompletes.room hne
        rw [hfit] at hsome
        cases hsome
    rintro ⟨base, logSize⟩ s₁ ⟨hregion, -⟩
    -- there is room, at `base`
    obtain ⟨l, hroom, hbase, rfl⟩ : ∃ l,
        (log ≠ 0 → (firstFit (2 ^ requestedLog log) s.freeList).isSome) ∧
        ((∀ base stop, log ≠ 0 → firstFit (2 ^ requestedLog log) s.freeList = some (base, stop) →
          base % 2 ^ 12 = 0) ↔ base % 2 ^ 12 = 0) ∧
        s₁ = { s with ikernelIds := (s.ikernelIds.getId 3 (tcCondition tc)).2, freeList := l } := by
      rcases hregion with ⟨hzero, hres, rfl⟩ | ⟨hne, base', stop, hfit, hres, rfl⟩
      · cases hres
        exact ⟨s.freeList, fun hne => absurd hzero hne,
          iff_of_true (fun _ _ hne => absurd hzero hne) rfl, rfl⟩
      · cases hres
        refine ⟨_, fun _ => by rw [hfit]; rfl, ⟨fun h => h base stop hne hfit, ?_⟩, rfl⟩
        intro h base' stop' _ hfit'
        rw [hfit] at hfit'
        cases hfit'
        exact h
    have hroom' : base % 2 ^ 12 = 0 → log ≠ 0 → ∃ base stop,
        firstFit (2 ^ requestedLog log) s.freeList = some (base, stop) ∧ base % 2 ^ 12 = 0 := by
      intro h hne
      obtain ⟨⟨base', stop⟩, hfit⟩ := Option.isSome_iff_exists.mp (hroom hne)
      exact ⟨base', stop, hfit, hbase.mpr h base' stop hne hfit⟩
    refine (post_setMapping_returns.and post_setMapping_caught).imp ?_ ?_
    swap
    · rintro _ _ ⟨⟨hfail, -⟩, hcaught⟩
      rw [hcaught, hiff]
      refine ⟨fun h => ⟨hbase.mpr h, ?_, ?_⟩, fun h => hbase.mp h.1⟩
      · intro _ hret
        exact absurd ⟨h, hret⟩ hfail
      · intro hcompletes
        exact absurd ⟨h, hcompletes.mapping⟩ hfail
    rintro _ _ ⟨⟨⟨hpage, hmapping⟩, hw, rfl, hnext⟩, -⟩
    have hdone : Completes s uuid log → (CreateReplies s uuid log tc ↔ Packable id) := by
      intro hcompletes
      rw [hiff]
      refine ⟨fun h => h.2.2 hcompletes, fun h => ⟨hbase.mpr hpage, ?_, fun _ => h⟩⟩
      intro _ _ huuid
      exact ⟨(hcompletes.size huuid).1, (hcompletes.size huuid).2.1⟩
    have hnew : ∀ (t : State) (k : Ikernel), k.ikernelId = id →
        ((t.addIkernel s.objects k).heap s.objects).ikernelId = id := by
      intro t k hk
      show (Function.update t.heap s.objects k s.objects).ikernelId = id
      rw [Function.update_self, hk]
    split
    · rename_i huuid
      rw [post_bind]
      refine (post_gatewayWrite_returns.and post_gatewayWrite_caught).imp ?_ ?_
      · rintro _ _ ⟨⟨⟨hlow, hhigh, hret⟩, hw', rfl⟩, -⟩
        rw [hnext] at hret
        refine (hdone ⟨hroom' hpage, hmapping, fun _ => ⟨by omega, by omega, hret⟩⟩).trans ?_
        exact (iff_of_eq (congrArg Packable (hnew _ _ rfl))).symm
      · rintro _ _ ⟨⟨hfail, hw', rfl⟩, hcaught⟩
        rw [hcaught, hiff]
        constructor
        · rintro ⟨hlow, hhigh⟩
          refine ⟨hbase.mpr hpage, fun _ _ _ => ⟨by omega, by omega⟩, ?_⟩
          intro hcompletes
          refine absurd ⟨hlow, hhigh, ?_⟩ hfail
          rw [hnext]
          exact (hcompletes.size huuid).2.2
        · intro h
          obtain ⟨hlow, hhigh⟩ := h.2.1 hroom hmapping huuid
          exact ⟨by omega, by omega⟩
    · rename_i huuid
      refine (hdone ⟨hroom' hpage, hmapping, fun h => absurd h huuid⟩).trans ?_
      exact (iff_of_eq (congrArg Packable (hnew _ _ rfl))).symm

/-! ### Rings -/

/-- The word that `update_credits` writes. -/
def creditWord (ring : ℤ) (maxMsn : ℕ) (reset : Bool) : ℕ :=
  ring.toNat ||| maxMsn <<< 7 ||| reset.toNat <<< 23

/-- No exception leaves `cr_create`: the pool has a ring, the MAC address is a text, and the credit word and
the ring are 32-bit numbers. -/
def RingReplies (s : State) (mac : Mac) : Prop :=
  ∃ ring, (s.customRingIds.getId 0 (fun _ => true)).1 = some ring ∧ (∃ m, mac = .text m) ∧
    (Returns s.hw.outcomes → creditWord ring 0 true < 2 ^ 32 ∧
      (Returns s.hw.outcomes.tail → Packable ring))

theorem post_updateCredits_caught {s : State} {ring : ℤ} {maxMsn : ℕ} {reset : Bool} :
    Post (updateCredits ring maxMsn reset) s (fun _ _ => creditWord ring maxMsn reset < 2 ^ 32 ∧
        Returns s.hw.outcomes)
      (fun e _ => (Caught e ↔ creditWord ring maxMsn reset < 2 ^ 32) ∧
        (creditWord ring maxMsn reset < 2 ^ 32 → ¬ Returns s.hw.outcomes)) := by
  unfold updateCredits
  split
  · rename_i hword
    have hword' : ¬ creditWord ring maxMsn reset < 2 ^ 32 := Nat.not_lt.mpr hword
    exact ⟨iff_of_false (fun h => h) hword', fun h => absurd h hword'⟩
  · rename_i hword
    have hword' : creditWord ring maxMsn reset < 2 ^ 32 := Nat.not_le.mp hword
    simp only [post_bind, post_get, post_pure]
    refine Post.imp (post_access_caught fun _ _ => rfl) ?_ ?_
    · rintro _ _ ⟨hret, -⟩
      exact ⟨hword', hret⟩
    · rintro _ _ ⟨hret, hcaught⟩
      exact ⟨iff_of_true hcaught hword', fun _ => hret⟩

theorem post_crCreate_replies (s : State) (r : Ref) (qpn : BitVec 32) (mac : Option Mac)
    (dstIp : Option Ip) :
    Post (crCreate r qpn mac dstIp) s
      (fun ring _ => RingReplies s (mac.getD (.text s.customRingMac)) ↔ Packable ring)
      (fun e _ => Caught e ↔ RingReplies s (mac.getD (.text s.customRingMac))) := by
  unfold crCreate getRingId
  simp only [post_bind, post_get, post_modify]
  cases hid : (s.customRingIds.getId 0 (fun _ => true)).1 with
  | none =>
    refine iff_of_false (fun h => h) fun h => ?_
    obtain ⟨ring, hsome, -⟩ := h
    rw [hid] at hsome
    cases hsome
  | some ring =>
    have hiff : ∀ m, RingReplies s (.text m) ↔
        (Returns s.hw.outcomes → creditWord ring 0 true < 2 ^ 32 ∧
          (Returns s.hw.outcomes.tail → Packable ring)) := by
      intro m
      constructor
      · rintro ⟨ring', hsome, -, hrest⟩
        rw [hid] at hsome
        cases hsome
        exact hrest
      · exact fun h => ⟨ring, hid, ⟨m, rfl⟩, h⟩
    rw [post_pure]
    unfold setCustomRing
    cases mac.getD (.text s.customRingMac) with
    | bytes =>
      refine iff_of_false (fun h => h) fun h => ?_
      obtain ⟨ring', -, ⟨m, hm⟩, -⟩ := h
      cases hm
    | text m =>
      rw [hiff m]
      simp only [post_bind, post_pure]
      refine Post.imp (post_access_caught fun _ _ => rfl) ?_ ?_
      swap
      · rintro _ _ ⟨hfail, hcaught⟩
        exact iff_of_true hcaught fun h => absurd h hfail
      rintro _ _ ⟨hret, hw, rfl, hnext⟩
      refine post_updateCredits_caught.imp ?_ ?_
      · rintro _ s' ⟨hword, hret'⟩
        have hret' : Returns hw.outcomes := hret'
        rw [hnext] at hret'
        exact ⟨fun h => (h hret).2 hret', fun h _ => ⟨hword, fun _ => h⟩⟩
      · rintro _ s' ⟨hcaught, hfail⟩
        rw [hcaught]
        refine ⟨fun hword _ => ⟨hword, fun hret' => absurd ?_ (hfail hword)⟩, fun h => (h hret).1⟩
        show Returns hw.outcomes
        rw [hnext]
        exact hret'

/-! ### The requests -/

/-- The number of words in the response to a request. -/
def clientWords : ClientRequest → ℕ
  | .ikAttach .. | .ikCreateAttrs .. => 2
  | _ => 1

def vmWords : VmRequest → ℕ
  | .getUuids => 4
  | .attach .. => 2
  | _ => 1

/-- No exception leaves the handler of a client's request. -/
def ClientReplies (s : State) : ClientRequest → Prop
  | .ikCreate netdev uuid =>
    decodes (interfaceName netdev) ∧ (interfaceName netdev = s.ifname → CreateReplies s uuid 0 none)
  | .ikCreateAttrs _ netdev uuid log =>
    decodes (interfaceName netdev) ∧
      (interfaceName netdev = s.ifname → CreateReplies s uuid log.toNat none)
  | .ikRpc h _ _ _ => ∀ r, s.ikernels.lookup (handle h) = some r → (s.heap r).ikernelIndex = 0
  | .crCreate h _ => (s.ikernels.lookup (handle h)).isSome → RingReplies s (.text s.customRingMac)
  | .crDestroy ring => ∀ r, (s.conns s.caller).customRingIkernels.lookup (handle ring) = some r →
    Returns s.hw.outcomes → handle ring ∈ s.customRingsOf r
  | .crUpdateCredits ring maxMsn => ((s.conns s.caller).customRingIkernels.lookup (handle ring)).isSome →
    creditWord (handle ring) maxMsn.toNat false < 2 ^ 32
  | .ikDestroy .. | .ikAttach .. | .ikDetach .. => True

/-- No exception leaves the handler of a VM's request. -/
def VmReplies (s : State) : VmRequest → Prop
  | .allocateIkernel uuid log =>
    CreateReplies s uuid log.toNat (Hypervisor.trafficClass (s.conns s.caller))
  | .invokeIkernelRpc id _ _ _ => .id (handle id) ∈ (s.conns s.caller).ikernels →
    ∀ r, s.ikernels.lookup (handle id) = some r → (s.heap r).ikernelIndex = 0
  | .crCreate id _ => .id (handle id) ∈ (s.conns s.caller).ikernels →
    (s.ikernels.lookup (handle id)).isSome → RingReplies s (s.conns s.caller).customRingMac
  | .updateCredits ring msnMax => handle ring ∈ (s.conns s.caller).customRingIkernels →
    creditWord (handle ring) msnMax.toNat false < 2 ^ 32
  | _ => True

/-- The decorator sends a whole response: a status, or the words of the structure. -/
def Sends (words : ℕ) : Except Exn Response → Prop
  | .ok ⟨some _, _⟩ => True
  | .ok ⟨none, values⟩ => values.length = words ∧ ∀ x ∈ values, Packable x
  | .error e => Caught e

/-- The condition `P` on the state before decides whether a response is sent. -/
def Decides (words : ℕ) (P : Prop) (x : Mgr Response) (s : State) : Prop :=
  Post x s (fun resp _ => Sends words (.ok resp) ↔ P) (fun e _ => Caught e ↔ P)

theorem Decides.iff {words : ℕ} {P : Prop} {x : Mgr Response} {s : State} (h : Decides words P x s) :
    Sends words (exec x s).1 ↔ P := by
  unfold Decides Post at h
  rcases hex : exec x s with ⟨e | resp, s'⟩ <;> rw [hex] at h <;> exact h

theorem Decides.congr {words : ℕ} {P P' : Prop} {x : Mgr Response} {s : State} (h : Decides words P x s)
    (hiff : P ↔ P') : Decides words P' x s :=
  h.imp (fun _ _ h => h.trans hiff) (fun _ _ h => h.trans hiff)

/-- A handler that raises only what `rpc` catches, and whose response fits. -/
theorem decides_of_throws {words : ℕ} {P : Prop} {α : Type} {x : Mgr α} {g : α → Response} {s : State}
    (hx : Throws Caught x) (hg : ∀ a, Sends words (.ok (g a))) (hP : P) :
    Decides words P (x >>= fun a => pure (g a)) s := by
  unfold Decides
  rw [post_bind]
  exact (hx s).imp (fun a _ _ => iff_of_true (hg a) hP) (fun e _ he => iff_of_true he hP)

/-- A 32-bit word fits. -/
theorem packable_toNat (v : BitVec 32) : Packable v.toNat :=
  ⟨Int.natCast_nonneg _, by exact_mod_cast v.isLt⟩

theorem sends_words (vs : List (BitVec 32)) : Sends vs.length (.ok (.ok (vs.map fun v => (v.toNat : ℤ)))) := by
  refine ⟨by simp, ?_⟩
  intro x hx
  obtain ⟨v, -, rfl⟩ := List.mem_map.mp hx
  exact packable_toNat v

theorem sends_zero : Sends 1 (.ok (.ok [0])) := sends_words [0]

theorem sends_single (x : ℤ) : Sends 1 (.ok (.ok [x])) ↔ Packable x := by
  constructor
  · rintro ⟨-, hall⟩
    exact hall x (List.mem_singleton_self x)
  · intro hx
    refine ⟨rfl, fun y hy => ?_⟩
    rw [List.mem_singleton.mp hy]
    exact hx

theorem decides_create (s : State) (netdev : List (BitVec 8)) (uuid : Uuid) (log : ℕ) (header : List ℤ)
    (hheader : ∀ x ∈ header, Packable x) :
    Decides (header.length + 1)
      (decodes (interfaceName netdev) ∧ (interfaceName netdev = s.ifname → CreateReplies s uuid log none))
      (Client.create netdev uuid log header) s := by
  unfold Client.create Decides
  split
  · rename_i hdecodes
    refine iff_of_false (fun h => h) fun h => ?_
    have hname := h.1
    unfold interfaceName at hname
    rw [hname] at hdecodes
    cases hdecodes
  rename_i hdecodes
  have hdecodes : decodes (interfaceName netdev) = true := by simpa [interfaceName] using hdecodes
  rw [post_bind, post_get]
  split
  · rename_i hname
    exact iff_of_true trivial ⟨hdecodes, fun h => absurd h hname⟩
  · rename_i hname
    have hname : interfaceName netdev = s.ifname := not_not.mp hname
    simp only [post_bind]
    refine (post_ikCreate_replies s uuid log none).imp ?_ ?_
    · intro r s' hiff
      refine Iff.trans ?_ (hiff.symm.trans ⟨fun h => ⟨hdecodes, fun _ => h⟩, fun h => h.2 hname⟩)
      constructor
      · rintro ⟨-, hall⟩
        exact hall _ (List.mem_append_right _ (List.mem_singleton_self _))
      · intro hid
        refine ⟨by simp, fun x hx => ?_⟩
        rcases List.mem_append.mp hx with hx | hx
        · exact hheader x hx
        · rw [List.mem_singleton.mp hx]
          exact hid
    · intro e s' hiff
      exact hiff.trans ⟨fun h => ⟨hdecodes, fun _ => h⟩, fun h => h.2 hname⟩

theorem decides_ikRpc (s : State) (id : ℤ) (address value : BitVec 32) (write : Bool) :
    Post (ikRpc id address value write) s
      (fun _ _ => ∀ r, s.ikernels.lookup id = some r → (s.heap r).ikernelIndex = 0)
      (fun e _ => Caught e ↔ ∀ r, s.ikernels.lookup id = some r → (s.heap r).ikernelIndex = 0) := by
  unfold ikRpc getIkernel invokeIkernelRpc
  simp only [post_bind, post_get]
  cases hr : s.ikernels.lookup id with
  | none =>
    refine iff_of_true trivial fun r h => ?_
    cases h
  | some r =>
    rw [post_pure]
    by_cases hindex : (s.heap r).ikernelIndex = 0
    swap
    · rw [if_pos hindex]
      exact iff_of_false (fun h => h) fun h => hindex (h r rfl)
    have hall : ∀ r', some r = some r' → (s.heap r').ikernelIndex = 0 := by
      intro r' h
      cases h
      exact hindex
    rw [if_neg (not_not.mpr hindex)]
    split
    · rw [post_bind]
      refine post_gatewayWrite_caught.imp (fun _ _ _ => hall) fun e _ h => ?_
      exact h.trans (iff_of_true (packable_toNat value) hall)
    · exact (throws_access _ s).imp (fun _ _ _ => hall) fun e _ h => iff_of_true h hall

theorem throws_removeHeld (x : Held) : Throws CaughtOrKey (removeHeld x) := by
  unfold removeHeld self
  refine Throws.bind (.get_bind fun s => throws_pure _) fun conn => ?_
  split
  · exact throws_throw_bind (.inr rfl) _
  · exact throws_modify _

theorem decides_ikDestroy (s : State) (h : ℤ) : Decides 1 True (Client.ikDestroy h) s := by
  unfold Client.ikDestroy Decides
  rw [post_tryCatch]
  -- whatever the body raises is caught here or by `rpc`
  have hhandler : ∀ (e : Exn) (t : State), CaughtOrKey e →
      Post (if e = .keyError then return .error .ENOENT else throw e : Mgr Response) t
        (fun resp _ => Sends 1 (.ok resp) ↔ True) (fun e _ => Caught e ↔ True) := by
    intro e t he
    split
    · exact iff_of_true trivial trivial
    · rename_i hne
      exact iff_of_true (he.resolve_right hne) trivial
  rw [post_bind, post_get]
  cases s.ikernels.lookup h with
  | none => exact hhandler .keyError s (.inr rfl)
  | some r =>
    have hbody : Throws CaughtOrKey (do
        destroy r
        modify (fun s => { s with ikernels := s.ikernels.erase h })
        removeHeld (.object r) : Mgr Unit) :=
      (throws_destroy r).bind fun _ => (throws_modify _).bind fun _ => throws_removeHeld _
    have hpost := hbody s
    simp only [post_bind, post_modify] at hpost ⊢
    refine hpost.imp ?_ (fun e t he => hhandler e t he)
    intro _ t ht
    exact ht.imp (fun _ _ _ => iff_of_true sends_zero trivial) (fun e t he => hhandler e t he)

theorem throws_receiveFlow (fd : Descriptor) : Throws Caught (Client.receiveFlow fd) := by
  cases fd
  · exact throws_throw trivial
  · exact throws_throw trivial
  · exact throws_pure _

theorem decides_crDestroy (s : State) (ring : ℤ) :
    Decides 1 (∀ r, (s.conns s.caller).customRingIkernels.lookup ring = some r →
      Returns s.hw.outcomes → ring ∈ s.customRingsOf r) (Client.crDestroy ring) s := by
  unfold Client.crDestroy Decides self
  simp only [post_bind, post_get, post_pure]
  cases hr : (s.conns s.caller).customRingIkernels.lookup ring with
  | none =>
    refine iff_of_true trivial fun r h => ?_
    cases h
  | some r =>
    unfold ikernelCrDestroy crDestroy setCustomRing
    simp only [post_bind, post_modify, post_get, post_pure]
    refine Post.imp (post_access_caught fun _ _ => rfl) ?_ ?_
    swap
    · rintro _ _ ⟨hfail, hcaught⟩
      exact iff_of_true hcaught fun _ _ hret => absurd hret hfail
    rintro _ _ ⟨hret, hw, rfl, -⟩
    have hkeep : ∀ t : State, (t.releaseRing ring).customRingsOf = t.customRingsOf ∧
        (t.releaseRing ring).conns = t.conns ∧ (t.releaseRing ring).caller = t.caller := by
      intro t
      unfold State.releaseRing
      split
      · split <;> exact ⟨rfl, rfl, rfl⟩
      · exact ⟨rfl, rfl, rfl⟩
    obtain ⟨hrings, hconns, hcaller⟩ := hkeep { s with hw := hw }
    rw [hrings]
    split
    · rename_i hnot
      exact iff_of_false (fun h => h) fun h => hnot (h r rfl hret)
    · rename_i hmem
      have hmem : ring ∈ s.customRingsOf r := not_not.mp hmem
      have hdel : ring ∈ (s.conns s.caller).customRingIkernels := by
        rw [← AList.lookup_isSome, hr]
        rfl
      unfold delRing self
      simp only [post_bind, post_modify, post_get, post_pure, hconns, hcaller]
      rw [if_neg (not_not.mpr hdel)]
      refine iff_of_true sends_zero fun r' h _ => ?_
      cases h
      exact hmem

/-- The two flow ids of an attachment. -/
theorem decides_ikAttach (id : ℤ) (flow : Flow) (s : State) :
    Decides 2 True (do
      let (h2nFlowId, n2hFlowId) ← ikAttach id flow
      return .ok [h2nFlowId.toNat, n2hFlowId.toNat]) s := by
  unfold Decides
  rw [post_bind]
  exact (throws_ikAttach id flow s).imp (fun p _ _ => iff_of_true (sends_words [p.1, p.2]) trivial)
    (fun _ _ he => iff_of_true he trivial)

/-- What decides whether a client's request is answered. -/
theorem decides_client (s : State) (req : ClientRequest) :
    Decides (clientWords req) (ClientReplies s req) (Client.handler req) s := by
  cases req with
  | ikCreate netdev uuid =>
    exact decides_create s netdev uuid 0 [] fun x hx => absurd hx List.not_mem_nil
  | ikCreateAttrs size netdev uuid log =>
    refine decides_create s netdev uuid log.toNat [8] fun x hx => ?_
    rw [List.mem_singleton.mp hx]
    exact packable_toNat 8
  | ikDestroy h => exact decides_ikDestroy s _
  | ikRpc h address value write =>
    unfold Client.handler Client.ikRpc Decides
    rw [post_bind]
    exact (decides_ikRpc s _ _ _ _).imp (fun v _ hall => iff_of_true (sends_words [v]) hall)
      (fun _ _ hiff => hiff)
  | ikAttach h fd =>
    unfold Client.handler Client.ikAttach Decides
    rw [post_bind]
    refine (throws_receiveFlow fd s).imp ?_ (fun _ _ he => iff_of_true he trivial)
    exact fun flow t _ => decides_ikAttach _ flow t
  | ikDetach h fd =>
    unfold Client.handler Client.ikDetach Decides
    rw [post_bind]
    refine (throws_receiveFlow fd s).imp ?_ (fun _ _ he => iff_of_true he trivial)
    exact fun flow t _ => decides_of_throws (throws_ikDetach _ flow) (fun _ => sends_zero) trivial
  | crCreate h qpNum =>
    unfold Client.handler Client.crCreate Decides
    rw [post_bind, post_get]
    cases hr : s.ikernels.lookup (handle h) with
    | none =>
      refine iff_of_true trivial fun h => ?_
      rw [hr] at h
      cases h
    | some r =>
      have hiff : ClientReplies s (.crCreate h qpNum) ↔ RingReplies s (.text s.customRingMac) := by
        refine ⟨fun h => h ?_, fun h _ => h⟩
        rw [hr]
        rfl
      rw [hiff]
      unfold ikernelCrCreate addRing
      simp only [post_bind, post_modify, post_pure]
      refine (post_crCreate_replies s r qpNum none none).imp ?_ (fun _ _ h => h)
      intro ring _ h
      exact (sends_single ring).trans h.symm
  | crDestroy ring => exact decides_crDestroy s _
  | crUpdateCredits ring maxMsn =>
    unfold Client.handler Client.crUpdateCredits Decides self
    simp only [post_bind, post_get, post_pure]
    cases hr : (s.conns s.caller).customRingIkernels.lookup (handle ring) with
    | none =>
      refine iff_of_true trivial fun h => ?_
      rw [hr] at h
      cases h
    | some r =>
      have hiff : ClientReplies s (.crUpdateCredits ring maxMsn) ↔
          creditWord (handle ring) maxMsn.toNat false < 2 ^ 32 := by
        refine ⟨fun h => h ?_, fun h _ => h⟩
        rw [hr]
        rfl
      rw [hiff]
      simp only [post_bind, post_pure]
      exact post_updateCredits_caught.imp (fun _ _ h => iff_of_true sends_zero h.1) (fun _ _ h => h.1)

/-! ### The requests of a VM -/

/-- The protocol objects. -/
def connView (s : State) : (ℕ → Conn) × ℕ := (s.conns, s.caller)

theorem connView_releaseRing (s : State) (ring : ℤ) : connView (s.releaseRing ring) = connView s := by
  unfold State.releaseRing
  split
  · split <;> rfl
  · rfl

theorem connView_unregisterFlow (s : State) (flow : Flow) : connView (s.unregisterFlow flow) = connView s := by
  unfold State.unregisterFlow
  split <;> rfl

theorem keeps_connView_destroy (r : Ref) : Keeps connView (destroy r) := by
  unfold destroy deallocateIkernel deallocateDram
  refine .get_bind fun s =>
    (Keeps.drain (keeps_ikernelDetach (fun _ _ => rfl) (fun _ _ => rfl) connView_unregisterFlow r) _).bind
      fun _ => .get_bind fun s =>
        (Keeps.drain (keeps_ikernelCrDestroy (fun _ _ => rfl) (fun _ _ => rfl) connView_releaseRing r) _).bind
          fun _ => .get_bind fun s => Keeps.bind ?_ fun _ => keeps_modify fun _ => rfl
  exact (keeps_getIkernel _).bind fun r => Keeps.bind (keeps_modify fun _ => rfl) fun _ => .get_bind fun s =>
    Keeps.bind (Keeps.ite (keeps_pure _) (keeps_modify fun _ => rfl)) fun _ => keeps_modify fun _ => rfl

theorem keeps_connView_ikDestroy (id : ℤ) : Keeps connView (ikDestroy id) := by
  unfold ikDestroy
  refine Keeps.tryCatch (.get_bind fun s => ?_) fun e => Keeps.ite (keeps_pure _) (keeps_throw _)
  split
  · exact keeps_throw _
  · exact (keeps_connView_destroy _).bind fun _ => Keeps.bind (keeps_modify fun _ => rfl) fun _ => keeps_pure _

theorem throws_ikDestroy (id : ℤ) : Throws Caught (ikDestroy id) := by
  intro s
  unfold ikDestroy
  have hhandler : ∀ (e : Exn) (t : State), CaughtOrKey e →
      Post (if e = .keyError then return some .ENOENT else throw e : Mgr (Option Errno)) t
        (fun _ _ => True) (fun e _ => Caught e) := by
    intro e t he
    split
    · exact trivial
    · rename_i hne
      exact he.resolve_right hne
  rw [post_tryCatch, post_bind, post_get]
  cases s.ikernels.lookup id with
  | none => exact hhandler .keyError s (.inr rfl)
  | some r =>
    have hbody := (throws_destroy r).bind fun _ =>
      (throws_modify (fun s : State => { s with ikernels := s.ikernels.erase id })).bind fun _ =>
        throws_pure (none : Option Errno)
    exact (hbody s).imp (fun _ _ h => h) (fun e t he => hhandler e t he)

theorem throws_crDestroy (ring : ℤ) : Throws Caught (crDestroy ring) := by
  unfold crDestroy setCustomRing
  exact Throws.bind ((throws_access _).bind fun _ => throws_pure _) fun _ => throws_modify _

theorem post_checkIkernel (s : State) (id : ℤ) :
    Post (Hypervisor.checkIkernel id) s (fun _ s' => s' = s ∧ .id id ∈ (s.conns s.caller).ikernels)
      (fun e _ => Caught e ∧ .id id ∉ (s.conns s.caller).ikernels) := by
  unfold Hypervisor.checkIkernel self
  simp only [post_bind, post_get, post_pure]
  split
  · rename_i hnot
    exact ⟨trivial, hnot⟩
  · rename_i hmem
    exact ⟨rfl, not_not.mp hmem⟩

theorem post_checkRingId (s : State) (ring : ℤ) :
    Post (Hypervisor.checkRingId ring) s
      (fun _ s' => s' = s ∧ ring ∈ (s.conns s.caller).customRingIkernels)
      (fun e _ => Caught e ∧ ring ∉ (s.conns s.caller).customRingIkernels) := by
  unfold Hypervisor.checkRingId self
  simp only [post_bind, post_get, post_pure]
  split
  · rename_i hnot
    exact ⟨trivial, hnot⟩
  · rename_i hmem
    exact ⟨rfl, not_not.mp hmem⟩

/-- After a check that may end the request. -/
theorem decides_check {words : ℕ} {c P : Prop} {s : State} {check : Mgr Unit} {x : Mgr Response}
    (hcheck : Post check s (fun _ s' => s' = s ∧ c) (fun e _ => Caught e ∧ ¬ c))
    (h : c → Decides words P x s) : Decides words (c → P) (do check; x) s := by
  unfold Decides
  rw [post_bind]
  refine hcheck.imp ?_ ?_
  · rintro _ s' ⟨hs, hc⟩
    have himp : (c → P) ↔ P := ⟨fun h => h hc, fun h _ => h⟩
    rw [hs, himp]
    exact h hc
  · rintro e _ ⟨hcaught, hc⟩
    exact iff_of_true hcaught fun h => absurd h hc

/-- What decides whether a VM's request is answered. -/
theorem decides_vm (s : State) (req : VmRequest) :
    Decides (vmWords req) (VmReplies s req) (Hypervisor.handler req) s := by
  cases req with
  | configureCustomRing mac ip => exact iff_of_true sends_zero trivial
  | numRings => exact decides_of_throws (throws_access _) (fun v => sends_words [v]) trivial
  | getUuids =>
    have hword : ∀ (f : BitVec 32 → Mgr Response) (t : State), (∀ v t, Decides 4 True (f v) t) →
        Decides 4 True (access (fun _ hw => hw) >>= f) t := by
      intro f t hf
      unfold Decides
      rw [post_bind]
      exact (throws_access _ t).imp (fun v t' _ => hf v t') (fun _ _ he => iff_of_true he trivial)
    exact hword _ _ fun w₀ _ => hword _ _ fun w₁ _ => hword _ _ fun w₂ _ => hword _ _ fun w₃ _ =>
      iff_of_true (sends_words [w₀, w₁, w₂, w₃]) trivial
  | allocateIkernel uuid log =>
    unfold Hypervisor.handler Hypervisor.allocateIkernel self addHeld Decides
    simp only [post_bind, post_get, post_pure, post_modify]
    refine (post_ikCreate_replies s uuid log.toNat _).imp ?_ (fun _ _ h => h)
    intro r s' h
    exact (sends_single _).trans h.symm
  | deallocateIkernel id =>
    unfold Hypervisor.handler Hypervisor.deallocateIkernel self removeHeld Decides
    simp only [post_bind, post_get, post_pure]
    split
    · exact iff_of_true trivial trivial
    · rename_i hmem
      simp only [post_bind]
      refine ((throws_ikDestroy (handle id) s).and ((keeps_connView_ikDestroy (handle id)).post s)).imp ?_ ?_
      · rintro _ s' ⟨-, hkeep⟩
        have hconns : s'.conns = s.conns := congrArg Prod.fst hkeep
        have hcaller : s'.caller = s.caller := congrArg Prod.snd hkeep
        simp only [self, post_bind, post_get, post_pure, hconns, hcaller]
        rw [if_neg hmem]
        exact iff_of_true sends_zero trivial
      · rintro e _ ⟨hcaught, -⟩
        exact iff_of_true hcaught trivial
  | attach ip port id =>
    refine (decides_check (P := True) (post_checkIkernel s (handle id)) fun _ => ?_).congr (iff_of_true ?_ ?_)
    · unfold self Decides
      simp only [post_bind, post_get, post_pure]
      split
      · exact iff_of_true trivial trivial
      · exact decides_ikAttach _ _ s
    · exact fun _ => trivial
    · trivial
  | detach ip port id =>
    refine (decides_check (P := True) (post_checkIkernel s (handle id)) fun _ => ?_).congr (iff_of_true ?_ ?_)
    · exact decides_of_throws (throws_ikDetach _ _) (fun _ => sends_zero) trivial
    · exact fun _ => trivial
    · trivial
  | invokeIkernelRpc id address value write =>
    refine decides_check (post_checkIkernel s _) fun _ => ?_
    unfold Decides
    rw [post_bind]
    exact (decides_ikRpc s _ _ _ _).imp (fun v _ hall => iff_of_true (sends_words [v]) hall)
      (fun _ _ hiff => hiff)
  | crCreate id qpNum =>
    refine decides_check (post_checkIkernel s _) fun _ => ?_
    unfold getIkernel self addRing Decides
    simp only [post_bind, post_get, post_modify]
    cases hr : s.ikernels.lookup (handle id) with
    | none =>
      refine iff_of_true trivial fun h => ?_
      cases h
    | some r =>
      simp only [post_pure]
      refine (post_crCreate_replies s r qpNum _ _).imp ?_ ?_
      · intro ring _ h
        exact (sends_single ring).trans (h.symm.trans ⟨fun h _ => h, fun h => h rfl⟩)
      · intro e _ h
        exact h.trans ⟨fun h _ => h, fun h => h rfl⟩
  | crDestroy ring =>
    refine (decides_check (P := True) (post_checkRingId s (handle ring)) fun hmem => ?_).congr
      (iff_of_true ?_ ?_)
    · unfold delRing Decides
      simp only [post_bind]
      refine ((throws_crDestroy _ s).and ((keeps_crDestroy (fun _ _ => rfl) connView_releaseRing _).post s)).imp
        ?_ (fun _ _ h => iff_of_true h.1 trivial)
      rintro _ s' ⟨-, hkeep⟩
      have hconns : s'.conns = s.conns := congrArg Prod.fst hkeep
      have hcaller : s'.caller = s.caller := congrArg Prod.snd hkeep
      simp only [self, post_bind, post_get, post_pure, hconns, hcaller]
      rw [if_neg (not_not.mpr hmem)]
      exact iff_of_true sends_zero trivial
    · exact fun _ => trivial
    · trivial
  | updateCredits ring msnMax =>
    refine decides_check (post_checkRingId s _) fun _ => ?_
    unfold Decides
    rw [post_bind]
    exact post_updateCredits_caught.imp (fun _ _ h => iff_of_true sends_zero h.1) (fun _ _ h => h.1)

end Nica.Manager.Rpc
