import Mathlib.Data.Set.Insert
import Nica.Manager.Equiv.FlowTables

/-!
# What a program leaves to the others

`Assets` are ikernels with their ids and flows, and custom rings.  A program `Spares` them when it leaves alone what the
manager and the hardware hold of them and sends the hardware no command that concerns them.  A command spares all assets
but the one that it names (`commands_setFlow` and its like), and so does a program of such commands (`Commands.bind`).
-/

namespace Nica.Manager

open Nica.Lib Nica.Lib.Prog

/-- Ikernels with their ids and flows, and custom rings. -/
@[ext]
structure Assets where
  ids : Set ℤ
  refs : Set Ref
  flows : Set Flow
  rings : Set ℤ

/-- The hardware holds the same of the assets, and no command that was added concerns them. -/
structure Hardware.Spares (a : Assets) (hw hw' : Hardware) : Prop where
  tables : ∀ d, ∀ f ∈ a.flows, (hw'.table d).lookup f = (hw.table d).lookup f
  ringContexts : ∀ ring ∈ a.rings, hw'.ringContexts.lookup ring = hw.ringContexts.lookup ring
  mmu : ∃ new, hw'.mmu = hw.mmu ++ new ∧ ∀ w ∈ new, ∀ i ∈ a.ids, w.1 ≠ 0x9000 + 4 * i
  gateway : ∃ new, hw'.gateway = hw.gateway ++ new ∧ ∀ x ∈ new, x.ikernelId ∉ a.ids
  credits : ∃ new, hw'.credits = hw.credits ++ new ∧ ∀ w ∈ new, w.ring ∉ a.rings

/-- The manager and the hardware hold the same of the assets. -/
structure Spares (a : Assets) (s s' : State) : Prop where
  ikernels : ∀ i ∈ a.ids, s'.ikernels.lookup i = s.ikernels.lookup i
  heap : ∀ r ∈ a.refs, s'.heap r = s.heap r
  flowsOf : ∀ r ∈ a.refs, (s'.flowsOf r).Perm (s.flowsOf r)
  flows : ∀ f ∈ a.flows, s'.flows.lookup f = s.flows.lookup f
  hw : s.hw.Spares a s'.hw

variable {a : Assets} {s s' s'' : State}

/-! ### Two programs in a row -/

/-- Nothing was added. -/
theorem exists_append_nil {α : Type} (xs : List α) (P : α → Prop) : ∃ new, xs = xs ++ new ∧ ∀ x ∈ new, P x :=
  ⟨[], (List.append_nil xs).symm, fun _ hx => absurd hx List.not_mem_nil⟩

/-- One element was added. -/
theorem exists_append_one {α : Type} (xs : List α) {P : α → Prop} {x : α} (hx : P x) :
    ∃ new, xs ++ [x] = xs ++ new ∧ ∀ y ∈ new, P y :=
  ⟨[x], rfl, fun _ hy => List.mem_singleton.mp hy ▸ hx⟩

theorem exists_append_trans {α : Type} {xs ys zs : List α} {P : α → Prop} (h : ∃ new, ys = xs ++ new ∧ ∀ x ∈ new, P x)
    (h' : ∃ new, zs = ys ++ new ∧ ∀ x ∈ new, P x) : ∃ new, zs = xs ++ new ∧ ∀ x ∈ new, P x := by
  obtain ⟨new, rfl, hnew⟩ := h
  obtain ⟨new', rfl, hnew'⟩ := h'
  refine ⟨new ++ new', List.append_assoc .., fun x hx => ?_⟩
  exact (List.mem_append.mp hx).elim (hnew x) (hnew' x)

theorem Hardware.Spares.refl (a : Assets) (hw : Hardware) : hw.Spares a hw where
  tables _ _ _ := rfl
  ringContexts _ _ := rfl
  mmu := exists_append_nil _ _
  gateway := exists_append_nil _ _
  credits := exists_append_nil _ _

theorem Hardware.Spares.trans {hw hw' hw'' : Hardware} (h : hw.Spares a hw') (h' : hw'.Spares a hw'') :
    hw.Spares a hw'' where
  tables d f hf := (h'.tables d f hf).trans (h.tables d f hf)
  ringContexts ring hring := (h'.ringContexts ring hring).trans (h.ringContexts ring hring)
  mmu := exists_append_trans h.mmu h'.mmu
  gateway := exists_append_trans h.gateway h'.gateway
  credits := exists_append_trans h.credits h'.credits

theorem Spares.refl (a : Assets) (s : State) : Spares a s s where
  ikernels _ _ := rfl
  heap _ _ := rfl
  flowsOf _ _ := .refl _
  flows _ _ := rfl
  hw := .refl a s.hw

theorem Spares.trans (h : Spares a s s') (h' : Spares a s' s'') : Spares a s s'' where
  ikernels i hi := (h'.ikernels i hi).trans (h.ikernels i hi)
  heap r hr := (h'.heap r hr).trans (h.heap r hr)
  flowsOf r hr := (h'.flowsOf r hr).trans (h.flowsOf r hr)
  flows f hf := (h'.flows f hf).trans (h.flows f hf)
  hw := h.hw.trans h'.hw

/-- The hardware alone has changed. -/
theorem spares_hw {hw : Hardware} (h : s.hw.Spares a hw) : Spares a s { s with hw := hw } :=
  { Spares.refl a s with hw := h }

/-! ### Commands -/

/-- The program changes the hardware only, and spares the assets. -/
def Commands {α : Type} (a : Assets) (x : Mgr α) : Prop :=
  ∀ s, Post x s (fun _ s' => ∃ hw, s' = { s with hw := hw } ∧ s.hw.Spares a hw ∧ hw.outcomes ⊆ s.hw.outcomes)
    (fun _ s' => ∃ hw, s' = { s with hw := hw } ∧ s.hw.Spares a hw ∧ hw.outcomes ⊆ s.hw.outcomes)

section Commands

variable {α β : Type}

theorem commands_pure (v : α) : Commands a (pure v : Mgr α) := fun s =>
  ⟨s.hw, rfl, .refl a s.hw, List.Subset.refl _⟩

theorem commands_throw (e : Exn) : Commands a (throw e : Mgr α) := fun s =>
  ⟨s.hw, rfl, .refl a s.hw, List.Subset.refl _⟩

/-- Nothing runs after an exception. -/
theorem commands_throw_bind (e : Exn) (g : α → Mgr β) : Commands a (throw e >>= g) := fun s =>
  ⟨s.hw, rfl, .refl a s.hw, List.Subset.refl _⟩

theorem Commands.bind {x : Mgr α} {g : α → Mgr β} (hx : Commands a x) (hg : ∀ v, Commands a (g v)) :
    Commands a (x >>= g) := by
  intro s
  rw [post_bind]
  refine (hx s).imp ?_ (fun _ _ h => h)
  rintro v _ ⟨hw, rfl, hspares, hleft⟩
  have hmore : ∀ hw', hw.Spares a hw' ∧ hw'.outcomes ⊆ hw.outcomes →
      s.hw.Spares a hw' ∧ hw'.outcomes ⊆ s.hw.outcomes := fun hw' h =>
    ⟨hspares.trans h.1, List.Subset.trans h.2 hleft⟩
  refine (hg v { s with hw := hw }).imp ?_ ?_
  · rintro _ _ ⟨hw', rfl, h⟩
    exact ⟨hw', rfl, hmore hw' h⟩
  · rintro _ _ ⟨hw', rfl, h⟩
    exact ⟨hw', rfl, hmore hw' h⟩

theorem Commands.get_bind {g : State → Mgr β} (hg : ∀ s, Commands a (g s)) : Commands a (get >>= g) :=
  fun s => hg s s

/-- A command whose effect spares the assets. -/
theorem commands_access {effect : BitVec 32 → Hardware → Hardware}
    (heffect : ∀ v (hw : Hardware), hw.Spares a (effect v hw))
    (houtcomes : ∀ v (hw : Hardware), (effect v hw).outcomes = hw.outcomes) : Commands a (access effect) := by
  have hspares : ∀ (hw : Hardware) os v, hw.Spares a (effect v { hw with outcomes := os }) := fun hw os v =>
    (show hw.Spares a { hw with outcomes := os } from { Hardware.Spares.refl a hw with }).trans (heffect v _)
  intro s
  unfold access
  rw [post_bind, post_get]
  split
  · refine ⟨_, rfl, heffect 1 s.hw, ?_⟩
    rw [houtcomes]
    exact List.Subset.refl _
  · rename_i v os hos
    refine ⟨_, rfl, hspares s.hw os v, ?_⟩
    rw [houtcomes, hos]
    exact List.subset_cons_self _ _
  · rename_i fault done os hos
    refine ⟨_, rfl, ?_, ?_⟩
    · split
      · exact hspares s.hw os 1
      · exact { Hardware.Spares.refl a s.hw with }
    · split
      · rw [houtcomes, hos]
        exact List.subset_cons_self _ _
      · rw [hos]
        exact List.subset_cons_self _ _

/-- A command that changes nothing. -/
theorem commands_nothing : Commands a (access fun _ hw => hw) :=
  commands_access (fun _ hw => .refl a hw) fun _ _ => rfl

theorem spares_setTable {flow : Flow} (hflow : flow ∉ a.flows) (hw : Hardware) {t : Dict Flow FlowTarget} {d : Direction}
    (ht : ∀ f, f ≠ flow → t.lookup f = (hw.table d).lookup f) : hw.Spares a (hw.setTable t d) := by
  have hrest : ∀ d', ∀ f ∈ a.flows, ((hw.setTable t d).table d').lookup f = (hw.table d').lookup f := by
    intro d' f hf
    have hne : f ≠ flow := by
      rintro rfl
      exact hflow hf
    cases d <;> cases d' <;> first | rfl | exact ht f hne
  cases d
  · exact { Hardware.Spares.refl a hw with tables := hrest }
  · exact { Hardware.Spares.refl a hw with tables := hrest }

theorem commands_setFlow {flow : Flow} (hflow : flow ∉ a.flows) (d : Direction) (target : FlowTarget) :
    Commands a (setFlow d flow target) := by
  refine commands_access (fun v hw => ?_) fun v hw => ?_
  · split
    · exact .refl a hw
    · exact spares_setTable hflow hw fun f hne => AList.lookup_insert_ne hne
  · split
    · rfl
    · cases d <;> rfl

theorem commands_delFlow {flow : Flow} (hflow : flow ∉ a.flows) (d : Direction) : Commands a (delFlow d flow) := by
  refine commands_access (fun v hw => ?_) fun v hw => ?_
  · split
    · exact .refl a hw
    · exact spares_setTable hflow hw fun f hne => AList.lookup_erase_ne hne
  · split
    · rfl
    · cases d <;> rfl

theorem commands_gatewayWrite {id : ℤ} (hid : id ∉ a.ids) (r : Ref) (address : BitVec 32) (value : ℤ) :
    Commands a (gatewayWrite r id address value) := by
  unfold gatewayWrite
  split
  · exact commands_throw_bind _ _
  · refine Commands.bind (commands_access (fun v hw => ?_) fun _ _ => rfl) fun _ => commands_pure _
    exact { Hardware.Spares.refl a hw with gateway := exists_append_one _ hid }

theorem commands_gatewayRead {id : ℤ} (hid : id ∉ a.ids) (r : Ref) (address : BitVec 32) :
    Commands a (gatewayRead r id address) := by
  refine commands_access (fun v hw => ?_) fun _ _ => rfl
  exact { Hardware.Spares.refl a hw with gateway := exists_append_one _ hid }

theorem commands_setCustomRing {ring : ℤ} (hring : ring ∉ a.rings) (mac : Mac) (ip : Ip) (qpn : BitVec 32) :
    Commands a (setCustomRing ring mac ip qpn) := by
  unfold setCustomRing
  split
  · exact commands_throw _
  · refine Commands.bind (commands_access (fun v hw => ?_) fun _ _ => rfl) fun _ => commands_pure _
    have hrest : ∀ x ∈ a.rings, ∀ context : RingContext,
        (hw.ringContexts.insert ring context).lookup x = hw.ringContexts.lookup x := by
      intro x hx context
      apply AList.lookup_insert_ne
      rintro rfl
      exact hring hx
    exact { Hardware.Spares.refl a hw with ringContexts := fun x hx => hrest x hx _ }

theorem commands_updateCredits {ring : ℤ} (hring : ring ∉ a.rings) (maxMsn : ℕ) (reset : Bool) :
    Commands a (updateCredits ring maxMsn reset) := by
  unfold updateCredits
  split
  · exact commands_throw_bind _ _
  · refine .get_bind fun s => Commands.bind (commands_access (fun v hw => ?_) fun _ _ => rfl) fun _ => commands_pure _
    exact { Hardware.Spares.refl a hw with credits := exists_append_one _ hring }

/-- The command of a creation that got an id of its own. -/
theorem spares_after {id : ℤ} (hid : id ∉ a.ids) (hw : Hardware) (os : List Outcome) {mappings : List (ℤ × ℕ)}
    {accesses : List Access} (hmappings : ∀ w ∈ mappings, ∃ base, w = mappingOf id base)
    (haccesses : ∀ x ∈ accesses, x.ikernelId = id) : hw.Spares a (hw.after os mappings accesses) := by
  have hmmu : ∀ w ∈ mappings, ∀ i ∈ a.ids, w.1 ≠ 0x9000 + 4 * i := by
    intro w hw i hi heq
    obtain ⟨base, rfl⟩ := hmappings w hw
    obtain rfl : id = i := by
      rw [mappingOf] at heq
      simpa using heq
    exact hid hi
  have hgateway : ∀ x ∈ accesses, x.ikernelId ∉ a.ids := fun x hx => haccesses x hx ▸ hid
  exact { Hardware.Spares.refl a hw with mmu := ⟨mappings, rfl, hmmu⟩, gateway := ⟨accesses, rfl, hgateway⟩ }

end Commands

end Nica.Manager
