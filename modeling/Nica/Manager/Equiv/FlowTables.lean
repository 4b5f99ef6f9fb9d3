import Mathlib.Data.Finset.Card
import Mathlib.Data.Finset.Dedup
import Nica.Manager.Equiv.DramRun

/-!
# The four places of a flow

A flow that is attached is in the set of its ikernel, in `NetdevHardware.flows` and in the two tables of the
hardware.  `Agree` says that the four agree; `flowsSafe_run` that they do in every run in which no command of
an attach or a detach fails after another one of the same flow took effect, and what then follows for the
attaches, detaches and destructions that fail.

* `FlowView`: the part of the state that this is about; `FlowView.add` and `FlowView.drop` are what a whole
  attach and a whole detach do to it.
* `post_ikernelAttach`, `post_ikernelDetach`, `post_destroyFlows`: an attach or a detach whose commands are
  clean is whole or has no effect.
-/

namespace Nica.Manager

open Nica.Lib Nica.Lib.Prog

variable {s : State} {r : Ref} {flow : Flow}

/-! ### The property -/

/-- The result part of the entries of the object `r` in the hardware tables. -/
def State.target (s : State) (r : Ref) : FlowTarget := ⟨(s.heap r).ikernelIndex, (s.heap r).ikernelId⟩

/-- What the manager and the hardware know of the flows; the sets are taken without their order. -/
structure FlowView where
  objects : ℕ
  target : Ref → FlowTarget
  registered : ℤ → Option Ref
  flows : Dict Flow FlowEntry
  flowsOf : Ref → Finset Flow
  table : Direction → Dict Flow FlowTarget

def State.flowView (s : State) : FlowView where
  objects := s.objects
  target := s.target
  registered := fun id => s.ikernels.lookup id
  flows := s.flows
  flowsOf := fun r => (s.flowsOf r).toFinset
  table := s.hw.table

namespace FlowView

/-- `NetdevHardware.flows` maps the flow to the object. -/
def Maps (v : FlowView) (flow : Flow) (r : Ref) : Prop :=
  ∃ e, v.flows.lookup flow = some e ∧ e.ikernel = r

/-- A flow is in the set of an ikernel if and only if `NetdevHardware.flows` maps it to this ikernel, if and
only if both tables hold its entry, with the index and the id of this ikernel. -/
structure Agree (v : FlowView) : Prop where
  sets : ∀ flow r, flow ∈ v.flowsOf r ↔ v.Maps flow r
  tables : ∀ d flow t, (v.table d).lookup flow = some t ↔ ∃ r, v.Maps flow r ∧ t = v.target r

/-- The places agree, and only objects that exist have flows and are registered. -/
structure Coherent (v : FlowView) : Prop extends Agree v where
  unmade : ∀ r, v.objects ≤ r → v.flowsOf r = ∅
  made : ∀ id r, v.registered id = some r → r < v.objects

/-- Of the flows that `v` maps to the object, `v'` has none in any of the four places. -/
structure Released (v' v : FlowView) (r : Ref) : Prop where
  set : v'.flowsOf r = ∅
  places : ∀ flow, v.Maps flow r →
    (∀ q, flow ∉ v'.flowsOf q) ∧ v'.flows.lookup flow = none ∧ ∀ d, (v'.table d).lookup flow = none

/-- The flow is attached to the object of the entry. -/
def add (v : FlowView) (flow : Flow) (e : FlowEntry) : FlowView :=
  { v with
    flows := v.flows.insert flow e
    flowsOf := Function.update v.flowsOf e.ikernel (insert flow (v.flowsOf e.ikernel))
    table := fun d => (v.table d).insert flow (v.target e.ikernel) }

/-- The flow is detached from the object. -/
def drop (v : FlowView) (flow : Flow) (r : Ref) : FlowView :=
  { v with
    flows := v.flows.erase flow
    flowsOf := Function.update v.flowsOf r ((v.flowsOf r).erase flow)
    table := fun d => (v.table d).erase flow }

/-- Every flow that `v'` maps, `v` maps to the same object. -/
def Within (v' v : FlowView) : Prop := ∀ flow r, v'.Maps flow r → v.Maps flow r

variable {v : FlowView}

theorem Maps.unique {r' : Ref} (h : v.Maps flow r) (h' : v.Maps flow r') : r = r' := by
  obtain ⟨e, he, rfl⟩ := h
  obtain ⟨e', he', rfl⟩ := h'
  rw [he] at he'
  cases he'
  rfl

theorem not_maps_of_lookup_none (h : v.flows.lookup flow = none) : ¬ v.Maps flow r := by
  rintro ⟨e, he, -⟩
  rw [h] at he
  cases he

theorem maps_add {e : FlowEntry} {flow' : Flow} :
    (v.add flow e).Maps flow' r ↔ if flow' = flow then e.ikernel = r else v.Maps flow' r := by
  unfold Maps add
  split
  · rename_i heq
    subst heq
    simp only [AList.lookup_insert, Option.some.injEq, exists_eq_left']
  · rename_i hne
    simp only [AList.lookup_insert_ne hne]

theorem maps_drop {flow' : Flow} {q : Ref} : (v.drop flow r).Maps flow' q ↔ flow' ≠ flow ∧ v.Maps flow' q := by
  unfold Maps drop
  by_cases heq : flow' = flow
  · subst heq
    simp
  · simp [AList.lookup_erase_ne heq, heq]

/-- A new flow in all four places. -/
theorem Coherent.add (h : v.Coherent) {e : FlowEntry} (hnew : v.flows.lookup flow = none)
    (hr : e.ikernel < v.objects) : (v.add flow e).Coherent := by
  have hnot : ∀ q, flow ∉ v.flowsOf q := fun q hq => not_maps_of_lookup_none hnew ((h.sets flow q).mp hq)
  refine ⟨⟨?_, ?_⟩, ?_, h.made⟩
  · intro flow' q
    rw [maps_add]
    show flow' ∈ Function.update v.flowsOf e.ikernel (insert flow (v.flowsOf e.ikernel)) q ↔ _
    rcases eq_or_ne q e.ikernel with rfl | hq
    · rw [Function.update_self, Finset.mem_insert]
      split
      · simp [*]
      · simp [*, h.sets]
    · rw [Function.update_of_ne hq]
      split
      · rename_i heq
        subst heq
        exact iff_of_false (hnot q) hq.symm
      · exact h.sets flow' q
  · intro d flow' t
    simp only [maps_add]
    show ((v.table d).insert flow (v.target e.ikernel)).lookup flow' = some t ↔ _
    by_cases heq : flow' = flow
    · subst heq
      simp only [AList.lookup_insert, Option.some.injEq, if_pos, exists_eq_left']
      exact eq_comm
    · rw [AList.lookup_insert_ne heq]
      simp only [if_neg heq]
      exact h.tables d flow' t
  · intro q hq
    have hne : q ≠ e.ikernel := (hr.trans_le hq).ne'
    show Function.update v.flowsOf e.ikernel _ q = ∅
    rw [Function.update_of_ne hne]
    exact h.unmade q hq

/-- A flow of the object `r` out of all four places. -/
theorem Coherent.drop (h : v.Coherent) (hmem : flow ∈ v.flowsOf r) : (v.drop flow r).Coherent := by
  have hmaps := (h.sets flow r).mp hmem
  refine ⟨⟨?_, ?_⟩, ?_, h.made⟩
  · intro flow' q
    rw [maps_drop]
    show flow' ∈ Function.update v.flowsOf r ((v.flowsOf r).erase flow) q ↔ _
    rcases eq_or_ne q r with rfl | hq
    · rw [Function.update_self, Finset.mem_erase, h.sets]
    · rw [Function.update_of_ne hq, h.sets]
      refine ⟨fun hmap => ⟨?_, hmap⟩, And.right⟩
      rintro rfl
      exact hq (hmap.unique hmaps)
  · intro d flow' t
    simp only [maps_drop]
    show ((v.table d).erase flow).lookup flow' = some t ↔ _
    by_cases heq : flow' = flow
    · subst heq
      simp
    · rw [AList.lookup_erase_ne heq, h.tables]
      simp only [heq, ne_eq, not_false_eq_true, true_and]
      exact Iff.rfl
  · intro q hq
    show Function.update v.flowsOf r _ q = ∅
    rcases eq_or_ne q r with rfl | hne
    · rw [Function.update_self, h.unmade q hq]
      exact Finset.erase_empty _
    · rw [Function.update_of_ne hne]
      exact h.unmade q hq

theorem Coherent.released {v' : FlowView} (h : v'.Coherent) (hempty : v'.flowsOf r = ∅)
    (hwithin : v'.Within v) : v'.Released v r := by
  have hnone : ∀ flow, v.Maps flow r → ∀ q, ¬ v'.Maps flow q := by
    intro flow hmaps q hq
    have hqr := (hwithin flow q hq).unique hmaps
    subst hqr
    have := (h.sets flow q).mpr hq
    rw [hempty] at this
    exact absurd this (Finset.notMem_empty flow)
  refine ⟨hempty, fun flow hmaps => ⟨?_, ?_, ?_⟩⟩
  · intro q hq
    exact hnone flow hmaps q ((h.sets flow q).mp hq)
  · rcases hlookup : v'.flows.lookup flow with _ | e
    · rfl
    · exact absurd ⟨e, hlookup, rfl⟩ (hnone flow hmaps e.ikernel)
  · intro d
    rcases hlookup : (v'.table d).lookup flow with _ | t
    · rfl
    · obtain ⟨q, hq, -⟩ := (h.tables d flow t).mp hlookup
      exact absurd hq (hnone flow hmaps q)

end FlowView

/-! ### The commands -/

/-- What the next command to the hardware comes to. -/
def next (hw : List Outcome) : Outcome := hw.head?.getD (.value 1)

/-- The command raises without having done anything. -/
def Outcome.fails : Outcome → Bool
  | .failed _ done => !done
  | .value _ => false

/-- The command that adds a flow puts it into the table. -/
def Outcome.adds : Outcome → Bool
  | .value v => !refusedAdd v
  | .failed _ _ => false

/-- The command that deletes a flow takes it out of the table. -/
def Outcome.deletes : Outcome → Bool
  | .value v => !refusedDelete v
  | .failed _ _ => false

/-- The command that adds or deletes a flow is refused. -/
def Outcome.refuses (refused : BitVec 32 → Bool) : Outcome → Bool
  | .value v => refused v
  | .failed _ _ => false

theorem Outcome.adds_iff {o : Outcome} : o.adds ↔ ∃ v, o = .value v ∧ refusedAdd v = false := by
  cases o <;> simp [Outcome.adds]

theorem Outcome.deletes_iff {o : Outcome} : o.deletes ↔ ∃ v, o = .value v ∧ refusedDelete v = false := by
  cases o <;> simp [Outcome.deletes]

theorem Outcome.refuses_iff {refused : BitVec 32 → Bool} {o : Outcome} :
    o.refuses refused ↔ ∃ v, o = .value v ∧ refused v = true := by
  cases o <;> simp [Outcome.refuses]

section Access

variable {effect : BitVec 32 → Hardware → Hardware} {Q : BitVec 32 → State → Prop}
  {E : Exn → State → Prop}

/-- A command that returns has had its effect. -/
theorem post_access_value {v : BitVec 32} (h : next s.hw.outcomes = .value v) :
    Post (access effect) s Q E ↔
      Q v { s with hw := effect v { s.hw with outcomes := s.hw.outcomes.tail } } := by
  unfold access
  rw [post_bind, post_get]
  split
  · rename_i hos
    have hhw : { s.hw with outcomes := ([] : List Outcome).tail } = s.hw := by
      rw [List.tail_nil, ← hos]
    rw [hos] at h ⊢
    cases h
    rw [hhw]
    exact Iff.rfl
  · rename_i w os hos
    rw [hos] at h ⊢
    cases h
    exact Iff.rfl
  · rename_i fault done os hos
    rw [hos] at h
    cases h

/-- A command that fails has had its effect or not. -/
theorem post_access_failed {fault : Fault} {done : Bool} (h : next s.hw.outcomes = .failed fault done) :
    Post (access effect) s Q E ↔
      E fault.exn { s with hw :=
        if done then effect 1 { s.hw with outcomes := s.hw.outcomes.tail }
        else { s.hw with outcomes := s.hw.outcomes.tail } } := by
  unfold access
  rw [post_bind, post_get]
  split
  · rename_i hos
    rw [hos] at h
    cases h
  · rename_i w os hos
    rw [hos] at h
    cases h
  · rename_i fault' done' os hos
    rw [hos] at h ⊢
    cases h
    exact Iff.rfl

/-- A command that fails before its effect leaves nothing behind. -/
theorem post_access_fails (h : (next s.hw.outcomes).fails)
    (hE : ∀ e, E e { s with hw := { s.hw with outcomes := s.hw.outcomes.tail } }) :
    Post (access effect) s Q E := by
  rcases hnext : next s.hw.outcomes with v | ⟨fault, done⟩
  · rw [hnext] at h
    cases h
  · rw [hnext] at h
    cases done with
    | true => cases h
    | false => exact (post_access_failed hnext).mpr (hE fault.exn)

end Access

/-- The two commands of an attach: the first leaves the tables alone and ends the attach, or both add the
flow. -/
def AddsClean (hw : List Outcome) : Prop :=
  ((next hw).fails ∨ (next hw).refuses refusedAdd) ∨ ((next hw).adds ∧ (next hw.tail).adds)

/-- Both commands of a detach delete the flow. -/
def Deletes (hw : List Outcome) : Prop := (next hw).deletes ∧ (next hw.tail).deletes

/-- The two commands of a detach: both leave the tables alone and one of them raises, or both delete the
flow. -/
def DeleteClean (hw : List Outcome) : Prop :=
  ((next hw).fails ∨ ((next hw).refuses refusedDelete ∧ (next hw.tail).fails)) ∨ Deletes hw

/-- The commands that detach `n` flows, until one raises. -/
def DeletesClean : ℕ → List Outcome → Prop
  | 0, _ => True
  | n + 1, hw => DeleteClean hw ∧ (Deletes hw → DeletesClean n (hw.drop 2))

/-! ### Attach and detach -/

/-- Nothing but the outcomes was used up. -/
def State.Spent (s s' : State) : Prop := ∃ os, s' = { s with hw := { s.hw with outcomes := os } }

theorem State.Spent.flowView {s' : State} (h : s.Spent s') : s'.flowView = s.flowView := by
  obtain ⟨os, rfl⟩ := h
  rfl

/-- An attach is whole, or nothing has happened. -/
theorem post_attach (hclean : flow ∉ s.flows → AddsClean s.hw.outcomes) :
    Post (attach flow r) s
      (fun ids s' => flow ∉ s.flows ∧ s' = State.registerFlow
        { s with hw := { s.hw with
          h2n := s.hw.h2n.insert flow (s.target r)
          n2h := s.hw.n2h.insert flow (s.target r)
          outcomes := s.hw.outcomes.tail.tail } } flow r ids.1 ids.2)
      (fun _ s' => s.Spent s') := by
  unfold attach
  simp only [post_bind, post_get]
  split
  · exact ⟨s.hw.outcomes, rfl⟩
  rename_i hnew
  rw [post_bind]
  rcases hclean hnew with (hfail | hrefuse) | ⟨hfirst, hsecond⟩
  · exact post_access_fails hfail fun _ => ⟨_, rfl⟩
  · obtain ⟨v, hnext, hv⟩ := Outcome.refuses_iff.mp hrefuse
    refine (post_access_value hnext).mpr ?_
    simp only [hv, if_true]
    exact ⟨_, rfl⟩
  · obtain ⟨v, hnext, hv⟩ := Outcome.adds_iff.mp hfirst
    obtain ⟨w, hnext', hw⟩ := Outcome.adds_iff.mp hsecond
    refine (post_access_value hnext).mpr ?_
    simp only [hv, Bool.false_eq_true, if_false]
    rw [post_bind]
    refine (post_access_value hnext').mpr ?_
    simp only [hw, Bool.false_eq_true, if_false]
    exact ⟨hnew, rfl⟩

/-- An attach to an ikernel puts the flow into all four places, or nothing has happened. -/
theorem post_ikernelAttach (hclean : flow ∉ s.flows → AddsClean s.hw.outcomes) :
    Post (ikernelAttach r flow) s
      (fun ids s' => flow ∉ s.flows ∧
        s'.flowView = s.flowView.add flow ⟨r, ids.1, ids.2, s.flowCount⟩)
      (fun _ s' => s.Spent s') := by
  unfold ikernelAttach
  simp only [post_bind, post_modify, post_pure]
  refine (post_attach hclean).imp ?_ (fun _ _ h => h)
  rintro ids _ ⟨hnew, rfl⟩
  refine ⟨hnew, ?_⟩
  unfold State.flowView FlowView.add
  congr 1
  · ext q x
    rcases eq_or_ne q r with rfl | hq
    · simp [State.registerFlow]
    · simp [State.registerFlow, hq]
  · ext1 d
    cases d <;> rfl

/-- The state after a whole detach. -/
def State.detached (s : State) (r : Ref) (flow : Flow) : State :=
  let s' := State.unregisterFlow
    { s with hw := { s.hw with
      h2n := s.hw.h2n.erase flow
      n2h := s.hw.n2h.erase flow
      outcomes := s.hw.outcomes.tail.tail } } flow
  { s' with flowsOf := Function.update s'.flowsOf r (remove (s'.flowsOf r) flow) }

theorem State.unregisterFlow_eq (s : State) (flow : Flow) :
    ∃ log, s.unregisterFlow flow = { s with flows := s.flows.erase flow, flowLog := log } := by
  unfold State.unregisterFlow
  split
  · exact ⟨_, rfl⟩
  · rename_i hnone
    refine ⟨s.flowLog, ?_⟩
    have herase : s.flows.erase flow = s.flows := by
      apply AList.ext
      have hkey : flow ∉ s.flows.entries.keys := AList.lookup_eq_none.mp hnone
      exact List.kerase_of_notMem_keys hkey
    rw [herase]

theorem State.detached_eq (s : State) (r : Ref) (flow : Flow) :
    ∃ log, s.detached r flow =
      { s with
        flows := s.flows.erase flow
        flowsOf := Function.update s.flowsOf r (remove (s.flowsOf r) flow)
        flowLog := log
        hw := { s.hw with
          h2n := s.hw.h2n.erase flow
          n2h := s.hw.n2h.erase flow
          outcomes := s.hw.outcomes.tail.tail } } := by
  obtain ⟨log, hlog⟩ := State.unregisterFlow_eq
    { s with hw := { s.hw with
      h2n := s.hw.h2n.erase flow
      n2h := s.hw.n2h.erase flow
      outcomes := s.hw.outcomes.tail.tail } } flow
  refine ⟨log, ?_⟩
  unfold State.detached
  rw [hlog]

theorem toFinset_remove {α : Type} [DecidableEq α] (xs : List α) (x : α) :
    (remove xs x).toFinset = xs.toFinset.erase x := by
  ext y
  simp only [List.mem_toFinset, mem_remove, Finset.mem_erase]
  exact and_comm

theorem flowView_detached (s : State) (r : Ref) (flow : Flow) :
    (s.detached r flow).flowView = s.flowView.drop flow r := by
  obtain ⟨log, hlog⟩ := s.detached_eq r flow
  rw [hlog]
  unfold State.flowView FlowView.drop
  congr 1
  · ext1 q
    rcases eq_or_ne q r with rfl | hq
    · simp only [Function.update_self, toFinset_remove]
    · simp only [Function.update_of_ne hq]
  · ext1 d
    cases d <;> rfl

theorem not_deletes_of_fails {hw : List Outcome} (h : (next hw).fails) : ¬ Deletes hw := by
  rintro ⟨h', -⟩
  obtain ⟨v, hv, -⟩ := Outcome.deletes_iff.mp h'
  rw [hv] at h
  cases h

theorem not_deletes_of_refuses {hw : List Outcome} (h : (next hw).refuses refusedDelete) :
    ¬ Deletes hw := by
  rintro ⟨h', -⟩
  obtain ⟨v, hv, hno⟩ := Outcome.deletes_iff.mp h'
  obtain ⟨w, hw, hyes⟩ := Outcome.refuses_iff.mp h
  rw [hv] at hw
  cases hw
  rw [hno] at hyes
  cases hyes

/-- A detach from an ikernel takes the flow out of all four places, or nothing has happened. -/
theorem post_ikernelDetach (hclean : flow ∈ s.flowsOf r → flow ∈ s.flows ∧ DeleteClean s.hw.outcomes) :
    Post (ikernelDetach r flow) s
      (fun _ s' => flow ∈ s.flowsOf r ∧ Deletes s.hw.outcomes ∧ s' = s.detached r flow)
      (fun _ s' => (flow ∈ s.flowsOf r → ¬ Deletes s.hw.outcomes) ∧ s.Spent s') := by
  unfold ikernelDetach
  rw [post_bind, post_get]
  split
  · rename_i hnot
    exact ⟨fun h => absurd h hnot, s.hw.outcomes, rfl⟩
  rename_i hin
  obtain ⟨hmem, hclean⟩ := hclean (not_not.mp hin)
  unfold detach
  simp only [post_bind, post_get]
  rw [if_neg (not_not.mpr hmem), post_bind]
  rcases hclean with (hfail | ⟨hrefuse, hfail⟩) | ⟨hfirst, hsecond⟩
  · exact post_access_fails hfail fun _ => ⟨fun _ => not_deletes_of_fails hfail, _, rfl⟩
  · obtain ⟨v, hnext, hv⟩ := Outcome.refuses_iff.mp hrefuse
    refine (post_access_value hnext).mpr ?_
    simp only [hv, if_true]
    rw [post_bind]
    exact post_access_fails hfail fun _ => ⟨fun _ => not_deletes_of_refuses hrefuse, _, rfl⟩
  · obtain ⟨v, hnext, hv⟩ := Outcome.deletes_iff.mp hfirst
    obtain ⟨w, hnext', hw⟩ := Outcome.deletes_iff.mp hsecond
    refine (post_access_value hnext).mpr ?_
    simp only [hv, Bool.false_eq_true, if_false]
    rw [post_bind]
    refine (post_access_value hnext').mpr ?_
    simp only [hw, Bool.false_eq_true, if_false, or_self, post_bind, post_modify]
    exact ⟨not_not.mp hin, ⟨hfirst, hsecond⟩, rfl⟩

/-! ### Destroying -/

/-- What destroying objects depends on: how many flows and rings they have, and whether their ids are
registered. -/
structure Holdings where
  flows : Ref → ℕ
  rings : Ref → ℕ
  known : Ref → Bool

def State.holdings (s : State) : Holdings where
  flows := fun r => (s.flowsOf r).toFinset.card
  rings := fun r => (s.customRingsOf r).toFinset.card
  known := fun r => (s.ikernels.lookup (s.heap r).ikernelId).isSome

/-- The object has given up its flows. -/
def Holdings.dropFlows (h : Holdings) (r : Ref) : Holdings := { h with flows := Function.update h.flows r 0 }

/-- The object has given up its rings. -/
def Holdings.dropRings (h : Holdings) (r : Ref) : Holdings := { h with rings := Function.update h.rings r 0 }

/-- The commands that detach `n` flows all delete them. -/
def AllDelete : ℕ → List Outcome → Prop
  | 0, _ => True
  | n + 1, hw => Deletes hw ∧ AllDelete n (hw.drop 2)

/-- The next `n` commands return. -/
def AllValues : ℕ → List Outcome → Prop
  | 0, _ => True
  | n + 1, hw => (∃ v, next hw = .value v) ∧ AllValues n (hw.drop 1)

/-- The commands that destroy the objects of the list one after the other, until one of them raises. -/
def DestroysClean : List Ref → Holdings → List Outcome → Prop
  | [], _, _ => True
  | r :: rs, h, hw =>
    DeletesClean (h.flows r) hw ∧
      (AllDelete (h.flows r) hw → AllValues (h.rings r) (hw.drop (2 * h.flows r)) → h.known r →
        DestroysClean rs ((h.dropFlows r).dropRings r) (hw.drop (2 * h.flows r + h.rings r)))

theorem flowsOf_detached : (s.detached r flow).flowsOf r = remove (s.flowsOf r) flow := by
  obtain ⟨log, hlog⟩ := s.detached_eq r flow
  rw [hlog]
  exact Function.update_self ..

theorem outcomes_detached : (s.detached r flow).hw.outcomes = s.hw.outcomes.drop 2 := by
  obtain ⟨log, hlog⟩ := s.detached_eq r flow
  rw [hlog]
  show s.hw.outcomes.tail.tail = _
  rw [← List.drop_one, ← List.drop_one, List.drop_drop]

theorem length_remove_cons {α : Type} [DecidableEq α] (x : α) (xs : List α) :
    (remove (x :: xs) x).length ≤ xs.length := by
  simp only [remove, List.filter_cons, ne_eq, not_true_eq_false, decide_false, Bool.false_eq_true, if_false]
  exact List.length_filter_le _ _

theorem holdings_detached (hmem : flow ∈ s.flowsOf r) :
    (s.detached r flow).holdings =
      { s.holdings with flows := Function.update s.holdings.flows r (s.holdings.flows r - 1) } := by
  obtain ⟨log, hlog⟩ := s.detached_eq r flow
  rw [hlog]
  unfold State.holdings
  congr 1
  ext1 q
  rcases eq_or_ne q r with rfl | hq
  · simp only [Function.update_self, toFinset_remove]
    exact Finset.card_erase_of_mem (List.mem_toFinset.mpr hmem)
  · simp only [Function.update_of_ne hq]

theorem mem_flows (h : s.flowView.Coherent) (hmem : flow ∈ s.flowsOf r) : flow ∈ s.flows := by
  obtain ⟨e, he, -⟩ := (h.sets flow r).mp (List.mem_toFinset.mpr hmem)
  exact AList.lookup_isSome.mp (Option.isSome_of_eq_some he)

/-- The loop of `destroy` over the flows has nothing to do. -/
theorem destroyFlows_done (h : s.flowView.Coherent) (hnil : s.flowsOf r = []) :
    s.flowView.Coherent ∧ s.flowView.Within s.flowView ∧ AllDelete (s.holdings.flows r) s.hw.outcomes ∧
      s.holdings = s.holdings.dropFlows r ∧
      s.hw.outcomes = s.hw.outcomes.drop (2 * s.holdings.flows r) := by
  have hzero : s.holdings.flows r = 0 := by simp [State.holdings, hnil]
  refine ⟨h, fun _ _ hmaps => hmaps, by rw [hzero]; trivial, ?_, by rw [hzero]; rfl⟩
  unfold Holdings.dropFlows
  rw [← hzero, Function.update_eq_self]

/-- The first loop of `destroy`: it ends with the set of flows empty exactly if every flow is deleted. -/
theorem post_destroyFlows (fuel : ℕ) (h : s.flowView.Coherent) (hlen : (s.flowsOf r).length ≤ fuel)
    (hclean : DeletesClean (s.holdings.flows r) s.hw.outcomes) :
    Post (drain (fun s => s.flowsOf r) (ikernelDetach r) fuel) s
      (fun _ s' => s'.flowView.Coherent ∧ s'.flowView.Within s.flowView ∧
        AllDelete (s.holdings.flows r) s.hw.outcomes ∧ s'.holdings = s.holdings.dropFlows r ∧
        s'.hw.outcomes = s.hw.outcomes.drop (2 * s.holdings.flows r))
      (fun _ s' => s'.flowView.Coherent ∧ ¬ AllDelete (s.holdings.flows r) s.hw.outcomes) := by
  induction fuel generalizing s with
  | zero => exact destroyFlows_done h (List.length_eq_zero_iff.mp (Nat.le_zero.mp hlen))
  | succ fuel ih =>
    unfold Prog.drain
    rw [post_bind, post_get]
    rcases hflows : s.flowsOf r with _ | ⟨flow, rest⟩
    · exact destroyFlows_done h hflows
    have hmem : flow ∈ s.flowsOf r := by rw [hflows]; exact List.mem_cons_self
    obtain ⟨n, hn⟩ : ∃ n, s.holdings.flows r = n + 1 := by
      have hpos : 0 < s.holdings.flows r := Finset.card_pos.mpr ⟨flow, List.mem_toFinset.mpr hmem⟩
      exact ⟨s.holdings.flows r - 1, by omega⟩
    rw [hn] at hclean ⊢
    simp only [post_bind]
    refine (post_ikernelDetach fun hin => ⟨mem_flows h hin, hclean.1⟩).imp ?_ ?_
    · rintro _ _ ⟨-, hdel, rfl⟩
      have hholdings := holdings_detached hmem
      rw [hn, Nat.add_sub_cancel] at hholdings
      have hflows' : (s.detached r flow).holdings.flows r = n := by
        rw [hholdings]
        exact Function.update_self ..
      have hshort : ((s.detached r flow).flowsOf r).length ≤ fuel := by
        have := length_remove_cons flow rest
        rw [flowsOf_detached, hflows]
        rw [hflows, List.length_cons] at hlen
        omega
      have hcoherent : (s.detached r flow).flowView.Coherent := by
        rw [flowView_detached]
        exact h.drop (List.mem_toFinset.mpr hmem)
      have hnext := ih hcoherent hshort (by rw [hflows', outcomes_detached]; exact hclean.2 hdel)
      rw [hflows', outcomes_detached] at hnext
      refine hnext.imp ?_ ?_
      · rintro _ s' ⟨hs', hwithin, hall, hhold, hout⟩
        refine ⟨hs', ?_, ⟨hdel, hall⟩, ?_, ?_⟩
        · intro flow' q hmaps
          have := hwithin flow' q hmaps
          rw [flowView_detached, FlowView.maps_drop] at this
          exact this.2
        · rw [hhold, hholdings]
          simp only [Holdings.dropFlows, Function.update_idem]
        · rw [hout, List.drop_drop]
          congr 1
          omega
      · rintro _ s' ⟨hs', hnot⟩
        exact ⟨hs', fun hall => hnot hall.2⟩
    · rintro _ s' ⟨hnot, hspent⟩
      refine ⟨?_, fun hall => hnot hmem hall.1⟩
      rw [hspent.flowView]
      exact h

theorem State.releaseRing_eq (s : State) (ring : ℤ) :
    ∃ p rings log, s.releaseRing ring = { s with customRingIds := p, rings := rings, ringLog := log } := by
  unfold State.releaseRing
  split
  · split
    · exact ⟨_, _, _, rfl⟩
    · exact ⟨_, _, _, rfl⟩
  · exact ⟨_, _, _, rfl⟩

theorem flowView_releaseRing (s : State) (ring : ℤ) : (s.releaseRing ring).flowView = s.flowView := by
  obtain ⟨p, rings, log, hrel⟩ := s.releaseRing_eq ring
  rw [hrel]
  rfl

theorem keeps_flowView_ikernelCrDestroy (r : Ref) (ring : ℤ) :
    Keeps State.flowView (ikernelCrDestroy r ring) :=
  keeps_ikernelCrDestroy (fun _ _ => rfl) (fun _ _ => rfl) flowView_releaseRing r ring

/-- What is left of the object after it has given up a ring. -/
theorem post_ikernelCrDestroy {ring : ℤ} (hmem : ring ∈ s.customRingsOf r) :
    Post (ikernelCrDestroy r ring) s
      (fun _ s' => (∃ v, next s.hw.outcomes = .value v) ∧
        s'.customRingsOf r = remove (s.customRingsOf r) ring ∧
        s'.holdings = { s.holdings with rings := Function.update s.holdings.rings r (s.holdings.rings r - 1) } ∧
        s'.hw.outcomes = s.hw.outcomes.drop 1)
      (fun _ _ => True) := by
  unfold ikernelCrDestroy crDestroy setCustomRing
  simp only [post_bind, post_get, post_pure, post_modify]
  cases hnext : next s.hw.outcomes with
  | failed fault done => exact (post_access_failed hnext).mpr trivial
  | value v =>
    refine (post_access_value hnext).mpr ?_
    obtain ⟨p, rings, log, hrel⟩ := State.releaseRing_eq
      { s with hw := { s.hw with
        outcomes := s.hw.outcomes.tail
        ringContexts := s.hw.ringContexts.insert ring ⟨0, 0, 0⟩ } } ring
    rw [hrel]
    rw [if_neg (not_not.mpr hmem)]
    refine ⟨⟨v, rfl⟩, Function.update_self .., ?_, (List.drop_one).symm⟩
    unfold State.holdings
    simp only
    congr 1
    ext1 q
    rcases eq_or_ne q r with rfl | hq
    · simp only [Function.update_self, toFinset_remove]
      exact Finset.card_erase_of_mem (List.mem_toFinset.mpr hmem)
    · simp only [Function.update_of_ne hq]

/-- The second loop of `destroy`. -/
theorem post_destroyRings (fuel : ℕ) (hlen : (s.customRingsOf r).length ≤ fuel) :
    Post (drain (fun s => s.customRingsOf r) (ikernelCrDestroy r) fuel) s
      (fun _ s' => AllValues (s.holdings.rings r) s.hw.outcomes ∧ s'.holdings = s.holdings.dropRings r ∧
        s'.hw.outcomes = s.hw.outcomes.drop (s.holdings.rings r))
      (fun _ _ => True) := by
  have hend : ∀ t : State, t.customRingsOf r = [] →
      AllValues (t.holdings.rings r) t.hw.outcomes ∧ t.holdings = t.holdings.dropRings r ∧
        t.hw.outcomes = t.hw.outcomes.drop (t.holdings.rings r) := by
    intro t hnil
    have hzero : t.holdings.rings r = 0 := by simp [State.holdings, hnil]
    refine ⟨by rw [hzero]; trivial, ?_, by rw [hzero]; rfl⟩
    unfold Holdings.dropRings
    rw [← hzero, Function.update_eq_self]
  induction fuel generalizing s with
  | zero => exact hend s (List.length_eq_zero_iff.mp (Nat.le_zero.mp hlen))
  | succ fuel ih =>
    unfold Prog.drain
    rw [post_bind, post_get]
    rcases hrings : s.customRingsOf r with _ | ⟨ring, rest⟩
    · exact hend s hrings
    have hmem : ring ∈ s.customRingsOf r := by rw [hrings]; exact List.mem_cons_self
    obtain ⟨n, hn⟩ : ∃ n, s.holdings.rings r = n + 1 := by
      have hpos : 0 < s.holdings.rings r := Finset.card_pos.mpr ⟨ring, List.mem_toFinset.mpr hmem⟩
      exact ⟨s.holdings.rings r - 1, by omega⟩
    simp only [post_bind]
    refine (post_ikernelCrDestroy hmem).imp ?_ (fun _ _ _ => trivial)
    rintro _ s₁ ⟨hvalue, hleft, hhold, hout⟩
    have hshort : (s₁.customRingsOf r).length ≤ fuel := by
      have := length_remove_cons ring rest
      rw [hleft, hrings]
      rw [hrings, List.length_cons] at hlen
      omega
    rw [hn, Nat.add_sub_cancel] at hhold
    have hrings₁ : s₁.holdings.rings r = n := by
      rw [hhold]
      exact Function.update_self ..
    have hnext := ih hshort
    rw [hrings₁, hout] at hnext
    refine hnext.imp ?_ (fun _ _ _ => trivial)
    rintro _ s₂ ⟨hvalues, hhold₂, hout₂⟩
    rw [hn]
    refine ⟨⟨hvalue, hvalues⟩, ?_, ?_⟩
    · rw [hhold₂, hhold]
      simp only [Holdings.dropRings, Function.update_idem]
    · rw [hout₂, List.drop_drop, Nat.add_comm]

/-- A change of an object that leaves its index and its id alone. -/
theorem flowView_update {k : Ikernel} (hindex : k.ikernelIndex = (s.heap r).ikernelIndex)
    (hid : k.ikernelId = (s.heap r).ikernelId) :
    ({ s with heap := Function.update s.heap r k } : State).flowView = s.flowView ∧
      ({ s with heap := Function.update s.heap r k } : State).holdings = s.holdings := by
  have hsame : ∀ i, (Function.update s.heap r k i).ikernelIndex = (s.heap i).ikernelIndex ∧
      (Function.update s.heap r k i).ikernelId = (s.heap i).ikernelId := by
    intro i
    rcases eq_or_ne i r with rfl | hne
    · rw [Function.update_self]
      exact ⟨hindex, hid⟩
    · rw [Function.update_of_ne hne]
      exact ⟨rfl, rfl⟩
  constructor
  · unfold State.flowView State.target
    simp only [hsame]
  · unfold State.holdings
    congr 1
    ext1 i
    rw [(hsame i).2]

theorem flowView_countRelease (s : State) (r : Ref) :
    (s.countRelease r).flowView = s.flowView ∧ (s.countRelease r).holdings = s.holdings :=
  flowView_update rfl rfl

theorem flowView_markDestroyed (s : State) (r : Ref) :
    (s.markDestroyed r).flowView = s.flowView ∧ (s.markDestroyed r).holdings = s.holdings :=
  flowView_update rfl rfl

/-- The last part of `destroy` touches neither the flows nor the hardware. -/
theorem post_destroyEnd :
    Post (do deallocateIkernel (s.heap r).ikernelId; modify (fun s => s.markDestroyed r)) s
      (fun _ s' => s.holdings.known r ∧ s'.flowView = s.flowView ∧ s'.holdings = s.holdings ∧
        s'.hw.outcomes = s.hw.outcomes)
      (fun _ s' => s'.flowView = s.flowView) := by
  unfold deallocateIkernel getIkernel
  simp only [post_bind, post_get]
  rcases hq : s.ikernels.lookup (s.heap r).ikernelId with _ | q
  · rfl
  · simp only [post_pure, post_modify, post_deallocateDram]
    refine ⟨by simp [State.holdings, hq], ?_, ?_, rfl⟩
    · exact (flowView_markDestroyed _ r).1.trans (flowView_countRelease _ q).1
    · exact (flowView_markDestroyed _ r).2.trans (flowView_countRelease _ q).2

/-- `destroy` with clean commands: it stops at the first of them that raises, and otherwise the object has
given up its flows, whatever follows. -/
theorem post_destroy_clean (h : s.flowView.Coherent)
    (hclean : DeletesClean (s.holdings.flows r) s.hw.outcomes) :
    Post (destroy r) s
      (fun _ s' => s'.flowView.Coherent ∧ s'.flowView.Released s.flowView r ∧
        AllDelete (s.holdings.flows r) s.hw.outcomes ∧
        AllValues (s.holdings.rings r) (s.hw.outcomes.drop (2 * s.holdings.flows r)) ∧ s.holdings.known r ∧
        s'.holdings = (s.holdings.dropFlows r).dropRings r ∧
        s'.hw.outcomes = s.hw.outcomes.drop (2 * s.holdings.flows r + s.holdings.rings r))
      (fun _ s' => s'.flowView.Coherent ∧
        (AllDelete (s.holdings.flows r) s.hw.outcomes → s'.flowView.Released s.flowView r)) := by
  unfold destroy
  rw [post_bind, post_get, post_bind]
  refine (post_destroyFlows _ h (Nat.le_refl _) hclean).imp ?_ ?_
  swap
  · rintro _ s₁ ⟨h₁, hnot⟩
    exact ⟨h₁, fun hall => absurd hall hnot⟩
  rintro _ s₁ ⟨h₁, hwithin, hall, hhold₁, hout₁⟩
  have hreleased : s₁.flowView.Released s.flowView r := by
    have hcard : s₁.holdings.flows r = 0 := by
      rw [hhold₁]
      exact Function.update_self ..
    exact h₁.released (Finset.card_eq_zero.mp hcard) hwithin
  rw [post_bind, post_get, post_bind]
  have hdrain : Keeps State.flowView (drain (fun s => s.customRingsOf r) _ (s₁.customRingsOf r).length) :=
    Keeps.drain (keeps_flowView_ikernelCrDestroy r) _
  have hkeep := hdrain.post s₁
  refine ((post_destroyRings _ (Nat.le_refl _)).and hkeep).imp ?_ ?_
  swap
  · rintro _ s₂ ⟨-, hview⟩
    rw [hview]
    exact ⟨h₁, fun _ => hreleased⟩
  rintro _ s₂ ⟨⟨hvalues, hhold₂, hout₂⟩, hview₂⟩
  rw [post_bind, post_get]
  refine post_destroyEnd.imp ?_ ?_
  swap
  · intro _ s₃ hview₃
    rw [hview₃, hview₂]
    exact ⟨h₁, fun _ => hreleased⟩
  rintro _ s₃ ⟨hknown, hview₃, hhold₃, hout₃⟩
  rw [hview₃, hview₂]
  rw [hhold₁, hout₁] at hvalues hout₂
  rw [hhold₁] at hhold₂
  rw [hhold₂] at hknown
  refine ⟨h₁, hreleased, hall, hvalues, hknown, hhold₃.trans hhold₂, ?_⟩
  rw [hout₃, hout₂, List.drop_drop]
  rfl

/-- The first of several objects is destroyed. -/
theorem post_destroy_first {rs : List Ref} (h : s.flowView.Coherent)
    (hclean : DestroysClean (r :: rs) s.holdings s.hw.outcomes) :
    Post (destroy r) s (fun _ s' => s'.flowView.Coherent ∧ DestroysClean rs s'.holdings s'.hw.outcomes)
      (fun _ s' => s'.flowView.Coherent) := by
  refine (post_destroy_clean h hclean.1).imp ?_ (fun _ _ h => h.1)
  rintro _ s' ⟨hs', -, hall, hvalues, hknown, hhold, hout⟩
  refine ⟨hs', ?_⟩
  rw [hhold, hout]
  exact hclean.2 hall hvalues hknown

/-- Several objects are destroyed in a row, until one of them raises. -/
theorem post_destroyObjects {rs : List Ref} (h : s.flowView.Coherent)
    (hclean : DestroysClean rs s.holdings s.hw.outcomes) :
    Post (rs.forM destroy) s (fun _ s' => s'.flowView.Coherent) (fun _ s' => s'.flowView.Coherent) := by
  induction rs generalizing s with
  | nil => exact h
  | cons r rs ih =>
    show Post (destroy r >>= fun _ => rs.forM destroy) s _ _
    rw [post_bind]
    exact (post_destroy_first h hclean).imp (fun _ s' hs' => ih hs'.1 hs'.2) (fun _ _ h => h)

/-! ### Requests -/

theorem aside_flowView : Aside State.flowView :=
  ⟨fun _ _ => rfl, fun _ _ => rfl, fun _ _ _ => rfl, flowView_releaseRing, fun _ _ => rfl, fun _ _ => rfl⟩

/-- A handler that keeps the places of the flows coherent. -/
def KeepsCoherent {α : Type} (x : Mgr α) (s : State) : Prop :=
  Post x s (fun _ s' => s'.flowView.Coherent) (fun _ s' => s'.flowView.Coherent)

theorem keepsCoherent_of_keeps {α : Type} {x : Mgr α} (hx : Keeps State.flowView x)
    (h : s.flowView.Coherent) : KeepsCoherent x s :=
  (hx.preserves FlowView.Coherent) s h

/-- A program that keeps the flows coherent, followed by one that does not touch them. -/
theorem KeepsCoherent.bind {α β : Type} {x : Mgr α} {g : α → Mgr β} (hx : KeepsCoherent x s)
    (hg : ∀ a, Keeps State.flowView (g a)) : KeepsCoherent (x >>= g) s := by
  unfold KeepsCoherent
  rw [post_bind]
  exact hx.imp (fun a s' h => keepsCoherent_of_keeps (hg a) h) (fun _ _ h => h)

/-- A new ikernel has no flows. -/
theorem FlowView.Coherent.addIkernel (h : s.flowView.Coherent) (k : Ikernel) :
    (s.addIkernel s.objects k).flowView.Coherent := by
  have hnone : ∀ flow, ¬ s.flowView.Maps flow s.objects := by
    intro flow hmaps
    have := (h.sets flow s.objects).mpr hmaps
    rw [h.unmade s.objects (Nat.le_refl _)] at this
    exact absurd this (Finset.notMem_empty flow)
  have htarget : ∀ q, q ≠ s.objects → (s.addIkernel s.objects k).target q = s.target q := by
    intro q hq
    unfold State.target State.addIkernel
    simp only [Function.update_of_ne hq]
  refine ⟨⟨?_, ?_⟩, ?_, ?_⟩
  · intro flow q
    show flow ∈ (Function.update s.flowsOf s.objects [] q).toFinset ↔ s.flowView.Maps flow q
    rcases eq_or_ne q s.objects with rfl | hq
    · rw [Function.update_self]
      exact iff_of_false (Finset.notMem_empty flow) (hnone flow)
    · rw [Function.update_of_ne hq]
      exact h.sets flow q
  · intro d flow t
    refine (h.tables d flow t).trans (exists_congr fun q => and_congr_right fun hmaps => ?_)
    have hq : q ≠ s.objects := fun heq => hnone flow (heq ▸ hmaps)
    show t = s.target q ↔ t = (s.addIkernel s.objects k).target q
    rw [htarget q hq]
  · intro q hq
    have hlt : s.objects < q := hq
    show (Function.update s.flowsOf s.objects [] q).toFinset = ∅
    rw [Function.update_of_ne hlt.ne']
    exact h.unmade q hlt.le
  · intro id q hlookup
    have hlookup : (s.ikernels.insert k.ikernelId s.objects).lookup id = some q := hlookup
    show q < s.objects + 1
    by_cases hid : id = k.ikernelId
    · rw [hid, AList.lookup_insert] at hlookup
      cases hlookup
      exact Nat.lt_succ_self _
    · rw [AList.lookup_insert_ne hid] at hlookup
      exact Nat.lt_succ_of_lt (h.made id q hlookup)

theorem keepsCoherent_ikCreate {uuid : Uuid} {log : ℕ} {tc : Option (Fin 3)} (h : s.flowView.Coherent) :
    KeepsCoherent (ikCreate uuid log tc) s := by
  unfold KeepsCoherent ikCreate
  simp only [post_bind, post_get, post_modify, post_pure]
  refine (post_allocateIkernel s s.objects uuid log tc).imp ?_ ?_
  · rintro k s' ⟨-, -, -, -, -, l, os, -, rfl⟩
    exact FlowView.Coherent.addIkernel (s := { s with
      ikernelIds := _, freeList := l, hw := s.hw.after os _ _ }) h k
  · rintro _ s' (rfl | ⟨-, l, os, mappings, accesses, -, rfl, -⟩)
    · exact h
    · exact h

/-- The registry forgets an id. -/
theorem FlowView.Coherent.eraseId (h : s.flowView.Coherent) (id : ℤ) :
    ({ s with ikernels := s.ikernels.erase id } : State).flowView.Coherent := by
  refine ⟨⟨h.sets, h.tables⟩, h.unmade, ?_⟩
  intro id' q hq
  refine h.made id' q ?_
  have hq : (s.ikernels.erase id).lookup id' = some q := hq
  by_cases hid : id' = id
  · rw [hid, AList.lookup_erase] at hq
    cases hq
  · rwa [AList.lookup_erase_ne hid] at hq

/-- Destroying the object of an id and forgetting the id, the common part of the two `ik_destroy`. -/
theorem keepsCoherent_ikDestroy {α : Type} {id : ℤ} {rest : Ref → Mgr α} {handler : Exn → Mgr α}
    (h : s.flowView.Coherent) (hrest : ∀ r, Keeps State.flowView (rest r))
    (hhandler : ∀ e, Keeps State.flowView (handler e))
    (hclean : ∀ r, s.ikernels.lookup id = some r → DeletesClean (s.holdings.flows r) s.hw.outcomes) :
    KeepsCoherent
      (tryCatch
        (do
          match (← get).ikernels.lookup id with
          | none => throw .keyError
          | some r =>
            destroy r
            modify (fun s => { s with ikernels := s.ikernels.erase id })
            rest r)
        handler) s := by
  unfold KeepsCoherent
  rw [post_tryCatch, post_bind, post_get]
  have hcatch : ∀ (e : Exn) (s' : State), s'.flowView.Coherent → KeepsCoherent (handler e) s' :=
    fun e s' hs' => keepsCoherent_of_keeps (hhandler e) hs'
  rcases hr : s.ikernels.lookup id with _ | r
  · exact hcatch .keyError s h
  · simp only [post_bind]
    refine (post_destroy_clean h (hclean r hr)).imp ?_ ?_
    · rintro _ s' ⟨hs', -⟩
      exact (keepsCoherent_of_keeps (hrest r) (hs'.eraseId id)).imp (fun _ _ h => h) (fun e s'' hs'' => hcatch e s'' hs'')
    · rintro e s' ⟨hs', -⟩
      exact hcatch e s' hs'

theorem keepsCoherent_ikAttach {id : ℤ} (h : s.flowView.Coherent)
    (hclean : (s.ikernels.lookup id).isSome → s.bindLocal flow ∉ s.flows → AddsClean s.hw.outcomes) :
    KeepsCoherent (ikAttach id flow) s := by
  unfold KeepsCoherent ikAttach getIkernel
  simp only [post_bind, post_get]
  rcases hr : s.ikernels.lookup id with _ | r
  · exact h
  · rw [post_pure]
    refine (post_ikernelAttach (hclean (Option.isSome_of_eq_some hr))).imp ?_ ?_
    · rintro ids s' ⟨hnew, hview⟩
      rw [hview]
      exact h.add (AList.lookup_eq_none.mpr hnew) (h.made id r hr)
    · intro _ s' hspent
      rw [hspent.flowView]
      exact h

theorem keepsCoherent_ikDetach {id : ℤ} (h : s.flowView.Coherent)
    (hclean : ∀ r, s.ikernels.lookup id = some r → s.bindLocal flow ∈ s.flowsOf r →
      DeleteClean s.hw.outcomes) : KeepsCoherent (ikDetach id flow) s := by
  unfold KeepsCoherent ikDetach getIkernel
  simp only [post_bind, post_get]
  rcases hr : s.ikernels.lookup id with _ | r
  · exact h
  · rw [post_pure]
    refine (post_ikernelDetach fun hin => ⟨mem_flows h hin, hclean r hr hin⟩).imp ?_ ?_
    · rintro _ _ ⟨hin, -, rfl⟩
      rw [flowView_detached]
      exact h.drop (List.mem_toFinset.mpr hin)
    · rintro _ s' ⟨-, hspent⟩
      rw [hspent.flowView]
      exact h

/-- The objects that `connection_lost` reaches: ids are no objects. -/
def objectsOf : List Held → List Ref
  | .object r :: xs => r :: objectsOf xs
  | _ => []

/-- What is asked of an action: no command of an attach or a detach fails after another one of the same
flow took effect. -/
def FlowsClean (s : State) : Action → Prop
  | .client c (.ikAttach h (.bound flow)) hw =>
    s.serves c true → (s.ikernels.lookup (handle h)).isSome → s.bindLocal flow ∉ s.flows → AddsClean hw
  | .client c (.ikDetach h (.bound flow)) hw =>
    s.serves c true → ∀ r, s.ikernels.lookup (handle h) = some r → s.bindLocal flow ∈ s.flowsOf r →
      DeleteClean hw
  | .client c (.ikDestroy h) hw =>
    s.serves c true → ∀ r, s.ikernels.lookup (handle h) = some r → DeletesClean (s.holdings.flows r) hw
  | .vm c (.attach ip port id) hw =>
    s.serves c false → .id (handle id) ∈ (s.conns c).ikernels → (s.conns c).customRingIp = some ip →
      (s.ikernels.lookup (handle id)).isSome → s.bindLocal ⟨ip, port⟩ ∉ s.flows → AddsClean hw
  | .vm c (.detach ip port id) hw =>
    s.serves c false → .id (handle id) ∈ (s.conns c).ikernels → ∀ r,
      s.ikernels.lookup (handle id) = some r → s.bindLocal ⟨ip, port⟩ ∈ s.flowsOf r → DeleteClean hw
  | .vm c (.deallocateIkernel id) hw =>
    s.serves c false → .id (handle id) ∈ (s.conns c).ikernels → ∀ r,
      s.ikernels.lookup (handle id) = some r → DeletesClean (s.holdings.flows r) hw
  | .connectionLost c hw =>
    (s.conns c).isOpen → DestroysClean (objectsOf (s.conns c).ikernels) s.holdings hw
  | .shutdown hw => DestroysClean (s.ikernels.entries.map Sigma.snd) s.holdings hw
  | _ => True

theorem keepsCoherent_create {netdev : List (BitVec 8)} {uuid : Uuid} {log : ℕ} {header : List ℤ}
    (h : s.flowView.Coherent) : KeepsCoherent (Client.create netdev uuid log header) s :=
  post_clientCreate (I := fun s => s.flowView.Coherent) (fun _ _ h => h) h header
    fun _ => keepsCoherent_ikCreate h

theorem keeps_flowView_removeHeld (x : Held) : Keeps State.flowView (removeHeld x) :=
  keeps_removeHeld (fun _ _ => rfl) x

theorem keepsCoherent_client {c : ℕ} {hw : List Outcome} (h : s.flowView.Coherent) (req : ClientRequest)
    (hserves : s.serves c true) (hclean : FlowsClean s (.client c req hw)) :
    KeepsCoherent (Client.handler req) (s.enter c hw) := by
  have henter : (s.enter c hw).flowView.Coherent := h
  cases req with
  | ikCreate netdev uuid => exact keepsCoherent_create henter
  | ikCreateAttrs size netdev uuid log => exact keepsCoherent_create henter
  | ikDestroy id =>
    refine keepsCoherent_ikDestroy henter (fun r => ?_) (fun e => ?_) (hclean hserves)
    · exact (keeps_flowView_removeHeld _).bind fun _ => keeps_pure _
    · exact Keeps.ite (keeps_pure _) (keeps_throw _)
  | ikAttach id fd =>
    cases fd with
    | missing => exact henter
    | notSocket => exact henter
    | bound flow =>
      exact (keepsCoherent_ikAttach henter (hclean hserves)).bind fun _ => keeps_pure _
  | ikDetach id fd =>
    cases fd with
    | missing => exact henter
    | notSocket => exact henter
    | bound flow =>
      exact (keepsCoherent_ikDetach henter (hclean hserves)).bind fun _ => keeps_pure _
  | ikRpc | crCreate | crDestroy | crUpdateCredits =>
    exact keepsCoherent_of_keeps (aside_flowView.client rfl) henter

theorem post_self {Q : Conn → State → Prop} {E : Exn → State → Prop} :
    Post self s Q E ↔ Q (s.conns s.caller) s := Iff.rfl

theorem post_checkIkernel {id : ℤ} {Q : Unit → State → Prop} {E : Exn → State → Prop} :
    Post (Hypervisor.checkIkernel id) s Q E ↔
      if .id id ∈ (s.conns s.caller).ikernels then Q () s else E (exception .ENOENT) s := by
  unfold Hypervisor.checkIkernel
  rw [post_bind, post_self]
  by_cases hheld : Held.id id ∈ (s.conns s.caller).ikernels
  · rw [if_neg (not_not.mpr hheld), if_pos hheld]
    exact Iff.rfl
  · rw [if_pos hheld, if_neg hheld]
    exact Iff.rfl

theorem keepsCoherent_vm {c : ℕ} {hw : List Outcome} (h : s.flowView.Coherent) (req : VmRequest)
    (hserves : s.serves c false) (hclean : FlowsClean s (.vm c req hw)) :
    KeepsCoherent (Hypervisor.handler req) (s.enter c hw) := by
  have henter : (s.enter c hw).flowView.Coherent := h
  cases req with
  | allocateIkernel uuid log =>
    exact post_vmAllocate (I := fun s => s.flowView.Coherent) (fun _ _ h => h) (keepsCoherent_ikCreate henter)
  | deallocateIkernel id =>
    show Post (self >>= _) _ _ _
    rw [post_bind, post_self]
    split
    · exact henter
    · rename_i hheld
      refine KeepsCoherent.bind (keepsCoherent_ikDestroy henter (fun r => keeps_pure _) (fun e => ?_)
        (hclean hserves (not_not.mp hheld))) fun _ =>
          (keeps_flowView_removeHeld _).bind fun _ => keeps_pure _
      exact Keeps.ite (keeps_pure _) (keeps_throw _)
  | attach ip port id =>
    show Post (Hypervisor.checkIkernel _ >>= _) _ _ _
    rw [post_bind, post_checkIkernel]
    split
    swap
    · exact henter
    rename_i hheld
    rw [post_bind, post_self]
    split
    · exact henter
    · rename_i hip
      have hip' : (s.conns c).customRingIp = some ip := (not_not.mp hip).symm
      exact (keepsCoherent_ikAttach henter (hclean hserves hheld hip')).bind fun _ => keeps_pure _
  | detach ip port id =>
    show Post (Hypervisor.checkIkernel _ >>= _) _ _ _
    rw [post_bind, post_checkIkernel]
    split
    · rename_i hheld
      exact (keepsCoherent_ikDetach henter (hclean hserves hheld)).bind fun _ => keeps_pure _
    · exact henter
  | configureCustomRing | numRings | getUuids | invokeIkernelRpc | crCreate | crDestroy | updateCredits =>
    exact keepsCoherent_of_keeps (aside_flowView.vm rfl) henter

/-! ### Runs -/

theorem post_connectionLost {xs : List Held} (h : s.flowView.Coherent)
    (hclean : DestroysClean (objectsOf xs) s.holdings s.hw.outcomes) :
    KeepsCoherent (xs.forM fun x =>
      match x with
      | .object r => destroy r
      | .id _ => throw .attributeError) s := by
  induction xs generalizing s with
  | nil => exact h
  | cons x xs ih =>
    cases x with
    | id i => exact h
    | object r =>
      show Post (destroy r >>= fun _ => _) s _ _
      rw [post_bind]
      exact (post_destroy_first h hclean).imp (fun _ s' hs' => ih hs'.1 hs'.2) (fun _ _ h => h)

theorem flowView_rehash (s : State) (order : Order) : (s.rehash order).flowView = s.flowView := by
  unfold State.flowView
  congr 1
  · ext1 id
    exact lookup_rehash s order id
  · ext1 r
    exact List.toFinset_eq_of_perm _ _ (reorder_perm _ _)

/-- The condition on the actions of a run; after the shutdown nothing happens. -/
def CleanStep (s : State) (a : Action) : Prop := s.running → FlowsClean s a

/-- Every action that meets the condition keeps the places of the flows coherent. -/
theorem coherent_step (a : Action) (hclean : CleanStep s a) (h : s.flowView.Coherent) :
    (step s a).flowView.Coherent := by
  unfold step
  split
  swap
  · exact h
  rename_i hrun
  have hclean := hclean hrun
  cases a with
  | connect kind => exact h
  | client c req hw =>
    simp only
    split
    · rename_i hserves
      exact Post.state (keepsCoherent_client h req hserves hclean)
    · exact h
  | vm c req hw =>
    simp only
    split
    · rename_i hserves
      exact Post.state (keepsCoherent_vm h req hserves hclean)
    · exact h
  | connectionLost c hw =>
    simp only
    split
    · rename_i hopen
      have hlost : KeepsCoherent connectionLost (s.enter c hw) := by
        unfold connectionLost KeepsCoherent
        rw [post_bind, post_self]
        exact post_connectionLost h (hclean hopen)
      exact Post.state hlost
    · exact h
  | shutdown hw =>
    have haccess : Keeps State.flowView (access fun _ hw => hw) :=
      keeps_command (fun _ _ => rfl) fun _ _ => ⟨rfl, rfl⟩
    have hdown : KeepsCoherent shutdown (s.enter s.caller hw) := by
      unfold shutdown
      show KeepsCoherent (get >>= _) _
      unfold KeepsCoherent
      rw [post_bind, post_get]
      exact KeepsCoherent.bind (post_destroyObjects h hclean) fun _ => haccess.bind fun _ =>
        haccess.bind fun _ => keeps_pure _
    exact Post.state hdown
  | rehash order =>
    show (s.rehash order).flowView.Coherent
    rw [flowView_rehash]
    exact h

theorem coherent_init (cfg : Config) : (init cfg).flowView.Coherent := by
  refine ⟨⟨fun flow r => ?_, fun d flow t => ?_⟩, fun r _ => rfl, fun id r hr => by cases hr⟩
  · refine iff_of_false (Finset.notMem_empty flow) ?_
    exact FlowView.not_maps_of_lookup_none rfl
  · refine iff_of_false ?_ ?_
    · cases d <;> exact fun hlookup => by cases hlookup
    · rintro ⟨r, hr, -⟩
      exact FlowView.not_maps_of_lookup_none rfl hr

theorem flowView_coherent_run (cfg : Config) (acts : List Action) (h : Along step CleanStep (init cfg) acts) :
    (runFrom (init cfg) acts).flowView.Coherent :=
  run_induction (P := fun s : State => s.flowView.Coherent) (fun _ a hc hs => coherent_step a hc hs) acts
    (init cfg) h (coherent_init cfg)

/-! ### The result -/

theorem deletesClean_of_allDelete : ∀ {n : ℕ} {hw : List Outcome}, AllDelete n hw → DeletesClean n hw
  | 0, _, _ => trivial
  | _ + 1, _, h => ⟨.inr h.1, fun _ => deletesClean_of_allDelete h.2⟩

/-- The places of the flows agree; an attach that fails leaves all of them as they were, and so does a detach
that fails; and destroying an object ends with its flows released. -/
structure FlowsSafe (s : State) : Prop where
  agree : s.flowView.Agree
  attach : ∀ r flow c hw, (flow ∉ s.flows → AddsClean hw) → ∀ e s',
    exec (ikernelAttach r flow) (s.enter c hw) = (.error e, s') → s'.flowView = s.flowView
  detach : ∀ r flow c hw, (flow ∈ s.flowsOf r → DeleteClean hw) → ∀ e s',
    exec (ikernelDetach r flow) (s.enter c hw) = (.error e, s') → s'.flowView = s.flowView
  destroy : ∀ r c hw, AllDelete (s.holdings.flows r) hw →
    (exec (destroy r) (s.enter c hw)).2.flowView.Agree ∧
      (exec (destroy r) (s.enter c hw)).2.flowView.Released s.flowView r

theorem FlowView.Coherent.flowsSafe (h : s.flowView.Coherent) : FlowsSafe s := by
  refine ⟨h.toAgree, ?_, ?_, ?_⟩
  · intro r flow c hw hclean e s' hex
    have hpost := post_ikernelAttach (s := s.enter c hw) (r := r) hclean
    rw [Post, hex] at hpost
    exact hpost.flowView
  · intro r flow c hw hclean e s' hex
    have hpost := post_ikernelDetach (s := s.enter c hw) fun hin => ⟨mem_flows h hin, hclean hin⟩
    rw [Post, hex] at hpost
    exact hpost.2.flowView
  · intro r c hw hall
    have hpost := post_destroy_clean (s := s.enter c hw) (r := r) h (deletesClean_of_allDelete hall)
    refine Post.state (P := fun s' => s'.flowView.Agree ∧ s'.flowView.Released s.flowView r) (hpost.imp ?_ ?_)
    · rintro _ s' ⟨hs', hreleased, -⟩
      exact ⟨hs'.toAgree, hreleased⟩
    · rintro _ s' ⟨hs', hreleased⟩
      exact ⟨hs'.toAgree, hreleased hall⟩

/-- In every run in which no command of an attach or a detach fails after another one of the same flow took
effect, every flow is in all four places or in none of them, in every state that is reached. -/
theorem flowsSafe_run (cfg : Config) (acts : List Action) (h : Along step CleanStep (init cfg) acts) :
    FlowsSafe (runFrom (init cfg) acts) :=
  (flowView_coherent_run cfg acts h).flowsSafe

/-- The flow of the examples. -/
def exampleFlow : Flow := ⟨0x0a000002, 4000⟩

/-- A client attaches a flow and asks for it again; a detach of it times out, and the client disconnects. -/
def attachRun : List Action :=
  [.connect .client, .client 0 (createRequest 0) [], .client 0 (.ikAttach 0 (.bound exampleFlow)) [],
    .client 0 (.ikAttach 0 (.bound exampleFlow)) [],
    .client 0 (.ikDetach 0 (.bound exampleFlow)) [.failed .timeout false], .connectionLost 0 []]

theorem flowsSafe_run_attach :
    Along step CleanStep (init exampleConfig) attachRun ∧ FlowsSafe (runFrom (init exampleConfig) attachRun) := by
  have hdeletes : ∀ n, DeletesClean n [] := fun n => by
    induction n with
    | zero => trivial
    | succ n ih => exact ⟨.inr ⟨rfl, rfl⟩, fun _ => ih⟩
  have hdestroys : ∀ rs h, DestroysClean rs h [] := fun rs => by
    induction rs with
    | nil => exact fun _ => trivial
    | cons r rs ih => exact fun h => ⟨hdeletes _, fun _ _ _ => by rw [List.drop_nil]; exact ih _⟩
  have halong : Along step CleanStep (init exampleConfig) attachRun := by
    refine ⟨fun _ => trivial, fun _ => trivial, fun _ _ _ _ => .inr ⟨rfl, rfl⟩,
      fun _ _ _ _ => .inr ⟨rfl, rfl⟩, fun _ _ _ _ _ => .inl (.inl rfl), fun _ _ => hdestroys _ _, trivial⟩
  exact ⟨halong, flowsSafe_run _ _ halong⟩

/-- The second table has no room for the flow. -/
def fullTableRun : List Action :=
  [.connect .client, .client 0 (createRequest 0) [],
    .client 0 (.ikAttach 0 (.bound exampleFlow)) [.value 1, .value 0xffffffff]]

/-- The attach fails and leaves the entry of the first table behind. -/
theorem not_agree_fullTable : ¬ (runFrom (init exampleConfig) fullTableRun).flowView.Agree := by
  intro h
  have hentry : ((runFrom (init exampleConfig) fullTableRun).hw.table .h2n).lookup exampleFlow =
      some ⟨0, 0⟩ := by
    decide +kernel
  obtain ⟨r, hmaps, -⟩ := (h.tables .h2n exampleFlow _).mp hentry
  exact FlowView.not_maps_of_lookup_none (by decide +kernel) hmaps

end Nica.Manager
