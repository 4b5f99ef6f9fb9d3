import Mathlib.Data.List.Basic
import Mathlib.Data.List.Infix
import Mathlib.Algebra.GroupWithZero.Nat

/-!
# Runs of a machine with inputs

A machine is a step function `step : σ → ι → σ`; the input `ι` of one step carries everything the
environment chooses in it (which unit moves, what arrives, which output is stalled).  A run is a
list of inputs and `run step s ins` the state it ends in, so a statement about every list of inputs
is a statement about every interleaving and every stall pattern.

* `Along step C s ins`: the condition `C` holds of every step of the run;
* `run_induction`: what every step that meets `C` preserves holds after every run along `C`;
* `run_trace_induction`: the same for a relation between the state and what the steps emitted;
* `Reachable step s₀ s`: the state `s` is that of some run.
-/

namespace Nica.Lib

variable {σ ι : Type*}

/-- The state after the inputs `ins`. -/
def run (step : σ → ι → σ) (s : σ) (ins : List ι) : σ :=
  ins.foldl step s

@[simp]
theorem run_nil (step : σ → ι → σ) (s : σ) : run step s [] = s := rfl

@[simp]
theorem run_cons (step : σ → ι → σ) (s : σ) (i : ι) (ins : List ι) :
    run step s (i :: ins) = run step (step s i) ins := rfl

@[simp]
theorem run_append (step : σ → ι → σ) (s : σ) (ins₁ ins₂ : List ι) :
    run step s (ins₁ ++ ins₂) = run step (run step s ins₁) ins₂ :=
  List.foldl_append

/-- The condition `C` holds of every step of the run from `s`. -/
def Along (step : σ → ι → σ) (C : σ → ι → Prop) : σ → List ι → Prop
  | _, [] => True
  | s, i :: ins => C s i ∧ Along step C (step s i) ins

instance Along.decidable (step : σ → ι → σ) (C : σ → ι → Prop) [∀ s i, Decidable (C s i)] :
    ∀ (s : σ) (ins : List ι), Decidable (Along step C s ins)
  | _, [] => isTrue trivial
  | s, i :: ins =>
    have := Along.decidable step C (step s i) ins
    inferInstanceAs (Decidable (C s i ∧ Along step C (step s i) ins))

theorem Along.mono {step : σ → ι → σ} {C D : σ → ι → Prop} (h : ∀ s i, C s i → D s i) :
    ∀ (ins : List ι) (s : σ), Along step C s ins → Along step D s ins
  | [], _, _ => trivial
  | _ :: ins, _, hal => ⟨h _ _ hal.1, Along.mono h ins _ hal.2⟩

theorem along_and {step : σ → ι → σ} {C D : σ → ι → Prop} :
    ∀ (ins : List ι) (s : σ), Along step C s ins → Along step D s ins → Along step (fun s i => C s i ∧ D s i) s ins
  | [], _, _, _ => trivial
  | _ :: ins, _, hC, hD => ⟨⟨hC.1, hD.1⟩, along_and ins _ hC.2 hD.2⟩

theorem along_append {step : σ → ι → σ} {C : σ → ι → Prop} :
    ∀ (ins₁ ins₂ : List ι) (s : σ),
      Along step C s (ins₁ ++ ins₂) ↔ Along step C s ins₁ ∧ Along step C (run step s ins₁) ins₂
  | [], _, _ => (and_iff_right trivial).symm
  | i :: ins₁, ins₂, s => by
    show C s i ∧ Along step C (step s i) (ins₁ ++ ins₂) ↔ (C s i ∧ Along step C (step s i) ins₁) ∧ _
    rw [along_append ins₁ ins₂ (step s i), and_assoc]
    exact Iff.rfl

/-- If a step that meets `C` keeps the invariant `P`, and any other step from a state with `P` ends the property `Q`
that `P` implies, then a run meets `C` at all its steps exactly when `Q` holds in all its states. -/
theorem along_iff_forall_prefix_of {step : σ → ι → σ} {C : σ → ι → Prop} {P Q : σ → Prop} (hQ : ∀ s, P s → Q s)
    (hstep : ∀ s i, P s → C s i → P (step s i)) (hend : ∀ s i, P s → ¬C s i → ¬Q (step s i)) :
    ∀ (ins : List ι) (s : σ), P s → (Along step C s ins ↔ ∀ n, Q (run step s (ins.take n)))
  | [], s, hs => iff_of_true trivial fun n => by rw [List.take_nil]; exact hQ s hs
  | i :: ins, s, hs => by
    constructor
    · rintro ⟨hi, hal⟩ n
      cases n with
      | zero => exact hQ s hs
      | succ n => exact (along_iff_forall_prefix_of hQ hstep hend ins _ (hstep s i hs hi)).mp hal n
    · intro h
      have hi : C s i := by
        by_contra hi
        exact hend s i hs hi (h 1)
      refine ⟨hi, ?_⟩
      exact (along_iff_forall_prefix_of hQ hstep hend ins _ (hstep s i hs hi)).mpr fun n => h (n + 1)

/-- If a step from a state with `P` leads to one with `P` exactly when it meets `C`, then a run from a state with `P`
meets `C` at all its steps exactly when `P` holds in all its states. -/
theorem along_iff_forall_prefix {step : σ → ι → σ} {C : σ → ι → Prop} {P : σ → Prop}
    (hstep : ∀ s i, P s → (P (step s i) ↔ C s i)) (ins : List ι) (s : σ) (hs : P s) :
    Along step C s ins ↔ ∀ n, P (run step s (ins.take n)) :=
  along_iff_forall_prefix_of (fun _ h => h) (fun s i hs hi => (hstep s i hs).mpr hi)
    (fun s i hs hi h => hi ((hstep s i hs).mp h)) ins s hs

/-- A condition on the inputs alone. -/
theorem along_of_forall {step : σ → ι → σ} {C : ι → Prop} :
    ∀ (ins : List ι) (s : σ), (∀ i ∈ ins, C i) → Along step (fun _ i => C i) s ins
  | [], _, _ => trivial
  | i :: ins, _, h =>
    ⟨h i (List.mem_cons_self ..), along_of_forall ins _ (fun j hj => h j (List.mem_cons_of_mem _ hj))⟩

/-- **The run rule**: a property that every step meeting `C` preserves holds at the end of every
run along `C`. -/
theorem run_induction {step : σ → ι → σ} {C : σ → ι → Prop} {P : σ → Prop}
    (hstep : ∀ s i, C s i → P s → P (step s i)) :
    ∀ (ins : List ι) (s : σ), Along step C s ins → P s → P (run step s ins) := by
  intro ins
  induction ins with
  | nil => intro s _ hs; exact hs
  | cons i ins ih =>
    intro s hal hs
    exact ih (step s i) hal.2 (hstep s i hal.1 hs)

/-- The run rule without a condition on the steps. -/
theorem run_invariant {step : σ → ι → σ} {P : σ → Prop} (hstep : ∀ s i, P s → P (step s i))
    (ins : List ι) (s : σ) (hs : P s) : P (run step s ins) := by
  induction ins generalizing s with
  | nil => exact hs
  | cons i ins ih => exact ih (step s i) (hstep s i hs)

/-! ### What a run emits -/

section Trace

variable {α : Type*}

/-- What the steps of a run emit, oldest first. -/
def trace (step : σ → ι → σ) (emit : σ → ι → List α) : σ → List ι → List α
  | _, [] => []
  | s, i :: ins => emit s i ++ trace step emit (step s i) ins

theorem trace_append (step : σ → ι → σ) (emit : σ → ι → List α) (s : σ) (ins₁ ins₂ : List ι) :
    trace step emit s (ins₁ ++ ins₂) = trace step emit s ins₁ ++ trace step emit (run step s ins₁) ins₂ := by
  induction ins₁ generalizing s with
  | nil => rfl
  | cons i ins₁ ih => rw [List.cons_append, trace, ih, trace, List.append_assoc, run_cons]

/-- **The run rule for a state with its history**: a relation between them that every step meeting `C` preserves
holds at the end of every run along `C`. -/
theorem run_trace_induction {step : σ → ι → σ} {emit : σ → ι → List α} {C : σ → ι → Prop} {P : σ → List α → Prop}
    (hstep : ∀ s i log, C s i → P s log → P (step s i) (log ++ emit s i)) (ins : List ι) (s : σ) (log : List α)
    (hal : Along step C s ins) (hs : P s log) : P (run step s ins) (log ++ trace step emit s ins) := by
  induction ins generalizing s log with
  | nil =>
    rw [trace, List.append_nil]
    exact hs
  | cons i ins ih =>
    rw [trace, ← List.append_assoc]
    exact ih (step s i) (log ++ emit s i) hal.2 (hstep s i log hal.1 hs)

end Trace

/-! ### Reachable states

A machine that is part of a larger one takes its steps at the hands of the others.  That its state is
reachable is what is left of its own run, and all that a theorem about its runs needs. -/

/-- The states of the runs from `s₀`. -/
def Reachable (step : σ → ι → σ) (s₀ s : σ) : Prop := ∃ ins, s = run step s₀ ins

namespace Reachable

variable {step : σ → ι → σ} {s₀ s : σ}

theorem refl (step : σ → ι → σ) (s₀ : σ) : Reachable step s₀ s₀ := ⟨[], rfl⟩

theorem run (h : Reachable step s₀ s) (ins : List ι) : Reachable step s₀ (Lib.run step s ins) := by
  obtain ⟨ins₀, rfl⟩ := h
  exact ⟨ins₀ ++ ins, (run_append step s₀ ins₀ ins).symm⟩

theorem next (h : Reachable step s₀ s) (i : ι) : Reachable step s₀ (step s i) :=
  h.run [i]

end Reachable

end Nica.Lib
