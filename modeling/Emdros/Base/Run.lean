/-
# Runs of a partial state machine

A machine is a step function `σ → ι → Option σ`: it takes a state and an operation to the
next state, and `none` stands for the operation failing (an exception, an undefined access).
A run applies a list of operations in order.  Four rules are used wherever a model speaks
about whole runs:

* `run_preserves`: an invariant that every admitted step keeps, and that makes the step
  succeed, holds after every admitted run, which then succeeds as a whole;
* `admits_iff`: where only admitted steps keep the invariant, it fails in a run that is not
  admitted;
* `run_simulates`: a relation kept by two machines step by step is kept by their runs.

Nothing here is about a particular program.
-/
import Mathlib.Data.Option.Basic
import Mathlib.Data.List.Basic

namespace Machine

section Runs

variable {σ ι : Type*}

/-- Apply the operations in order, stopping at the first one that fails. -/
def run (step : σ → ι → Option σ) : σ → List ι → Option σ
  | s, [] => some s
  | s, i :: is => (step s i).bind fun s' => run step s' is

@[simp] theorem run_nil (step : σ → ι → Option σ) (s : σ) : run step s [] = some s := rfl

@[simp] theorem run_cons (step : σ → ι → Option σ) (s : σ) (i : ι) (is : List ι) :
    run step s (i :: is) = (step s i).bind fun s' => run step s' is := rfl

/-- A run of a concatenation is the run of the first part followed by that of the second. -/
theorem run_append (step : σ → ι → Option σ) : ∀ (is js : List ι) (s : σ),
    run step s (is ++ js) = (run step s is).bind fun s' => run step s' js
  | [], js, s => by simp
  | i :: is, js, s => by
    simp only [List.cons_append, run_cons, Option.bind_assoc]
    cases step s i with
    | none => rfl
    | some s' => simp [run_append step is js s']

/-- `Admits step ok s is`: every operation of the run meets `ok` in the state it is applied
to. -/
def Admits (step : σ → ι → Option σ) (ok : σ → ι → Prop) : σ → List ι → Prop
  | _, [] => True
  | s, i :: is => ok s i ∧ ∀ s', step s i = some s' → Admits step ok s' is

/-- Whether a run is admitted can be computed when the condition on one step can. -/
instance Admits.decidable (step : σ → ι → Option σ) (ok : σ → ι → Prop)
    [∀ s i, Decidable (ok s i)] : ∀ (s : σ) (is : List ι), Decidable (Admits step ok s is)
  | _, [] => isTrue trivial
  | s, i :: is =>
    haveI : Decidable (∀ s', step s i = some s' → Admits step ok s' is) :=
      match h : step s i with
      | none => isTrue fun _ h' => by simp at h'
      | some s₁ =>
        match Admits.decidable step ok s₁ is with
        | isTrue h₁ => isTrue fun _ h' => Option.some.inj h' ▸ h₁
        | isFalse h₁ => isFalse fun h' => h₁ (h' s₁ rfl)
    inferInstanceAs (Decidable (_ ∧ _))

/-- **The invariant rule.**  If an admitted step from a state with `P` succeeds and keeps `P`,
an admitted run from a state with `P` succeeds and ends in a state with `P`. -/
theorem run_preserves {step : σ → ι → Option σ} {ok : σ → ι → Prop} {P : σ → Prop}
    (hstep : ∀ s i, P s → ok s i → ∃ s', step s i = some s' ∧ P s') :
    ∀ (is : List ι) (s : σ), P s → Admits step ok s is →
      ∃ s', run step s is = some s' ∧ P s'
  | [], s, hP, _ => ⟨s, rfl, hP⟩
  | i :: is, s, hP, hadm => by
    obtain ⟨s₁, h₁, hP₁⟩ := hstep s i hP hadm.1
    obtain ⟨s₂, h₂, hP₂⟩ := run_preserves hstep is s₁ hP₁ (hadm.2 s₁ h₁)
    exact ⟨s₂, by rw [run_cons, h₁]; exact h₂, hP₂⟩

/-- The first part of an admitted run is admitted. -/
theorem Admits.left {step : σ → ι → Option σ} {ok : σ → ι → Prop} :
    ∀ (is js : List ι) (s : σ), Admits step ok s (is ++ js) → Admits step ok s is
  | [], _, _, _ => trivial
  | _ :: is, js, _, hadm => ⟨hadm.1, fun s' hs' => Admits.left is js s' (hadm.2 s' hs')⟩

/-- **When the invariant holds all along a run.**  If it is just the admitted steps that succeed
and keep `P`, the admitted runs are those whose first parts all succeed and end in a state with
`P`. -/
theorem admits_iff {step : σ → ι → Option σ} {ok : σ → ι → Prop} {P : σ → Prop}
    (hstep : ∀ s i, P s → (ok s i ↔ ∃ s', step s i = some s' ∧ P s')) (is : List ι) :
    ∀ s, P s → (Admits step ok s is ↔
      ∀ front back, is = front ++ back → ∃ s', run step s front = some s' ∧ P s') := by
  intro s hP
  constructor
  · rintro hadm front back rfl
    exact run_preserves (fun s i hP hok => (hstep s i hP).mp hok) front s hP hadm.left
  · intro hall
    induction is generalizing s with
    | nil => trivial
    | cons i is ih =>
      obtain ⟨s₁, hs₁, hP₁⟩ := hall [i] is rfl
      have hone : step s i = some s₁ := by
        rw [run_cons] at hs₁
        simpa using hs₁
      refine ⟨(hstep s i hP).mpr ⟨s₁, hone, hP₁⟩, fun s' hs' => ?_⟩
      obtain rfl : s₁ = s' := Option.some.inj (hone.symm.trans hs')
      refine ih s₁ hP₁ fun front back hsplit => ?_
      obtain ⟨s₂, hs₂, hP₂⟩ := hall (i :: front) back (by rw [hsplit, List.cons_append])
      rw [run_cons, hone, Option.bind_some] at hs₂
      exact ⟨s₂, hs₂, hP₂⟩

end Runs

section Simulation

variable {σ τ ι : Type*}

/-- **The simulation rule.**  Two machines driven by the same operations stay related, and
neither fails, when each admitted step keeps them related. -/
theorem run_simulates {stepS : σ → ι → Option σ} {stepT : τ → ι → Option τ}
    {ok : σ → ι → Prop} {R : σ → τ → Prop}
    (hstep : ∀ s t i, R s t → ok s i →
      ∃ s' t', stepS s i = some s' ∧ stepT t i = some t' ∧ R s' t') :
    ∀ (is : List ι) (s : σ) (t : τ), R s t → Admits stepS ok s is →
      ∃ s' t', run stepS s is = some s' ∧ run stepT t is = some t' ∧ R s' t'
  | [], s, t, hR, _ => ⟨s, t, rfl, rfl, hR⟩
  | i :: is, s, t, hR, hadm => by
    obtain ⟨s₁, t₁, hs, ht, hR₁⟩ := hstep s t i hR hadm.1
    obtain ⟨s₂, t₂, hs₂, ht₂, hR₂⟩ := run_simulates hstep is s₁ t₁ hR₁ (hadm.2 s₁ hs)
    exact ⟨s₂, t₂, by rw [run_cons, hs]; exact hs₂, by rw [run_cons, ht]; exact ht₂, hR₂⟩

end Simulation

end Machine
