/-
# Computations that always return the same

`Yields x a`: whatever the state is, `x` returns `a` in some state and does not fail.  The state may
change, but what is returned does not depend on it.  There is one rule for each way of building a
computation, so that a value is computed along the program's text.

Nothing here is about a particular program.
-/
import Emdros.Base.Partial

universe u

namespace Partial

variable {σ α β : Type u}

/-- In every state the computation returns `a`. -/
def Yields (x : StateT σ Option α) (a : α) : Prop := ∀ s, ∃ s', x.run s = some (a, s')

namespace Yields

variable {x : StateT σ Option α} {f : α → StateT σ Option β} {a : α} {b : β}

theorem pure (a : α) : Yields (pure a : StateT σ Option α) a := fun s => ⟨s, rfl⟩

theorem bind (hx : Yields x a) (hf : Yields (f a) b) : Yields (x >>= f) b := by
  intro s
  obtain ⟨s₁, hs₁⟩ := hx s
  obtain ⟨s₂, hs₂⟩ := hf s₁
  exact ⟨s₂, by rw [run_bind_of_some hs₁, hs₂]⟩

/-- A change of the state comes first. -/
theorem modify {g : σ → σ} {x : StateT σ Option α} (hx : Yields x a) :
    Yields (do modify g; x) a := fun s => hx (g s)

theorem total (h : Yields x a) : Total x := fun s => ⟨a, h s⟩

/-- It returns nothing else. -/
theorem eq_of_returns (h : Yields x a) {b : α} (hb : Returns x b) : b = a := by
  obtain ⟨s, s', hrun⟩ := hb
  obtain ⟨s₁, hrun₁⟩ := h s
  exact (Prod.mk.inj (Option.some.inj (hrun.symm.trans hrun₁))).1

theorem of_total (ht : Total x) (h : Ensures x fun b => b = a) : Yields x a := by
  intro s
  obtain ⟨b, s', hrun⟩ := ht s
  exact ⟨s', h.of_run hrun ▸ hrun⟩

section Loops

variable {ι : Type*} {step : ι → StateT σ Option (List α)} {f : ι → List α}

theorem collect : ∀ {l : List ι}, (∀ i ∈ l, Yields (step i) (f i)) →
    Yields (Partial.collect step l) (l.flatMap f)
  | [], _ => pure []
  | i :: l, h => by
    rw [Partial.collect, List.flatMap_cons]
    exact (h i List.mem_cons_self).bind
      ((collect fun j hj => h j (List.mem_cons_of_mem i hj)).bind (pure _))

/-- A loop of which each step appends to the result. -/
theorem foldlM_append {step : List α → ι → StateT σ Option (List α)} : ∀ {l : List ι},
    (∀ i ∈ l, ∀ result, Yields (step result i) (result ++ f i)) →
      ∀ result, Yields (l.foldlM step result) (result ++ l.flatMap f)
  | [], _, result => by
    rw [List.foldlM_nil, List.flatMap_nil, List.append_nil]
    exact pure result
  | i :: l, h, result => by
    rw [List.foldlM_cons, List.flatMap_cons, ← List.append_assoc]
    exact (h i List.mem_cons_self result).bind
      (foldlM_append (fun j hj => h j (List.mem_cons_of_mem i hj)) _)

end Loops

end Yields

end Partial
