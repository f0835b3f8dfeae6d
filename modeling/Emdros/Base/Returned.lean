/-
# What a computation has returned

`Returns x a` says that `x` has returned `a` in some run, whatever the state was.  Where only the
values matter that were passed on, an answer is taken apart along the program's text: what a
sequence has returned comes from something that its first part has returned, and of what a loop has
returned each of its steps has a part.

The states are forgotten on the way: two calls of one computation may have returned different
things.  So these lemmas go from an answer to its parts, and not back.  `Below` compares two
computations: one of them does what the other one does, wherever that one does not fail.

Nothing here is about a particular program.
-/
import Emdros.Base.Partial

universe u

namespace Partial

variable {σ α β γ : Type u} {α' β' : Type}

/-! ## 1. Sequences -/

namespace Returns

variable {x : StateT σ Option α} {f : α → StateT σ Option β} {a : α} {b : β}

/-- What every run ensures holds of what was returned. -/
theorem ensured (h : Returns x a) {Q : α → Prop} (hx : Ensures x Q) : Q a := by
  obtain ⟨s, s', hrun⟩ := h
  exact hx.of_run hrun

theorem of_bind (h : Returns (x >>= f) b) : ∃ a, Returns x a ∧ Returns (f a) b := by
  obtain ⟨s, s', hrun⟩ := h
  obtain ⟨a, t, hx, hf⟩ := bind_eq_some.mp hrun
  exact ⟨a, ⟨s, t, hx⟩, ⟨t, s', hf⟩⟩

theorem of_pure {a' : α} (h : Returns (pure a : StateT σ Option α) a') : a' = a := by
  obtain ⟨s, s', hrun⟩ := h
  exact (Prod.mk.inj (pure_eq_some.mp hrun)).1.symm

/-- What is computed from an answer at the end. -/
theorem of_bind_pure {g : α → β} (h : Returns (x >>= fun a => Pure.pure (g a)) b) :
    ∃ a, Returns x a ∧ b = g a := by
  obtain ⟨a, hx, hb⟩ := h.of_bind
  exact ⟨a, hx, hb.of_pure⟩

theorem not_failure (h : Returns (failure : StateT σ Option α) a) : False := by
  obtain ⟨s, s', hrun⟩ := h
  rw [run_failure] at hrun
  cases hrun

theorem of_ofOption {o : Option α} (h : Returns (ofOption o : StateT σ Option α) a) :
    o = some a := by
  obtain ⟨s, s', hrun⟩ := h
  exact (ofOption_eq_some.mp hrun).1

/-- A change of the state returns nothing of its own. -/
theorem of_modify {g : σ → σ} {y : StateT σ Option α} (h : Returns (do modify g; y) a) :
    Returns y a := by
  obtain ⟨s, s', hrun⟩ := h
  exact ⟨g s, s', hrun⟩

theorem of_ite {c : Prop} [Decidable c] {y z : StateT σ Option α}
    (h : Returns (if c then y else z) a) : c ∧ Returns y a ∨ ¬ c ∧ Returns z a := by
  by_cases hc : c
  · rw [if_pos hc] at h
    exact Or.inl ⟨hc, h⟩
  · rw [if_neg hc] at h
    exact Or.inr ⟨hc, h⟩

end Returns

/-- A run without a state, from what can be computed of it. -/
theorem exists_run {x : StateT Unit Option α'} {f : α' → β'} {b : β'}
    (h : (x.run ()).map (fun r => f r.1) = some b) : ∃ a, x.run () = some (a, ()) ∧ f a = b := by
  obtain ⟨⟨a, _⟩, hrun, hf⟩ := Option.map_eq_some_iff.mp h
  exact ⟨a, hrun, hf⟩

/-! ## 2. Loops that collect -/

section Collect

variable {ι : Type*} {step : ι → StateT σ Option (List α)}

/-- Every result of a loop is a result of one of its steps... -/
theorem Returns.mem_collect : ∀ {l : List ι} {as : List α}, Returns (collect step l) as →
    ∀ a ∈ as, ∃ i ∈ l, ∃ bs, Returns (step i) bs ∧ a ∈ bs
  | [], as, h, a, ha => by
    rw [collect] at h
    rw [h.of_pure] at ha
    cases ha
  | i :: l, as, h, a, ha => by
    rw [collect] at h
    obtain ⟨bs, hbs, hrest⟩ := h.of_bind
    obtain ⟨cs, hcs, rfl⟩ := hrest.of_bind_pure
    rcases List.mem_append.mp ha with ha | ha
    · exact ⟨i, List.mem_cons_self, bs, hbs, ha⟩
    · obtain ⟨j, hj, ds, hds, ha⟩ := hcs.mem_collect a ha
      exact ⟨j, List.mem_cons_of_mem i hj, ds, hds, ha⟩

/-- ...and every step has added what it has returned. -/
theorem Returns.collect_part : ∀ {l : List ι} {as : List α}, Returns (collect step l) as →
    ∀ i ∈ l, ∃ bs, Returns (step i) bs ∧ bs ⊆ as
  | [], _, _, i, hi => absurd hi List.not_mem_nil
  | j :: l, as, h, i, hi => by
    rw [collect] at h
    obtain ⟨bs, hbs, hrest⟩ := h.of_bind
    obtain ⟨cs, hcs, rfl⟩ := hrest.of_bind_pure
    rcases List.mem_cons.mp hi with rfl | hi
    · exact ⟨bs, hbs, List.subset_append_left bs cs⟩
    · obtain ⟨ds, hds, hsub⟩ := hcs.collect_part i hi
      exact ⟨ds, hds, List.subset_append_of_subset_right bs hsub⟩

/-- A loop over what is made of the results of another one. -/
theorem collect_map (f : α → γ) (step : ι → StateT σ Option (List α)) : ∀ l : List ι,
    collect (fun i => do let as ← step i; pure (as.map f)) l
      = do let as ← collect step l; pure (as.map f)
  | [] => by
    rw [collect, collect, pure_bind]
    rfl
  | i :: l => by
    rw [collect, collect, collect_map f step l]
    simp only [bind_assoc, pure_bind, List.map_append]

end Collect

/-! ## 3. Computations that do what another one does -/

/-- Whatever `x` does from a state, `y` does too. -/
def Below (x y : StateT σ Option α) : Prop := ∀ s r, x.run s = some r → y.run s = some r

namespace Below

variable {x y : StateT σ Option α}

theorem refl (x : StateT σ Option α) : Below x x := fun _ _ h => h

theorem of_eq (h : x = y) : Below x y := h ▸ refl x

theorem trans {z : StateT σ Option α} (h : Below x y) (h' : Below y z) : Below x z :=
  fun s r hrun => h' s r (h s r hrun)

theorem returns (h : Below x y) {a : α} (hx : Returns x a) : Returns y a := by
  obtain ⟨s, s', hrun⟩ := hx
  exact ⟨s, s', h s _ hrun⟩

/-- What comes second may use what the first part has returned. -/
theorem bind {f g : α → StateT σ Option β} (h : Below x y)
    (hf : ∀ a, Returns x a → Below (f a) (g a)) : Below (x >>= f) (y >>= g) := by
  intro s r hrun
  obtain ⟨a, t, hx, hrest⟩ := bind_eq_some.mp hrun
  exact bind_eq_some.mpr ⟨a, t, h s _ hx, hf a ⟨s, t, hx⟩ t r hrest⟩

theorem ite {c : Prop} [Decidable c] {x' y' : StateT σ Option α} (h : c → Below x y)
    (h' : ¬ c → Below x' y') : Below (if c then x else x') (if c then y else y') := by
  by_cases hc : c
  · rw [if_pos hc, if_pos hc]
    exact h hc
  · rw [if_neg hc, if_neg hc]
    exact h' hc

theorem collect {ι : Type*} {step step' : ι → StateT σ Option (List α)} : ∀ {l : List ι},
    (∀ i ∈ l, Below (step i) (step' i)) → Below (collect step l) (Partial.collect step' l)
  | [], _ => refl _
  | i :: l, h => by
    rw [Partial.collect, Partial.collect]
    refine (h i List.mem_cons_self).bind fun as _ => ?_
    exact (Below.collect fun j hj => h j (List.mem_cons_of_mem i hj)).bind fun as' _ => refl _

section Guard

variable {p : α → Prop} [DecidablePred p]

/-- A test only fails. -/
theorem guardAll (as : List α) : Below (guardAll p as : StateT σ Option (List α)) (pure as) := by
  intro s r hrun
  unfold Partial.guardAll at hrun
  split at hrun
  · exact hrun
  · cases hrun

/-- It does not where all that is returned passes it. -/
theorem of_guardAll {z : StateT σ Option (List α)} {z' : StateT σ Option (List α)}
    (h : Below z z') (hp : ∀ as, Returns z as → ∀ a ∈ as, p a) :
    Below z (z' >>= Partial.guardAll p) := by
  intro s r hrun
  obtain ⟨as, s'⟩ := r
  rw [run_bind_of_some (h s _ hrun), guardAll_of_forall (hp as ⟨s, s', hrun⟩)]
  rfl

end Guard

end Below

end Partial
