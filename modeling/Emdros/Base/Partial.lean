/-
# Partial correctness of computations with state and failure

A computation `StateT σ Option α` reads and changes a state and may fail, `none` standing for an
exception or an undefined access.  `Triple P x Q` is partial correctness; `Ensures x Q` is the
case where no state matters.  There is one rule for each way of building a computation, so that
a property of what a program returns is proved along the program's text.

`bind_eq_some` and its siblings take a run that succeeded apart instead, where a proof must
follow one run.  Loops that collect lists (`collect`) have rules of their own, and so have items
that are tried one after the other.
-/
import Mathlib.Data.Option.Basic
import Mathlib.Data.List.Basic

universe u

namespace Partial

variable {σ α β : Type u}

/-! ## 1. Runs -/

/-- A sequence succeeds when both its parts do. -/
theorem bind_eq_some {x : StateT σ Option α} {f : α → StateT σ Option β} {s : σ} {r : β × σ} :
    (x >>= f).run s = some r ↔ ∃ a s', x.run s = some (a, s') ∧ (f a).run s' = some r := by
  rw [StateT.run_bind]
  constructor
  · intro h
    obtain ⟨⟨a, s'⟩, hx, hf⟩ := Option.bind_eq_some_iff.mp h
    exact ⟨a, s', hx, hf⟩
  · rintro ⟨a, s', hx, hf⟩
    exact Option.bind_eq_some_iff.mpr ⟨(a, s'), hx, hf⟩

/-- The first part of a sequence is done... -/
theorem run_bind_of_some {x : StateT σ Option α} {f : α → StateT σ Option β} {s s' : σ} {a : α}
    (h : x.run s = some (a, s')) : (x >>= f).run s = (f a).run s' := by
  rw [StateT.run_bind, h]
  rfl

/-- ...or fails. -/
theorem run_bind_of_none {x : StateT σ Option α} {f : α → StateT σ Option β} {s : σ}
    (h : x.run s = none) : (x >>= f).run s = none := by
  rw [StateT.run_bind, h]
  rfl

theorem pure_eq_some {a : α} {s : σ} {r : α × σ} :
    (pure a : StateT σ Option α).run s = some r ↔ (a, s) = r := by
  rw [StateT.run_pure]
  exact Option.some_inj

theorem run_failure (s : σ) : (failure : StateT σ Option α).run s = none := rfl

/-- A computation without state, run in one. -/
def ofOption (o : Option α) : StateT σ Option α := fun s => o.map fun a => (a, s)

theorem run_ofOption_some {o : Option α} {a : α} (h : o = some a) (s : σ) :
    (ofOption o : StateT σ Option α).run s = some (a, s) := by
  rw [h]
  rfl

theorem run_ofOption_none {o : Option α} (h : o = none) (s : σ) :
    (ofOption o : StateT σ Option α).run s = none := by
  rw [h]
  rfl

theorem ofOption_eq_some {o : Option α} {s : σ} {r : α × σ} :
    (ofOption o : StateT σ Option α).run s = some r ↔ o = some r.1 ∧ s = r.2 := by
  cases o with
  | none => exact ⟨fun h => (Option.some_ne_none _ h.symm).elim, fun h => nomatch h.1⟩
  | some a =>
    constructor
    · intro h
      cases h
      exact ⟨rfl, rfl⟩
    · rintro ⟨h, rfl⟩
      cases h
      rfl

/-! ## 2. Triples -/

/-- From a state that satisfies `P`, whatever is returned satisfies `Q` with the state then. -/
def Triple (P : σ → Prop) (x : StateT σ Option α) (Q : α → σ → Prop) : Prop :=
  ∀ s, P s → ∀ a s', x.run s = some (a, s') → Q a s'

namespace Triple

variable {P : σ → Prop} {x : StateT σ Option α} {f : α → StateT σ Option β}
  {Q : α → σ → Prop} {R : β → σ → Prop}

theorem mono {Q' : α → σ → Prop} (h : Triple P x Q) (hQ : ∀ a s, Q a s → Q' a s) :
    Triple P x Q' :=
  fun s hs a s' hx => hQ a s' (h s hs a s' hx)

theorem pure {a : α} (h : ∀ s, P s → Q a s) : Triple P (pure a) Q := by
  intro s hs b s' hb
  cases pure_eq_some.mp hb
  exact h s hs

theorem failure : Triple P (failure : StateT σ Option α) Q := by
  intro s _ a s' h
  rw [run_failure] at h
  cases h

theorem bind (hx : Triple P x Q) (hf : ∀ a, Triple (Q a) (f a) R) : Triple P (x >>= f) R := by
  intro s hs b s' h
  obtain ⟨a, t, hxa, hfa⟩ := bind_eq_some.mp h
  exact hf a t (hx s hs a t hxa) b s' hfa

theorem ite {c : Prop} [Decidable c] {y z : StateT σ Option α} (hy : c → Triple P y Q)
    (hz : ¬ c → Triple P z Q) : Triple P (if c then y else z) Q := by
  by_cases h : c
  · rw [if_pos h]
    exact hy h
  · rw [if_neg h]
    exact hz h

end Triple

/-! ## 3. What a computation ensures -/

/-- Whatever is returned, from whatever state, satisfies `Q`. -/
def Ensures (x : StateT σ Option α) (Q : α → Prop) : Prop :=
  Triple (fun _ => True) x fun a _ => Q a

namespace Ensures

variable {x : StateT σ Option α} {f : α → StateT σ Option β} {Q : α → Prop} {R : β → Prop}

theorem of_run (h : Ensures x Q) {s s' : σ} {a : α} (hx : x.run s = some (a, s')) : Q a :=
  h s trivial a s' hx

theorem mono {Q' : α → Prop} (h : Ensures x Q) (hQ : ∀ a, Q a → Q' a) : Ensures x Q' :=
  Triple.mono h fun a _ => hQ a

theorem pure {a : α} (h : Q a) : Ensures (pure a : StateT σ Option α) Q :=
  Triple.pure fun _ _ => h

theorem failure : Ensures (failure : StateT σ Option α) Q := Triple.failure

theorem bind (hx : Ensures x Q) (hf : ∀ a, Q a → Ensures (f a) R) : Ensures (x >>= f) R :=
  Triple.bind hx fun a t ha => hf a ha t trivial

/-- A sequence of which the first part ensures nothing of use. -/
theorem bind_right (hf : ∀ a, Ensures (f a) R) : Ensures (x >>= f) R :=
  Triple.bind (fun _ _ _ _ _ => trivial) hf

theorem ofOption {o : Option α} (h : ∀ a, o = some a → Q a) :
    Ensures (ofOption o : StateT σ Option α) Q :=
  fun _ _ a _ hx => h a (ofOption_eq_some.mp hx).1

/-- A sequence of which the first part has this value. -/
theorem of_some {a : α} (h : Ensures (f a) R) : Ensures (Partial.ofOption (some a) >>= f) R := by
  refine (ofOption (Q := fun b => b = a) fun b hb => (Option.some.inj hb).symm).bind fun b hb => ?_
  rw [hb]
  exact h

theorem ite {c : Prop} [Decidable c] {y z : StateT σ Option α} (hy : c → Ensures y Q)
    (hz : ¬ c → Ensures z Q) : Ensures (if c then y else z) Q :=
  Triple.ite hy hz

/-- A run from a state that satisfies the precondition of a triple, within a computation over
another state. -/
theorem of_triple {τ : Type u} {P : τ → Prop} {y : StateT τ Option α} {R : α → τ → Prop}
    (hy : Triple P y R) {t : τ} (ht : P t) :
    Ensures (Partial.ofOption (y.run t) : StateT σ Option (α × τ)) fun r => R r.1 r.2 :=
  ofOption fun r hr => hy t ht r.1 r.2 hr

/-- A loop over a list that accumulates a result: its invariant is `I`. -/
theorem foldlM {ι : Type*} {I : β → Prop} {step : β → ι → StateT σ Option β} :
    ∀ (l : List ι) {b : β}, I b → (∀ b i, i ∈ l → I b → Ensures (step b i) I) →
      Ensures (l.foldlM step b) I
  | [], b, hb, _ => by
    rw [List.foldlM_nil]
    exact Ensures.pure hb
  | i :: l, b, hb, hstep => by
    rw [List.foldlM_cons]
    refine (hstep b i List.mem_cons_self hb).bind fun b' hb' => ?_
    exact foldlM l hb' fun b j hj => hstep b j (List.mem_cons_of_mem i hj)

end Ensures

/-! ## 4. Answers -/

/-- The computation returns `a` in some state. -/
def Returns (x : StateT σ Option α) (a : α) : Prop := ∃ s s', x.run s = some (a, s')

theorem Ensures.returns (x : StateT σ Option α) : Ensures x (Returns x) :=
  fun s _ _ s' h => ⟨s, s', h⟩

/-- The computation returns something in every state. -/
def Total (x : StateT σ Option α) : Prop := ∀ s, ∃ a s', x.run s = some (a, s')

namespace Total

theorem pure (a : α) : Total (pure a : StateT σ Option α) := fun s => ⟨a, s, rfl⟩

theorem bind {x : StateT σ Option α} {f : α → StateT σ Option β} (hx : Total x)
    (hf : ∀ a, Returns x a → Total (f a)) : Total (x >>= f) := by
  intro s
  obtain ⟨a, t, hxa⟩ := hx s
  obtain ⟨b, t', hfa⟩ := hf a ⟨s, t, hxa⟩ t
  exact ⟨b, t', bind_eq_some.mpr ⟨a, t, hxa, hfa⟩⟩

theorem ofOption {o : Option α} (h : ∃ a, o = some a) :
    Total (ofOption o : StateT σ Option α) := by
  intro s
  obtain ⟨a, rfl⟩ := h
  exact ⟨a, s, rfl⟩

theorem of_some {a : α} {f : α → StateT σ Option β} (h : Total (f a)) :
    Total (Partial.ofOption (some a) >>= f) := by
  refine (ofOption ⟨a, rfl⟩).bind fun b ⟨s, s', hb⟩ => ?_
  have hab : a = b := Option.some.inj (ofOption_eq_some.mp hb).1
  rw [← hab]
  exact h

theorem foldlM {ι : Type*} {step : β → ι → StateT σ Option β} (hstep : ∀ b i, Total (step b i)) :
    ∀ (l : List ι) (b : β), Total (l.foldlM step b)
  | [], b => pure b
  | i :: l, b => by
    rw [List.foldlM_cons]
    exact (hstep b i).bind fun b' _ => foldlM hstep l b'

end Total

/-! ## 5. Loops that collect -/

variable {ι : Type*}

/-- What the steps return, one after the other. -/
def collect (step : ι → StateT σ Option (List α)) : List ι → StateT σ Option (List α)
  | [] => pure []
  | i :: l => do
    let a ← step i
    let as ← collect step l
    pure (a ++ as)

/-- A loop that appends what its steps return to its result. -/
theorem foldlM_append (step : ι → StateT σ Option (List α)) : ∀ (l : List ι) (result : List α),
    l.foldlM (fun result i => do let a ← step i; pure (result ++ a)) result
      = do let as ← collect step l; pure (result ++ as)
  | [], result => by
    rw [List.foldlM_nil, collect, pure_bind, List.append_nil]
  | i :: l, result => by
    rw [List.foldlM_cons, collect, bind_assoc, bind_assoc]
    refine bind_congr fun a => ?_
    rw [pure_bind, foldlM_append step l, bind_assoc]
    refine bind_congr fun as => ?_
    rw [pure_bind, List.append_assoc]

theorem foldlM_append_nil (step : ι → StateT σ Option (List α)) (l : List ι) :
    l.foldlM (fun result i => do let a ← step i; pure (result ++ a)) [] = collect step l := by
  rw [foldlM_append]
  exact bind_pure (collect step l)

theorem Ensures.collect {Q : α → Prop} {step : ι → StateT σ Option (List α)} : ∀ {l : List ι},
    (∀ i ∈ l, Ensures (step i) fun as => ∀ a ∈ as, Q a) →
      Ensures (Partial.collect step l) fun as => ∀ a ∈ as, Q a
  | [], _ => Ensures.pure fun a ha => absurd ha List.not_mem_nil
  | i :: l, h => by
    refine (h i List.mem_cons_self).bind fun a ha => ?_
    refine (Ensures.collect fun j hj => h j (List.mem_cons_of_mem i hj)).bind fun as has => ?_
    refine Ensures.pure fun b hb => ?_
    rcases List.mem_append.mp hb with hb | hb
    · exact ha b hb
    · exact has b hb

/-! ## 6. Computations that agree -/

theorem collect_congr {step step' : ι → StateT σ Option (List α)} : ∀ {l : List ι},
    (∀ i ∈ l, step i = step' i) → collect step l = collect step' l
  | [], _ => rfl
  | i :: l, h => by
    rw [collect, collect, h i List.mem_cons_self,
      collect_congr fun j hj => h j (List.mem_cons_of_mem i hj)]

/-- Fail unless every result satisfies `p`. -/
def guardAll (p : α → Prop) [DecidablePred p] (as : List α) : StateT σ Option (List α) :=
  if ∀ a ∈ as, p a then pure as else failure

theorem guardAll_of_forall {p : α → Prop} [DecidablePred p] {as : List α} (h : ∀ a ∈ as, p a) :
    (guardAll p as : StateT σ Option (List α)) = pure as := if_pos h

/-! ## 7. Items that are tried one after the other

What an item gives may depend on the state that others have left behind.  `Steady` is that it does
not: then a loop over some of them gives something exactly if one of these does from the start. -/

section Steady

variable {x : ι → StateT σ Option (List α)} {items : List ι} {s t : σ}

/-- The states that are left behind when items are tried. -/
inductive LeftBy (x : ι → StateT σ Option (List α)) (items : List ι) (s : σ) : σ → Prop
  | start : LeftBy x items s s
  | tried {t t' : σ} {i : ι} {as : List α} (before : LeftBy x items s t) (mem : i ∈ items)
      (run : (x i).run t = some (as, t')) : LeftBy x items s t'

/-- Does the item give something from this state? -/
def Gives (x : ι → StateT σ Option (List α)) (s : σ) (i : ι) : Prop :=
  ∃ as t, (x i).run s = some (as, t) ∧ as ≠ []

/-- No item fails, and each gives something or nothing whatever was tried before it. -/
def Steady (x : ι → StateT σ Option (List α)) (items : List ι) (s : σ) : Prop :=
  ∀ t, LeftBy x items s t → ∀ i ∈ items,
    ∃ as t', (x i).run t = some (as, t') ∧ (as ≠ [] ↔ Gives x s i)

theorem Steady.collect (h : Steady x items s) : ∀ {l : List ι}, l ⊆ items → ∀ {t},
    LeftBy x items s t → ∃ as t', (Partial.collect x l).run t = some (as, t') ∧
      LeftBy x items s t' ∧ (as ≠ [] ↔ ∃ i ∈ l, Gives x s i)
  | [], _, t, ht => ⟨[], t, rfl, ht, by simp⟩
  | i :: l, hl, t, ht => by
    have hi : i ∈ items := hl List.mem_cons_self
    obtain ⟨as, t₁, hx, hgives⟩ := h t ht i hi
    obtain ⟨as', t₂, hrest, hleft, hgives'⟩ := Steady.collect h
      (fun j hj => hl (List.mem_cons_of_mem i hj)) (LeftBy.tried ht hi hx)
    refine ⟨as ++ as', t₂, ?_, hleft, ?_⟩
    · rw [Partial.collect, run_bind_of_some hx, run_bind_of_some hrest]
      rfl
    · simp only [List.mem_cons, exists_eq_or_imp, ← hgives, ← hgives', ne_eq,
        List.append_eq_nil_iff, not_and_or]

end Steady

end Partial
