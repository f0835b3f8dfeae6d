/-
# Computations that change a state and may stop

`Effect σ ε α` is a computation that reads and changes a state `σ` and either returns an `α` or
stops with an `ε`.  Unlike `StateT σ (Except ε)` it keeps the state in which it stopped, as a
function does that returns an error code after half its work.

`Triple P x Q E` is a precondition with a postcondition for either way of ending; `Keeps I x` is
the case of an invariant.  `Shows W obs v x Q E` is a triple about what `obs` shows of a state,
which starts at `v`; `W` is an invariant that is kept beside it.  There is one rule for each way of
building a computation.

Nothing here is about a particular program.
-/
import Mathlib.Data.List.Basic

universe u v w

/-- Computations over a state `σ` that return or stop with an `ε`, and end in a state either
way. -/
def Effect (σ : Type u) (ε : Type v) (α : Type w) : Type (max u v w) := σ → Except ε α × σ

namespace Effect

variable {σ : Type u} {ε : Type v} {α β : Type w}

/-! ## 1. Building computations -/

/-- Stop here. -/
def stop (e : ε) : Effect σ ε α := fun s => (.error e, s)

/-- A value that is read off the state. -/
def read (f : σ → α) : Effect σ ε α := fun s => (.ok (f s), s)

def modify (f : σ → σ) : Effect σ ε PUnit := fun s => (.ok ⟨⟩, f s)

/-- Go on with `h` where `x` stops. -/
def handle (x : Effect σ ε α) (h : ε → Effect σ ε α) : Effect σ ε α := fun s =>
  match x s with
  | (.ok a, s') => (.ok a, s')
  | (.error e, s') => h e s'

instance : Monad (Effect σ ε) where
  pure a := fun s => (.ok a, s)
  bind x f := fun s =>
    match x s with
    | (.ok a, s') => f a s'
    | (.error e, s') => (.error e, s')

theorem bind_apply (x : Effect σ ε α) (f : α → Effect σ ε β) (s : σ) :
    (x >>= f) s = match x s with
      | (.ok a, s') => f a s'
      | (.error e, s') => (.error e, s') := rfl

/-- The first part of a sequence returned: the rest goes on from the state it left. Runs on given
inputs are followed with this lemma and the next ones. -/
theorem bind_ok {x : Effect σ ε α} {s s' : σ} {a : α} (h : x s = (.ok a, s'))
    (f : α → Effect σ ε β) : (x >>= f) s = f a s' := by
  rw [bind_apply, h]

/-- The first part of a sequence stopped: the rest is not run, and what it changed stays changed. -/
theorem bind_error {x : Effect σ ε α} {s s' : σ} {e : ε} (h : x s = (.error e, s'))
    (f : α → Effect σ ε β) : (x >>= f) s = (.error e, s') := by
  rw [bind_apply, h]

theorem read_bind (f : σ → α) (k : α → Effect σ ε β) (s : σ) :
    (read f >>= k) s = k (f s) s := rfl

/-- A handler is not asked where the computation returns. -/
theorem handle_ok {x : Effect σ ε α} {s s' : σ} {a : α} (h : x s = (.ok a, s'))
    (k : ε → Effect σ ε α) : handle x k s = (.ok a, s') := by
  unfold handle
  rw [h]

/-- A handler runs in the state in which the computation stopped, not in the one it began in. -/
theorem handle_error {x : Effect σ ε α} {s s' : σ} {e : ε} (h : x s = (.error e, s'))
    (k : ε → Effect σ ε α) : handle x k s = k e s' := by
  unfold handle
  rw [h]

instance : LawfulMonad (Effect σ ε) := LawfulMonad.mk' _
  (fun x => by
    funext s
    change (x >>= fun a => pure (id a)) s = x s
    rw [bind_apply]
    rcases x s with ⟨_ | _, _⟩ <;> rfl)
  (fun _ _ => rfl)
  (fun x f g => by
    funext s
    simp only [bind_apply]
    rcases x s with ⟨_ | _, _⟩ <;> rfl)

/-- A sequence returns exactly when both parts do, one after the other. -/
theorem bind_ok_iff {x : Effect σ ε α} {f : α → Effect σ ε β} {s : σ} {b : β} {t : σ} :
    (x >>= f) s = (.ok b, t) ↔ ∃ a s', x s = (.ok a, s') ∧ f a s' = (.ok b, t) := by
  constructor
  · intro h
    rw [bind_apply] at h
    rcases hx : x s with ⟨r, s'⟩
    rw [hx] at h
    cases r with
    | ok a => exact ⟨a, s', rfl, h⟩
    | error e => cases h
  · rintro ⟨a, s', hx, hf⟩
    rw [bind_ok hx, hf]

/-! ## 2. Pre- and postconditions -/

/-- From a state with `P`, `x` returns with `Q` or stops with `E`. -/
def Triple (P : σ → Prop) (x : Effect σ ε α) (Q : α → σ → Prop) (E : ε → σ → Prop) : Prop :=
  ∀ s, P s →
    match x s with
    | (.ok a, s') => Q a s'
    | (.error e, s') => E e s'

/-- What a triple says of one run that returns. -/
theorem Triple.of_ok {P : σ → Prop} {x : Effect σ ε α} {Q : α → σ → Prop} {E : ε → σ → Prop}
    (h : Triple P x Q E) {s s' : σ} {a : α} (hs : P s) (hx : x s = (.ok a, s')) : Q a s' := by
  have := h s hs
  rw [hx] at this
  exact this

/-- What a triple says of one run that stops. -/
theorem Triple.of_error {P : σ → Prop} {x : Effect σ ε α} {Q : α → σ → Prop} {E : ε → σ → Prop}
    (h : Triple P x Q E) {s s' : σ} {e : ε} (hs : P s) (hx : x s = (.error e, s')) : E e s' := by
  have := h s hs
  rw [hx] at this
  exact this

theorem triple_iff {P : σ → Prop} {x : Effect σ ε α} {Q : α → σ → Prop} {E : ε → σ → Prop} :
    Triple P x Q E ↔ (∀ s a s', P s → x s = (.ok a, s') → Q a s') ∧
      ∀ s e s', P s → x s = (.error e, s') → E e s' := by
  constructor
  · exact fun h => ⟨fun s a s' hs hx => h.of_ok hs hx, fun s e s' hs hx => h.of_error hs hx⟩
  · rintro ⟨hok, herror⟩ s hs
    rcases hx : x s with ⟨r, s'⟩
    cases r with
    | ok a => exact hok s a s' hs hx
    | error e => exact herror s e s' hs hx

variable {P P' : σ → Prop} {Q Q' : α → σ → Prop} {E E' : ε → σ → Prop} {I J : σ → Prop}

/-- The rule of consequence, for both ways to end. -/
theorem Triple.mono {x : Effect σ ε α} (h : Triple P x Q E) (hP : ∀ s, P' s → P s)
    (hQ : ∀ a s, Q a s → Q' a s) (hE : ∀ e s, E e s → E' e s) : Triple P' x Q' E' :=
  triple_iff.mpr ⟨fun s a s' hs hx => hQ a s' (h.of_ok (hP s hs) hx),
    fun s e s' hs hx => hE e s' (h.of_error (hP s hs) hx)⟩

theorem triple_pure {a : α} (h : ∀ s, P s → Q a s) : Triple P (pure a) Q E := fun s hs => h s hs

theorem triple_stop {e : ε} (h : ∀ s, P s → E e s) : Triple P (stop e) Q E := fun s hs => h s hs

theorem triple_read {f : σ → α} (h : ∀ s, P s → Q (f s) s) : Triple P (read f) Q E :=
  fun s hs => h s hs

/-- The rule of sequence. The two parts stop under the same condition, so a failing statement is
followed only once, to the end of the whole run. -/
theorem Triple.bind {x : Effect σ ε α} {f : α → Effect σ ε β} {R : β → σ → Prop}
    (hx : Triple P x Q E) (hf : ∀ a, Triple (Q a) (f a) R E) : Triple P (x >>= f) R E := by
  intro s hs
  rcases h : x s with ⟨r, s'⟩
  cases r with
  | ok a =>
    rw [bind_ok h]
    exact hf a s' (hx.of_ok hs h)
  | error e =>
    rw [bind_error h]
    exact hx.of_error hs h

/-- The rule of a handler: it starts from what holds where the computation stopped. -/
theorem Triple.handle {x : Effect σ ε α} {k : ε → Effect σ ε α}
    (hx : Triple P x Q E) (hk : ∀ e, Triple (E e) (k e) Q E') : Triple P (handle x k) Q E' := by
  intro s hs
  rcases h : x s with ⟨r, s'⟩
  cases r with
  | ok a =>
    rw [handle_ok h]
    exact hx.of_ok hs h
  | error e =>
    rw [handle_error h]
    exact hk e s' (hx.of_error hs h)

/-! ## 3. What is observed of the state -/

section Observed

variable {τ : Type*} {W : σ → Prop} {obs : σ → τ} {u v : τ}

/-- From a state with `W` of which `obs` shows `v`, `x` comes to a state with `W`; it returns with
`Q` or stops with `E`, both of what `obs` shows then. -/
def Shows (W : σ → Prop) (obs : σ → τ) (v : τ) (x : Effect σ ε α) (Q : α → τ → Prop)
    (E : ε → τ → Prop) : Prop :=
  Triple (fun s => W s ∧ obs s = v) x (fun a s => W s ∧ Q a (obs s)) fun e s => W s ∧ E e (obs s)

section Rules

variable {Q Q' : α → τ → Prop} {E E' : ε → τ → Prop}

/-- What is seen after one run that returns. -/
theorem Shows.of_ok {x : Effect σ ε α} {s s' : σ} {a : α} (h : Shows W obs (obs s) x Q E)
    (hs : W s) (hx : x s = (.ok a, s')) : W s' ∧ Q a (obs s') :=
  Triple.of_ok h ⟨hs, rfl⟩ hx

/-- What is seen after one run that stops. -/
theorem Shows.of_error {x : Effect σ ε α} {s s' : σ} {e : ε} (h : Shows W obs (obs s) x Q E)
    (hs : W s) (hx : x s = (.error e, s')) : W s' ∧ E e (obs s') :=
  Triple.of_error h ⟨hs, rfl⟩ hx

/-- A computation that does not stop returns. -/
theorem Shows.exists_ok {x : Effect σ ε α} (h : Shows W obs v x Q fun _ _ => False) {s : σ}
    (hs : W s) (hv : obs s = v) : ∃ a s', x s = (.ok a, s') ∧ W s' ∧ Q a (obs s') := by
  have hx := h s ⟨hs, hv⟩
  rcases hrun : x s with ⟨r, s'⟩
  rw [hrun] at hx
  cases r with
  | ok a => exact ⟨a, s', rfl, hx⟩
  | error e => exact hx.2.elim

/-- It is enough to know each result. -/
theorem shows_of_eq {x : Effect σ ε α}
    (hok : ∀ s a s', W s → obs s = v → x s = (.ok a, s') → W s' ∧ Q a (obs s'))
    (herror : ∀ s e s', W s → obs s = v → x s = (.error e, s') → W s' ∧ E e (obs s')) :
    Shows W obs v x Q E :=
  triple_iff.mpr ⟨fun s a s' hs hx => hok s a s' hs.1 hs.2 hx,
    fun s e s' hs hx => herror s e s' hs.1 hs.2 hx⟩

theorem Shows.mono {R : α → τ → Prop} {x : Effect σ ε α} (h : Shows W obs v x Q E)
    (hQ : ∀ a w, Q a w → R a w) (hE : ∀ e w, E e w → E' e w) : Shows W obs v x R E' :=
  Triple.mono h (fun _ hs => hs) (fun a _ hs => ⟨hs.1, hQ a _ hs.2⟩)
    fun e _ hs => ⟨hs.1, hE e _ hs.2⟩

theorem shows_pure {a : α} (h : Q a v) : Shows W obs v (pure a) Q E :=
  triple_pure fun s hs => ⟨hs.1, by rw [hs.2]; exact h⟩

theorem shows_stop {e : ε} (h : E e v) : Shows W obs v (stop e) Q E :=
  triple_stop fun s hs => ⟨hs.1, by rw [hs.2]; exact h⟩

/-- A value that is read is known as far as `obs` shows it. -/
theorem shows_read {f : σ → α} (h : ∀ s, W s → obs s = v → Q (f s) v) :
    Shows W obs v (read f) Q E :=
  triple_read fun s hs => ⟨hs.1, by rw [hs.2]; exact h s hs.1 hs.2⟩

/-- A change shows what it does to what is seen, and has to keep what holds of the state. -/
theorem shows_modify {f : σ → σ} {Q : PUnit → τ → Prop} (hW : ∀ s, W s → W (f s))
    (h : ∀ s, W s → obs s = v → Q ⟨⟩ (obs (f s))) : Shows W obs v (modify f) Q E :=
  fun s hs => ⟨hW s hs.1, h s hs.1 hs.2⟩

/-- What the first part leaves to be seen, the second starts from. The states between the two are
only known as far as they are seen. -/
theorem Shows.bind {x : Effect σ ε α} {f : α → Effect σ ε β} {R : β → τ → Prop}
    (hx : Shows W obs v x Q E) (hf : ∀ a w, Q a w → Shows W obs w (f a) R E) :
    Shows W obs v (x >>= f) R E :=
  Triple.bind hx fun a s hs => hf a (obs s) hs.2 s ⟨hs.1, rfl⟩

/-- What is seen where a computation stops, its handler starts from. -/
theorem Shows.handle {x : Effect σ ε α} {k : ε → Effect σ ε α} (hx : Shows W obs v x Q E)
    (hk : ∀ e w, E e w → Shows W obs w (k e) Q E') : Shows W obs v (handle x k) Q E' :=
  Triple.handle hx fun e s hs => hk e (obs s) hs.2 s ⟨hs.1, rfl⟩

end Rules

end Observed

end Effect
