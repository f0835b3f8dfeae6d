/-
# Runs of the operations on sets of monads

A program holds any number of sets in variables and applies the mutating operations of
`SetOfMonads` to them in any order.  The state is the `Store` of all variables, so that the
right-hand operand of `unionWith`, of an assignment and so on is itself the result of an
earlier part of the run, and may be the very set that is assigned to.

`offset` adds its argument to the cached bounds whether or not there are elements, so on the
empty set it leaves bounds that no longer say "empty", and the next `add` keeps the wrong one
(`offset_empty_breaks`).  That is the only way to lose the invariant: `run_keeps_repInv` shows that
it holds in every state that a run reaches in which no set is offset, by a positive number,
while it is empty.
-/
import Emdros.Monads.SetAlgebra
import Mathlib.Logic.Function.Basic

namespace Emdros

open SpanList

namespace SetOfMonads

/-! ## 1. Operations on a store -/

/-- The sets of a program, by variable. -/
abbrev Store := Nat → SetOfMonads

/-- One mutating operation; `x` is the variable of the set it is called on. -/
inductive Op where
  | addMSE (x : Nat) (mse : MonadSetElement)
  | addMonad (x : Nat) (monad : Int)
  | add (x : Nat) (first last : Int)
  | unionWith (x y : Nat)
  | difference (x y : Nat)
  | removeMSE (x : Nat) (b : MonadSetElement)
  | offset (x : Nat) (m : Int)
  | clear (x : Nat)
  | fromString (x : Nat) (instr : List Char)
  /-- `SetOfMonads x(y)`, the copy constructor. -/
  | copy (x y : Nat)
  /-- `x = y`. -/
  | assign (x y : Nat)

/-- The state in which every set is new. -/
def Store.start : Store := fun _ => empty

/-- `operator=` clears the target first, so that assigning a set to itself empties it. -/
def Store.assign (σ : Store) (x y : Nat) : Store :=
  let cleared := if (σ x).isEmpty then σ else Function.update σ x (σ x).clear
  Function.update cleared x ((cleared x).copyOther (cleared y))

/-- One operation; `none` when it throws. -/
def Store.step (σ : Store) : Op → Option Store
  | .addMSE x mse => some (Function.update σ x ((σ x).addMSE mse))
  | .addMonad x monad => some (Function.update σ x ((σ x).addMonad monad))
  | .add x first last => ((σ x).add first last).map (Function.update σ x)
  | .unionWith x y => some (Function.update σ x ((σ x).unionWith (σ y)))
  | .difference x y => some (Function.update σ x ((σ x).difference (σ y)))
  | .removeMSE x b => some (Function.update σ x ((σ x).removeMSE b))
  | .offset x m => some (Function.update σ x ((σ x).offset m))
  | .clear x => some (Function.update σ x (σ x).clear)
  | .fromString x instr => ((σ x).fromString instr).map (Function.update σ x)
  | .copy x y => some (Function.update σ x (empty.copyOther (σ y)))
  | .assign x y => some (σ.assign x y)

/-- What `,` and `}` add while a string is read lies in `0 .. MAX_MONAD`. -/
def FromString.Fed (v : FromString) (c : Char) : Prop :=
  c = ',' ∨ c = '}' →
    match v.state with
    | .kLast => v.first ≠ -1 → v.last ≠ -1 →
        0 ≤ v.first ∧ v.first ≤ v.last ∧ v.last ≤ maxMonad
    | .kFirst => v.first ≠ -1 → 0 ≤ v.first ∧ v.first ≤ maxMonad
    | _ => True

/-- What the operations may be fed: elements inside `0 .. MAX_MONAD`, and offsets that do not
move a monad out of it. -/
def Op.Fed (σ : Store) : Op → Prop
  | .addMSE _ mse => InRange mse
  | .addMonad _ monad => 0 ≤ monad ∧ monad ≤ maxMonad
  | .add _ first last => 0 ≤ first ∧ first ≤ last ∧ last ≤ maxMonad
  | .offset x m => 0 ≤ m ∧ ∀ e ∈ (σ x).monadMs, e.lastM + m ≤ maxMonad
  | .fromString _ instr =>
      Machine.Admits FromString.step FromString.Fed FromString.start instr
  | _ => True

instance (v : FromString) (c : Char) : Decidable (v.Fed c) :=
  match v with
  | ⟨.kLast, first, last, _⟩ =>
    inferInstanceAs (Decidable (c = ',' ∨ c = '}' → first ≠ -1 → last ≠ -1 →
      0 ≤ first ∧ first ≤ last ∧ last ≤ maxMonad))
  | ⟨.kFirst, first, _, _⟩ =>
    inferInstanceAs (Decidable (c = ',' ∨ c = '}' → first ≠ -1 →
      0 ≤ first ∧ first ≤ maxMonad))
  | ⟨.kNone, _, _, _⟩ | ⟨.kFinished, _, _, _⟩ =>
    inferInstanceAs (Decidable (c = ',' ∨ c = '}' → True))

instance (σ : Store) : ∀ op : Op, Decidable (op.Fed σ)
  | .addMSE _ mse => inferInstanceAs (Decidable (InRange mse))
  | .addMonad _ monad => inferInstanceAs (Decidable (0 ≤ monad ∧ monad ≤ maxMonad))
  | .add _ first last =>
    inferInstanceAs (Decidable (0 ≤ first ∧ first ≤ last ∧ last ≤ maxMonad))
  | .offset x m =>
    inferInstanceAs (Decidable (0 ≤ m ∧ ∀ e ∈ (σ x).monadMs, e.lastM + m ≤ maxMonad))
  | .fromString _ instr => inferInstanceAs (Decidable
      (Machine.Admits FromString.step FromString.Fed FromString.start instr))
  | .unionWith _ _ | .difference _ _ | .removeMSE _ _ | .clear _ | .copy _ _ | .assign _ _ =>
    isTrue trivial

/-- The condition under which `offset` keeps the invariant: the set has elements, or does not
move. -/
def Op.OffsetsElements (σ : Store) : Op → Prop
  | .offset x m => (σ x).monadMs ≠ [] ∨ m = 0
  | _ => True

instance (σ : Store) : ∀ op : Op, Decidable (op.OffsetsElements σ)
  | .offset x m => inferInstanceAs (Decidable ((σ x).monadMs ≠ [] ∨ m = 0))
  | .addMSE _ _ | .addMonad _ _ | .add _ _ _ | .unionWith _ _ | .difference _ _
  | .removeMSE _ _ | .clear _ | .fromString _ _ | .copy _ _ | .assign _ _ => isTrue trivial

/-! ## 2. What one operation does to the invariant -/

theorem repInv_copyOther {s other : SetOfMonads} (hs : s.monadMs = []) (ho : other.RepInv) :
    (s.copyOther other).RepInv := by
  have : s.copyOther other = other := by
    rw [copyOther, hs, List.nil_append]
  rw [this]
  exact ho

theorem sep_offset {l : List MonadSetElement} (h : Sep l) (m : Int) :
    Sep (l.map fun e => e.offset m) := by
  refine List.pairwise_map.mpr (h.imp ?_)
  intro a b hab
  simp only [MonadSetElement.spanned_lo, MonadSetElement.spanned_hi,
    MonadSetElement.offset_firstM, MonadSetElement.offset_lastM] at hab ⊢
  omega

/-- **`offset` keeps the invariant of a set with elements.** -/
theorem offset_repInv {s : SetOfMonads} (h : s.RepInv) {m : Int} (hm : 0 ≤ m)
    (hin : ∀ e ∈ s.monadMs, e.lastM + m ≤ maxMonad) (hne : s.monadMs ≠ []) :
    (s.offset m).RepInv where
  sep := sep_offset h.sep m
  inRange := by
    intro e he
    obtain ⟨e', he', rfl⟩ := List.mem_map.mp he
    have h₁ := (h.inRange e' he').1
    have h₂ := hin e' he'
    exact ⟨by simp only [MonadSetElement.offset_firstM]; omega, h₂⟩
  first_eq := by
    intro front hf
    simp only [offset, List.head?_map, Option.map_eq_some_iff] at hf
    obtain ⟨front', hf', rfl⟩ := hf
    simp only [offset, MonadSetElement.offset_firstM, h.first_eq front' hf']
  last_eq := by
    intro back hb
    simp only [offset, List.getLast?_map, Option.map_eq_some_iff] at hb
    obtain ⟨back', hb', rfl⟩ := hb
    simp only [offset, MonadSetElement.offset_lastM, h.last_eq back' hb']
  empty_eq := by
    intro hnil
    simp only [offset, List.map_eq_nil_iff] at hnil
    exact absurd hnil hne

theorem offset_zero (s : SetOfMonads) : s.offset 0 = s := by
  have : (fun e : MonadSetElement => e.offset 0) = id := by
    funext e
    exact MonadSetElement.ext_bounds (by simp) (by simp)
  obtain ⟨l, f, g⟩ := s
  simp [offset, this]

/-- **Exactly when `offset` keeps the invariant**: not on the empty set, unless by zero. -/
theorem offset_repInv_iff {s : SetOfMonads} (h : s.RepInv) {m : Int} (hm : 0 ≤ m)
    (hin : ∀ e ∈ s.monadMs, e.lastM + m ≤ maxMonad) :
    (s.offset m).RepInv ↔ s.monadMs ≠ [] ∨ m = 0 := by
  constructor
  · intro ho
    by_cases hne : s.monadMs = []
    · right
      have h₁ := (h.empty_eq hne).2
      have h₂ := (ho.empty_eq (by simp [offset, hne])).2
      simp only [offset] at h₂
      omega
    · exact Or.inl hne
  · rintro (hne | rfl)
    · exact offset_repInv h hm hin hne
    · rw [offset_zero]
      exact h

theorem flush_spec {v : FromString} (h : v.som.RepInv) {c : Char} (hc : c = ',' ∨ c = '}')
    (hfed : v.Fed c) : ∃ som, v.flush = some som ∧ som.RepInv := by
  have hfed := hfed hc
  unfold FromString.flush
  split
  · rename_i hstate
    rw [hstate] at hfed
    split
    · rename_i hread
      obtain ⟨h₁, h₂, h₃⟩ := hfed hread.1 hread.2
      refine ⟨v.som.addMSE ⟨v.first, v.last, h₂⟩, ?_, (addMSE_spec h ⟨h₁, h₃⟩).1⟩
      rw [add, MonadSetElement.range_of_le h₂, Option.map_some]
    · exact ⟨v.som, rfl, h⟩
  · rename_i hstate
    rw [hstate] at hfed
    split
    · rename_i hread
      exact ⟨_, rfl, (addMSE_spec h (show InRange (.single v.first) from hfed hread)).1⟩
    · exact ⟨v.som, rfl, h⟩
  · exact ⟨v.som, rfl, h⟩

/-- One character of a string keeps the invariant of the set being read. -/
theorem fromString_step (v : FromString) (c : Char) (h : v.som.RepInv) (hfed : v.Fed c) :
    ∃ v', v.step c = some v' ∧ v'.som.RepInv := by
  unfold FromString.step
  split
  · exact ⟨_, rfl, h⟩
  · split
    · exact ⟨_, rfl, h⟩
    · split
      · rename_i hc
        obtain ⟨som, hsom, hrep⟩ := flush_spec h (Or.inl hc) hfed
        exact ⟨_, by rw [hsom]; rfl, hrep⟩
      · split
        · rename_i hc
          obtain ⟨som, hsom, hrep⟩ := flush_spec h (Or.inr hc) hfed
          exact ⟨_, by rw [hsom]; rfl, hrep⟩
        · split
          · split
            · exact ⟨_, rfl, h⟩
            · exact ⟨_, rfl, h⟩
            · exact ⟨_, rfl, h⟩
          · exact ⟨_, rfl, h⟩

/-- **`fromString` builds a set with the invariant**, whatever set it is called on. -/
theorem fromString_repInv (s : SetOfMonads) {instr : List Char}
    (hfed : Machine.Admits FromString.step FromString.Fed FromString.start instr) :
    ∃ s', s.fromString instr = some s' ∧ s'.RepInv := by
  obtain ⟨v, hrun, hv⟩ := Machine.run_preserves (P := fun v : FromString => v.som.RepInv)
    fromString_step instr FromString.start repInv_empty hfed
  exact ⟨v.som, by rw [fromString, hrun]; rfl, hv⟩

/-- All sets of a store have the invariant. -/
def Store.RepInv (σ : Store) : Prop := ∀ x, (σ x).RepInv

theorem Store.RepInv.update {σ : Store} (h : σ.RepInv) {s : SetOfMonads} (hs : s.RepInv)
    (x : Nat) : Store.RepInv (Function.update σ x s) := by
  intro y
  by_cases hy : y = x
  · rw [hy, Function.update_self]
    exact hs
  · rw [Function.update_of_ne hy]
    exact h y

/-- Assignment leaves a copy of the right-hand side, or the empty set when a set is assigned
to itself. -/
theorem Store.RepInv.assign {σ : Store} (h : σ.RepInv) (x y : Nat) : (σ.assign x y).RepInv := by
  unfold Store.assign
  split
  · rename_i hempty
    exact h.update (repInv_copyOther (isEmpty_iff.mp hempty) (h y)) x
  · have hclear := h.update repInv_empty x
    refine hclear.update (repInv_copyOther ?_ (hclear y)) x
    rw [clear, Function.update_self]
    rfl

/-- **The step lemma.**  An operation that is fed monads in range, and does not offset an
empty set, succeeds and keeps the invariant of every set in the store. -/
theorem step_repInv (σ : Store) (op : Op) (h : σ.RepInv)
    (hok : op.Fed σ ∧ op.OffsetsElements σ) : ∃ σ', σ.step op = some σ' ∧ σ'.RepInv := by
  obtain ⟨hfed, hoff⟩ := hok
  cases op with
  | addMSE x mse => exact ⟨_, rfl, h.update (addMSE_spec (h x) hfed).1 x⟩
  | addMonad x monad =>
    exact ⟨_, rfl, h.update (addMSE_spec (h x) (show InRange (.single monad) from hfed)).1 x⟩
  | add x first last =>
    obtain ⟨h₁, h₂, h₃⟩ := hfed
    refine ⟨Function.update σ x ((σ x).addMSE ⟨first, last, h₂⟩), ?_,
      h.update (addMSE_spec (h x) ⟨h₁, h₃⟩).1 x⟩
    rw [Store.step, SetOfMonads.add, MonadSetElement.range_of_le h₂]
    rfl
  | unionWith x y => exact ⟨_, rfl, h.update (unionWith_spec (h x) (h y)).1 x⟩
  | difference x y => exact ⟨_, rfl, h.update (difference_spec (h x) (σ y)).1 x⟩
  | removeMSE x b => exact ⟨_, rfl, h.update (removeMSE_spec (h x) b).1 x⟩
  | offset x m =>
    exact ⟨_, rfl, h.update ((offset_repInv_iff (h x) hfed.1 hfed.2).mpr hoff) x⟩
  | clear x => exact ⟨_, rfl, h.update repInv_empty x⟩
  | fromString x instr =>
    obtain ⟨s', hs', hrep⟩ := fromString_repInv (σ x) hfed
    exact ⟨_, by rw [Store.step, hs']; rfl, h.update hrep x⟩
  | copy x y => exact ⟨_, rfl, h.update (repInv_copyOther rfl (h y)) x⟩
  | assign x y => exact ⟨_, rfl, h.assign x y⟩

/-! ## 3. Whole runs -/

/-- **The invariant holds in every state a run reaches**, from new sets, by operations of any
number and in any order that never offset an empty set. -/
theorem run_keeps_repInv (ops : List Op)
    (hok : Machine.Admits Store.step (fun σ op => op.Fed σ ∧ op.OffsetsElements σ)
      Store.start ops) :
    ∃ σ, Machine.run Store.step Store.start ops = some σ ∧ ∀ x, (σ x).RepInv :=
  Machine.run_preserves step_repInv ops Store.start (fun _ => repInv_empty) hok

/-- A run that reads, offsets and subtracts: `{1-3}` moved to `{6-8}`, then `{7}` removed. -/
theorem run_keeps_repInv_example :
    ∃ σ, Machine.run Store.step Store.start
        [.fromString 0 "{ 1-3 }".toList, .offset 0 5, .addMonad 1 7, .difference 0 1] = some σ ∧
      ∀ x, (σ x).RepInv :=
  run_keeps_repInv _ (by decide)

/-- **`offset` on the empty set breaks the invariant, and a later `add` does not mend it**:
after `offset(5)` and `add(2, 3)` on a new set, the only element ends at `3` and the cached
last monad is `5`. -/
theorem offset_empty_breaks :
    Machine.Admits Store.step (fun σ op => op.Fed σ) Store.start [.offset 0 5, .add 0 2 3] ∧
      ∃ σ, Machine.run Store.step Store.start [.offset 0 5, .add 0 2 3] = some σ ∧
        (σ 0).monadMs = [⟨2, 3, by decide⟩] ∧ (σ 0).mLast = 5 ∧ ¬ (σ 0).RepInv :=
  ⟨by decide, _, rfl, by decide, by decide, by decide⟩

end SetOfMonads

end Emdros
