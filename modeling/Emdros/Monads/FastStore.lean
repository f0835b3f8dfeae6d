/-
# Runs of the operations on fast sets of monads

The state is again the store of all variables, so that every operand is itself a result of the
run so far.  `run_keeps_fastRepInv` is the invariant over whole runs; no assertion fires in them, since
the run succeeds.

One operation can lose the invariant: `removeMonadsBefore`, when it cuts an element that is
not the last one.  The element then stands under a key that is not its first monad, and a
later `add` at the old key is dropped by the map, upon which the assertion about the bounds
fires (`removeMonadsBefore_breaks`).
-/
import Emdros.Monads.FastAlgebra
import Emdros.Base.Run
import Mathlib.Logic.Function.Basic

namespace Emdros

namespace FastSetOfMonads

open SetOfMonads (InRange)

/-! ## 1. Operations on a store -/

/-- The fast sets of a program, by variable. -/
abbrev Store := Nat → FastSetOfMonads

/-- One public operation.  `x` is the variable of the set it is called on, `z` that of the set
its result is assigned to. -/
inductive Op where
  | addMSE (x : Nat) (mse : MonadSetElement)
  | addMonad (x : Nat) (monad : Int)
  | add (x : Nat) (first last : Int)
  | removeMSE (x : Nat) (b : MonadSetElement)
  | unionWith (x y : Nat)
  | unionWithSetOfMonads (x : Nat) (other : SetOfMonads)
  | difference (x y : Nat)
  | intersect (z x y : Nat)
  | fillGaps (z x : Nat) (minGap : Int)
  | removeMonadsBefore (z x : Nat) (monad : Int)
  | offset (x : Nat) (m : Int)
  | clear (x : Nat)
  /-- `x = y`, and the copy constructor. -/
  | assign (x y : Nat)
  /-- `x = FastSetOfMonads(other)`. -/
  | ofSetOfMonads (x : Nat) (other : SetOfMonads)

/-- The state in which every set is new. -/
def Store.start : Store := fun _ => empty

/-- One operation; `none` when an assertion fires. -/
def Store.step (σ : Store) : Op → Option Store
  | .addMSE x mse => ((σ x).addMSE mse).map (Function.update σ x)
  | .addMonad x monad => ((σ x).addMonad monad).map (Function.update σ x)
  | .add x first last => ((σ x).add first last).map (Function.update σ x)
  | .removeMSE x b => ((σ x).removeMSE b).map (Function.update σ x)
  | .unionWith x y => ((σ x).unionWith (σ y)).map (Function.update σ x)
  | .unionWithSetOfMonads x other =>
      ((σ x).unionWithSetOfMonads other).map (Function.update σ x)
  | .difference x y => ((σ x).difference (σ y)).map (Function.update σ x)
  | .intersect z x y => (FastSetOfMonads.intersect (σ x) (σ y)).map (Function.update σ z)
  | .fillGaps z x minGap => ((σ x).fillGaps minGap).map (Function.update σ z)
  | .removeMonadsBefore z x monad => ((σ x).removeMonadsBefore monad).map (Function.update σ z)
  | .offset x m => ((σ x).offset m).map (Function.update σ x)
  | .clear x => some (Function.update σ x (σ x).clear)
  | .assign x y => some (Function.update σ x (σ y))
  | .ofSetOfMonads x other => some (Function.update σ x (FastSetOfMonads.ofSetOfMonads other))

/-- What the operations may be fed: elements inside `0 .. MAX_MONAD`, plain sets with their
invariant, and offsets that do not move a monad out of the range. -/
def Op.Fed (σ : Store) : Op → Prop
  | .addMSE _ mse => InRange mse
  | .addMonad _ monad => 0 ≤ monad ∧ monad ≤ maxMonad
  | .add _ first last => 0 ≤ first ∧ first ≤ last ∧ last ≤ maxMonad
  | .unionWithSetOfMonads _ other => other.RepInv
  | .offset x m => ∀ e ∈ (σ x).elements, InRange (e.offset m)
  | .ofSetOfMonads _ other => other.RepInv
  | _ => True

instance (σ : Store) : ∀ op : Op, Decidable (op.Fed σ)
  | .addMSE _ mse => inferInstanceAs (Decidable (InRange mse))
  | .addMonad _ monad => inferInstanceAs (Decidable (0 ≤ monad ∧ monad ≤ maxMonad))
  | .add _ first last =>
    inferInstanceAs (Decidable (0 ≤ first ∧ first ≤ last ∧ last ≤ maxMonad))
  | .unionWithSetOfMonads _ other | .ofSetOfMonads _ other =>
    inferInstanceAs (Decidable other.RepInv)
  | .offset x m => inferInstanceAs (Decidable (∀ e ∈ (σ x).elements, InRange (e.offset m)))
  | .removeMSE _ _ | .unionWith _ _ | .difference _ _ | .intersect _ _ _ | .fillGaps _ _ _
  | .removeMonadsBefore _ _ _ | .clear _ | .assign _ _ => isTrue trivial

/-- The condition under which `removeMonadsBefore` keeps the invariant: `monad` does not lie
inside an element other than the last, past its first monad. -/
def Op.CutsClean (σ : Store) : Op → Prop
  | .removeMonadsBefore _ x monad => ¬ (σ x).CutsInside monad
  | _ => True

instance (σ : Store) : ∀ op : Op, Decidable (op.CutsClean σ)
  | .removeMonadsBefore _ x monad => inferInstanceAs (Decidable (¬ (σ x).CutsInside monad))
  | .addMSE _ _ | .addMonad _ _ | .add _ _ _ | .removeMSE _ _ | .unionWith _ _
  | .unionWithSetOfMonads _ _ | .difference _ _ | .intersect _ _ _ | .fillGaps _ _ _
  | .offset _ _ | .clear _ | .assign _ _ | .ofSetOfMonads _ _ => isTrue trivial

/-! ## 2. One operation -/

/-- All sets of a store have the invariant. -/
def Store.RepInv (σ : Store) : Prop := ∀ x, (σ x).RepInv

theorem Store.RepInv.update {σ : Store} (h : σ.RepInv) {f : FastSetOfMonads} (hf : f.RepInv)
    (x : Nat) : Store.RepInv (Function.update σ x f) := by
  intro y
  by_cases hy : y = x
  · rw [hy, Function.update_self]
    exact hf
  · rw [Function.update_of_ne hy]
    exact h y

/-- An operation that yields the image of an invariant set keeps the store's invariant. -/
theorem Store.RepInv.map_update {σ : Store} (h : σ.RepInv) {r : Option FastSetOfMonads}
    {s : SetOfMonads} (hr : r = some (FastSetOfMonads.ofSetOfMonads s)) (hs : s.RepInv)
    (x : Nat) : ∃ σ' : Store, r.map (Function.update σ x) = some σ' ∧ σ'.RepInv := by
  rw [hr]
  exact ⟨_, rfl, h.update (repInv_ofSetOfMonads hs) x⟩

/-- Adding a range that lies in `0 .. MAX_MONAD`. -/
theorem add_ofSetOfMonads {s : SetOfMonads} (h : s.RepInv) {first last : Int}
    (h₁ : 0 ≤ first) (h₂ : first ≤ last) (h₃ : last ≤ maxMonad) :
    (FastSetOfMonads.ofSetOfMonads s).add first last
      = some (FastSetOfMonads.ofSetOfMonads (s.addMSE ⟨first, last, h₂⟩)) := by
  rw [FastSetOfMonads.add, MonadSetElement.range_of_le h₂, Option.bind_some]
  exact addMSE_ofSetOfMonads h ⟨h₁, h₃⟩

/-- **One operation** keeps the invariant of all sets, and no assertion fires. -/
theorem step_repInv (σ : Store) (op : Op) (h : σ.RepInv) (hok : op.Fed σ ∧ op.CutsClean σ) :
    ∃ σ', σ.step op = some σ' ∧ σ'.RepInv := by
  obtain ⟨hfed, hclean⟩ := hok
  cases op with
  | addMSE x mse =>
    refine h.map_update ?_ (SetOfMonads.addMSE_spec (h x).set hfed).1 x
    rw [(h x).eq_ofSetOfMonads, addMSE_ofSetOfMonads (h x).set hfed, ← (h x).eq_ofSetOfMonads]
  | addMonad x monad =>
    refine h.map_update ?_
      (SetOfMonads.addMSE_spec (h x).set (show InRange ⟨monad, monad, le_refl _⟩ from hfed)).1 x
    rw [(h x).eq_ofSetOfMonads, addMonad,
      add_ofSetOfMonads (h x).set hfed.1 (le_refl _) hfed.2, ← (h x).eq_ofSetOfMonads]
  | add x first last =>
    obtain ⟨h₁, h₂, h₃⟩ := hfed
    refine h.map_update ?_
      (SetOfMonads.addMSE_spec (h x).set (show InRange ⟨first, last, h₂⟩ from ⟨h₁, h₃⟩)).1 x
    rw [(h x).eq_ofSetOfMonads, add_ofSetOfMonads (h x).set h₁ h₂ h₃, ← (h x).eq_ofSetOfMonads]
  | removeMSE x b =>
    refine h.map_update ?_ (SetOfMonads.removeMSE_spec (h x).set b).1 x
    rw [(h x).eq_ofSetOfMonads, removeMSE_ofSetOfMonads (h x).set, ← (h x).eq_ofSetOfMonads]
  | unionWith x y =>
    refine h.map_update ?_ (SetOfMonads.unionWith_spec (h x).set (h y).set).1 x
    rw [(h x).eq_ofSetOfMonads, (h y).eq_ofSetOfMonads,
      unionWith_ofSetOfMonads (h x).set (h y).set, ← (h x).eq_ofSetOfMonads,
      ← (h y).eq_ofSetOfMonads]
  | unionWithSetOfMonads x other =>
    refine h.map_update ?_ (SetOfMonads.unionWith_spec (h x).set hfed).1 x
    rw [(h x).eq_ofSetOfMonads, unionWithSetOfMonads_ofSetOfMonads (h x).set hfed,
      ← (h x).eq_ofSetOfMonads]
  | difference x y =>
    refine h.map_update ?_ (SetOfMonads.difference_spec (h x).set (σ y).asSet).1 x
    rw [(h x).eq_ofSetOfMonads, (h y).eq_ofSetOfMonads,
      difference_ofSetOfMonads (h x).set (h y).set, ← (h x).eq_ofSetOfMonads,
      ← (h y).eq_ofSetOfMonads]
  | intersect z x y =>
    refine h.map_update ?_ (SetOfMonads.intersect_spec (h x).set (h y).set).1 z
    rw [(h x).eq_ofSetOfMonads, (h y).eq_ofSetOfMonads,
      intersect_ofSetOfMonads (h x).set (h y).set, ← (h x).eq_ofSetOfMonads,
      ← (h y).eq_ofSetOfMonads]
  | fillGaps z x minGap =>
    obtain ⟨s', -, hs', hfill⟩ := fillGaps_ofSetOfMonads (h x).set minGap
    rw [← (h x).eq_ofSetOfMonads] at hfill
    exact h.map_update hfill hs' z
  | removeMonadsBefore z x monad =>
    obtain ⟨f', hf', -, hrep⟩ := removeMonadsBefore_spec (h x).set monad
    rw [← (h x).eq_ofSetOfMonads] at hf' hrep
    exact ⟨Function.update σ z f', by rw [Store.step, hf']; rfl, h.update (hrep.mpr hclean) z⟩
  | offset x m =>
    obtain ⟨s', hs', hoff⟩ := offset_ofSetOfMonads (h x).set (m := m) hfed
    rw [← (h x).eq_ofSetOfMonads] at hoff
    exact h.map_update hoff hs' x
  | clear x => exact ⟨_, rfl, h.update repInv_empty x⟩
  | assign x y => exact ⟨_, rfl, h.update (h y) x⟩
  | ofSetOfMonads x other => exact ⟨_, rfl, h.update (repInv_ofSetOfMonads hfed) x⟩

/-! ## 3. Whole runs -/

/-- **The invariant holds in every state a run reaches, and no assertion fires**, in runs of
any operations in any order in which `removeMonadsBefore` never cuts inside an element that is
not the last. -/
theorem run_keeps_fastRepInv (ops : List Op)
    (hok : Machine.Admits Store.step (fun σ op => op.Fed σ ∧ op.CutsClean σ)
      Store.start ops) :
    ∃ σ, Machine.run Store.step Store.start ops = some σ ∧ ∀ x, (σ x).RepInv :=
  Machine.run_preserves step_repInv ops Store.start (fun _ => repInv_empty) hok

/-- A run that merges, cuts the last element and removes. -/
theorem run_keeps_fastRepInv_example :
    ∃ σ, Machine.run Store.step Store.start
        [.add 0 1 5, .add 0 6 9, .removeMonadsBefore 1 0 3, .removeMSE 1 ⟨4, 5, by decide⟩,
          .difference 0 1] = some σ ∧ ∀ x, (σ x).RepInv :=
  run_keeps_fastRepInv _ (by decide)

/-- **Cutting inside an element that is not the last leaves its old key, and a later `add`
makes the assertion fire**: `{1-5, 10-12}` without the monads before `3` has `{3-5}` under the
key `1`, and the map then drops an element that is added at `1`. -/
theorem removeMonadsBefore_breaks :
    Machine.Admits Store.step (fun σ op => op.Fed σ) Store.start
        [.add 0 1 5, .add 0 10 12, .removeMonadsBefore 0 0 3, .add 0 1 1] ∧
      (∃ σ, Machine.run Store.step Store.start
          [.add 0 1 5, .add 0 10 12, .removeMonadsBefore 0 0 3] = some σ ∧ ¬ (σ 0).RepInv) ∧
      Machine.run Store.step Store.start
        [.add 0 1 5, .add 0 10 12, .removeMonadsBefore 0 0 3, .add 0 1 1] = none := by
  refine ⟨by decide, ⟨_, rfl, ?_⟩, by decide⟩
  intro hrep
  exact absurd (hrep.key_eq (1, ⟨3, 5, by decide⟩) (by decide)) (by decide)

end FastSetOfMonads

end Emdros
