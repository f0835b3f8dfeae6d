/-
# What the statements do to the objects

`ObjectChanges` says of each operation of `EMdFDB` what the view of the objects shows after it.  A
statement calls several of them, with checks in between, and each of the checks may end it.  Here
the lemmas are put together, for a backend that works.

Most of what a statement does before it creates or deletes anything only looks things up.  That may
fill the cache of object types with rows of the table and does nothing else that the view shows,
which is the relation `View.Remembers`; it is transitive, so a series of look-ups is one.  Whether
an id is in use, for instance, is asked of one object type after the other
(`sees_objectIDDExists`).

`sees_createObjectFromMonads` is the whole statement.  Either there is one more object, with the
monads that were given, and the bounds and the length are raised to it; or the view remembers more
than before, perhaps with a transaction left open, and nothing else has happened.  The other
statements are done where they are needed, in `DataBounds`.
-/
import Emdros.EMdF.ObjectChanges
import Emdros.MQL.DataStatements

namespace Emdros

open Effect

variable {v : ObjectView}

/-! ## 1. Checks -/

/-- Types are added to the cache, and nothing else changes. -/
structure View.Remembers (v w : ObjectView) : Prop where
  current : w.current = v.current
  saved : w.saved = v.saved
  caches : ∀ n, w.caches n = v.caches n ∨
    v.caches n = none ∧ w.caches n = v.current.objectTypeByName n

namespace View

theorem Remembers.refl (v : ObjectView) : v.Remembers v := ⟨rfl, rfl, fun _ => .inl rfl⟩

theorem Remembers.extends {w : ObjectView} (h : v.Remembers w) : v.Extends w where
  objectTypes := by rw [h.current]
  objects := by rw [h.current]
  saved := h.saved
  caches := h.caches

theorem Remembers.trans {u w : ObjectView} (h : v.Remembers u) (h' : u.Remembers w) :
    v.Remembers w where
  current := h'.current.trans h.current
  saved := h'.saved.trans h.saved
  caches := (h.extends.trans h'.extends).caches

theorem remembers_remember (v : ObjectView) (otn : Name) : v.Remembers (v.remember otn) where
  current := rfl
  saved := rfl
  caches := (extends_remember v otn).caches

end View

theorem sees_check {b : Bool} {Q : Unit → ObjectView → Prop} {E : Failure → ObjectView → Prop}
    (hQ : b = true → Q () v) (hE : E .returnedFalse v) : SeesObjects v (check b) Q E := by
  cases b with
  | true => exact shows_pure (hQ rfl)
  | false => exact shows_stop hE

theorem sees_orStop {α : Type} {o : Option α} {Q : α → ObjectView → Prop}
    {E : Failure → ObjectView → Prop} (hQ : ∀ a, o = some a → Q a v) (hE : E .returnedFalse v) :
    SeesObjects v (orStop o) Q E := by
  cases o with
  | some a => exact shows_pure (hQ a rfl)
  | none => exact shows_stop hE

/-- The monads of a statement that goes on. -/
def IsMonadsOf (monadSet : List MQLMonadSetElement) (monads : SetOfMonads) : Prop :=
  MQLMonadSetElement.weed monadSet true = .ok () ∧
    MQLMonadSetElement.monadsBuildSet monadSet .empty = some monads

theorem sees_monadsOf (monadSet : List MQLMonadSetElement) :
    SeesObjects v (monadsOf monadSet) (fun monads w => IsMonadsOf monadSet monads ∧ w = v)
      fun _ w => w = v := by
  unfold monadsOf
  cases hw : MQLMonadSetElement.weed monadSet true with
  | error e => exact shows_stop rfl
  | ok u =>
    cases u
    exact sees_orStop (fun monads hm => ⟨⟨hw, hm⟩, rfl⟩) rfl

theorem sees_objectIDDExistsIn (objectIdD : Int) : ∀ (names : List Name) {v : ObjectView},
    SeesObjects v (objectIDDExistsIn objectIdD names) (fun _ w => v.Remembers w)
      fun _ w => v.Remembers w
  | [], v => shows_pure (.refl v)
  | name :: names, v => by
    refine Shows.bind ((sees_objectTypeExists v name).mono (fun _ _ hw => hw)
      fun _ _ hw => hw.elim) fun _ w hw => ?_
    obtain ⟨-, rfl⟩ := hw
    have hr := View.remembers_remember v (normalizeOTName name)
    have hsel : IgnoresObjects (objectIDDExistsInType objectIdD name) := ignores_execSelect
    refine hsel.then hr fun b => ?_
    cases b with
    | true => exact shows_pure hr
    | false =>
      exact (sees_objectIDDExistsIn objectIdD names).mono (fun _ _ hw => hr.trans hw)
        fun _ _ hw => hr.trans hw

theorem sees_objectIDDExists (objectIdD : Int) :
    SeesObjects v (objectIDDExists objectIdD) (fun _ w => v.Remembers w)
      fun _ w => v.Remembers w := by
  have hsel : QuietForObjects (Effect.handle getObjectTypes fun _ => pure []) :=
    Quiet.handle quiet_selectRows
  exact hsel.then fun names => sees_objectIDDExistsIn objectIdD names

theorem sees_checkNewId (withIdD : Int) :
    SeesObjects v (checkNewId withIdD) (fun _ w => v.Remembers w) fun _ w => v.Remembers w := by
  unfold checkNewId
  by_cases h : withIdD = nil
  · rw [if_pos h]
    exact shows_pure (.refl v)
  · rw [if_neg h]
    exact Shows.bind (sees_objectIDDExists withIdD) fun b w hw => sees_check (fun _ => hw) hw

theorem quiet_newId (withIdD : Int) : QuietForObjects (newId withIdD) :=
  Quiet.ite ((quiet_getNextID .objectIdDs).bind fun _ => quiet_pure)
    ((quiet_setNextObjectIDDIfNotHigher _).bind fun _ => quiet_pure)

theorem quiet_updateAllM1 : QuietForObjects updateAllM1 := by
  have hmin : QuietForObjects getMinM := fun _ => sees_getMinM.mono (fun _ _ h => h.2) fun _ _ h => h
  have hmax : QuietForObjects getMaxM := fun _ => sees_getMaxM.mono (fun _ _ h => h.2) fun _ _ h => h
  exact Quiet.bind (hmin.bind fun _ => hmax.bind fun _ => Quiet.ite quiet_pure quiet_pure)
    fun _ => quiet_pure

/-! ## 2. Creating objects -/

/-- `CREATE OBJECT` creates one object, or changes nothing but that a transaction may stay open. -/
theorem sees_createObjectFromMonads (name : Name) (withIdD : Int)
    (monadSet : List MQLMonadSetElement) (assignments : List (Name × Name)) :
    SeesObjects v (createObjectFromMonads name withIdD monadSet assignments)
      (fun _ w => ∃ (u : ObjectView) (row : ObjectTypeRow) (monads : SetOfMonads) (o : ObjectRow),
        v.Remembers u ∧ u.caches (normalizeOTName name) = some row ∧
        IsMonadsOf monadSet monads ∧ fitsRangeType row.objectRangeType monads = true ∧
        (u.current.objectRows (normalizeOTName name)).isSome ∧
        (∃ idD values, o = newRow idD monads row.objectRangeType values) ∧
        w = (u.create (normalizeOTName name) o monads).raise (normalizeOTName name) row
          (monadsLength monads))
      fun _ w => ∃ u, v.Remembers u ∧ (w = u ∨ w = u.begun) := by
  unfold createObjectFromMonads
  refine Shows.bind ((sees_monadsOf monadSet).mono (fun _ _ hw => hw)
    fun _ _ hw => ⟨v, .refl v, .inl hw⟩) fun monads w hw => ?_
  obtain ⟨hm, rfl⟩ := hw
  refine Shows.bind ((sees_checkNewId withIdD).mono (fun _ _ hw => hw)
    fun _ u hu => ⟨u, hu, .inl rfl⟩) fun _ u₁ hu₁ => ?_
  refine Shows.bind ((sees_objectTypeExists u₁ name).mono (fun _ _ hw => hw)
    fun _ _ hw => hw.elim) fun found u₂ hu₂ => ?_
  obtain ⟨rfl, rfl⟩ := hu₂
  have hr := hu₁.trans (View.remembers_remember u₁ (normalizeOTName name))
  refine Shows.bind (sees_orStop (Q := fun row u => u = u₁.remember (normalizeOTName name) ∧
    u.caches (normalizeOTName name) = some row) (fun row hrow => ⟨rfl, ?_⟩) ⟨_, hr, .inl rfl⟩)
    fun row u hu => ?_
  · rw [View.remember_caches_self, hrow]
  · obtain ⟨rfl, hc⟩ := hu
    refine (quiet_getFeaturesForObjectType row.objectTypeId).then fun infos => ?_
    refine Shows.bind (sees_orStop (Q := fun _ u => u = u₁.remember (normalizeOTName name))
      (fun _ _ => rfl) ⟨_, hr, .inl rfl⟩) fun features u hu => ?_
    subst hu
    refine Shows.bind (sees_check (Q := fun _ u => u = u₁.remember (normalizeOTName name) ∧
      fitsRangeType row.objectRangeType monads = true) (fun h => ⟨rfl, h⟩) ⟨_, hr, .inl rfl⟩)
      fun _ u hu => ?_
    obtain ⟨rfl, hfits⟩ := hu
    refine (quiet_newId withIdD).then fun idD => ?_
    refine Shows.bind ((sees_createObject hc rfl idD row.objectTypeId monads row.objectRangeType
      features).mono (fun _ _ hw => hw) fun _ _ hw => ⟨_, hr, hw⟩) fun _ w' hw' => ?_
    obtain ⟨hrows, values, rfl⟩ := hw'
    refine (quiet_updateAllM1 _).mono (fun _ w' hw' => ?_) fun _ _ hw => hw.elim
    exact ⟨_, row, monads, _, hr, hc, hm, hfits, hrows, ⟨idD, values, rfl⟩, hw'⟩

end Emdros
