/-
# What the statements keep of the bounds

A query looks for objects between `min_m` and `max_m`, and for an object that reaches into a range
it goes back by the length that is stored for its type.  So no object may lie outside the bounds or
be longer than that length, and the cache of object types may have nothing that is not in the
table.

`View.Bounded` says this of what is shown of the objects.  Every statement keeps it, but for
`ABORT TRANSACTION`, which leaves the cache alone, and for what fails in a transaction when it has
stored a part.
-/
import Emdros.Base.Run
import Emdros.MQL.StatementView

namespace Emdros

open Effect

/-! ## 1. The invariant -/

/-- The objects are within the bounds that are stored, and the cache has rows of the table. -/
structure View.Bounded (v : ObjectView) : Prop where
  sound : v.current.Sound
  cached : ∀ n row, v.caches n = some row →
    row ∈ v.current.objectTypes ∧ row.objectTypeName = n
  lengths : ∀ r ∈ v.current.objectTypes, ∀ o ∈ v.current.objectsOf r.objectTypeName,
    o.length ≤ r.largestObjectLength
  within : ∀ o ∈ v.current.allObjects,
    v.current.minM ≤ o.firstMonad ∧ o.lastMonad ≤ v.current.maxM

namespace View.Bounded

variable {v w : ObjectView} {otn : Name} {row : ObjectTypeRow}

theorem toSound (h : v.Bounded) : v.Sound where
  current := h.sound
  cached r hr row hc := by
    obtain ⟨hrow, hname⟩ := h.cached _ _ hc
    rw [h.sound.eq_of_name hrow hr hname]
    exact ⟨rfl, rfl⟩

theorem mem_allObjects {s : Stored} {o : ObjectRow} :
    o ∈ s.allObjects ↔ ∃ r ∈ s.objectTypes, o ∈ s.objectsOf r.objectTypeName :=
  List.mem_flatMap

/-- Which transaction is open does not matter. -/
theorem of_eq (h : v.Bounded) (hcur : w.current = v.current) (hca : w.caches = v.caches) :
    w.Bounded where
  sound := hcur ▸ h.sound
  cached := by rw [hcur, hca]; exact h.cached
  lengths := by rw [hcur]; exact h.lengths
  within := by rw [hcur]; exact h.within

/-- Other bounds, of which the objects are within. -/
theorem extends_of (h : v.Bounded) (hw : v.Extends w)
    (hb : ∀ o ∈ v.current.allObjects,
      w.current.minM ≤ o.firstMonad ∧ o.lastMonad ≤ w.current.maxM) : w.Bounded where
  sound := h.sound.of_eq hw.objectTypes hw.objects
  cached n row hc := by
    rw [hw.objectTypes]
    rcases hw.caches n with hn | ⟨-, hn⟩
    · exact h.cached n row (hn.symm.trans hc)
    · exact Stored.objectTypeByName_some (hn.symm.trans hc)
  lengths r hr o ho := by
    rw [hw.objectTypes] at hr
    rw [hw.objectsOf] at ho
    exact h.lengths r hr o ho
  within o ho := hb o (hw.allObjects ▸ ho)

theorem extends_of_eq (h : v.Bounded) (hw : v.Extends w)
    (hmin : w.current.minM = v.current.minM) (hmax : w.current.maxM = v.current.maxM) :
    w.Bounded :=
  h.extends_of hw fun o ho => by
    rw [hmin, hmax]
    exact h.within o ho

/-- Exact bounds are bounds. -/
theorem extends_of_exact (h : v.Bounded) (hw : v.Extends w) (he : w.Exact) : w.Bounded := by
  refine h.extends_of hw fun o ho => ?_
  rw [← hw.allObjects] at ho
  rw [he.1, he.2]
  exact ⟨(le_lowest.mp (le_refl _)).2 o ho, (highest_le.mp (le_refl _)).2 o ho⟩

theorem remembers (h : v.Bounded) (hw : v.Remembers w) : w.Bounded :=
  h.extends_of_eq hw.extends (by rw [hw.current]) (by rw [hw.current])

/-- Objects that are left are as they were. -/
theorem filterRows (h : v.Bounded) (hrow : row ∈ v.current.objectTypes) (p : ObjectRow → Bool) :
    (v.setRows row.objectTypeName fun rows => rows.filter p).Bounded := by
  have hsub : ∀ n, ∀ o ∈ (v.current.setRows row.objectTypeName fun rows =>
      rows.filter p).objectsOf n, o ∈ v.current.objectsOf n := by
    intro n o ho
    rw [h.sound.objectsOf_setRows hrow] at ho
    split at ho
    · exact List.mem_of_mem_filter ho
    · exact ho
  refine ⟨(h.toSound.filterRows _ p).current, h.cached, fun r hr o ho => ?_, fun o ho => ?_⟩
  · exact h.lengths r hr o (hsub _ o ho)
  · obtain ⟨r, hr, ho⟩ := mem_allObjects.mp ho
    exact h.within o (mem_allObjects.mpr ⟨r, hr, hsub _ o ho⟩)

/-- Another length that is great enough. -/
theorem setLength (h : v.Bounded) {length : Int}
    (hl : ∀ o ∈ v.current.objectsOf otn, o.length ≤ length) :
    (v.setLength otn length).Bounded := by
  have hmem : ∀ r ∈ (v.current.setLength otn length).objectTypes, ∃ r₀ ∈ v.current.objectTypes,
      r = if r₀.objectTypeName = otn then { r₀ with largestObjectLength := length } else r₀ := by
    intro r hr
    obtain ⟨r₀, hr₀, rfl⟩ := List.mem_map.mp hr
    exact ⟨r₀, hr₀, rfl⟩
  have hname : ∀ r₀ : ObjectTypeRow, (if r₀.objectTypeName = otn then
      { r₀ with largestObjectLength := length } else r₀).objectTypeName = r₀.objectTypeName := by
    intro r₀
    split <;> rfl
  have hid : ∀ r₀ : ObjectTypeRow, (if r₀.objectTypeName = otn then
      { r₀ with largestObjectLength := length } else r₀).objectTypeId = r₀.objectTypeId := by
    intro r₀
    split <;> rfl
  refine ⟨⟨?_, ?_, ?_, fun n => ?_, ?_⟩, ?_, ?_, ?_⟩
  · intro r hr
    obtain ⟨r₀, hr₀, rfl⟩ := hmem r hr
    rw [hname]
    exact h.sound.normalized r₀ hr₀
  · have hmap : (v.current.setLength otn length).objectTypes.map ObjectTypeRow.objectTypeName =
        v.current.objectTypes.map ObjectTypeRow.objectTypeName := by
      simp [Stored.setLength, Function.comp_def, hname]
    exact hmap ▸ h.sound.names
  · have hmap : (v.current.setLength otn length).objectTypes.map ObjectTypeRow.objectTypeId =
        v.current.objectTypes.map ObjectTypeRow.objectTypeId := by
      simp [Stored.setLength, Function.comp_def, hid]
    exact hmap ▸ h.sound.ids
  · refine (h.sound.tables n).trans ⟨?_, ?_⟩
    · rintro ⟨r₀, hr₀, rfl⟩
      exact ⟨_, List.mem_map_of_mem hr₀, hname r₀⟩
    · rintro ⟨r, hr, rfl⟩
      obtain ⟨r₀, hr₀, rfl⟩ := hmem r hr
      exact ⟨r₀, hr₀, (hname r₀).symm⟩
  · intro r hr hs o ho
    obtain ⟨r₀, hr₀, rfl⟩ := hmem r hr
    rw [hname] at ho
    refine h.sound.singles r₀ hr₀ ?_ o ho
    rw [← hs]
    split <;> rfl
  · intro n row hc
    by_cases hn : n = otn
    · subst hn
      obtain ⟨r₀, hr₀, rfl⟩ : ∃ r₀, v.caches n = some r₀ ∧
          { r₀ with largestObjectLength := length } = row := by
        simpa [View.setLength] using hc
      obtain ⟨hmem₀, hname₀⟩ := h.cached n r₀ hr₀
      exact ⟨List.mem_map.mpr ⟨r₀, hmem₀, if_pos hname₀⟩, hname₀⟩
    · have hc' : v.caches n = some row := by simpa [View.setLength, hn] using hc
      obtain ⟨hmem₀, hname₀⟩ := h.cached n row hc'
      exact ⟨List.mem_map.mpr ⟨row, hmem₀, if_neg (hname₀ ▸ hn)⟩, hname₀⟩
  · intro r hr o ho
    obtain ⟨r₀, hr₀, rfl⟩ := hmem r hr
    rw [hname] at ho
    by_cases hn : r₀.objectTypeName = otn
    · rw [if_pos hn]
      exact hl o (hn ▸ ho)
    · rw [if_neg hn]
      exact h.lengths r₀ hr₀ o ho
  · intro o ho
    obtain ⟨r, hr, ho⟩ := mem_allObjects.mp ho
    obtain ⟨r₀, hr₀, rfl⟩ := hmem r hr
    rw [hname] at ho
    exact h.within o (mem_allObjects.mpr ⟨r₀, hr₀, ho⟩)

/-- New objects that are not too long, with the bounds widened to them. -/
theorem appendRows (h : v.Bounded) (hrow : row ∈ v.current.objectTypes) {rows : List ObjectRow}
    {first last : Int}
    (hnew : ∀ o ∈ rows, first ≤ o.firstMonad ∧ o.lastMonad ≤ last ∧
      o.length ≤ row.largestObjectLength ∧
      (row.objectRangeType = .singleMonad → o.lastMonad = o.firstMonad)) :
    (((v.setRows row.objectTypeName fun old => old ++ rows).setMin first false).setMax last
      false).Bounded := by
  have hmem : ∀ n, ∀ o ∈ (v.current.setRows row.objectTypeName fun old =>
      old ++ rows).objectsOf n, o ∈ v.current.objectsOf n ∨ n = row.objectTypeName ∧ o ∈ rows := by
    intro n o ho
    rw [h.sound.objectsOf_setRows hrow] at ho
    split at ho
    · next hn => exact (List.mem_append.mp ho).imp id fun ho => ⟨hn, ho⟩
    · exact .inl ho
  have hext := (extends_setMin (v.setRows row.objectTypeName fun old => old ++ rows) first
    false).trans (extends_setMax _ last false)
  refine ⟨?_, fun n row hc => ?_, fun r hr o ho => ?_, fun o ho => ?_⟩
  · refine Stored.Sound.of_eq (h.sound.setRows (f := fun old => old ++ rows) ?_)
      hext.objectTypes hext.objects
    intro r hr hn hs o ho
    obtain rfl := h.sound.eq_of_name hr hrow hn
    exact (List.mem_append.mp ho).elim (h.sound.singles r hr hs o) fun ho => (hnew o ho).2.2.2 hs
  · rw [hext.objectTypes]
    rcases hext.caches n with hn | ⟨-, hn⟩
    · exact h.cached n row (hn.symm.trans hc)
    · exact Stored.objectTypeByName_some (hn.symm.trans hc)
  · rw [hext.objectTypes] at hr
    rw [hext.objectsOf] at ho
    rcases hmem _ o ho with hold | ⟨hn, hadded⟩
    · exact h.lengths r hr o hold
    · obtain rfl := h.sound.eq_of_name hr hrow hn
      exact (hnew o hadded).2.2.1
  · rw [setMax_minM, setMin_minM, setMax_maxM, setMin_maxM]
    rw [hext.allObjects] at ho
    obtain ⟨r, hr, ho⟩ := mem_allObjects.mp ho
    rcases hmem _ o ho with ho | ⟨-, ho⟩
    · obtain ⟨hlo, hhi⟩ := h.within o (mem_allObjects.mpr ⟨r, hr, ho⟩)
      exact ⟨min_le_of_right_le hlo, le_max_of_le_right hhi⟩
    · obtain ⟨hlo, hhi, -⟩ := hnew o ho
      exact ⟨min_le_of_left_le hlo, le_max_of_le_left hhi⟩

theorem raise_setRows (f : List ObjectRow → List ObjectRow) (length : Int) :
    (v.setRows otn f).raise otn row length = (v.raise otn row length).setRows otn f := by
  unfold raise
  split <;> rfl

theorem raise_setMin (m length : Int) :
    (v.setMin m false).raise otn row length = (v.raise otn row length).setMin m false := by
  unfold raise
  split
  · exact apply_ite (View.setLength · otn length) _ _ _
  · rfl

theorem raise_setMax (m length : Int) :
    (v.setMax m false).raise otn row length = (v.raise otn row length).setMax m false := by
  unfold raise
  split
  · exact apply_ite (View.setLength · otn length) _ _ _
  · rfl

/-- **New objects**, with the bounds widened to them and the length raised. -/
theorem append (h : v.Bounded) (hrow : row ∈ v.current.objectTypes) {rows : List ObjectRow}
    {first last length : Int}
    (hnew : ∀ o ∈ rows, first ≤ o.firstMonad ∧ o.lastMonad ≤ last ∧ o.length ≤ length ∧
      (row.objectRangeType = .singleMonad → o.lastMonad = o.firstMonad)) :
    ((((v.setRows row.objectTypeName fun old => old ++ rows).setMin first false).setMax last
      false).raise row.objectTypeName row length).Bounded := by
  rw [raise_setMax, raise_setMin, raise_setRows]
  by_cases hl : row.largestObjectLength < length
  · rw [raise, if_pos hl]
    have hraised : (v.setLength row.objectTypeName length).Bounded :=
      h.setLength fun o ho => (h.lengths row hrow o ho).trans hl.le
    have hrow' : { row with largestObjectLength := length } ∈
        (v.setLength row.objectTypeName length).current.objectTypes :=
      List.mem_map.mpr ⟨row, hrow, if_pos rfl⟩
    exact hraised.appendRows hrow' hnew
  · rw [raise, if_neg hl]
    refine h.appendRows hrow fun o ho => ?_
    obtain ⟨hlo, hhi, hlen, hs⟩ := hnew o ho
    exact ⟨hlo, hhi, hlen.trans (not_lt.mp hl), hs⟩

/-- An object type more, without objects. -/
theorem addType (h : v.Bounded) (hf : v.current.Fresh row) (k : MonadUniquenessType) :
    ((v.addType row k).cache row.objectTypeName (some row)).Bounded := by
  have hmem : ∀ n, ∀ o ∈ (v.current.addType row k).objectsOf n, o ∈ v.current.objectsOf n := by
    intro n o ho
    rw [Stored.objectsOf_eq, Stored.objectRows_addType] at ho
    split at ho
    · cases ho
    · exact ho
  refine ⟨h.sound.addType hf k, fun n r hc => ?_, fun r hr o ho => ?_, fun o ho => ?_⟩
  · by_cases hn : n = row.objectTypeName
    · obtain rfl : row = r := by simpa [View.cache, hn] using hc
      exact ⟨by simp [View.cache, View.addType, Stored.addType], hn.symm⟩
    · have hc' : v.caches n = some r := by simpa [View.cache, View.addType, hn] using hc
      obtain ⟨hr, hname⟩ := h.cached n r hc'
      exact ⟨List.mem_append_left _ hr, hname⟩
  · rcases List.mem_append.mp hr with hr | hr
    · exact h.lengths r hr o (hmem _ o ho)
    · rw [List.mem_singleton.mp hr] at ho
      have hnone : (v.current.addType row k).objectsOf row.objectTypeName = [] := by
        rw [Stored.objectsOf_eq, Stored.objectRows_addType, if_pos rfl]
        rfl
      change o ∈ (v.current.addType row k).objectsOf row.objectTypeName at ho
      rw [hnone] at ho
      cases ho
  · obtain ⟨r, hr, ho⟩ := mem_allObjects.mp ho
    rcases List.mem_append.mp hr with hr | hr
    · exact h.within o (mem_allObjects.mpr ⟨r, hr, hmem _ o ho⟩)
    · rw [List.mem_singleton.mp hr] at ho
      have hnone : (v.current.addType row k).objectsOf row.objectTypeName = [] := by
        rw [Stored.objectsOf_eq, Stored.objectRows_addType, if_pos rfl]
        rfl
      change o ∈ (v.current.addType row k).objectsOf row.objectTypeName at ho
      rw [hnone] at ho
      cases ho

/-- An object type less. -/
theorem dropType (h : v.Bounded) (hrow : row ∈ v.current.objectTypes) :
    (View.cache { v with current := v.current.dropType row.objectTypeName row.objectTypeId }
      row.objectTypeName none).Bounded := by
  have hmem : ∀ n, ∀ o ∈ (v.current.dropType row.objectTypeName row.objectTypeId).objectsOf n,
      o ∈ v.current.objectsOf n := by
    intro n o ho
    rw [Stored.objectsOf_eq, Stored.objectRows_dropType] at ho
    split at ho
    · cases ho
    · exact ho
  refine ⟨h.sound.dropType hrow, fun n r hc => ?_, fun r hr o ho => ?_, fun o ho => ?_⟩
  · by_cases hn : n = row.objectTypeName
    · simp [View.cache, hn] at hc
    · have hc' : v.caches n = some r := by simpa [View.cache, hn] using hc
      obtain ⟨hr, hname⟩ := h.cached n r hc'
      refine ⟨List.mem_filter.mpr ⟨hr, ?_⟩, hname⟩
      simp only [bne_iff_ne]
      intro hid
      exact hn (hname.symm.trans (congrArg _ (h.sound.eq_of_id hr hrow hid)))
  · exact h.lengths r (List.mem_of_mem_filter hr) o (hmem _ o ho)
  · obtain ⟨r, hr, ho⟩ := mem_allObjects.mp ho
    exact h.within o (mem_allObjects.mpr ⟨r, List.mem_of_mem_filter hr, hmem _ o ho⟩)

end View.Bounded

/-! ## 2. Statements -/

/-- The bounds are kept by what succeeds and by what fails. -/
def KeepsBounds {α : Type} (x : DB α) : Prop :=
  ∀ v : ObjectView, v.Bounded → SeesObjects v x (fun _ w => w.Bounded) fun _ w => w.Bounded

/-- The bounds are kept by what succeeds, and by what fails under a condition. -/
def KeepsBoundsIf {α : Type} (C : ObjectView → ObjectView → Prop) (x : DB α) : Prop :=
  ∀ v : ObjectView, v.Bounded → SeesObjects v x (fun _ w => w.Bounded) fun _ w => C v w → w.Bounded

section Statements

variable {v w : ObjectView} {otn : Name} {row : ObjectTypeRow}

/-- The row of a new object is within the monads that it is given. -/
theorem newRow_within {monads : SetOfMonads} {t : ObjectRangeType}
    (hfits : fitsRangeType t monads = true) (idD : Int) (values : List (Name × SqlValue)) :
    monads.first ≤ (newRow idD monads t values).firstMonad ∧
      (newRow idD monads t values).lastMonad ≤ monads.last ∧
      (newRow idD monads t values).length ≤ monadsLength monads ∧
      (t = .singleMonad →
        (newRow idD monads t values).lastMonad = (newRow idD monads t values).firstMonad) := by
  have hsingle : t = .singleMonad → monads.first = monads.last := by
    rintro rfl
    simpa [fitsRangeType] using hfits
  by_cases ht : t = .singleMonad
  · have heq := hsingle ht
    simp only [newRow, ht, if_true, ObjectRow.length, monadsLength, ← heq]
    exact ⟨le_refl _, le_refl _, le_refl _, fun _ => trivial⟩
  · simp only [newRow, if_neg ht, ObjectRow.length, monadsLength]
    exact ⟨le_refl _, le_refl _, le_refl _, fun hs => absurd hs ht⟩

theorem keepsBounds_createObjectFromMonads (name : Name) (withIdD : Int)
    (monadSet : List MQLMonadSetElement) (assignments : List (Name × Name)) :
    KeepsBounds (createObjectFromMonads name withIdD monadSet assignments) := by
  intro v h
  refine (sees_createObjectFromMonads name withIdD monadSet assignments).mono
    (fun _ w hw => ?_) fun _ w hw => ?_
  · obtain ⟨u, row, monads, o, hu, hc, -, hfits, -, ⟨idD, values, rfl⟩, rfl⟩ := hw
    have hub := h.remembers hu
    obtain ⟨hrow, hname⟩ := hub.cached _ _ hc
    rw [← hname]
    refine hub.append hrow fun o ho => ?_
    rw [List.mem_singleton.mp ho]
    exact newRow_within hfits idD values
  · obtain ⟨u, hu, rfl | rfl⟩ := hw
    · exact h.remembers hu
    · exact (h.remembers hu).of_eq rfl rfl

theorem View.raise_saved (length : Int) : (v.raise otn row length).saved = v.saved := by
  unfold View.raise
  split <;> rfl

/-- The objects of a batch have monads that fit the type. -/
theorem sees_batchObjects (infos : List FeatureInfo) (t : ObjectRangeType) :
    ∀ (specs : List ObjectSpecNoOT) {v : ObjectView}, SeesObjects v (batchObjects infos t specs)
      (fun os w => w = v ∧ ∀ o ∈ os, fitsRangeType t o.monads = true) fun _ w => w = v
  | [], _ => shows_pure ⟨rfl, List.forall_mem_nil _⟩
  | spec :: specs, v => by
    have hone : SeesObjects v (spec.batchObject infos t)
        (fun o w => w = v ∧ fitsRangeType t o.monads = true) fun _ w => w = v := by
      refine Shows.bind (sees_orStop (Q := fun _ w => w = v) (fun _ _ => rfl) rfl)
        fun features w hw => ?_
      subst hw
      refine Shows.bind ((sees_monadsOf spec.monadSet).mono (fun _ _ hw => hw.2)
        fun _ _ hw => hw) fun monads w' hw => ?_
      subst hw
      refine Shows.bind (sees_check (Q := fun _ w => w = w' ∧ fitsRangeType t monads = true)
        (fun hb => ⟨rfl, hb⟩) rfl) fun _ w hw => ?_
      exact shows_pure ⟨hw.1, hw.2⟩
    refine Shows.bind (hone.mono (fun _ _ hw => hw) fun _ _ hw => hw) fun o w hw => ?_
    obtain ⟨rfl, ho⟩ := hw
    refine Shows.bind ((sees_batchObjects infos t specs).mono (fun _ _ hw => hw)
      fun _ _ hw => hw) fun os w' hw => ?_
    exact shows_pure ⟨hw.1, List.forall_mem_cons.mpr ⟨ho, hw.2⟩⟩

/-- Ids are given, and the monads stay. -/
theorem sees_giveIds : ∀ (os : List BatchObject) {v : ObjectView}, SeesObjects v (giveIds os)
    (fun os' w => w = v ∧ ∀ o' ∈ os', ∃ o ∈ os, o'.monads = o.monads) fun _ _ => False
  | [], _ => shows_pure ⟨rfl, List.forall_mem_nil _⟩
  | o :: os, v => by
    have hrest : ∀ idD : Int, SeesObjects v (do
        let os ← giveIds os
        pure ({ o with idD := idD } :: os))
        (fun os' w => w = v ∧ ∀ o' ∈ os', ∃ p ∈ o :: os, o'.monads = p.monads)
        fun _ _ => False := by
      intro idD
      refine Shows.bind (sees_giveIds os) fun os' w hw => shows_pure ⟨hw.1, ?_⟩
      refine List.forall_mem_cons.mpr ⟨⟨o, List.mem_cons_self, rfl⟩, fun o' ho' => ?_⟩
      obtain ⟨p, hp, heq⟩ := hw.2 o' ho'
      exact ⟨p, List.mem_cons_of_mem o hp, heq⟩
    have hid : QuietForObjects getNextObjectIDD :=
      (quiet_getNextID .objectIdDs).bind fun _ => quiet_pure
    unfold giveIds
    by_cases hnil : o.idD = nil
    · simp only [hnil, if_true]
      exact hid.then hrest
    · simp only [hnil, if_false]
      exact hrest o.idD

/-- The candidates of a batch hold for each of its objects. -/
theorem batchBounds_spec {b : BatchBounds} {os : List BatchObject} :
    (os.foldl BatchBounds.add b).minM ≤ b.minM ∧ b.maxM ≤ (os.foldl BatchBounds.add b).maxM ∧
      b.largestObjectLength ≤ (os.foldl BatchBounds.add b).largestObjectLength ∧
      ∀ o ∈ os, (os.foldl BatchBounds.add b).minM ≤ o.monads.first ∧
        o.monads.last ≤ (os.foldl BatchBounds.add b).maxM ∧
        monadsLength o.monads ≤ (os.foldl BatchBounds.add b).largestObjectLength := by
  induction os generalizing b with
  | nil => exact ⟨le_refl _, le_refl _, le_refl _, List.forall_mem_nil _⟩
  | cons o os ih =>
    obtain ⟨hmin, hmax, hlen, hrest⟩ := @ih (b.add o)
    have hadd : (b.add o).minM ≤ b.minM ∧ (b.add o).minM ≤ o.monads.first ∧
        b.maxM ≤ (b.add o).maxM ∧ o.monads.last ≤ (b.add o).maxM ∧
        b.largestObjectLength ≤ (b.add o).largestObjectLength ∧
        monadsLength o.monads ≤ (b.add o).largestObjectLength := by
      simp only [BatchBounds.add]
      refine ⟨?_, ?_, ?_, ?_, ?_, ?_⟩ <;> split <;> omega
    rw [List.foldl_cons]
    refine ⟨hmin.trans hadd.1, hadd.2.2.1.trans hmax, hadd.2.2.2.2.1.trans hlen, ?_⟩
    refine List.forall_mem_cons.mpr ⟨⟨hmin.trans hadd.2.1, hadd.2.2.2.1.trans hmax,
      hadd.2.2.2.2.2.trans hlen⟩, hrest⟩

theorem exists_batchObject {t : ObjectRangeType} {os : List BatchObject} {rows : List ObjectRow}
    (h : List.Forall₂ (IsRowOf t) os rows) {o : ObjectRow} (ho : o ∈ rows) :
    ∃ b ∈ os, IsRowOf t b o := by
  induction h with
  | nil => cases ho
  | @cons b p os rows hbp _ ih =>
    rcases List.mem_cons.mp ho with rfl | ho
    · exact ⟨b, List.mem_cons_self, hbp⟩
    · obtain ⟨b', hb', hbo⟩ := ih ho
      exact ⟨b', List.mem_cons_of_mem b hb', hbo⟩

/-- **A batch.** -/
theorem Bounded.appendBatch (h : v.Bounded) (hrow : row ∈ v.current.objectTypes)
    {os : List BatchObject} (hfits : ∀ o ∈ os, fitsRangeType row.objectRangeType o.monads = true)
    {rows : List ObjectRow} (hrows : List.Forall₂ (IsRowOf row.objectRangeType) os rows) :
    ((((v.setRows row.objectTypeName fun old => old ++ rows).setMin
      (os.foldl BatchBounds.add .start).minM false).setMax
      (os.foldl BatchBounds.add .start).maxM false).raise row.objectTypeName row
      (os.foldl BatchBounds.add .start).largestObjectLength).Bounded := by
  refine h.append hrow fun o ho => ?_
  obtain ⟨b, hb, values, rfl⟩ := exists_batchObject hrows ho
  obtain ⟨hlo, hhi, hlen, hs⟩ := newRow_within (hfits b hb) b.idD values
  obtain ⟨hmin, hmax, hlargest⟩ := (@batchBounds_spec .start os).2.2.2 b hb
  exact ⟨hmin.trans hlo, hhi.trans hmax, hlen.trans hlargest, hs⟩

/-- A batch that fails leaves nothing behind where no transaction is open before and after it. -/
theorem keepsBounds_createObjects (name : Name) (specs : List ObjectSpecNoOT) :
    KeepsBoundsIf (fun v w => v.saved = none ∧ w.saved = none)
      (createObjectsStatement name specs) := by
  intro v h
  unfold createObjectsStatement
  refine Shows.bind ((sees_objectTypeExists v name).mono (fun _ _ hw => hw)
    fun _ _ hw => hw.elim) fun found u hu => ?_
  obtain ⟨rfl, rfl⟩ := hu
  have hr := View.remembers_remember v (normalizeOTName name)
  have hub := h.remembers hr
  refine Shows.bind (sees_orStop (Q := fun row u => u = v.remember (normalizeOTName name) ∧
    u.caches (normalizeOTName name) = some row) (fun row hrow => ⟨rfl, ?_⟩) fun _ => hub)
    fun row u hu => ?_
  · rw [View.remember_caches_self, hrow]
  · obtain ⟨rfl, hc⟩ := hu
    obtain ⟨hrow, hname⟩ := hub.cached _ _ hc
    refine (quiet_getFeaturesForObjectType row.objectTypeId).then fun infos => ?_
    refine Shows.bind ((sees_batchObjects _ row.objectRangeType specs).mono (fun _ _ hw => hw)
      fun _ w hw _ => by rw [hw]; exact hub) fun os u hu => ?_
    obtain ⟨rfl, hfits⟩ := hu
    have hbegun : (v.remember (normalizeOTName name)).begun.Bounded := hub.of_eq rfl rfl
    refine Shows.bind (Q := fun _ w => w.Bounded) (sees_transaction ?_) fun _ w hw =>
      (quiet_updateAllM1 w).mono (fun _ _ hw' => by rw [hw']; exact hw) fun _ _ hw' => hw'.elim
    refine Shows.bind ((sees_giveIds os).mono (fun _ _ hw => hw) fun _ _ hw => hw.elim)
      fun os' u hu => ?_
    obtain ⟨rfl, hos'⟩ := hu
    have hfits' : ∀ o ∈ os', fitsRangeType row.objectRangeType o.monads = true := by
      intro o' ho'
      obtain ⟨o, ho, heq⟩ := hos' o' ho'
      rw [heq]
      exact hfits o ho
    refine (sees_createObjects (v := (v.remember (normalizeOTName name)).begun) hc rfl rfl
      row.objectTypeId os' row.objectRangeType).mono
      (fun _ w hw => ?_) fun e w hw => ?_
    · obtain ⟨rows, hrows, rfl⟩ := hw
      have hb := Bounded.appendBatch hbegun hrow hfits' hrows
      rw [hname] at hb
      refine ⟨?_, hb.of_eq rfl rfl⟩
      rw [View.raise_saved]
      exact ((View.extends_setMin _ _ false).trans (View.extends_setMax _ _ false)).saved
    · obtain ⟨rows, -, rfl⟩ := hw
      refine ⟨rfl, ?_⟩
      -- what was added is taken back, or the transaction stays open
      cases e with
      | returnedFalse =>
        intro hnone
        refine hub.of_eq ?_ rfl
        rw [View.aborted, View.remember_saved, hnone.1]
        rfl
      | leaves => exact fun hnone => by cases hnone.2
      | nullValueException => exact fun hnone => by cases hnone.2
      | dbError => exact fun hnone => by cases hnone.2

/-! ## 3. Deleting -/

/-- The type is in the cache, with this range type. -/
def Cached (v : ObjectView) (otn : Name) (t : ObjectRangeType) : Prop :=
  ∃ row, v.caches otn = some row ∧ row.objectRangeType = t

theorem Cached.extends {otn : Name} {t : ObjectRangeType} (h : Cached v otn t)
    (hw : v.Extends w) : Cached w otn t := by
  obtain ⟨row, hc, ht⟩ := h
  exact ⟨row, hw.cached hc, ht⟩

theorem Cached.setLength {otn : Name} {t : ObjectRangeType} (h : Cached v otn t) (n : Name)
    (length : Int) : Cached (v.setLength n length) otn t := by
  obtain ⟨row, hc, ht⟩ := h
  by_cases hn : otn = n
  · subst hn
    exact ⟨{ row with largestObjectLength := length }, by simp [View.setLength, hc], ht⟩
  · exact ⟨row, by simp [View.setLength, hn, hc], ht⟩

/-- An object less. -/
theorem DroppedTo.bounded (h : v.Bounded) (hrow : row ∈ v.current.objectTypes) {objectIdD : Int}
    (hd : DroppedTo v row row objectIdD w) :
    w.Bounded ∧ ∀ n t, Cached v n t → Cached w n t := by
  obtain ⟨u, hext, hexact, hsame, rfl⟩ := hd
  have hf := h.filterRows hrow fun o => !(o.objectIdD == objectIdD)
  have hu : u.Bounded := by
    by_cases hb :
        v.current.minM = (somBounds (v.current.objectsOf row.objectTypeName) objectIdD).1 ∨
        v.current.maxM = (somBounds (v.current.objectsOf row.objectTypeName) objectIdD).2
    · exact hf.extends_of_exact hext (hexact hb)
    · obtain ⟨hmin, hmax⟩ := hsame hb
      exact hf.extends_of_eq hext hmin hmax
  have hcached : ∀ n t, Cached v n t → Cached u n t := fun n t hc =>
    Cached.extends (v := v.setRows row.objectTypeName _) hc hext
  split
  · next hl =>
    refine ⟨hu.setLength fun o ho => ?_, fun n t hc => (hcached n t hc).setLength _ _⟩
    -- what is left was there before, so it is no longer than the greatest length was
    rw [hext.objectsOf] at ho
    have ho' : o ∈ v.current.objectsOf row.objectTypeName := by
      change o ∈ (v.current.setRows row.objectTypeName _).objectsOf row.objectTypeName at ho
      rw [h.sound.objectsOf_setRows hrow, if_pos rfl] at ho
      exact List.mem_of_mem_filter ho
    exact (h.lengths row hrow o ho').trans hl
  · exact ⟨hu, hcached⟩

/-- The loop deletes one object after the other, by induction on their ids. -/
theorem sees_dropEach {name : Name} {t : ObjectRangeType} : ∀ (idDs : List Int) {v : ObjectView},
    v.Bounded → Cached v (normalizeOTName name) t →
      SeesObjects v (dropEach name t idDs) (fun _ w => w.Bounded) fun _ _ => False
  | [], _, h, _ => shows_pure h
  | idD :: idDs, v, h, hc => by
    obtain ⟨row, hrow, rfl⟩ := hc
    obtain ⟨hmem, hname⟩ := h.cached _ _ hrow
    refine Shows.bind (sees_dropObject h.toSound hmem (hname ▸ hrow) hname.symm idD)
      fun _ w hw => ?_
    obtain ⟨hb, hkept⟩ := hw.2.bounded h hmem
    exact sees_dropEach idDs hb (hkept _ _ ⟨row, hrow, rfl⟩)

theorem ignores_symbolObjectsExistInType (name : Name) :
    ∀ idDs : List Int, IgnoresObjects (symbolObjectsExistInType name idDs)
  | [] => ignores_pure
  | idD :: idDs => by
    have hsel : IgnoresObjects (objectIDDExistsInType idD name) := ignores_execSelect
    refine (ignores_symbolObjectsExistInType name idDs).bind fun _ => hsel.bind fun b => ?_
    exact Ignores.ite ignores_pure ignores_stop

theorem keepsBounds_deleteObjectsByIDDs (name : Name) (idDs : List Int) :
    KeepsBounds (deleteObjectsByIDDs name idDs) := by
  intro v h
  unfold deleteObjectsByIDDs
  refine Shows.bind (sees_check (Q := fun _ w => w = v) (fun _ => rfl) h) fun _ w hw => ?_
  subst hw
  refine Shows.bind ((sees_objectTypeExists w name).mono (fun _ _ hw => hw)
    fun _ _ hw => hw.elim) fun found u hu => ?_
  obtain ⟨rfl, rfl⟩ := hu
  have hb := h.remembers (View.remembers_remember w (normalizeOTName name))
  refine Shows.bind (sees_orStop (Q := fun row u => u = w.remember (normalizeOTName name) ∧
    u.caches (normalizeOTName name) = some row) (fun row hrow => ⟨rfl, ?_⟩) hb)
    fun row u hu => ?_
  · rw [View.remember_caches_self, hrow]
  · obtain ⟨rfl, hc⟩ := hu
    refine (ignores_symbolObjectsExistInType name idDs).then hb fun _ => ?_
    refine Shows.bind ((sees_dropEach idDs hb ⟨row, hc, rfl⟩).mono (fun _ _ hw => hw)
      fun _ _ hw => hw.elim) fun _ w' hw' => ?_
    exact (quiet_updateAllM1 w').mono (fun _ _ h' => by rw [h']; exact hw') fun _ _ h' => h'.elim

/-- Objects of a type less. -/
theorem DroppedInMonadsTo.bounded (h : v.Bounded) (hrow : row ∈ v.current.objectTypes)
    {monads : SetOfMonads} (hd : DroppedInMonadsTo v row monads w) :
    w.Bounded ∧ ∀ n t, Cached v n t → Cached w n t := by
  obtain ⟨u, length, hext, hexact, hlen, rfl⟩ := hd
  have hf := h.filterRows hrow fun o => !makeMonadConstraintsFromSOM monads row.objectRangeType o
  exact ⟨(hf.extends_of_exact hext hexact).setLength hlen,
    fun n t hc => (Cached.extends (v := v.setRows row.objectTypeName _) hc hext).setLength _ _⟩

theorem sees_dropInEach (monads : SetOfMonads) : ∀ (ots : List (Name × ObjectRangeType))
    {v : ObjectView}, v.Bounded → (∀ ot ∈ ots, Cached v (normalizeOTName ot.1) ot.2) →
      SeesObjects v (dropInEach monads ots) (fun _ w => w.saved = v.saved ∧ w.Bounded)
        fun _ _ => False
  | [], _, h, _ => shows_pure ⟨rfl, h⟩
  | ot :: ots, v, h, hc => by
    obtain ⟨hot, hots⟩ := List.forall_mem_cons.mp hc
    obtain ⟨row, hrow, hrange⟩ := hot
    obtain ⟨hmem, hname⟩ := h.cached _ _ hrow
    have hdrop := sees_dropObjectsInMonads h.toSound hmem (hname ▸ hrow) hname.symm monads
    rw [hrange] at hdrop
    refine Shows.bind hdrop fun _ w hw => ?_
    have hw' : w.Bounded ∧ ∀ n t, Cached v n t → Cached w n t := by
      rcases hw.2 with rfl | hd
      · exact ⟨h, fun _ _ hc => hc⟩
      · exact hd.bounded h hmem
    refine (sees_dropInEach monads ots hw'.1 fun ot' hot' => hw'.2 _ _ (hots ot' hot')).mono
      (fun _ _ hw'' => ⟨hw''.1.trans hw.1, hw''.2⟩) fun _ _ hw'' => hw''

/-- The types that are found are in the cache. -/
theorem sees_symbolObjectTypesExist : ∀ (names : List Name) {v : ObjectView},
    SeesObjects v (symbolObjectTypesExist names)
      (fun ots w => v.Remembers w ∧ ∀ ot ∈ ots, Cached w (normalizeOTName ot.1) ot.2)
      fun _ w => v.Remembers w
  | [], v => shows_pure ⟨.refl v, List.forall_mem_nil _⟩
  | name :: names, v => by
    refine Shows.bind ((sees_objectTypeExists v name).mono (fun _ _ hw => hw)
      fun _ _ hw => hw.elim) fun found u hu => ?_
    obtain ⟨rfl, rfl⟩ := hu
    have hr := View.remembers_remember v (normalizeOTName name)
    refine Shows.bind (sees_orStop (Q := fun row u => u = v.remember (normalizeOTName name) ∧
      u.caches (normalizeOTName name) = some row) (fun row hrow => ⟨rfl, ?_⟩) hr)
      fun row u hu => ?_
    · rw [View.remember_caches_self, hrow]
    · obtain ⟨rfl, hc⟩ := hu
      refine Shows.bind ((sees_symbolObjectTypesExist names).mono (fun _ _ hw => hw)
        fun _ _ hw => hr.trans hw) fun ots w hw => shows_pure ⟨hr.trans hw.1, ?_⟩
      refine List.forall_mem_cons.mpr ⟨?_, hw.2⟩
      exact Cached.extends ⟨row, hc, rfl⟩ hw.1.extends

theorem keepsBounds_deleteObjectsByMonads (name : Name) (monadSet : List MQLMonadSetElement) :
    KeepsBounds (deleteObjectsByMonads name monadSet) := by
  intro v h
  unfold deleteObjectsByMonads
  refine Shows.bind ((sees_monadsOf monadSet).mono (fun _ _ hw => hw.2)
    fun _ w hw => by rw [hw]; exact h) fun monads w hw => ?_
  subst hw
  have hrest : ∀ names : List Name, SeesObjects w (do
      let objectTypes ← symbolObjectTypesExist names
      transaction do
        dropInEach monads objectTypes
        updateAllM1) (fun _ w' => w'.Bounded) fun _ w' => w'.Bounded := by
    intro names
    refine Shows.bind ((sees_symbolObjectTypesExist names).mono (fun _ _ hw => hw)
      fun _ u hu => h.remembers hu) fun ots u hu => ?_
    have hb : u.begun.Bounded := (h.remembers hu.1).of_eq rfl rfl
    refine sees_transaction (Shows.mono (E := fun _ _ => False) ?_ (fun _ _ h => h)
      fun _ _ h => h.elim)
    refine Shows.bind (sees_dropInEach monads ots hb hu.2) fun _ w' hw' => ?_
    refine (quiet_updateAllM1 w').mono (fun _ w'' h'' => ?_) fun _ _ h'' => h''.elim
    rw [h'']
    exact ⟨hw'.1, hw'.2.of_eq rfl rfl⟩
  by_cases hall : sameNocase name "all".toList = true
  · simp only [hall, if_true]
    have hnames : QuietForObjects getObjectTypes := quiet_selectRows
    exact hnames.then hrest
  · simp only [hall]
    exact hrest [name]

/-! ## 4. Object types -/

theorem keepsBounds_createObjectType (name : Name) (fis : List FeatureInfo) (t : ObjectRangeType)
    (u : MonadUniquenessType) (bIfNotExists : Bool) :
    KeepsBoundsIf (fun v _ => v.saved = none)
      (createObjectTypeStatement name fis t u bIfNotExists) := by
  intro v h
  unfold createObjectTypeStatement
  refine Shows.bind ((sees_objectTypeExists v name).mono (fun _ _ hw => hw)
    fun _ _ hw => hw.elim) fun found w hw => ?_
  obtain ⟨hfound, rfl⟩ := hw
  have hr := View.remembers_remember v (normalizeOTName name)
  have hb := h.remembers hr
  cases found with
  | some row => exact sees_check (fun _ => hb) fun _ => hb
  | none =>
    obtain ⟨hc, hby⟩ := Option.or_eq_none_iff.mp hfound.symm
    have hno : ∀ r ∈ (v.remember (normalizeOTName name)).current.objectTypes,
        r.objectTypeName ≠ normalizeOTName name := by
      intro r hr heq
      have := List.find?_eq_none.mp hby r hr
      exact this (by simpa using heq)
    have hcache : (v.remember (normalizeOTName name)).caches (normalizeOTName name) = none := by
      rw [View.remember_caches_self, ← hfound]
    refine Shows.bind ((sees_createObjectType hb.toSound rfl hno hcache fis t u).mono
      (fun _ _ hw => hw) fun _ w hw hsaved => ?_) fun _ w hw => ?_
    · obtain ⟨-, hca, hcur | ⟨hopen, -⟩⟩ := hw
      · exact hb.of_eq hcur hca
      · rw [View.remember_saved, hsaved] at hopen
        cases hopen
    · obtain ⟨row, k, hname, hfresh, rfl⟩ := hw
      have hadded := hb.addType hfresh k
      rw [hname] at hadded
      exact shows_pure hadded

theorem keepsBounds_dropObjectType (name : Name) : KeepsBounds (dropObjectTypeStatement name) := by
  intro v h
  unfold dropObjectTypeStatement
  refine Shows.bind ((sees_objectTypeExists v name).mono (fun _ _ hw => hw)
    fun _ _ hw => hw.elim) fun found u hu => ?_
  obtain ⟨rfl, rfl⟩ := hu
  have hb := h.remembers (View.remembers_remember v (normalizeOTName name))
  refine Shows.bind (sees_orStop (Q := fun row u => u = v.remember (normalizeOTName name) ∧
    u.caches (normalizeOTName name) = some row) (fun row hrow => ⟨rfl, ?_⟩) hb)
    fun row u hu => ?_
  · rw [View.remember_caches_self, hrow]
  · obtain ⟨rfl, hc⟩ := hu
    obtain ⟨hmem, hname⟩ := hb.cached _ _ hc
    refine (sees_dropObjectType rfl hc row.objectTypeId).mono (fun _ w hw => ?_)
      fun _ w hw => by rw [hw]; exact hb
    have hdropped := hb.dropType hmem
    rw [hname] at hdropped
    rw [hw.2]
    exact hdropped

end Statements

/-! ## 5. Runs -/

theorem working_initial : Working EMdFDB.initial := ⟨rfl, rfl, rfl, rfl, rfl⟩

/-- A new database has no object that could be outside its bounds. -/
theorem bounded_initial : (objectView EMdFDB.initial).Bounded where
  sound := {
    normalized := List.forall_mem_nil _
    names := List.nodup_nil
    ids := List.nodup_nil
    tables := fun n => ⟨fun h => (by cases h), fun h => (by obtain ⟨r, hr, -⟩ := h; cases hr)⟩
    singles := List.forall_mem_nil _ }
  cached n row hc := by cases hc
  lengths := List.forall_mem_nil _
  within o ho := by cases ho

/-- A working state in which the objects are within the bounds. -/
def KeptBounds (db : EMdFDB) : Prop := Working db ∧ (objectView db).Bounded

namespace DataStatement

/-- The statements that can stop when they have stored a part. -/
def storesInParts : DataStatement → Bool
  | createObjectType .. => true
  | createObjects .. => true
  | _ => false

/-- No transaction is aborted, what stores in parts does not fail in a transaction, and a batch
that fails does not leave one open. -/
structure Contained (db : EMdFDB) (statement : DataStatement) : Prop where
  not_aborts : statement = .abortTransaction → db.saved = none
  whole : statement.storesInParts = true →
    (∃ db', statement.exec db = (.ok (), db')) ∨ db.saved = none
  closed : ∀ name specs, statement = .createObjects name specs →
    (∃ db', statement.exec db = (.ok (), db')) ∨ (statement.exec db).2.saved = none

end DataStatement

theorem KeepsBounds.step {x : DB Unit} (hx : KeepsBounds x) {db : EMdFDB} (h : KeptBounds db) :
    KeptBounds (x db).2 := by
  have hsees := hx (objectView db) h.2
  rcases hrun : x db with ⟨r, db'⟩
  cases r with
  | ok a => exact hsees.of_ok h.1 hrun
  | error e => exact hsees.of_error h.1 hrun

theorem KeepsBoundsIf.step {C : ObjectView → ObjectView → Prop} {x : DB Unit}
    (hx : KeepsBoundsIf C x) {db : EMdFDB} (h : KeptBounds db)
    (hC : (∃ db', x db = (.ok (), db')) ∨ C (objectView db) (objectView (x db).2)) :
    KeptBounds (x db).2 := by
  have hsees := hx (objectView db) h.2
  rcases hrun : x db with ⟨r, db'⟩
  cases r with
  | ok a => exact hsees.of_ok h.1 hrun
  | error e =>
    obtain ⟨hw, hb⟩ := hsees.of_error h.1 hrun
    rcases hC with ⟨db'', hok⟩ | hC
    · rw [hrun] at hok
      cases hok
    · rw [hrun] at hC
      exact ⟨hw, hb hC⟩

theorem objectView_saved_of_none {db : EMdFDB} (h : db.saved = none) :
    (objectView db).saved = none := congrArg (Option.map _) h

section Transactions

variable {db : EMdFDB}

theorem KeptBounds.beginTransaction (h : KeptBounds db) :
    KeptBounds (Emdros.beginTransaction db).2 := by
  cases hs : db.saved with
  | none =>
    rw [h.1.beginTransaction_of_none hs]
    exact ⟨h.1.begun, h.2.of_eq rfl rfl⟩
  | some t =>
    rw [h.1.beginTransaction_of_open hs]
    exact h

theorem KeptBounds.commitTransaction (h : KeptBounds db) :
    KeptBounds (Emdros.commitTransaction db).2 := by
  cases hs : db.saved with
  | none =>
    have hp : db.transactionInProgress = false := by rw [h.1.inProgress, hs]; rfl
    rw [Emdros.commitTransaction, hp]
    exact h
  | some t =>
    rw [h.1.commitTransaction hs]
    exact ⟨h.1.ended db.tables, h.2.of_eq rfl rfl⟩

theorem commitTransaction_saved (h : Working db) : (commitTransaction db).2.saved = none := by
  cases hs : db.saved with
  | none =>
    have hp : db.transactionInProgress = false := by rw [h.inProgress, hs]; rfl
    rw [commitTransaction, hp]
    exact hs
  | some t => rw [h.commitTransaction hs]

theorem KeptBounds.useDatabase (h : KeptBounds db) : KeptBounds (Emdros.useDatabase db) := by
  have hc := h.commitTransaction
  have hsaved := commitTransaction_saved h.1
  refine ⟨⟨hc.1.outcomes, hc.1.beginFails, hc.1.commitFails, hc.1.rollbackFails, rfl⟩, ?_⟩
  have hcur : (objectView (Emdros.useDatabase db)).current =
      (objectView (Emdros.commitTransaction db).2).current := by
    simp [Emdros.useDatabase, objectView, view, hsaved]
  refine ⟨hcur ▸ hc.2.sound, fun n row hcached => (by cases hcached), ?_, ?_⟩
  · rw [hcur]
    exact hc.2.lengths
  · rw [hcur]
    exact hc.2.within

/-- Without a transaction `ABORT TRANSACTION` does nothing. -/
theorem KeptBounds.abortTransaction (h : KeptBounds db) (hs : db.saved = none) :
    KeptBounds (Emdros.abortTransaction db).2 := by
  have hp : db.transactionInProgress = false := by rw [h.1.inProgress, hs]; rfl
  rw [Emdros.abortTransaction, hp]
  exact h

end Transactions

namespace DataStatement

/-- The state after a statement, whether it succeeds or fails. -/
def next (db : EMdFDB) (statement : DataStatement) : Option EMdFDB := some (statement.exec db).2

/-- **One statement** keeps the bounds. -/
theorem exec_keptBounds {db : EMdFDB} {statement : DataStatement} (h : KeptBounds db)
    (hc : statement.Contained db) : KeptBounds (statement.exec db).2 := by
  cases statement with
  | createObjectType name fis t u bIfNotExists =>
    exact (keepsBounds_createObjectType name fis t u bIfNotExists).step h
      ((hc.whole rfl).imp id objectView_saved_of_none)
  | dropObjectType name => exact (keepsBounds_dropObjectType name).step h
  | createObject name withIdD monadSet assignments =>
    exact (keepsBounds_createObjectFromMonads name withIdD monadSet assignments).step h
  | createObjects name specs =>
    refine (keepsBounds_createObjects name specs).step h ?_
    rcases hc.whole rfl with hok | hbefore
    · exact .inl hok
    · exact (hc.closed name specs rfl).imp id fun hafter =>
        ⟨objectView_saved_of_none hbefore, objectView_saved_of_none hafter⟩
  | deleteObjectsByIDDs name idDs => exact (keepsBounds_deleteObjectsByIDDs name idDs).step h
  | deleteObjectsByMonads name monadSet =>
    exact (keepsBounds_deleteObjectsByMonads name monadSet).step h
  | beginTransaction => exact h.beginTransaction
  | commitTransaction => exact h.commitTransaction
  | abortTransaction => exact h.abortTransaction (hc.not_aborts rfl)
  | useDatabase => exact h.useDatabase

/-- **Every run**: from a new database on, no object is outside `min_m` and `max_m` or longer than
the length that is stored for its type, and the cache has rows of the table. -/
theorem run_keptBounds (statements : List DataStatement)
    (h : Machine.Admits next (fun db statement => statement.Contained db) EMdFDB.initial
      statements) :
    ∃ db, Machine.run next EMdFDB.initial statements = some db ∧ KeptBounds db :=
  Machine.run_preserves (fun _ _ hdb hc => ⟨_, rfl, exec_keptBounds hdb hc⟩) statements _
    ⟨working_initial, bounded_initial⟩ h

/-- An object type with an object, which is deleted. -/
def words : List DataStatement :=
  [.createObjectType "word".toList [] .singleRange .nonUniqueMonads false,
    .createObject "Word".toList 0 [⟨2, 3⟩] [],
    .deleteObjectsByMonads "word".toList [⟨1, 3⟩]]

/-- Creating or deleting objects one by one, or by monads, is always contained. -/
theorem contained_of_single {db : EMdFDB} {statement : DataStatement}
    (ha : statement ≠ .abortTransaction) (hs : statement.storesInParts = false) :
    statement.Contained db where
  not_aborts h := absurd h ha
  whole h := by rw [hs] at h; cases h
  closed name specs h := by rw [h] at hs; cases hs

theorem run_keptBounds_words :
    ∃ db, Machine.run next EMdFDB.initial words = some db ∧ KeptBounds db :=
  run_keptBounds words ⟨⟨fun h => (by cases h), fun _ => .inr rfl, fun _ _ h => (by cases h)⟩,
    fun _ _ => ⟨contained_of_single (by decide) rfl,
    fun _ _ => ⟨contained_of_single (by decide) rfl, fun _ _ => trivial⟩⟩⟩

end DataStatement

end Emdros
