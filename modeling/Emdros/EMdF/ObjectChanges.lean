/-
# Creating and deleting, as the view of the objects shows it

For each operation that creates or deletes, the view after it is given in terms of the view before
it: objects that are added to or taken from one table, bounds that are widened or found again, and
a length that is set or left alone.

* `sees_createObject`: one more row, and the numbers raised to it (`View.create`, `View.raise`); or,
  if it is refused, nothing but a look-up.
* `sees_dropObject` and `sees_dropObjectsInMonads`: the rows that are left are as they were; the
  bounds are those from before or exact (`View.Exact`), and the stored length is still enough.
* `sees_createObjects`: within a transaction all of the batch is added; where one object is refused
  the ones before it have been added, and the numbers have not been touched.
* `sees_createObjectType` and `sees_dropObjectType`: a type and its table come and go.  A type that
  was added inside of an open transaction before something failed is in the table and not in the
  cache.

The failures are as much a part of these lemmas as the successes: a statement that fails is not the
end of a run.
-/
import Emdros.EMdF.ObjectView

namespace Emdros

open Effect

variable {v : ObjectView}

/-! ## 1. Commands on a table of objects -/

theorem stored_setRows {t : Tables} {otn : Name} {table : ObjectTable}
    (ht : t.objects (objectsTableName otn) = some table) (f : List ObjectRow → List ObjectRow) :
    (t.withObjects (objectsTableName otn) (some { table with rows := f table.rows })).stored
      = t.stored.setRows otn f := by
  unfold Tables.stored Tables.withObjects Stored.setRows
  congr 1
  funext n
  by_cases h : n = objectsTableName otn
  · simp only [h, if_true, ht, Option.map_some]
  · simp only [h, if_false]

theorem stored_deleteObjects (otn : Name) (which : ObjectRow → Bool) (t : Tables) :
    (Tables.deleteObjects (objectsTableName otn) which t).map Tables.stored
      = (t.stored.objectRows otn).map fun _ =>
          t.stored.setRows otn fun rows => rows.filter fun o => !which o := by
  unfold Tables.deleteObjects
  cases ht : t.objects (objectsTableName otn) with
  | none =>
    have hr : t.stored.objectRows otn = none := by
      rw [Stored.objectRows]
      exact Option.map_eq_none_iff.mpr ht
    rw [hr]
    rfl
  | some table =>
    have hr : t.stored.objectRows otn = some table.rows := by
      rw [Stored.objectRows]
      exact Option.map_eq_some_iff.mpr ⟨table, ht, rfl⟩
    rw [hr]
    exact congrArg some (stored_setRows ht fun rows => rows.filter fun o => !which o)

theorem sees_deleteObjects {otn : Name} {rows : List ObjectRow}
    (h : v.current.objectRows otn = some rows) (which : ObjectRow → Bool) :
    SeesObjects v (execCommand (Tables.deleteObjects (objectsTableName otn) which))
      (fun _ w => w = v.setRows otn fun rows => rows.filter fun o => !which o)
      fun _ _ => False := by
  refine (sees_execCommand
    (fun s : Stored => (s.objectRows otn).map fun _ =>
      s.setRows otn fun rows => rows.filter fun o => !which o)
    (stored_deleteObjects otn which)).mono (fun _ w hw => ?_) fun _ _ hw => ?_
  · obtain ⟨u, hu, rfl⟩ := hw
    rw [h] at hu
    cases hu
    rfl
  · have := hw.2.1
    rw [h] at this
    cases this

/-- A row that is inserted is added to the table, which is there. -/
theorem stored_insertObject {otn : Name} {row : ObjectRow} {t t' : Tables}
    (h : Tables.insertObject (objectsTableName otn) row t = some t') :
    (t.stored.objectRows otn).isSome ∧ t'.stored = t.stored.setRows otn fun rows => rows ++ [row] := by
  unfold Tables.insertObject at h
  cases ht : t.objects (objectsTableName otn) with
  | none =>
    rw [ht] at h
    cases h
  | some table =>
    simp only [ht] at h
    by_cases hk : table.rows.any fun o => Tables.sameKey table.primaryKey o row
    · rw [if_pos hk] at h
      cases h
    · rw [if_neg hk] at h
      cases h
      refine ⟨?_, stored_setRows ht fun rows => rows ++ [row]⟩
      rw [Stored.objectRows, Option.isSome_map]
      exact Option.isSome_iff_exists.mpr ⟨table, ht⟩

theorem sees_insertObject (otn : Name) (row : ObjectRow) :
    SeesObjects v (execCommand (Tables.insertObject (objectsTableName otn) row))
      (fun _ w => (v.current.objectRows otn).isSome ∧ w = v.setRows otn fun rows => rows ++ [row])
      fun e w => e = .returnedFalse ∧ w = v := by
  refine shows_of_eq (fun db a db' h hv hx => ?_) fun db e db' h hv hx => ?_
  · rw [h.execCommand] at hx
    cases ht : Tables.insertObject (objectsTableName otn) row db.tables with
    | none =>
      rw [ht] at hx
      cases hx
    | some t =>
      rw [ht] at hx
      cases hx
      obtain ⟨hsome, hst⟩ := stored_insertObject ht
      subst hv
      refine ⟨h.setTables t, hsome, View.ext hst rfl rfl⟩
  · rw [h.execCommand] at hx
    cases ht : Tables.insertObject (objectsTableName otn) row db.tables with
    | none =>
      rw [ht] at hx
      cases hx
      exact ⟨h, rfl, hv⟩
    | some t =>
      rw [ht] at hx
      cases hx

/-! ## 2. Deleting -/

theorem Stored.Sound.setRows {s : Stored} (h : s.Sound) {otn : Name}
    {f : List ObjectRow → List ObjectRow}
    (hf : ∀ r ∈ s.objectTypes, r.objectTypeName = otn → r.objectRangeType = .singleMonad →
      ∀ o ∈ f (s.objectsOf otn), o.lastMonad = o.firstMonad) : (s.setRows otn f).Sound where
  normalized := h.normalized
  names := h.names
  ids := h.ids
  tables n := by
    rw [Stored.objectRows_setRows]
    by_cases hn : n = otn
    · rw [if_pos hn, Option.isSome_map]
      exact h.tables n
    · rw [if_neg hn]
      exact h.tables n
  singles r hr hs o ho := by
    rw [Stored.objectsOf_eq, Stored.objectRows_setRows] at ho
    by_cases hn : r.objectTypeName = otn
    · rw [if_pos hn, h.objectRows hr, Option.map_some, Option.getD_some, hn] at ho
      exact hf r hr hn hs o ho
    · rw [if_neg hn, ← Stored.objectsOf_eq] at ho
      exact h.singles r hr hs o ho

/-- Objects that are left are as they were. -/
theorem View.Sound.filterRows (h : v.Sound) (otn : Name) (p : ObjectRow → Bool) :
    (v.setRows otn fun rows => rows.filter p).Sound where
  current := h.current.setRows fun r hr hn hs o ho =>
    h.current.singles r hr hs o (hn ▸ List.mem_of_mem_filter ho)
  cached := h.cached

theorem View.Sound.begun (h : v.Sound) : v.begun.Sound := ⟨h.current, h.cached⟩

/-- The objects of a type after a change of its table. -/
theorem Stored.Sound.objectsOf_setRows {s : Stored} (h : s.Sound) {r : ObjectTypeRow}
    (hr : r ∈ s.objectTypes) (f : List ObjectRow → List ObjectRow) (n : Name) :
    (s.setRows r.objectTypeName f).objectsOf n
      = if n = r.objectTypeName then f (s.objectsOf n) else s.objectsOf n := by
  rw [Stored.objectsOf_eq, Stored.objectRows_setRows]
  by_cases hn : n = r.objectTypeName
  · rw [if_pos hn, if_pos hn, hn, h.objectRows hr]
    rfl
  · rw [if_neg hn, if_neg hn]
    rfl

/-- The monads that `getSOMForObject` finds. -/
def somBounds (rows : List ObjectRow) (objectIdD : Int) : Int × Int :=
  match rows.find? fun o => o.objectIdD == objectIdD with
  | some o => (o.firstMonad, o.lastMonad)
  | none => (maxMonad, 0)

theorem sees_getSOMForObject (h : v.Sound) {r : ObjectTypeRow} (hr : r ∈ v.current.objectTypes)
    (objectIdD : Int) :
    SeesObjects v (getSOMForObject r.objectTypeName objectIdD r.objectRangeType)
      (fun b w => b = somBounds (v.current.objectsOf r.objectTypeName) objectIdD ∧ w = v)
      fun _ _ => False := by
  unfold getSOMForObject
  rw [h.current.normalized r hr]
  have hrows := h.current.objectRows hr
  refine Shows.bind ((sees_selectRow
    (fun s : Stored => (s.objectRows r.objectTypeName).map fun rows =>
      rows.find? fun o => o.objectIdD == objectIdD) fun _ => rfl).mono
    (R := fun row w => row = (v.current.objectsOf r.objectTypeName).find?
      (fun o => o.objectIdD == objectIdD) ∧ w = v)
    (fun row w hw => ?_) fun e w hw => ?_) fun row w hw => ?_
  · obtain ⟨ha, rfl⟩ := hw
    rw [hrows] at ha
    exact ⟨(Option.some.inj ha).symm, rfl⟩
  · have := hw.2.1
    rw [hrows] at this
    cases this
  · obtain ⟨rfl, rfl⟩ := hw
    unfold somBounds
    cases hf : (w.current.objectsOf r.objectTypeName).find? fun o => o.objectIdD == objectIdD with
    | none => exact shows_pure ⟨rfl, rfl⟩
    | some o =>
      refine shows_pure ⟨?_, rfl⟩
      change _ = (o.firstMonad, o.lastMonad)
      by_cases hs : r.objectRangeType = .singleMonad
      · rw [if_pos hs, h.current.singles r hr hs o (List.mem_of_find?_eq_some hf)]
      · rw [if_neg hs]

/-- The bounds of `w` are those of all its objects. -/
def View.Exact (w : ObjectView) : Prop :=
  w.current.minM = lowest maxMonad w.current.allObjects ∧
    w.current.maxM = highest 0 w.current.allObjects

theorem View.Extends.exact {u w : ObjectView} (h : u.Extends w)
    (hlo : w.current.minM = lowest maxMonad u.current.allObjects)
    (hhi : w.current.maxM = highest 0 u.current.allObjects) : w.Exact := by
  refine ⟨?_, ?_⟩
  · rw [hlo, h.allObjects]
  · rw [hhi, h.allObjects]

/-- What an operation of its own transaction extends, it extends when it is committed. -/
theorem View.Extends.committed {u u' w : ObjectView} (h : u.Extends w)
    (hcur : u'.current = u.current) (hca : u'.caches = u.caches) (hs : u'.saved = v.saved) :
    u'.Extends (v.committed w) where
  objectTypes := by rw [hcur]; exact h.objectTypes
  objects := by rw [hcur]; exact h.objects
  saved := hs.symm
  caches n := by rw [hcur, hca]; exact h.caches n

/-- After the object is gone, the bounds are those from before or exact, and the length is set to
that of the object if it was the greatest. -/
def DroppedTo (v : ObjectView) (r row : ObjectTypeRow) (objectIdD : Int) (w : ObjectView) : Prop :=
  let b := somBounds (v.current.objectsOf r.objectTypeName) objectIdD
  ∃ u : ObjectView,
    (v.setRows r.objectTypeName fun rows => rows.filter fun o => !(o.objectIdD == objectIdD)).Extends
      u ∧
    (v.current.minM = b.1 ∨ v.current.maxM = b.2 → u.Exact) ∧
    (¬ (v.current.minM = b.1 ∨ v.current.maxM = b.2) →
      u.current.minM = v.current.minM ∧ u.current.maxM = v.current.maxM) ∧
    w = if row.largestObjectLength ≤ b.2 - b.1 + 1 then
        u.setLength r.objectTypeName (b.2 - b.1 + 1)
      else u

theorem sees_updateBounds (h : v.Sound) (first last : Int) :
    SeesObjects v (updateBounds first last)
      (fun _ w => v.Extends w ∧ (v.current.minM = first ∨ v.current.maxM = last → w.Exact) ∧
        (¬ (v.current.minM = first ∨ v.current.maxM = last) →
          w.current.minM = v.current.minM ∧ w.current.maxM = v.current.maxM))
      fun _ _ => False := by
  refine Shows.bind sees_getMinM fun _ w hw => ?_
  obtain ⟨rfl, rfl⟩ := hw
  refine Shows.bind sees_getMaxM fun _ w' hw' => ?_
  obtain ⟨rfl, rfl⟩ := hw'
  by_cases hb : w'.current.minM = first ∨ w'.current.maxM = last
  · rw [if_pos hb]
    refine (sees_setMinMaxMFromObjectTypes h).mono (fun _ u hu => ?_) fun _ _ hw => hw
    obtain ⟨hext, hlo, hhi⟩ := hu
    exact ⟨hext, fun _ => hext.exact hlo hhi, fun hn => absurd hb hn⟩
  · rw [if_neg hb]
    exact shows_pure ⟨.refl w', fun hp => absurd hp hb, fun _ => ⟨rfl, rfl⟩⟩

theorem sees_updateLargest {otn : Name} (hn : normalizeOTName otn = otn) {row : ObjectTypeRow}
    (hc : v.caches otn = some row) {s : Stored} (hs : v.saved = some s) (length : Int)
    (r : ObjectRangeType) :
    SeesObjects v (updateLargest otn length r)
      (fun _ w => w = if row.largestObjectLength ≤ length then v.setLength otn length else v)
      fun _ _ => False := by
  refine Shows.bind (sees_getLargestObjectLength hn hc r) fun _ w hw => ?_
  obtain ⟨rfl, rfl⟩ := hw
  by_cases hl : row.largestObjectLength ≤ length
  · rw [if_pos hl, if_pos hl]
    refine (sees_setLargestObjectLengthIfNecessary hn hc hs length r true).mono
      (fun _ w' hw' => ?_) fun _ _ hw => hw
    rw [hw', if_pos (.inl rfl)]
  · rw [if_neg hl, if_neg hl]
    exact shows_pure rfl

theorem View.committed_setLength (w : ObjectView) (otn : Name) (length : Int) :
    v.committed (w.setLength otn length) = View.setLength (v.committed w) otn length := rfl

/-- `dropObject` of a type that is in the cache does not fail. -/
theorem sees_dropObject (h : v.Sound) {r row : ObjectTypeRow} (hr : r ∈ v.current.objectTypes)
    (hc : v.caches r.objectTypeName = some row) {name : Name}
    (hn : normalizeOTName name = r.objectTypeName) (objectIdD : Int) :
    SeesObjects v (dropObject objectIdD name r.objectRangeType)
      (fun _ w => w.saved = v.saved ∧ DroppedTo v r row objectIdD w) fun _ _ => False := by
  unfold dropObject
  rw [hn]
  refine sees_transaction (Shows.mono (E := fun _ _ => False) ?_ (fun _ _ h => h)
    fun _ _ h => h.elim)
  refine Shows.bind (Shows.handle (sees_getSOMForObject h.begun hr objectIdD)
    fun _ _ h => h.elim) fun b w hw => ?_
  obtain ⟨hb, rfl⟩ := hw
  have hrows := h.current.objectRows hr
  refine Shows.bind (sees_deleteObjects (v := v.begun) hrows fun o => o.objectIdD == objectIdD)
    fun _ w hw => ?_
  subst hw
  refine Shows.bind (sees_updateBounds (h.begun.filterRows _ _) b.1 b.2) fun _ u hu => ?_
  obtain ⟨hext, hexact, hsame⟩ := hu
  refine (sees_updateLargest (h.current.normalized r hr) (hext.cached hc) hext.saved _ _).mono
    (fun _ w hw => ?_) fun _ _ hw => hw
  have hwu : w.saved = u.saved := by
    rw [hw]
    split <;> rfl
  refine ⟨hwu.trans hext.saved, rfl, v.committed u, ?_, ?_, ?_, ?_⟩
  · exact hext.committed rfl rfl rfl
  · subst hb
    exact hexact
  · subst hb
    exact hsame
  · have hb' : b = somBounds (v.current.objectsOf r.objectTypeName) objectIdD := hb
    rw [hw, hb', apply_ite v.committed, View.committed_setLength]

theorem sees_objectTypeHasObjects {name otn : Name} {rows : List ObjectRow}
    (hn : normalizeOTName name = otn) (h : v.current.objectRows otn = some rows) :
    SeesObjects v (objectTypeHasObjects name) (fun b w => b = !rows.isEmpty ∧ w = v)
      fun _ _ => False := by
  unfold objectTypeHasObjects
  rw [hn]
  refine Shows.bind (sees_objectRows h) fun os w hw => ?_
  obtain ⟨rfl, rfl⟩ := hw
  exact shows_pure ⟨rfl, rfl⟩

theorem le_maxLength {rows : List ObjectRow} (hne : rows ≠ []) :
    ∃ length, maxLength rows = some length ∧ ∀ o ∈ rows, o.length ≤ length := by
  have hmax : (rows.map ObjectRow.length).max? ≠ none := by simpa using hne
  obtain ⟨length, hl⟩ := Option.ne_none_iff_exists'.mp hmax
  exact ⟨length, hl, fun o ho => (List.max?_eq_some_iff.mp hl).2 _ (List.mem_map_of_mem ho)⟩

theorem ObjectRow.length_of_single {o : ObjectRow} (h : o.lastMonad = o.firstMonad) :
    o.length = 1 := by
  rw [ObjectRow.length, h]
  omega

/-- The length that is found in the table is at least that of every object. -/
theorem sees_getLargestObjectLengthFromOTObjects (h : v.Sound) {r : ObjectTypeRow}
    (hr : r ∈ v.current.objectTypes) :
    SeesObjects v (getLargestObjectLengthFromOTObjects r.objectTypeName r.objectRangeType)
      (fun length w => (∀ o ∈ v.current.objectsOf r.objectTypeName, o.length ≤ length) ∧ w = v)
      fun _ _ => False := by
  have hrows := h.current.objectRows hr
  unfold getLargestObjectLengthFromOTObjects
  refine Shows.bind (sees_objectTypeHasObjects (h.current.normalized r hr) hrows) fun b w hw => ?_
  obtain ⟨rfl, rfl⟩ := hw
  by_cases hne : w.current.objectsOf r.objectTypeName = []
  · rw [hne]
    exact shows_pure ⟨List.forall_mem_nil _, rfl⟩
  · have hemp : (!(w.current.objectsOf r.objectTypeName).isEmpty) = true := by simpa using hne
    rw [if_pos hemp]
    by_cases hs : r.objectRangeType = .singleMonad
    · rw [if_pos hs]
      exact shows_pure ⟨fun o ho =>
        (ObjectRow.length_of_single (h.current.singles r hr hs o ho)).le, rfl⟩
    · rw [if_neg hs, h.current.normalized r hr]
      obtain ⟨length, hl, hle⟩ := le_maxLength hne
      refine Shows.bind ((sees_selectRow
        (fun s : Stored => (s.objectRows r.objectTypeName).map maxLength) fun _ => rfl).mono
        (R := fun a w' => a = some length ∧ w' = w) (fun a w' hw' => ?_) fun e w' hw' => ?_)
        fun a w' hw' => ?_
      · obtain ⟨ha, rfl⟩ := hw'
        rw [hrows, Option.map_some, hl] at ha
        exact ⟨(Option.some.inj ha).symm, rfl⟩
      · have := hw'.2.1
        rw [hrows] at this
        cases this
      · obtain ⟨rfl, rfl⟩ := hw'
        exact shows_pure ⟨hle, rfl⟩

theorem sees_getObjectsWithinMonads (h : v.Sound) {r : ObjectTypeRow}
    (hr : r ∈ v.current.objectTypes) {name : Name} (hn : normalizeOTName name = r.objectTypeName)
    (monads : SetOfMonads) (t : ObjectRangeType) :
    SeesObjects v (getObjectsWithinMonads monads name t)
      (fun _ w => w = v) fun _ _ => False := by
  unfold getObjectsWithinMonads
  rw [hn]
  by_cases he : monads.isEmpty = true
  · rw [if_pos he]
    exact shows_pure rfl
  · rw [if_neg he]
    refine (sees_selectRows (fun s : Stored => (s.objectRows r.objectTypeName).map fun rows =>
      (rows.filter (makeMonadConstraintsFromSOM monads t)).map ObjectRow.objectIdD)
      fun _ => rfl).mono (fun _ w hw => hw.2) fun _ w hw => ?_
    have := hw.2.1
    rw [h.current.objectRows hr] at this
    cases this

/-- After objects of a type have been deleted by their monads the bounds are exact, and the length
is at least that of every object that is left. -/
def DroppedInMonadsTo (v : ObjectView) (r : ObjectTypeRow) (monads : SetOfMonads)
    (w : ObjectView) : Prop :=
  ∃ (u : ObjectView) (length : Int),
    (v.setRows r.objectTypeName fun rows =>
      rows.filter fun o => !makeMonadConstraintsFromSOM monads r.objectRangeType o).Extends u ∧
    u.Exact ∧ (∀ o ∈ u.current.objectsOf r.objectTypeName, o.length ≤ length) ∧
    w = u.setLength r.objectTypeName length

/-- `dropObjectsInMonads` of a type that is in the cache does not fail. -/
theorem sees_dropObjectsInMonads (h : v.Sound) {r row : ObjectTypeRow}
    (hr : r ∈ v.current.objectTypes) (hc : v.caches r.objectTypeName = some row) {name : Name}
    (hn : normalizeOTName name = r.objectTypeName) (monads : SetOfMonads) :
    SeesObjects v (dropObjectsInMonads monads name r.objectRangeType)
      (fun _ w => w.saved = v.saved ∧ (w = v ∨ DroppedInMonadsTo v r monads w))
      fun _ _ => False := by
  have hrows := h.current.objectRows hr
  unfold dropObjectsInMonads
  rw [hn]
  by_cases he : monads.isEmpty = true
  · rw [if_pos he]
    exact shows_pure ⟨rfl, .inl rfl⟩
  · rw [if_neg he]
    refine Shows.bind (sees_objectTypeHasObjects hn hrows) fun b w hw => ?_
    obtain ⟨rfl, rfl⟩ := hw
    by_cases hb : (!(w.current.objectsOf r.objectTypeName).isEmpty) = true
    · rw [if_pos hb]
      refine Shows.bind (sees_getObjectsWithinMonads h hr hn monads r.objectRangeType)
        fun result w' hw' => ?_
      subst hw'
      by_cases hres : result.isEmpty = true
      · rw [if_pos hres]
        exact shows_pure ⟨rfl, .inl rfl⟩
      · rw [if_neg hres]
        refine Shows.bind (sees_transaction (Shows.mono (E := fun _ _ => False)
          (Q := fun _ u => u.saved = w'.begun.saved ∧ DroppedInMonadsTo w' r monads
            (w'.committed u)) ?_ (fun _ _ h => h) fun _ _ h => h.elim))
          fun _ u hu => shows_pure ⟨?_, .inr hu⟩
        · refine Shows.bind (sees_deleteObjects (v := w'.begun) hrows _) fun _ u hu => ?_
          subst hu
          have hsound := h.begun.filterRows r.objectTypeName fun o =>
            !makeMonadConstraintsFromSOM monads r.objectRangeType o
          refine Shows.bind (sees_setMinMaxMFromObjectTypes hsound) fun _ u hu => ?_
          obtain ⟨hext, hlo, hhi⟩ := hu
          have hru : r ∈ u.current.objectTypes := by
            rw [hext.objectTypes]
            exact hr
          refine Shows.bind (sees_getLargestObjectLengthFromOTObjects (hsound.extends hext) hru)
            fun length u' hu' => ?_
          obtain ⟨hle, rfl⟩ := hu'
          refine (sees_setLargestObjectLengthIfNecessary (h.current.normalized r hr)
            (hext.cached hc) hext.saved length _ true).mono (fun _ w hw => ?_) fun _ _ hw => hw
          rw [if_pos (.inl rfl)] at hw
          refine ⟨?_, w'.committed u', length, hext.committed rfl rfl rfl,
            hext.exact hlo hhi, hle, ?_⟩
          · rw [hw]
            exact hext.saved
          · rw [hw, View.committed_setLength]
        · obtain ⟨u', length, hext, -, -, rfl⟩ := hu
          exact hext.saved
    · rw [if_neg hb]
      exact shows_pure ⟨rfl, .inl rfl⟩

/-! ## 3. Creating -/

theorem stored_insertString {tableName stringValue : Name} {t t' : Tables}
    (h : Tables.insertString tableName stringValue t = some t') : t'.stored = t.stored := by
  unfold Tables.insertString at h
  cases hs : t.stringSets tableName with
  | none =>
    simp only [hs] at h
    cases h
  | some rows =>
    simp only [hs] at h
    cases h
    rfl

theorem ignores_findIDDInSetCacheFromString (objectTypeId : Nat) (encodedFeatureName s : Name) :
    IgnoresObjects (findIDDInSetCacheFromString objectTypeId encodedFeatureName s) := by
  rintro v db ⟨h, hv⟩
  unfold findIDDInSetCacheFromString
  cases db.stringSetsCache objectTypeId encodedFeatureName with
  | none => exact ⟨h, hv⟩
  | some c => exact ⟨h.setCaches _, hv⟩

theorem ignores_addStringToSetCache (objectTypeId : Nat) (encodedFeatureName : Name)
    (row : StringSetRow) :
    IgnoresObjects (modify (EMdFDB.addStringToSetCache objectTypeId encodedFeatureName row)) :=
  ignores_modify (fun _ h => h.setCaches _) fun _ => rfl

/-- The strings of a feature are none of the objects' business. -/
theorem ignores_getIDDFromStringSet (otn : Name) (objectTypeId : Nat)
    (encodedFeatureName originalString : Name) (b : Bool) :
    IgnoresObjects (getIDDFromStringSet otn objectTypeId encodedFeatureName originalString b) := by
  unfold getIDDFromStringSet
  refine (ignores_findIDDInSetCacheFromString _ _ _).bind fun idD => ?_
  cases idD with
  | some idD => exact ignores_pure
  | none =>
    refine ignores_selectRow.bind fun row => ?_
    cases row with
    | some row => exact (ignores_addStringToSetCache _ _ row).bind fun _ => ignores_pure
    | none =>
      refine Ignores.ite ?_ ignores_pure
      refine Ignores.bind ?_ fun idD =>
        (ignores_addStringToSetCache _ _ _).bind fun _ => ignores_pure
      exact (ignores_execCommand fun t t' h => stored_insertString h).bind fun _ => ignores_read

theorem sees_featureInfo2SQLvalue (otn : Name) (objectTypeId : Nat) (b : Bool) (fi : FeatureInfo) :
    SeesObjects v (featureInfo2SQLvalue otn objectTypeId b fi) (fun _ w => w = v)
      fun _ w => w = v := by
  unfold featureInfo2SQLvalue
  by_cases hs : featureTypeIdIsFromSet fi.retrievedType = true
  · rw [if_pos hs]
    refine Shows.handle (Shows.bind ((ignores_getIDDFromStringSet _ _ _ _ _ v).mono
      (fun _ _ h => h) fun _ _ h => h.2) fun _ w hw => shows_pure hw) fun e w hw => shows_stop hw
  · rw [if_neg hs]
    exact shows_pure rfl

theorem sees_featureValues (otn : Name) (objectTypeId : Nat) :
    ∀ (fis : List FeatureInfo) {v : ObjectView},
      SeesObjects v (featureValues otn objectTypeId fis) (fun _ w => w = v) fun _ w => w = v
  | [], _ => shows_pure rfl
  | fi :: fis, v => by
    refine Shows.bind (sees_featureInfo2SQLvalue otn objectTypeId true fi) fun _ w hw => ?_
    subst hw
    refine Shows.bind (sees_featureValues otn objectTypeId fis) fun _ w' hw' => ?_
    exact shows_pure hw'

namespace View

/-- An object more, with the bounds widened to it. -/
def create (v : ObjectView) (otn : Name) (row : ObjectRow) (monads : SetOfMonads) : ObjectView :=
  ((v.setRows otn fun rows => rows ++ [row]).setMin monads.first false).setMax monads.last false

/-- The length is set in the table and in the cache if the cache has a smaller one. -/
def raise (v : ObjectView) (otn : Name) (row : ObjectTypeRow) (length : Int) : ObjectView :=
  if row.largestObjectLength < length then v.setLength otn length else v

theorem committed_setMin (w : ObjectView) (m : Int) (b : Bool) :
    v.committed (w.setMin m b) = setMin (v.committed w) m b := by
  unfold setMin
  exact apply_ite v.committed _ _ _

theorem committed_setMax (w : ObjectView) (m : Int) (b : Bool) :
    v.committed (w.setMax m b) = setMax (v.committed w) m b := by
  unfold setMax
  exact apply_ite v.committed _ _ _

theorem committed_raise (w : ObjectView) (otn : Name) (row : ObjectTypeRow) (length : Int) :
    v.committed (w.raise otn row length) = raise (v.committed w) otn row length := by
  unfold raise
  rw [apply_ite v.committed, committed_setLength]

theorem committed_create (otn : Name) (row : ObjectRow) (monads : SetOfMonads) :
    v.committed (v.begun.create otn row monads) = v.create otn row monads := by
  unfold create
  rw [committed_setMax, committed_setMin]
  rfl

end View

/-- `createObject` adds the object and widens the bounds to it, or changes nothing but that its
transaction may stay open. -/
theorem sees_createObject {otn name : Name} {row : ObjectTypeRow} (hc : v.caches otn = some row)
    (hn : normalizeOTName name = otn) (objectIdD : Int) (objectTypeId : Nat)
    (monads : SetOfMonads) (t : ObjectRangeType) (features : List FeatureInfo) :
    SeesObjects v (createObject objectIdD name objectTypeId monads t features)
      (fun _ w => (v.current.objectRows otn).isSome ∧ ∃ values,
        w = (v.create otn (newRow objectIdD monads t values) monads).raise otn row
          (monadsLength monads))
      fun _ w => w = v ∨ w = v.begun := by
  have hnn : normalizeOTName otn = otn := by rw [← hn, normalizeOTName_normalizeOTName]
  unfold createObject catchDBError
  rw [hn]
  refine Shows.handle (sees_transaction (Shows.mono (E := fun _ w => w = v.begun) ?_
    (fun _ _ h => h) fun e w hw => ?_)) fun e w hw => shows_stop hw
  · refine Shows.bind (sees_featureValues otn objectTypeId _) fun values w hw => ?_
    subst hw
    refine Shows.bind ((sees_insertObject otn (newRow objectIdD monads t values)).mono
      (fun _ _ hw => hw) fun _ _ hw => hw.2) fun _ w hw => ?_
    obtain ⟨hrows, rfl⟩ := hw
    refine Shows.bind ((sees_setMinM monads.first false).mono (fun _ _ hw => hw)
      fun _ _ hw => hw.elim) fun _ w hw => ?_
    subst hw
    refine Shows.bind ((sees_setMaxM monads.last false).mono (fun _ _ hw => hw)
      fun _ _ hw => hw.elim) fun _ w hw => ?_
    have hext : (v.begun.setRows otn fun rows => rows ++ [newRow objectIdD monads t values]).Extends w := by
      rw [hw]
      exact (View.extends_setMin _ _ _).trans (View.extends_setMax _ _ _)
    have hw' : w = v.begun.create otn (newRow objectIdD monads t values) monads := hw
    refine (sees_setLargestObjectLengthIfNecessary hnn (hext.cached hc) hext.saved
      (monadsLength monads) t false).mono (fun _ w' hw'' => ?_) fun _ _ hw => hw.elim
    have hr : w' = w.raise otn row (monadsLength monads) := by
      rw [hw'', View.raise]
      simp only [Bool.false_eq_true, false_or]
    refine ⟨?_, hrows, values, ?_⟩
    · rw [hr, View.raise]
      split
      · exact hext.saved
      · exact hext.saved
    · rw [hr, View.committed_raise, hw', View.committed_create]
  · subst hw
    refine ⟨rfl, ?_⟩
    cases e with
    | returnedFalse =>
      refine .inl ?_
      rw [View.aborted, View.begun_current, View.begun_caches, ite_self]
    | leaves => exact .inr rfl
    | nullValueException => exact .inr rfl
    | dbError => exact .inr rfl

/-! ## 4. Many at a time -/

/-- The sequences are none of the objects' business. -/
theorem stored_setSequence (t : Tables) (q : Sequence) (n : Nat) :
    (t.setSequence q n).stored = t.stored := by
  cases q <;> rfl

abbrev QuietForObjects {α : Type} (x : DB α) : Prop :=
  Quiet Tables.stored Caches.objectTypeCache x

theorem quiet_getNextID (q : Sequence) : QuietForObjects (getNextID q) := by
  refine Quiet.transaction (Quiet.bind
    (quiet_execCommand fun t => stored_setSequence t q _) fun _ => ?_)
  exact quiet_execSelect.bind fun _ => quiet_catchNULLValue_accessTuple.bind fun _ => quiet_pure

theorem quiet_setNextObjectIDDIfNotHigher (n : Int) :
    QuietForObjects (setNextObjectIDDIfNotHigher n) := by
  refine Quiet.transaction (quiet_execSelect.bind fun cur =>
    quiet_catchNULLValue_accessTuple.bind fun _ => ?_)
  exact Quiet.ite (quiet_execCommand fun t => stored_setSequence t .objectIdDs _) quiet_pure

/-- The rows of a batch. -/
def IsRowOf (t : ObjectRangeType) (b : BatchObject) (o : ObjectRow) : Prop :=
  ∃ values, o = newRow b.idD b.monads t values

theorem Stored.setRows_append (s : Stored) (otn : Name) (rows more : List ObjectRow) :
    (s.setRows otn fun os => os ++ rows).setRows otn (fun os => os ++ more)
      = s.setRows otn fun os => os ++ (rows ++ more) := by
  unfold Stored.setRows
  congr 1
  funext n
  by_cases h : n = objectsTableName otn
  · simp only [h, if_true, Option.map_map]
    cases s.objects (objectsTableName otn) with
    | none => rfl
    | some table =>
      simp only [Option.map_some, Function.comp_apply, List.append_assoc]
  · simp only [h, if_false]

theorem Stored.setRows_nil (s : Stored) (otn : Name) : (s.setRows otn fun os => os ++ []) = s := by
  unfold Stored.setRows
  have h : (fun n => if n = objectsTableName otn then
      (s.objects n).map fun t => { t with rows := t.rows ++ [] } else s.objects n)
      = s.objects := by
    funext n
    simp only [List.append_nil]
    split
    · cases s.objects n <;> rfl
    · rfl
  rw [h]

theorem View.setRows_append (otn : Name) (rows more : List ObjectRow) :
    View.setRows (v.setRows otn fun os => os ++ rows) otn (fun os => os ++ more)
      = v.setRows otn fun os => os ++ (rows ++ more) :=
  View.ext (Stored.setRows_append v.current otn rows more) rfl rfl

theorem View.setRows_nil (otn : Name) : (v.setRows otn fun os => os ++ []) = v :=
  View.ext (Stored.setRows_nil v.current otn) rfl rfl

/-- The loop of `createObjects` adds the objects of the batch, up to the one that is refused. -/
theorem sees_createEach (otn : Name) (objectTypeId : Nat) (t : ObjectRangeType) :
    ∀ (os : List BatchObject) {v : ObjectView},
      SeesObjects v (createEach otn objectTypeId t os)
        (fun _ w => ∃ rows, List.Forall₂ (IsRowOf t) os rows ∧
          w = v.setRows otn fun old => old ++ rows)
        fun _ w => ∃ rows, (∀ o ∈ rows, ∃ b ∈ os, IsRowOf t b o) ∧
          w = v.setRows otn fun old => old ++ rows
  | [], v => shows_pure ⟨[], .nil, View.setRows_nil otn |>.symm⟩
  | b :: os, v => by
    have hone : SeesObjects v (createObjectsOTObjects otn objectTypeId b t)
        (fun _ w => ∃ o, IsRowOf t b o ∧ w = v.setRows otn fun old => old ++ [o])
        fun _ w => w = v := by
      refine Shows.bind (sees_featureValues otn objectTypeId b.features) fun values w hw => ?_
      subst hw
      refine (sees_insertObject otn (newRow b.idD b.monads t values)).mono (fun _ w' hw' => ?_)
        fun _ _ hw' => hw'.2
      exact ⟨_, ⟨values, rfl⟩, hw'.2⟩
    refine Shows.bind (hone.mono (fun _ _ hw => hw) fun e w hw => ?_) fun _ w hw => ?_
    · subst hw
      exact ⟨[], List.forall_mem_nil _, (View.setRows_nil otn).symm⟩
    · obtain ⟨o, ho, rfl⟩ := hw
      refine (sees_createEach otn objectTypeId t os).mono (fun _ w hw => ?_) fun _ w hw => ?_
      · obtain ⟨rows, hrows, rfl⟩ := hw
        exact ⟨o :: rows, .cons ho hrows, View.setRows_append otn [o] rows⟩
      · obtain ⟨rows, hrows, rfl⟩ := hw
        refine ⟨o :: rows, List.forall_mem_cons.mpr ⟨⟨b, List.mem_cons_self, ho⟩,
          fun p hp => ?_⟩, View.setRows_append otn [o] rows⟩
        obtain ⟨b', hb', hp⟩ := hrows p hp
        exact ⟨b', List.mem_cons_of_mem _ hb', hp⟩

/-- Within a transaction `createObjects` adds the objects, widens the bounds and raises the
length; where it fails it has added some of the objects and done nothing else. -/
theorem sees_createObjects {otn name : Name} {row : ObjectTypeRow} (hc : v.caches otn = some row)
    (hn : normalizeOTName name = otn) {s : Stored} (hs : v.saved = some s) (objectTypeId : Nat)
    (os : List BatchObject) (t : ObjectRangeType) :
    SeesObjects v (createObjects name objectTypeId os t)
      (fun _ w => ∃ rows, List.Forall₂ (IsRowOf t) os rows ∧
        w = (((v.setRows otn fun old => old ++ rows).setMin
          (os.foldl BatchBounds.add .start).minM false).setMax
          (os.foldl BatchBounds.add .start).maxM false).raise otn row
          (os.foldl BatchBounds.add .start).largestObjectLength)
      fun _ w => ∃ rows, (∀ o ∈ rows, ∃ b ∈ os, IsRowOf t b o) ∧
        w = v.setRows otn fun old => old ++ rows := by
  have hnn : normalizeOTName otn = otn := by rw [← hn, normalizeOTName_normalizeOTName]
  unfold createObjects
  rw [hn]
  refine Shows.bind (sees_createEach otn objectTypeId t os) fun _ w hw => ?_
  obtain ⟨rows, hrows, rfl⟩ := hw
  refine Shows.bind ((sees_setMinM _ false).mono (fun _ _ hw => hw) fun _ _ hw => hw.elim)
    fun _ w hw => ?_
  subst hw
  refine Shows.bind ((sees_setMaxM _ false).mono (fun _ _ hw => hw) fun _ _ hw => hw.elim)
    fun _ w hw => ?_
  have hext : (v.setRows otn fun old => old ++ rows).Extends w := by
    rw [hw]
    exact (View.extends_setMin _ _ _).trans (View.extends_setMax _ _ _)
  refine Shows.bind ((sees_setLargestObjectLengthIfNecessary hnn (hext.cached hc)
    (hext.saved.trans hs) _ t false).mono (fun _ _ hw => hw) fun _ _ hw => hw.elim)
    fun _ w' hw' => ?_
  refine (quiet_setNextObjectIDDIfNotHigher _ w').mono (fun _ w'' hw'' => ?_)
    fun _ _ hw => hw.elim
  refine ⟨rows, hrows, ?_⟩
  rw [hw'', hw', hw, View.raise]
  simp only [Bool.false_eq_true, false_or]

/-! ## 5. Object types -/

theorem addFeatureToCache_eq (row : FeatureRow) (db : EMdFDB) :
    db.addFeatureToCacheIfNotAlreadyThere row
      = { db with featureCache := (db.addFeatureToCacheIfNotAlreadyThere row).featureCache } := by
  unfold EMdFDB.addFeatureToCacheIfNotAlreadyThere
  cases db.findFeature row.featureName row.objectTypeId <;> rfl

/-- The cache of features is none of the objects' business. -/
theorem quiet_addFeatureToCache (row : FeatureRow) :
    QuietForObjects (modify (EMdFDB.addFeatureToCacheIfNotAlreadyThere row)) := by
  refine quiet_modify (fun db h => ?_) fun db => ?_
  · rw [addFeatureToCache_eq]
    exact h.setCaches _
  · rw [addFeatureToCache_eq]
    rfl

theorem quiet_loadFeatures : ∀ rows : List FeatureRow, QuietForObjects (loadFeatures rows)
  | [] => quiet_pure
  | row :: rows => by
    have hcols : QuietForObjects (accessColumns 4) :=
      quiet_answer (fun _ => ()) fun _ h => h.accessColumns 4
    have hnext : QuietForObjects getNextTuple :=
      quiet_answer (fun _ => ()) fun _ h => h.getNextTuple
    exact hcols.bind fun _ => (quiet_addFeatureToCache row.decode).bind fun _ =>
      hnext.bind fun _ => quiet_loadFeatures rows

theorem quiet_getFeaturesForObjectType (objectTypeId : Nat) :
    QuietForObjects (getFeaturesForObjectType objectTypeId) := by
  have hread : QuietForObjects (read (EMdFDB.cachedFeatures objectTypeId)) := fun v =>
    shows_read fun _ _ _ => rfl
  exact hread.bind fun cached => Quiet.ite quiet_pure (quiet_execSelect.bind fun rows =>
    (quiet_loadFeatures rows).handle.bind fun _ => quiet_pure)

theorem ignores_createFeature (objectTypeName : Name) (objectTypeId : Nat) (fi : FeatureInfo) :
    IgnoresObjects (createFeature objectTypeName objectTypeId fi) := by
  unfold createFeature
  refine (ignores_execCommand fun t t' h => ?_).bind fun _ => ?_
  · unfold Tables.insertFeature at h
    split at h
    · cases h
    · cases h
      rfl
  · have hset : IgnoresObjects (createStringSetTable objectTypeName (strToLower fi.name)) := by
      refine (ignores_execCommand fun t t' h => ?_).bind fun _ =>
        ignores_execCommand fun t t' h => by cases h; rfl
      unfold Tables.createStringSet at h
      split at h
      · cases h
      · cases h
        rfl
    have hrest : IgnoresObjects (do
        let _ ← getFeaturesForObjectType objectTypeId
        modify (EMdFDB.addFeatureToCacheIfNotAlreadyThere
          ⟨objectTypeId, strToLower fi.name, fi.outputType, fi.defaultValue, fi.isComputed⟩)) :=
      (quiet_getFeaturesForObjectType objectTypeId).ignores.bind fun _ =>
        (quiet_addFeatureToCache _).ignores
    exact Ignores.ite (hset.bind fun _ => hrest) hrest

theorem ignores_createFeatures (objectTypeName : Name) (objectTypeId : Nat) :
    ∀ fis : List FeatureInfo, IgnoresObjects (createFeatures objectTypeName objectTypeId fis)
  | [] => ignores_pure
  | fi :: fis => (ignores_createFeature objectTypeName objectTypeId fi).bind fun _ =>
    ignores_createFeatures objectTypeName objectTypeId fis

theorem quiet_createIndex : QuietForObjects createIndex := quiet_execCommand fun _ => rfl

theorem quiet_createFeatureIndices : ∀ fis : List FeatureInfo,
    QuietForObjects (createFeatureIndices fis)
  | [] => quiet_pure
  | fi :: fis => by
    have ih := quiet_createFeatureIndices fis
    exact Quiet.ite (quiet_createIndex.handle.bind fun _ => ih) ih

namespace Stored

/-- One more object type, with an empty table. -/
def addType (s : Stored) (row : ObjectTypeRow) (primaryKey : MonadUniquenessType) : Stored :=
  { s with
    objectTypes := s.objectTypes ++ [row]
    objects := fun n =>
      if n = objectsTableName row.objectTypeName then some ⟨primaryKey, []⟩ else s.objects n }

/-- An object type less, and its table. -/
def dropType (s : Stored) (otn : Name) (objectTypeId : Nat) : Stored :=
  { s with
    objectTypes := s.objectTypes.filter fun r => r.objectTypeId != objectTypeId
    objects := fun n => if n = objectsTableName otn then none else s.objects n }

theorem objectRows_addType (s : Stored) (row : ObjectTypeRow) (k : MonadUniquenessType) (n : Name) :
    (s.addType row k).objectRows n
      = if n = row.objectTypeName then some [] else s.objectRows n := by
  unfold addType objectRows
  by_cases h : n = row.objectTypeName
  · simp only [h, if_true, Option.map_some]
  · simp only [objectsTableName_inj, h, if_false]

theorem objectRows_dropType (s : Stored) (otn : Name) (i : Nat) (n : Name) :
    (s.dropType otn i).objectRows n = if n = otn then none else s.objectRows n := by
  unfold dropType objectRows
  by_cases h : n = otn
  · simp only [h, if_true, Option.map_none]
  · simp only [objectsTableName_inj, h, if_false]

/-- A new type with a name and an id of its own. -/
structure Fresh (s : Stored) (row : ObjectTypeRow) : Prop where
  name : ∀ r ∈ s.objectTypes, r.objectTypeName ≠ row.objectTypeName
  id : ∀ r ∈ s.objectTypes, r.objectTypeId ≠ row.objectTypeId
  normalized : normalizeOTName row.objectTypeName = row.objectTypeName

theorem Sound.addType {s : Stored} (h : s.Sound) {row : ObjectTypeRow} (hf : s.Fresh row)
    (k : MonadUniquenessType) : (s.addType row k).Sound where
  normalized r hr := by
    rcases List.mem_append.mp hr with hr | hr
    · exact h.normalized r hr
    · rw [List.mem_singleton.mp hr]
      exact hf.normalized
  names := by
    change ((s.objectTypes ++ [row]).map ObjectTypeRow.objectTypeName).Nodup
    rw [List.map_append, List.nodup_append]
    refine ⟨h.names, List.nodup_singleton _, fun a ha b hb => ?_⟩
    obtain ⟨r, hr, rfl⟩ := List.mem_map.mp ha
    rw [List.mem_singleton.mp hb]
    exact hf.name r hr
  ids := by
    change ((s.objectTypes ++ [row]).map ObjectTypeRow.objectTypeId).Nodup
    rw [List.map_append, List.nodup_append]
    refine ⟨h.ids, List.nodup_singleton _, fun a ha b hb => ?_⟩
    obtain ⟨r, hr, rfl⟩ := List.mem_map.mp ha
    rw [List.mem_singleton.mp hb]
    exact hf.id r hr
  tables n := by
    rw [objectRows_addType]
    change _ ↔ ∃ r ∈ s.objectTypes ++ [row], r.objectTypeName = n
    by_cases hn : n = row.objectTypeName
    · rw [if_pos hn]
      exact ⟨fun _ => ⟨row, by simp, hn.symm⟩, fun _ => rfl⟩
    · rw [if_neg hn, h.tables n]
      constructor
      · rintro ⟨r, hr, he⟩
        exact ⟨r, List.mem_append_left _ hr, he⟩
      · rintro ⟨r, hr, he⟩
        rcases List.mem_append.mp hr with hr | hr
        · exact ⟨r, hr, he⟩
        · rw [List.mem_singleton.mp hr] at he
          exact absurd he.symm hn
  singles r hr hs o ho := by
    rw [objectsOf_eq, objectRows_addType] at ho
    by_cases hn : r.objectTypeName = row.objectTypeName
    · rw [if_pos hn] at ho
      cases ho
    · rw [if_neg hn, ← objectsOf_eq] at ho
      rcases List.mem_append.mp hr with hr | hr
      · exact h.singles r hr hs o ho
      · rw [List.mem_singleton.mp hr] at hn
        exact absurd rfl hn

theorem Sound.dropType {s : Stored} (h : s.Sound) {r₀ : ObjectTypeRow} (hr₀ : r₀ ∈ s.objectTypes) :
    (s.dropType r₀.objectTypeName r₀.objectTypeId).Sound where
  normalized r hr := h.normalized r (List.mem_of_mem_filter hr)
  names := h.names.sublist (List.filter_sublist.map _)
  ids := h.ids.sublist (List.filter_sublist.map _)
  tables n := by
    rw [objectRows_dropType]
    change _ ↔ ∃ r ∈ s.objectTypes.filter fun r => r.objectTypeId != r₀.objectTypeId,
      r.objectTypeName = n
    by_cases hn : n = r₀.objectTypeName
    · rw [if_pos hn]
      refine ⟨fun h => (by cases h), ?_⟩
      rintro ⟨r, hr, he⟩
      obtain ⟨hr, hid⟩ := List.mem_filter.mp hr
      rw [h.eq_of_name hr hr₀ (he.trans hn)] at hid
      simp at hid
    · rw [if_neg hn, h.tables n]
      constructor
      · rintro ⟨r, hr, he⟩
        refine ⟨r, List.mem_filter.mpr ⟨hr, ?_⟩, he⟩
        simp only [bne_iff_ne]
        intro hid
        rw [h.eq_of_id hr hr₀ hid] at he
        exact hn he.symm
      · rintro ⟨r, hr, he⟩
        exact ⟨r, List.mem_of_mem_filter hr, he⟩
  singles r hr hs o ho := by
    rw [objectsOf_eq, objectRows_dropType] at ho
    split at ho
    · cases ho
    · exact h.singles r (List.mem_of_mem_filter hr) hs o ho

end Stored

/-- Another row in the cache. -/
def View.cache (v : ObjectView) (otn : Name) (row : Option ObjectTypeRow) : ObjectView :=
  { v with caches := fun n => if n = otn then row else v.caches n }

theorem sees_insertObjectType (row : ObjectTypeRow) :
    SeesObjects v (execCommand (Tables.insertObjectType row))
      (fun _ w => (∀ r ∈ v.current.objectTypes, r.objectTypeId ≠ row.objectTypeId) ∧
        w = { v with current := { v.current with
          objectTypes := v.current.objectTypes ++ [row] } })
      fun e w => e = .returnedFalse ∧ w = v := by
  refine (sees_execCommand (fun s : Stored =>
    if s.objectTypes.any fun r => r.objectTypeId == row.objectTypeId then none
    else some { s with objectTypes := s.objectTypes ++ [row] }) fun t => ?_).mono
    (fun _ w hw => ?_) fun _ _ hw => ⟨hw.1, hw.2.2⟩
  · unfold Tables.insertObjectType
    by_cases h : (t.objectTypes.any fun r => r.objectTypeId == row.objectTypeId) = true
    · rw [if_pos h]
      exact (if_pos h).symm
    · rw [if_neg h]
      exact (if_neg h).symm
  · obtain ⟨u, hu, rfl⟩ := hw
    by_cases h : (v.current.objectTypes.any fun r => r.objectTypeId == row.objectTypeId) = true
    · rw [if_pos h] at hu
      cases hu
    · rw [if_neg h] at hu
      cases hu
      refine ⟨fun r hr he => h ?_, rfl⟩
      rw [List.any_eq_true]
      exact ⟨r, hr, by simpa using he⟩

theorem sees_createObjectTypeOTObjects {otn name : Name} (hn : normalizeOTName name = otn)
    (h : v.current.objects (objectsTableName otn) = none) (t : ObjectRangeType)
    (u : MonadUniquenessType) :
    SeesObjects v (createObjectTypeOTObjects name t u)
      (fun _ w => w = { v with current := { v.current with
        objects := fun n => if n = objectsTableName otn then some ⟨u.upgrade t, []⟩
          else v.current.objects n } })
      fun _ _ => False := by
  unfold createObjectTypeOTObjects
  rw [hn]
  refine (sees_execCommand (fun s : Stored => (s.objects (objectsTableName otn)).elim
      (some { s with
        objects := fun n => if n = objectsTableName otn then some ⟨u.upgrade t, []⟩
          else s.objects n }) fun _ => none) fun t => ?_).mono
    (fun _ w hw => ?_) fun _ _ hw => ?_
  · unfold Tables.createObjectTable
    have ht : t.stored.objects (objectsTableName otn) = t.objects (objectsTableName otn) := rfl
    rw [ht]
    cases t.objects (objectsTableName otn) with
    | none => rfl
    | some _ => rfl
  · obtain ⟨s, hs, rfl⟩ := hw
    rw [h] at hs
    cases hs
    rfl
  · have := hw.2.1
    rw [h] at this
    cases this

theorem Stored.Sound.objects_none {s : Stored} (h : s.Sound) {otn : Name}
    (hno : ∀ r ∈ s.objectTypes, r.objectTypeName ≠ otn) :
    s.objects (objectsTableName otn) = none := by
  have hrows : ¬ (s.objectRows otn).isSome := fun hs => by
    obtain ⟨r, hr, he⟩ := (h.tables otn).mp hs
    exact hno r hr he
  rw [Option.not_isSome_iff_eq_none, Stored.objectRows, Option.map_eq_none_iff] at hrows
  exact hrows

theorem Stored.Fresh.objectTypeByName {s : Stored} {row : ObjectTypeRow} (h : s.Fresh row)
    (k : MonadUniquenessType) :
    (s.addType row k).objectTypeByName row.objectTypeName = some row := by
  have hnone : s.objectTypes.find? (fun r => r.objectTypeName == row.objectTypeName) = none := by
    rw [List.find?_eq_none]
    intro r hr
    simpa using h.name r hr
  change (s.objectTypes ++ [row]).find? _ = _
  rw [List.find?_append, hnone]
  simp

/-- With one more object type. -/
def View.addType (v : ObjectView) (row : ObjectTypeRow) (k : MonadUniquenessType) : ObjectView :=
  { v with current := v.current.addType row k }

/-- Where `createObjectType` fails, the type may have been added. -/
def NewType (v : ObjectView) (otn : Name) (current : Stored) : Prop :=
  ∃ row k, row.objectTypeName = otn ∧ v.current.Fresh row ∧ current = v.current.addType row k

theorem sees_createIndicesOnOTObjects {otn : Name} (hn : normalizeOTName otn = otn)
    {row : ObjectTypeRow} (hl : v.lookup otn = some row) :
    SeesObjects v (createIndicesOnOTObjects otn) (fun _ w => w = v.remember otn)
      fun _ _ => False := by
  refine Shows.bind (sees_objectTypeExists v otn) fun _ w hw => ?_
  obtain ⟨rfl, rfl⟩ := hw
  rw [hn, hl]
  exact quiet_createIndex.then fun _ =>
    (quiet_getFeaturesForObjectType row.objectTypeId).then fun fis =>
      quiet_createFeatureIndices fis (v.remember otn)

/-- The rest of `createObjectType`, after the type has been added. -/
theorem sees_createFeatures_and_indices {row : ObjectTypeRow} {k : MonadUniquenessType}
    {otn : Name} (hf : v.current.Fresh row) (hrow : row.objectTypeName = otn)
    (hc : v.caches otn = none) (name : Name) (i : Nat) (fis : List FeatureInfo) :
    SeesObjects (v.addType row k)
      (do
        createFeatures name i fis
        createFeature name i selfFeature
        createIndicesOnOTObjects otn
        pure i)
      (fun a w => a = i ∧ w = (v.addType row k).cache otn (some row))
      fun e w => e = .returnedFalse ∧ w = v.addType row k := by
  refine (ignores_createFeatures name i fis).then ⟨rfl, rfl⟩ fun _ => ?_
  refine (ignores_createFeature name i selfFeature).then ⟨rfl, rfl⟩ fun _ => ?_
  have hl : (v.addType row k).lookup otn = some row := by
    rw [View.lookup]
    change (v.caches otn).or _ = _
    rw [hc, ← hrow]
    exact hf.objectTypeByName k
  refine Shows.bind ((sees_createIndicesOnOTObjects (hrow ▸ hf.normalized) hl).mono
    (fun _ _ hw => hw) fun _ _ hw => hw.elim) fun _ w hw => shows_pure ⟨rfl, ?_⟩
  rw [hw, View.remember, hl]
  rfl

/-- `createObjectType` adds the type with an empty table and puts it into the cache.  Where it
fails within an open transaction, the type may have been added; it is not in the cache. -/
theorem sees_createObjectType (h : v.Sound) {otn name : Name} (hn : normalizeOTName name = otn)
    (hno : ∀ r ∈ v.current.objectTypes, r.objectTypeName ≠ otn) (hc : v.caches otn = none)
    (fis : List FeatureInfo) (t : ObjectRangeType) (u : MonadUniquenessType) :
    SeesObjects v (createObjectType name fis t u)
      (fun _ w => ∃ row k, row.objectTypeName = otn ∧ v.current.Fresh row ∧
        w = (v.addType row k).cache otn (some row))
      fun _ w => w.saved = v.saved ∧ w.caches = v.caches ∧
        (w.current = v.current ∨ v.saved.isSome ∧ NewType v otn w.current) := by
  have hnn : normalizeOTName otn = otn := by rw [← hn, normalizeOTName_normalizeOTName]
  unfold createObjectType
  rw [hn]
  have hbody : SeesObjects v.begun
      (do
        let i ← getNextTypeID
        execCommand (Tables.insertObjectType ⟨i, otn, t, u.upgrade t, 0⟩)
        createObjectTypeOTObjects name t u
        createFeatures name i fis
        createFeature name i selfFeature
        createIndicesOnOTObjects otn
        pure i)
      (fun i w => v.current.Fresh ⟨i, otn, t, u.upgrade t, 0⟩ ∧
        w = (v.begun.addType ⟨i, otn, t, u.upgrade t, 0⟩ (u.upgrade t)).cache otn
          (some ⟨i, otn, t, u.upgrade t, 0⟩))
      fun e w => e = .returnedFalse ∧ (w = v.begun ∨
        ∃ row k, row.objectTypeName = otn ∧ v.current.Fresh row ∧ w = v.begun.addType row k) := by
    have hid : QuietForObjects getNextTypeID := (quiet_getNextID .typeIds).bind fun _ => quiet_pure
    refine hid.then fun i => ?_
    refine Shows.bind ((sees_insertObjectType ⟨i, otn, t, u.upgrade t, 0⟩).mono (fun _ _ hw => hw)
      fun e w hw => ⟨hw.1, .inl hw.2⟩) fun _ w hw => ?_
    obtain ⟨hids, hw⟩ := hw
    have hfresh : v.current.Fresh ⟨i, otn, t, u.upgrade t, 0⟩ := ⟨hno, hids, hnn⟩
    have hnone : w.current.objects (objectsTableName otn) = none := by
      rw [hw]
      exact h.current.objects_none hno
    refine Shows.bind ((sees_createObjectTypeOTObjects hn hnone t u).mono (fun _ _ hw => hw)
      fun _ _ hw => hw.elim) fun _ w' hw' => ?_
    have hw'' : w' = v.begun.addType ⟨i, otn, t, u.upgrade t, 0⟩ (u.upgrade t) := by
      rw [hw', hw]
      rfl
    subst hw''
    refine (sees_createFeatures_and_indices (v := v.begun) hfresh rfl hc name i fis).mono
      (fun _ w hw => ?_) fun e w hw => ?_
    · obtain ⟨rfl, hw⟩ := hw
      exact ⟨hfresh, hw⟩
    · exact ⟨hw.1, .inr ⟨_, _, rfl, hfresh, hw.2⟩⟩
  refine Shows.bind (Q := fun i w => v.current.Fresh ⟨i, otn, t, u.upgrade t, 0⟩ ∧
      w = (v.addType ⟨i, otn, t, u.upgrade t, 0⟩ (u.upgrade t)).cache otn
        (some ⟨i, otn, t, u.upgrade t, 0⟩))
    (sees_transaction (hbody.mono (fun i w hw => ?_) fun e w hw => ?_)) fun i w hw => ?_
  · obtain ⟨hfresh, rfl⟩ := hw
    exact ⟨rfl, hfresh, rfl⟩
  · obtain ⟨rfl, hw⟩ := hw
    rcases hw with rfl | ⟨row, k, hrow, hfresh, rfl⟩
    · refine ⟨rfl, rfl, rfl, .inl ?_⟩
      exact ite_self _
    · refine ⟨rfl, rfl, rfl, ?_⟩
      cases hs : v.saved with
      | none =>
        refine .inl ?_
        rw [View.aborted, hs]
        rfl
      | some s =>
        refine .inr ⟨rfl, row, k, hrow, hfresh, ?_⟩
        rw [View.aborted, hs]
        rfl
  · obtain ⟨hfresh, rfl⟩ := hw
    refine Shows.bind (shows_modify (Q := fun _ w => w =
      (v.addType ⟨i, otn, t, u.upgrade t, 0⟩ (u.upgrade t)).cache otn
        (some ⟨i, otn, t, u.upgrade t, 0⟩)) (fun db h => h.addObjectTypeToCache _)
      fun db _ hv => ?_) fun _ w hw => shows_pure ⟨_, _, rfl, hfresh, hw⟩
    refine (objectView_addObjectTypeToCache _ db).trans ?_
    have hca : ∀ n, Caches.objectTypeCache db.toCaches n
        = if n = otn then some ⟨i, otn, t, u.upgrade t, 0⟩ else v.caches n :=
      congrFun (congrArg View.caches hv)
    have hcur : (objectView db).current = _ := congrArg View.current hv
    have hsav : (objectView db).saved = _ := congrArg View.saved hv
    refine View.ext hcur hsav (funext fun n => ?_)
    change (if n = otn then some ((Caches.objectTypeCache db.toCaches n).getD _)
      else Caches.objectTypeCache db.toCaches n) = if n = otn then _ else v.caches n
    rw [hca]
    by_cases hno : n = otn
    · rw [if_pos hno, if_pos hno]
      rfl
    · rw [if_neg hno, if_neg hno]

theorem objectView_deleteObjectTypeFromCache (otn : Name) (db : EMdFDB) :
    objectView (db.deleteObjectTypeFromCache otn) = (objectView db).cache otn none :=
  View.ext rfl rfl (funext fun n => deleteObjectTypeFromCache_objectTypeCache otn db n)

theorem sees_dropObjectTable (otn : Name) :
    SeesObjects v (execCommand (Tables.dropObjectTable (objectsTableName otn)))
      (fun _ w => (v.current.objectRows otn).isSome ∧ w = { v with current := { v.current with
        objects := fun n => if n = objectsTableName otn then none else v.current.objects n } })
      fun e w => e = .returnedFalse ∧ w = v := by
  refine (sees_execCommand (fun s : Stored => (s.objects (objectsTableName otn)).map fun _ =>
      { s with objects := fun n => if n = objectsTableName otn then none else s.objects n })
    fun t => ?_).mono (fun _ w hw => ?_) fun _ _ hw => ⟨hw.1, hw.2.2⟩
  · unfold Tables.dropObjectTable
    have ht : t.stored.objects (objectsTableName otn) = t.objects (objectsTableName otn) := rfl
    rw [ht]
    cases t.objects (objectsTableName otn) with
    | none => rfl
    | some _ => rfl
  · obtain ⟨s, hs, rfl⟩ := hw
    cases ho : v.current.objects (objectsTableName otn) with
    | none =>
      rw [ho] at hs
      cases hs
    | some table =>
      rw [ho] at hs
      cases hs
      refine ⟨?_, rfl⟩
      rw [Stored.objectRows, ho]
      rfl

/-- `dropObjectType` drops the type of that id and the table of that name, and takes the type out
of the cache. -/
theorem sees_dropObjectType {otn name : Name} (hn : normalizeOTName name = otn)
    {row : ObjectTypeRow} (hc : v.caches otn = some row) (objectTypeId : Nat) :
    SeesObjects v (dropObjectType name objectTypeId)
      (fun _ w => (v.current.objectRows otn).isSome ∧
        w = View.cache { v with current := v.current.dropType otn objectTypeId } otn none)
      fun _ w => w = v := by
  unfold dropObjectType
  rw [hn]
  refine Shows.bind (Q := fun _ w => (v.current.objectRows otn).isSome ∧
      w = { v with current := v.current.dropType otn objectTypeId })
    (sees_transaction (Shows.mono (E := fun e w => e = .returnedFalse ∧ w = v.begun) ?_
      (fun _ _ h => h) fun e w hw => ?_)) fun _ w hw => ?_
  · have hl : v.begun.lookup otn = some row := View.lookup_of_cached hc
    have hr : SeesObjects v.begun (withoutAbort (getOTObjectRangeType name)) (fun _ w => w = v.begun)
        fun _ _ => False := by
      refine Shows.handle (Shows.bind (sees_objectTypeExists v.begun name) fun _ w hw => ?_)
        fun _ _ h => h.elim
      obtain ⟨rfl, rfl⟩ := hw
      rw [hn, hl]
      exact shows_pure (View.remember_of_cached hc)
    refine Shows.bind (hr.mono (fun _ _ hw => hw) fun _ _ hw => hw.elim) fun _ w hw => ?_
    subst hw
    refine Shows.bind (sees_dropObjectTable otn) fun _ w hw => ?_
    obtain ⟨hrows, rfl⟩ := hw
    have hfeatures : QuietForObjects (execCommand (Tables.deleteFeatures objectTypeId)) :=
      quiet_execCommand fun _ => rfl
    refine hfeatures.then fun _ => ?_
    refine (sees_execCommand (fun s : Stored => some { s with
      objectTypes := s.objectTypes.filter fun r => r.objectTypeId != objectTypeId })
      fun _ => rfl).mono (fun _ w hw => ?_) fun _ _ hw => by cases hw.2.1
    obtain ⟨u, hu, rfl⟩ := hw
    cases hu
    exact ⟨rfl, hrows, rfl⟩
  · obtain ⟨rfl, rfl⟩ := hw
    refine ⟨rfl, ?_⟩
    change v.aborted v.begun = v
    rw [View.aborted, View.begun_current, View.begun_caches, ite_self]
  · obtain ⟨hrows, rfl⟩ := hw
    refine shows_modify (fun db h => h.setCaches _) fun db _ hv => ⟨hrows, ?_⟩
    refine (objectView_deleteObjectTypeFromCache otn db).trans ?_
    rw [← hv]

end Emdros
