/-
# What the operations do to the objects

This is the view through which the database is seen when objects are created and deleted: the rows
of the object types, the objects of each, `min_m` and `max_m` (`Stored`), and the cache of object
types as a map from names.  Features, enumerations, sequences and string sets are not in it, so
that most of what the operations do besides can be ignored.

A view is `Sound` if names and ids of object types are unique and normalized and each type has its
table of objects.  In a sound view a look-up finds the row that there is, and puts it into the
cache (`View.remember`); so the operations below are stated with what the view shows afterwards,
the cache included.

The greater part is about the three numbers that are stored of all objects.  `sees_setMinM`,
`sees_setMaxM` and `sees_setLargestObjectLengthIfNecessary` say what is written, and
`sees_setMinMaxMFromObjectTypes`, by induction over the object types, that the bounds that are found
again are the least first monad and the greatest last monad of all objects.
-/
import Emdros.EMdF.Objects
import Emdros.EMdF.WorkingBackend

namespace Emdros

open Effect

/-! ## 1. Names -/

theorem toLower_toLower (c : Char) : c.toLower.toLower = c.toLower := by
  simp only [Char.toLower]
  split
  · split
    · next h1 h2 =>
      simp only [UInt32.le_iff_toNat_le, UInt32.toNat_add, seval] at h1 h2
      omega
    · simp
  · rfl

@[simp] theorem strToLower_strToLower (name : Name) :
    strToLower (strToLower name) = strToLower name := by
  simp only [strToLower, List.map_map]
  exact List.map_congr_left fun c _ => toLower_toLower c

@[simp] theorem normalizeOTName_normalizeOTName (name : Name) :
    normalizeOTName (normalizeOTName name) = normalizeOTName name := strToLower_strToLower name

@[simp] theorem objectsTableName_inj {a b : Name} :
    objectsTableName a = objectsTableName b ↔ a = b := List.append_left_inj _

/-! ## 2. The view -/

/-- The part of the tables that says which objects there are. -/
structure Stored where
  objectTypes : List ObjectTypeRow
  objects : Name → Option ObjectTable
  minM : Int
  maxM : Int

def Tables.stored (t : Tables) : Stored := ⟨t.objectTypes, t.objects, t.minM, t.maxM⟩

namespace Stored

/-- The objects of a type. -/
def objectsOf (s : Stored) (otn : Name) : List ObjectRow :=
  ((s.objects (objectsTableName otn)).map ObjectTable.rows).getD []

/-- All objects of all object types. -/
def allObjects (s : Stored) : List ObjectRow :=
  s.objectTypes.flatMap fun r => s.objectsOf r.objectTypeName

def objectTypeByName (s : Stored) (otn : Name) : Option ObjectTypeRow :=
  s.objectTypes.find? fun r => r.objectTypeName == otn

/-- The objects of a type, where its table is there. -/
def objectRows (s : Stored) (otn : Name) : Option (List ObjectRow) :=
  (s.objects (objectsTableName otn)).map ObjectTable.rows

/-- Other objects in the table of a type. -/
def setRows (s : Stored) (otn : Name) (f : List ObjectRow → List ObjectRow) : Stored :=
  { s with
    objects := fun n =>
      if n = objectsTableName otn then (s.objects n).map fun t => { t with rows := f t.rows }
      else s.objects n }

/-- Another value in the column `largest_object_length` of a type. -/
def setLength (s : Stored) (otn : Name) (length : Int) : Stored :=
  { s with
    objectTypes := s.objectTypes.map fun r =>
      if r.objectTypeName = otn then { r with largestObjectLength := length } else r }

theorem objectRows_setRows (s : Stored) (otn : Name) (f : List ObjectRow → List ObjectRow)
    (n : Name) :
    (s.setRows otn f).objectRows n
      = if n = otn then (s.objectRows n).map f else s.objectRows n := by
  unfold setRows objectRows
  by_cases h : n = otn
  · simp only [h, if_true, Option.map_map]
    rfl
  · simp only [objectsTableName_inj, h, if_false]

theorem objectsOf_eq (s : Stored) (otn : Name) : s.objectsOf otn = (s.objectRows otn).getD [] := rfl

theorem objectTypeByName_some {s : Stored} {otn : Name} {r : ObjectTypeRow}
    (h : s.objectTypeByName otn = some r) : r ∈ s.objectTypes ∧ r.objectTypeName = otn :=
  ⟨List.mem_of_find?_eq_some h, by simpa using List.find?_some h⟩

end Stored

/-- The cache of object types as a map. -/
def Caches.objectTypeCache (c : Caches) (otn : Name) : Option ObjectTypeRow :=
  c.objectTypeCacheMap.find? fun r => r.objectTypeName == otn

abbrev ObjectView := View Stored (Name → Option ObjectTypeRow)

namespace View

/-- What `objectTypeExists` finds. -/
def lookup (v : ObjectView) (otn : Name) : Option ObjectTypeRow :=
  (v.caches otn).or (v.current.objectTypeByName otn)

/-- What `objectTypeExists` leaves in the cache. -/
def remember (v : ObjectView) (otn : Name) : ObjectView :=
  { v with caches := fun n => if n = otn then v.lookup otn else v.caches n }

/-- The length of the largest object in the table and in the cache. -/
def setLength (v : ObjectView) (otn : Name) (length : Int) : ObjectView :=
  { v with
    current := v.current.setLength otn length
    caches := fun n =>
      if n = otn then (v.caches n).map fun r => { r with largestObjectLength := length }
      else v.caches n }

def setRows (v : ObjectView) (otn : Name) (f : List ObjectRow → List ObjectRow) : ObjectView :=
  { v with current := v.current.setRows otn f }

@[simp] theorem remember_current (v : ObjectView) (otn : Name) :
    (v.remember otn).current = v.current := rfl

@[simp] theorem remember_saved (v : ObjectView) (otn : Name) :
    (v.remember otn).saved = v.saved := rfl

theorem remember_caches_self (v : ObjectView) (otn : Name) :
    (v.remember otn).caches otn = v.lookup otn := if_pos rfl

theorem remember_caches_ne (v : ObjectView) {otn n : Name} (h : n ≠ otn) :
    (v.remember otn).caches n = v.caches n := if_neg h

theorem lookup_of_cached {v : ObjectView} {otn : Name} {row : ObjectTypeRow}
    (h : v.caches otn = some row) : v.lookup otn = some row := by
  rw [lookup, h]
  rfl

theorem remember_of_cached {v : ObjectView} {otn : Name} {row : ObjectTypeRow}
    (h : v.caches otn = some row) : v.remember otn = v := by
  refine View.ext rfl rfl (funext fun n => ?_)
  by_cases hn : n = otn
  · rw [hn, remember_caches_self, lookup_of_cached h, h]
  · exact remember_caches_ne v hn

theorem remember_of_none {v : ObjectView} {otn : Name} (h : v.lookup otn = none) :
    v.remember otn = v := by
  refine View.ext rfl rfl (funext fun n => ?_)
  by_cases hn : n = otn
  · rw [hn, remember_caches_self, h]
    exact (Option.or_eq_none_iff.mp h).1.symm
  · exact remember_caches_ne v hn

end View

/-- What an operation does to the objects. -/
abbrev SeesObjects {α : Type} (v : ObjectView) (x : DB α) (Q : α → ObjectView → Prop)
    (E : Failure → ObjectView → Prop) : Prop :=
  Sees Tables.stored Caches.objectTypeCache v x Q E

abbrev IgnoresObjects {α : Type} (x : DB α) : Prop :=
  Ignores Tables.stored Caches.objectTypeCache x

abbrev objectView (db : EMdFDB) : ObjectView := view Tables.stored Caches.objectTypeCache db

/-! ## 3. The cache of object types -/

theorem find?_orderedInsert {row : ObjectTypeRow} (n : Name) : ∀ {l : List ObjectTypeRow},
    l.find? (fun r => r.objectTypeName == row.objectTypeName) = none →
    (l.orderedInsert (fun a b => a.objectTypeName ≤ b.objectTypeName) row).find?
        (fun r => r.objectTypeName == n)
      = if n = row.objectTypeName then some row else l.find? fun r => r.objectTypeName == n
  | [], _ => by
    by_cases h : n = row.objectTypeName
    · simp [h]
    · simp [h, Ne.symm h]
  | b :: l, hl => by
    have hb : ¬ b.objectTypeName = row.objectTypeName := by
      intro hb
      rw [List.find?_cons_of_pos (by simpa using hb)] at hl
      cases hl
    have hl' : l.find? (fun r => r.objectTypeName == row.objectTypeName) = none := by
      rwa [List.find?_cons_of_neg (by simpa using hb)] at hl
    rw [List.orderedInsert_cons]
    by_cases h : n = row.objectTypeName
    · subst h
      rw [if_pos rfl]
      by_cases hle : row.objectTypeName ≤ b.objectTypeName
      · rw [if_pos hle, List.find?_cons_of_pos (by simp)]
      · rw [if_neg hle, List.find?_cons_of_neg (by simpa using hb), find?_orderedInsert _ hl',
          if_pos rfl]
    · rw [if_neg h]
      by_cases hle : row.objectTypeName ≤ b.objectTypeName
      · rw [if_pos hle, List.find?_cons_of_neg (by simpa using Ne.symm h)]
      · rw [if_neg hle, List.find?_cons, List.find?_cons, find?_orderedInsert n hl', if_neg h]

theorem addObjectTypeToCache_objectTypeCache (row : ObjectTypeRow) (db : EMdFDB) (n : Name) :
    (db.addObjectTypeToCache row).objectTypeCache n
      = if n = row.objectTypeName then some ((db.objectTypeCache n).getD row)
        else db.objectTypeCache n := by
  unfold EMdFDB.addObjectTypeToCache
  cases h : db.findObjectType row.objectTypeName with
  | some r =>
    by_cases hn : n = row.objectTypeName
    · subst hn
      have hc : db.objectTypeCache row.objectTypeName = some r := h
      rw [if_pos rfl, hc]
      rfl
    · rw [if_neg hn]
  | none =>
    have hc : db.objectTypeCache row.objectTypeName = none := h
    change List.find? _ (List.orderedInsert _ _ _) = _
    rw [find?_orderedInsert n h]
    by_cases hn : n = row.objectTypeName
    · subst hn
      rw [if_pos rfl, if_pos rfl, hc]
      rfl
    · rw [if_neg hn, if_neg hn]
      rfl

theorem deleteObjectTypeFromCache_objectTypeCache (otn : Name) (db : EMdFDB) (n : Name) :
    (db.deleteObjectTypeFromCache otn).objectTypeCache n
      = if n = otn then none else db.objectTypeCache n := by
  change List.find? _ (List.filter _ _) = _
  rw [List.find?_filter]
  by_cases h : n = otn
  · subst h
    rw [if_pos rfl, List.find?_eq_none]
    intro r _
    simp
  · rw [if_neg h]
    unfold Caches.objectTypeCache
    congr 1
    funext r
    by_cases hr : r.objectTypeName = n
    · simp [hr, h]
    · simp [hr]

theorem setCachedLength_objectTypeCache (otn : Name) (length : Int) (db : EMdFDB) (n : Name) :
    (db.setCachedLength otn length).objectTypeCache n
      = if n = otn then (db.objectTypeCache n).map fun r => { r with largestObjectLength := length }
        else db.objectTypeCache n := by
  change List.find? _ (List.map _ _) = _
  rw [List.find?_map]
  have hp : ((fun r : ObjectTypeRow => r.objectTypeName == n) ∘ fun r =>
      if r.objectTypeName = otn then { r with largestObjectLength := length } else r)
      = fun r => r.objectTypeName == n := by
    funext r
    by_cases hr : r.objectTypeName = otn
    · simp [hr]
    · simp [hr]
  rw [hp]
  unfold Caches.objectTypeCache
  cases hf : db.objectTypeCacheMap.find? fun r => r.objectTypeName == n with
  | none => simp
  | some r =>
    have hr : r.objectTypeName = n := by simpa using List.find?_some hf
    subst hr
    by_cases h : r.objectTypeName = otn
    · rw [if_pos h, Option.map_some, Option.map_some, if_pos h]
    · rw [if_neg h, Option.map_some, if_neg h]

theorem addObjectTypeToCache_eq (row : ObjectTypeRow) (db : EMdFDB) :
    db.addObjectTypeToCache row
      = { db with objectTypeCacheMap := (db.addObjectTypeToCache row).objectTypeCacheMap } := by
  unfold EMdFDB.addObjectTypeToCache
  cases db.findObjectType row.objectTypeName <;> rfl

/-- The cache of object types is what `addObjectTypeToCache` changes. -/
theorem objectView_addObjectTypeToCache (row : ObjectTypeRow) (db : EMdFDB) :
    objectView (db.addObjectTypeToCache row)
      = { objectView db with
          caches := fun n => if n = row.objectTypeName then some ((db.objectTypeCache n).getD row)
            else db.objectTypeCache n } := by
  refine View.ext ?_ ?_ (funext fun n => ?_)
  · rw [addObjectTypeToCache_eq]
    rfl
  · rw [addObjectTypeToCache_eq]
    rfl
  · exact addObjectTypeToCache_objectTypeCache row db n

theorem Working.addObjectTypeToCache {db : EMdFDB} (h : Working db) (row : ObjectTypeRow) :
    Working (db.addObjectTypeToCache row) := by
  rw [addObjectTypeToCache_eq]
  exact h.setCaches _

/-- `objectTypeExists` finds the type and leaves it in the cache. -/
theorem sees_objectTypeExists (v : ObjectView) (name : Name) :
    SeesObjects v (objectTypeExists name)
      (fun row w => row = v.lookup (normalizeOTName name) ∧ w = v.remember (normalizeOTName name))
      fun _ _ => False := by
  unfold objectTypeExists
  refine Shows.bind (shows_read (Q := fun row w => row = v.caches (normalizeOTName name) ∧ w = v)
    fun db _ hv => ⟨by subst hv; rfl, rfl⟩) fun row w hw => ?_
  obtain ⟨rfl, rfl⟩ := hw
  cases hc : w.caches (normalizeOTName name) with
  | some row =>
    refine shows_pure ⟨(View.lookup_of_cached hc).symm, ?_⟩
    exact (View.remember_of_cached hc).symm
  | none =>
    refine Shows.bind ((sees_selectRow
      (fun s : Stored => some (s.objectTypeByName (normalizeOTName name)))
      fun _ => rfl).mono (fun _ _ h => h) fun _ _ h => by cases h.2.1) fun row w' hw => ?_
    obtain ⟨hrow, rfl⟩ := hw
    obtain rfl := Option.some.inj hrow
    cases hr : w'.current.objectTypeByName (normalizeOTName name) with
    | none =>
      have hl : w'.lookup (normalizeOTName name) = none := by
        rw [View.lookup, hc, hr]
        rfl
      exact shows_pure ⟨hl.symm, (View.remember_of_none hl).symm⟩
    | some row =>
      have hl : w'.lookup (normalizeOTName name) = some row := by
        rw [View.lookup, hc, hr]
        rfl
      have hn := (Stored.objectTypeByName_some hr).2
      refine Shows.bind (shows_modify (Q := fun _ w => w = w'.remember (normalizeOTName name))
        (fun db h => ?_) fun db _ hv => ?_) fun _ w hw => ?_
      · exact h.addObjectTypeToCache row
      · subst hv
        refine (objectView_addObjectTypeToCache row db).trans
          (View.ext rfl rfl (funext fun n => ?_))
        change (if n = row.objectTypeName then some ((db.objectTypeCache n).getD row)
          else db.objectTypeCache n) = _
        by_cases h : n = normalizeOTName name
        · have hc' : db.objectTypeCache n = none := by rw [h]; exact hc
          rw [if_pos (h.trans hn.symm), hc', h, View.remember_caches_self, hl]
          rfl
        · rw [if_neg (fun e => h (e.trans hn)), View.remember_caches_ne _ h]
          rfl
      · subst hw
        exact shows_pure ⟨hl.symm, rfl⟩

/-! ## 4. `min_m`, `max_m` and the largest object -/

namespace View

/-- `setMin_m`. -/
def setMin (v : ObjectView) (m : Int) (bSetUnconditionally : Bool) : ObjectView :=
  if bSetUnconditionally ∨ m < v.current.minM then
    { v with current := { v.current with minM := m } }
  else v

/-- `setMax_m`. -/
def setMax (v : ObjectView) (m : Int) (bSetUnconditionally : Bool) : ObjectView :=
  if bSetUnconditionally ∨ v.current.maxM < m then
    { v with current := { v.current with maxM := m } }
  else v

end View

variable {v : ObjectView}

theorem Working.getMinM {db : EMdFDB} (h : Working db) : getMinM db = (.ok db.tables.minM, db) := by
  have hs : Emdros.execSelect (fun t => some t.minM) db = (.ok db.tables.minM, db) :=
    h.execSelect _
  rw [Emdros.getMinM, bind_ok hs, bind_ok (catchNULLValue h.accessTuple)]
  rfl

theorem Working.getMaxM {db : EMdFDB} (h : Working db) : getMaxM db = (.ok db.tables.maxM, db) := by
  have hs : Emdros.execSelect (fun t => some t.maxM) db = (.ok db.tables.maxM, db) :=
    h.execSelect _
  rw [Emdros.getMaxM, bind_ok hs, bind_ok (catchNULLValue h.accessTuple)]
  rfl

theorem sees_getMinM :
    SeesObjects v getMinM (fun m w => m = v.current.minM ∧ w = v) fun _ _ => False := by
  rintro db ⟨h, rfl⟩
  rw [h.getMinM]
  exact ⟨h, rfl, rfl⟩

theorem sees_getMaxM :
    SeesObjects v getMaxM (fun m w => m = v.current.maxM ∧ w = v) fun _ _ => False := by
  rintro db ⟨h, rfl⟩
  rw [h.getMaxM]
  exact ⟨h, rfl, rfl⟩

theorem sees_setMinM (m : Int) (b : Bool) :
    SeesObjects v (setMinM m b) (fun _ w => w = v.setMin m b) fun _ _ => False := by
  refine Shows.bind sees_getMinM fun cur w hw => ?_
  obtain ⟨rfl, rfl⟩ := hw
  unfold View.setMin
  by_cases h : b = true ∨ m < w.current.minM
  · rw [if_pos h, if_pos h]
    refine (sees_execCommand (fun s : Stored => some { s with minM := m }) fun _ => rfl).mono
      (fun _ w' hw' => ?_) fun _ _ hw' => by cases hw'.2.1
    obtain ⟨u, hu, rfl⟩ := hw'
    cases hu
    rfl
  · rw [if_neg h, if_neg h]
    exact shows_pure rfl

theorem sees_setMaxM (m : Int) (b : Bool) :
    SeesObjects v (setMaxM m b) (fun _ w => w = v.setMax m b) fun _ _ => False := by
  refine Shows.bind sees_getMaxM fun cur w hw => ?_
  obtain ⟨rfl, rfl⟩ := hw
  unfold View.setMax
  by_cases h : b = true ∨ w.current.maxM < m
  · rw [if_pos h, if_pos h]
    refine (sees_execCommand (fun s : Stored => some { s with maxM := m }) fun _ => rfl).mono
      (fun _ w' hw' => ?_) fun _ _ hw' => by cases hw'.2.1
    obtain ⟨u, hu, rfl⟩ := hw'
    cases hu
    rfl
  · rw [if_neg h, if_neg h]
    exact shows_pure rfl

/-- With the type in the cache, the cache answers. -/
theorem sees_getLargestObjectLength {otn : Name} (hn : normalizeOTName otn = otn)
    {row : ObjectTypeRow} (hc : v.caches otn = some row) (r : ObjectRangeType) :
    SeesObjects v (getLargestObjectLength otn r)
      (fun length w => length = row.largestObjectLength ∧ w = v) fun _ _ => False := by
  unfold getLargestObjectLength
  rw [hn]
  refine Shows.bind (shows_read (Q := fun row' w => row' = some row ∧ w = v) fun db _ hv => ?_)
    fun row' w hw => ?_
  · subst hv
    exact ⟨hc, rfl⟩
  · obtain ⟨rfl, rfl⟩ := hw
    exact shows_pure ⟨rfl, rfl⟩

theorem objectView_setCachedLength (otn : Name) (length : Int) (db : EMdFDB) :
    objectView (db.setCachedLength otn length)
      = { objectView db with
          caches := fun n =>
            if n = otn then
              (db.objectTypeCache n).map fun r => { r with largestObjectLength := length }
            else db.objectTypeCache n } :=
  View.ext rfl rfl (funext fun n => setCachedLength_objectTypeCache otn length db n)

/-- Within a transaction `setLargestObjectLengthIfNecessary` sets the length in the table and in
the cache, or neither. -/
theorem sees_setLargestObjectLengthIfNecessary {otn : Name} (hn : normalizeOTName otn = otn)
    {row : ObjectTypeRow} (hc : v.caches otn = some row) {u : Stored} (hs : v.saved = some u)
    (length : Int) (r : ObjectRangeType) (b : Bool) :
    SeesObjects v (setLargestObjectLengthIfNecessary otn length r b)
      (fun _ w => w = if b = true ∨ row.largestObjectLength < length then v.setLength otn length
        else v) fun _ _ => False := by
  unfold setLargestObjectLengthIfNecessary
  rw [hn]
  refine Shows.bind (sees_beginning_of_open hs) fun bDoCommit w hw => ?_
  obtain ⟨rfl, rfl⟩ := hw
  have hnec : SeesObjects w
      (if b = true then pure true
        else do
          let currentLargest ← getLargestObjectLength otn r
          pure (decide (currentLargest < length)))
      (fun necessary w' => (necessary = true ↔ b = true ∨ row.largestObjectLength < length) ∧ w' = w)
      fun _ _ => False := by
    by_cases hb : b = true
    · rw [if_pos hb]
      exact shows_pure ⟨by simp [hb], rfl⟩
    · rw [if_neg hb]
      refine Shows.bind (sees_getLargestObjectLength hn hc r) fun cur w' hw' => ?_
      obtain ⟨rfl, rfl⟩ := hw'
      exact shows_pure ⟨by simp [hb], rfl⟩
  refine Shows.bind (sees_orAbort hnec) fun necessary w' hw' => ?_
  obtain ⟨hiff, rfl⟩ := hw'
  cases necessary with
  | false =>
    have h : ¬ (b = true ∨ row.largestObjectLength < length) := fun h => by cases hiff.mpr h
    rw [if_neg h]
    exact shows_modify (fun _ h => h) fun _ _ hv => hv
  | true =>
    rw [if_pos (hiff.mp rfl)]
    refine Shows.bind (sees_orAbort ((sees_execCommand
      (fun s : Stored => some (s.setLength otn length)) fun _ => rfl).mono
      (R := fun _ w => w = { w' with current := w'.current.setLength otn length })
      (fun _ w hw => ?_) fun _ _ hw => by cases hw.2.1)) fun _ w hw => ?_
    · obtain ⟨u, hu, rfl⟩ := hw
      cases hu
      rfl
    · refine Shows.bind sees_commitIf_false fun _ w'' hw'' => ?_
      obtain rfl := hw''
      refine shows_modify (fun db h => h.setCaches _) fun db _ hv => ?_
      refine (objectView_setCachedLength otn length db).trans ?_
      subst hw
      have hcur := congrArg View.current hv
      have hsav := congrArg View.saved hv
      have hca := congrArg View.caches hv
      refine View.ext hcur hsav (funext fun n => ?_)
      change (if n = otn then (Caches.objectTypeCache db.toCaches n).map _
        else Caches.objectTypeCache db.toCaches n) = _
      have hca' : Caches.objectTypeCache db.toCaches n = w'.caches n := congrFun hca n
      rw [hca']
      rfl

/-! ## 5. Bounds from the objects -/

/-- The least first monad, from `m` down. -/
def lowest (m : Int) (os : List ObjectRow) : Int := os.foldr (fun o n => min o.firstMonad n) m

/-- The greatest last monad, from `m` up. -/
def highest (m : Int) (os : List ObjectRow) : Int := os.foldr (fun o n => max o.lastMonad n) m

theorem le_lowest {x m : Int} : ∀ {os : List ObjectRow},
    x ≤ lowest m os ↔ x ≤ m ∧ ∀ o ∈ os, x ≤ o.firstMonad
  | [] => by simp [lowest]
  | o :: os => by
    have ih := @le_lowest x m os
    rw [lowest, List.foldr_cons, le_min_iff]
    rw [lowest] at ih
    rw [ih, List.forall_mem_cons]
    tauto

theorem highest_le {x m : Int} : ∀ {os : List ObjectRow},
    highest m os ≤ x ↔ m ≤ x ∧ ∀ o ∈ os, o.lastMonad ≤ x
  | [] => by simp [highest]
  | o :: os => by
    have ih := @highest_le x m os
    rw [highest, List.foldr_cons, max_le_iff]
    rw [highest] at ih
    rw [ih, List.forall_mem_cons]
    tauto

theorem lowest_append (m : Int) (os ps : List ObjectRow) :
    lowest m (os ++ ps) = lowest (lowest m os) ps :=
  eq_of_forall_le_iff fun x => by
    simp only [le_lowest, List.forall_mem_append, and_assoc]

theorem highest_append (m : Int) (os ps : List ObjectRow) :
    highest m (os ++ ps) = highest (highest m os) ps :=
  eq_of_forall_ge_iff fun x => by
    simp only [highest_le, List.forall_mem_append, and_assoc]

/-- The bounds that `minMaxMonad` finds, where `first_monad` is the last monad of single monads. -/
theorem minMaxMonad_spec {r : ObjectRangeType} {os : List ObjectRow} (hne : os ≠ [])
    (hr : r = .singleMonad → ∀ o ∈ os, o.lastMonad = o.firstMonad) :
    ∃ lo hi, minMaxMonad r os = some (lo, hi) ∧ (∀ m, lowest m os = min lo m) ∧
      ∀ m, highest m os = max hi m := by
  have hlast : (os.map fun o => if r = .singleMonad then o.firstMonad else o.lastMonad)
      = os.map ObjectRow.lastMonad := by
    refine List.map_congr_left fun o ho => ?_
    by_cases h : r = .singleMonad
    · rw [if_pos h, hr h o ho]
    · rw [if_neg h]
  have hlo : (os.map ObjectRow.firstMonad).min? ≠ none := by simpa using hne
  have hhi : (os.map ObjectRow.lastMonad).max? ≠ none := by simpa using hne
  obtain ⟨lo, hlo⟩ := Option.ne_none_iff_exists'.mp hlo
  obtain ⟨hi, hhi⟩ := Option.ne_none_iff_exists'.mp hhi
  refine ⟨lo, hi, ?_, fun m => ?_, fun m => ?_⟩
  · unfold minMaxMonad
    rw [hlast, hlo, hhi]
  · obtain ⟨hmem, hle⟩ := List.min?_eq_some_iff.mp hlo
    obtain ⟨o, ho, rfl⟩ := List.mem_map.mp hmem
    refine eq_of_forall_le_iff fun x => ?_
    rw [le_lowest, le_min_iff]
    constructor
    · exact fun h => ⟨h.2 o ho, h.1⟩
    · exact fun h => ⟨h.2, fun p hp => h.1.trans (hle _ (List.mem_map_of_mem hp))⟩
  · obtain ⟨hmem, hle⟩ := List.max?_eq_some_iff.mp hhi
    obtain ⟨o, ho, rfl⟩ := List.mem_map.mp hmem
    refine eq_of_forall_ge_iff fun x => ?_
    rw [highest_le, max_le_iff]
    constructor
    · exact fun h => ⟨h.2 o ho, h.1⟩
    · exact fun h => ⟨h.2, fun p hp => (hle _ (List.mem_map_of_mem hp)).trans h.1⟩

namespace View

/-- From `v` to `w` only the bounds change, and types are added to the cache. -/
structure Extends (v w : ObjectView) : Prop where
  objectTypes : w.current.objectTypes = v.current.objectTypes
  objects : w.current.objects = v.current.objects
  saved : w.saved = v.saved
  caches : ∀ n, w.caches n = v.caches n ∨
    v.caches n = none ∧ w.caches n = v.current.objectTypeByName n

theorem Extends.refl (v : ObjectView) : v.Extends v := ⟨rfl, rfl, rfl, fun _ => .inl rfl⟩

theorem Extends.trans {u w : ObjectView} (h : v.Extends u) (h' : u.Extends w) : v.Extends w where
  objectTypes := h'.objectTypes.trans h.objectTypes
  objects := h'.objects.trans h.objects
  saved := h'.saved.trans h.saved
  caches n := by
    have hby : u.current.objectTypeByName n = v.current.objectTypeByName n := by
      unfold Stored.objectTypeByName
      rw [h.objectTypes]
    rcases h.caches n with h1 | ⟨h1, h2⟩
    · rcases h'.caches n with h3 | ⟨h3, h4⟩
      · exact .inl (h3.trans h1)
      · exact .inr ⟨h1 ▸ h3, h4.trans hby⟩
    · rcases h'.caches n with h3 | ⟨h3, h4⟩
      · exact .inr ⟨h1, h3.trans h2⟩
      · exact .inr ⟨h1, h4.trans hby⟩

theorem extends_remember (v : ObjectView) (otn : Name) : v.Extends (v.remember otn) where
  objectTypes := rfl
  objects := rfl
  saved := rfl
  caches n := by
    by_cases h : n = otn
    · subst h
      rw [remember_caches_self, lookup]
      cases hc : v.caches n with
      | none => exact .inr ⟨rfl, rfl⟩
      | some row => exact .inl rfl
    · exact .inl (remember_caches_ne v h)

theorem extends_setMin (v : ObjectView) (m : Int) (b : Bool) : v.Extends (v.setMin m b) := by
  unfold setMin
  by_cases h : b = true ∨ m < v.current.minM
  · rw [if_pos h]
    exact ⟨rfl, rfl, rfl, fun _ => .inl rfl⟩
  · rw [if_neg h]
    exact .refl v

theorem extends_setMax (v : ObjectView) (m : Int) (b : Bool) : v.Extends (v.setMax m b) := by
  unfold setMax
  by_cases h : b = true ∨ v.current.maxM < m
  · rw [if_pos h]
    exact ⟨rfl, rfl, rfl, fun _ => .inl rfl⟩
  · rw [if_neg h]
    exact .refl v

/-- A type in the cache is still there, as it was. -/
theorem Extends.cached {w : ObjectView} (h : v.Extends w) {n : Name} {row : ObjectTypeRow}
    (hc : v.caches n = some row) : w.caches n = some row := by
  rcases h.caches n with h1 | ⟨h1, -⟩
  · rw [h1, hc]
  · rw [hc] at h1
    cases h1

theorem setMin_minM (v : ObjectView) (m : Int) :
    (v.setMin m false).current.minM = min m v.current.minM := by
  unfold setMin
  by_cases h : m < v.current.minM
  · rw [if_pos (.inr h)]
    exact (min_eq_left h.le).symm
  · rw [if_neg (by simpa using h)]
    exact (min_eq_right (not_lt.mp h)).symm

theorem setMin_maxM (v : ObjectView) (m : Int) (b : Bool) :
    (v.setMin m b).current.maxM = v.current.maxM := by
  unfold setMin
  split <;> rfl

theorem setMax_maxM (v : ObjectView) (m : Int) :
    (v.setMax m false).current.maxM = max m v.current.maxM := by
  unfold setMax
  by_cases h : v.current.maxM < m
  · rw [if_pos (.inr h)]
    exact (max_eq_left h.le).symm
  · rw [if_neg (by simpa using h)]
    exact (max_eq_right (not_lt.mp h)).symm

theorem setMax_minM (v : ObjectView) (m : Int) (b : Bool) :
    (v.setMax m b).current.minM = v.current.minM := by
  unfold setMax
  split <;> rfl

end View

/-! ## 6. Sound views -/

/-- Every object type has its own name, its own id and its table, and there are no other tables. -/
structure Stored.Sound (s : Stored) : Prop where
  normalized : ∀ r ∈ s.objectTypes, normalizeOTName r.objectTypeName = r.objectTypeName
  names : (s.objectTypes.map ObjectTypeRow.objectTypeName).Nodup
  ids : (s.objectTypes.map ObjectTypeRow.objectTypeId).Nodup
  tables : ∀ n, (s.objectRows n).isSome ↔ ∃ r ∈ s.objectTypes, r.objectTypeName = n
  singles : ∀ r ∈ s.objectTypes, r.objectRangeType = .singleMonad →
    ∀ o ∈ s.objectsOf r.objectTypeName, o.lastMonad = o.firstMonad

/-- The types in the cache that are in the table are there with the same id and range type. -/
structure View.Sound (v : ObjectView) : Prop where
  current : v.current.Sound
  cached : ∀ r ∈ v.current.objectTypes, ∀ row, v.caches r.objectTypeName = some row →
    row.objectTypeId = r.objectTypeId ∧ row.objectRangeType = r.objectRangeType

theorem Stored.Sound.eq_of_name {s : Stored} (h : s.Sound) {r r' : ObjectTypeRow}
    (hr : r ∈ s.objectTypes) (hr' : r' ∈ s.objectTypes)
    (he : r.objectTypeName = r'.objectTypeName) : r = r' :=
  List.inj_on_of_nodup_map h.names hr hr' he

theorem Stored.Sound.eq_of_id {s : Stored} (h : s.Sound) {r r' : ObjectTypeRow}
    (hr : r ∈ s.objectTypes) (hr' : r' ∈ s.objectTypes)
    (he : r.objectTypeId = r'.objectTypeId) : r = r' :=
  List.inj_on_of_nodup_map h.ids hr hr' he

theorem Stored.Sound.objectTypeByName {s : Stored} (h : s.Sound) {r : ObjectTypeRow}
    (hr : r ∈ s.objectTypes) : s.objectTypeByName r.objectTypeName = some r := by
  cases hf : s.objectTypeByName r.objectTypeName with
  | none =>
    have := List.find?_eq_none.mp hf r hr
    simp at this
  | some r' =>
    obtain ⟨hr', he⟩ := Stored.objectTypeByName_some hf
    rw [h.eq_of_name hr' hr he]

theorem Stored.Sound.objectRows {s : Stored} (h : s.Sound) {r : ObjectTypeRow}
    (hr : r ∈ s.objectTypes) :
    s.objectRows r.objectTypeName = some (s.objectsOf r.objectTypeName) := by
  obtain ⟨rows, hrows⟩ := Option.isSome_iff_exists.mp ((h.tables _).mpr ⟨r, hr, rfl⟩)
  rw [Stored.objectsOf_eq, hrows]
  rfl

/-- `objectTypeExists` finds every type that there is. -/
theorem View.Sound.lookup (h : v.Sound) {r : ObjectTypeRow} (hr : r ∈ v.current.objectTypes) :
    ∃ row, v.lookup r.objectTypeName = some row ∧ row.objectTypeId = r.objectTypeId ∧
      row.objectRangeType = r.objectRangeType := by
  cases hc : v.caches r.objectTypeName with
  | some row => exact ⟨row, View.lookup_of_cached hc, h.cached r hr row hc⟩
  | none =>
    refine ⟨r, ?_, rfl, rfl⟩
    rw [View.lookup, hc, h.current.objectTypeByName hr]
    rfl

theorem Stored.Sound.of_eq {s s' : Stored} (h : s.Sound) (ht : s'.objectTypes = s.objectTypes)
    (ho : s'.objects = s.objects) : s'.Sound where
  normalized := ht ▸ h.normalized
  names := ht ▸ h.names
  ids := ht ▸ h.ids
  tables n := by
    rw [ht]
    have : s'.objectRows n = s.objectRows n := by rw [Stored.objectRows, ho]; rfl
    rw [this]
    exact h.tables n
  singles r hr hs o hmem := by
    rw [Stored.objectsOf, ho] at hmem
    exact h.singles r (ht ▸ hr) hs o hmem

theorem View.Sound.extends {w : ObjectView} (h : v.Sound) (hw : v.Extends w) : w.Sound where
  current := h.current.of_eq hw.objectTypes hw.objects
  cached r hr row hc := by
    rw [hw.objectTypes] at hr
    rcases hw.caches r.objectTypeName with h1 | ⟨-, h1⟩
    · exact h.cached r hr row (h1.symm.trans hc)
    · rw [h1, h.current.objectTypeByName hr] at hc
      cases hc
      exact ⟨rfl, rfl⟩

theorem View.Extends.objectsOf {w : ObjectView} (h : v.Extends w) (n : Name) :
    w.current.objectsOf n = v.current.objectsOf n := by
  rw [Stored.objectsOf, h.objects]
  rfl

theorem View.Extends.objectRows {w : ObjectView} (h : v.Extends w) (n : Name) :
    w.current.objectRows n = v.current.objectRows n := by
  rw [Stored.objectRows, h.objects]
  rfl

theorem View.Extends.allObjects {w : ObjectView} (h : v.Extends w) :
    w.current.allObjects = v.current.allObjects := by
  unfold Stored.allObjects
  rw [h.objectTypes]
  exact List.flatMap_congr fun r _ => h.objectsOf r.objectTypeName

/-! ## 7. Operations that look at the objects -/

theorem sees_getOTObjectRangeType (h : v.Sound) {r : ObjectTypeRow}
    (hr : r ∈ v.current.objectTypes) :
    SeesObjects v (getOTObjectRangeType r.objectTypeName)
      (fun t w => t = r.objectRangeType ∧ w = v.remember r.objectTypeName) fun _ _ => False := by
  obtain ⟨row, hl, -, ht⟩ := h.lookup hr
  refine Shows.bind (sees_objectTypeExists v r.objectTypeName) fun row' w hw => ?_
  obtain ⟨rfl, rfl⟩ := hw
  rw [h.current.normalized r hr, hl]
  exact shows_pure ⟨ht, rfl⟩

theorem sees_objectRows {otn : Name} {rows : List ObjectRow}
    (h : v.current.objectRows otn = some rows) :
    SeesObjects v (execSelect (Tables.objectRows (objectsTableName otn)))
      (fun os w => os = rows ∧ w = v) fun _ _ => False := by
  refine (sees_execSelect (fun s : Stored => s.objectRows otn) fun _ => rfl).mono
    (fun os w hw => ?_) fun e w hw => ?_
  · obtain ⟨hos, rfl⟩ := hw
    rw [h] at hos
    exact ⟨(Option.some.inj hos).symm, rfl⟩
  · rw [h] at hw
    cases hw.2.1

/-- `setMin_max_m_fromObjectType` widens the bounds by the objects of the type. -/
theorem sees_setMinMaxMFromObjectType (h : v.Sound) {r : ObjectTypeRow}
    (hr : r ∈ v.current.objectTypes) :
    SeesObjects v (setMinMaxMFromObjectType r.objectTypeName)
      (fun _ w => v.Extends w ∧
        w.current.minM = lowest v.current.minM (v.current.objectsOf r.objectTypeName) ∧
        w.current.maxM = highest v.current.maxM (v.current.objectsOf r.objectTypeName))
      fun _ _ => False := by
  unfold setMinMaxMFromObjectType
  rw [h.current.normalized r hr]
  refine Shows.bind (sees_getOTObjectRangeType h hr) fun t w hw => ?_
  obtain ⟨rfl, rfl⟩ := hw
  have hrows := h.current.objectRows hr
  have hext := View.extends_remember v r.objectTypeName
  refine Shows.bind (sees_objectRows hrows) fun os w hw => ?_
  obtain ⟨rfl, rfl⟩ := hw
  by_cases hne : v.current.objectsOf r.objectTypeName = []
  · rw [hne]
    exact shows_pure ⟨hext, rfl, rfl⟩
  · have hemp : (!(v.current.objectsOf r.objectTypeName).isEmpty) = true := by simpa using hne
    rw [if_pos hemp]
    obtain ⟨lo, hi, hmm, hlo, hhi⟩ := minMaxMonad_spec hne (h.current.singles r hr)
    refine Shows.bind ((sees_execSelect
      (fun s : Stored => (s.objectRows r.objectTypeName).map (minMaxMonad r.objectRangeType))
      fun _ => rfl).mono (R := fun a w => a = some (lo, hi) ∧ w = v.remember r.objectTypeName)
      (fun a w hw => ?_) fun e w hw => ?_) fun bounds w hw => ?_
    · obtain ⟨ha, rfl⟩ := hw
      rw [View.remember_current, hrows, Option.map_some, hmm] at ha
      exact ⟨(Option.some.inj ha).symm, rfl⟩
    · have := hw.2.1
      rw [View.remember_current, hrows] at this
      cases this
    · obtain ⟨rfl, rfl⟩ := hw
      have hacc : SeesObjects (v.remember r.objectTypeName)
          (handle (do accessColumns 2; pure true) fun e =>
            if e = .nullValueException then pure false else stop e)
          (fun b w => b = true ∧ w = v.remember r.objectTypeName) fun _ _ => False := by
        rintro db ⟨hw, hv⟩
        have hb : (do accessColumns 2; pure true : DB Bool) db = (.ok true, db) := by
          rw [bind_ok (hw.accessColumns 2)]
          rfl
        rw [handle_ok hb]
        exact ⟨hw, rfl, hv⟩
      refine Shows.bind hacc fun b w hw => ?_
      obtain ⟨rfl, rfl⟩ := hw
      refine Shows.bind (sees_setMinM lo false) fun _ w hw => ?_
      subst hw
      refine (sees_setMaxM hi false).mono (fun _ w hw => ?_) fun _ _ hw => hw
      subst hw
      refine ⟨hext.trans ((View.extends_setMin _ lo false).trans (View.extends_setMax _ hi false)),
        ?_, ?_⟩
      · rw [View.setMax_minM, View.setMin_minM, hlo, View.remember_current]
      · rw [View.setMax_maxM, View.setMin_maxM, hhi, View.remember_current]

/-- The loop over the object types. -/
theorem sees_setMinMaxMFromEach : ∀ {rs : List ObjectTypeRow} {v : ObjectView}, v.Sound →
    (∀ r ∈ rs, r ∈ v.current.objectTypes) →
    SeesObjects v (setMinMaxMFromEach (rs.map ObjectTypeRow.objectTypeName))
      (fun _ w => v.Extends w ∧
        w.current.minM = lowest v.current.minM
          (rs.flatMap fun r => v.current.objectsOf r.objectTypeName) ∧
        w.current.maxM = highest v.current.maxM
          (rs.flatMap fun r => v.current.objectsOf r.objectTypeName))
      fun _ _ => False
  | [], v, _, _ => shows_pure ⟨.refl v, rfl, rfl⟩
  | r :: rs, v, h, hrs => by
    rw [List.map_cons, setMinMaxMFromEach]
    refine Shows.bind (sees_setMinMaxMFromObjectType h (hrs r List.mem_cons_self)) fun _ w hw => ?_
    obtain ⟨hext, hlo, hhi⟩ := hw
    have hrs' : ∀ r ∈ rs, r ∈ w.current.objectTypes := fun r hr => by
      rw [hext.objectTypes]
      exact hrs r (List.mem_cons_of_mem _ hr)
    refine (sees_setMinMaxMFromEach (h.extends hext) hrs').mono (fun _ w' hw' => ?_)
      fun _ _ hw' => hw'
    obtain ⟨hext', hlo', hhi'⟩ := hw'
    have hos : (rs.flatMap fun r => w.current.objectsOf r.objectTypeName)
        = rs.flatMap fun r => v.current.objectsOf r.objectTypeName :=
      List.flatMap_congr fun r _ => hext.objectsOf r.objectTypeName
    refine ⟨hext.trans hext', ?_, ?_⟩
    · rw [hlo', hos, hlo, ← lowest_append, List.flatMap_cons]
    · rw [hhi', hos, hhi, ← highest_append, List.flatMap_cons]

/-- `setMin_max_m_fromObjectTypes` makes the bounds exact. -/
theorem sees_setMinMaxMFromObjectTypes (h : v.Sound) :
    SeesObjects v setMinMaxMFromObjectTypes
      (fun _ w => v.Extends w ∧ w.current.minM = lowest maxMonad v.current.allObjects ∧
        w.current.maxM = highest 0 v.current.allObjects)
      fun _ _ => False := by
  unfold setMinMaxMFromObjectTypes getObjectTypes
  refine Shows.bind ((sees_selectRows
    (fun s : Stored => some (s.objectTypes.map ObjectTypeRow.objectTypeName)) fun _ => rfl).mono
    (fun _ _ hw => hw) fun _ _ hw => by cases hw.2.1) fun names w hw => ?_
  obtain ⟨hnames, rfl⟩ := hw
  cases hnames
  refine Shows.bind (sees_setMinM maxMonad true) fun _ w₁ hw₁ => ?_
  subst hw₁
  refine Shows.bind (sees_setMaxM 0 true) fun _ w₂ hw₂ => ?_
  subst hw₂
  have hext := (View.extends_setMin w maxMonad true).trans
    (View.extends_setMax (w.setMin maxMonad true) 0 true)
  have hmin : ((w.setMin maxMonad true).setMax 0 true).current.minM = maxMonad := rfl
  have hmax : ((w.setMin maxMonad true).setMax 0 true).current.maxM = 0 := rfl
  refine (@sees_setMinMaxMFromEach w.current.objectTypes _ (h.extends hext)
    fun r hr => by rw [hext.objectTypes]; exact hr).mono (fun _ w' hw' => ?_) fun _ _ hw' => hw'
  obtain ⟨hext', hlo, hhi⟩ := hw'
  have hos : (w.current.objectTypes.flatMap fun r =>
      ((w.setMin maxMonad true).setMax 0 true).current.objectsOf r.objectTypeName)
      = w.current.allObjects :=
    List.flatMap_congr fun r _ => hext.objectsOf r.objectTypeName
  rw [hmin, hos] at hlo
  rw [hmax, hos] at hhi
  exact ⟨hext.trans hext', hlo, hhi⟩

end Emdros
