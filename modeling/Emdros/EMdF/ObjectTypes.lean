/-
# Object types, their largest object and the bounds of the data (`emdfdb.cpp`)

The row of an object type is asked for by name in almost every operation, so it is cached.  The
cache has the rows under their normalized names, and is filled by the look-ups (`objectTypeExists`);
`addObjectTypeToCache` leaves alone what is there already.

Three numbers are stored beside the objects, so that a query need not go through all of them:

* `largest_object_length` of each object type, how far an object can reach beyond its first monad;
* `min_m` and `max_m`, between which all objects of all types lie.

A new object can only push these outwards (`setMinM`, `setMaxM`,
`setLargestObjectLengthIfNecessary`, each without `bSetUnconditionally`).  When an object is gone
they are found again from the tables, where that is necessary at all: `setMinMaxMFromObjectTypes`
starts from the bounds of no data and goes over all types.  The length is changed in the table and
then in the cache, if the type is there.

What the numbers are good for is said in `DataBounds`: they hold of every object after each
statement.  This module has the functions alone.
-/
import Emdros.EMdF.Connection

namespace Emdros

namespace EMdFDB

/-! ## 1. The cache of object types -/

/-- `m_object_type_cache_map.find(OTN)`. -/
def findObjectType (otn : Name) (db : EMdFDB) : Option ObjectTypeRow :=
  db.objectTypeCacheMap.find? fun r => r.objectTypeName == otn

/-- `addObjectTypeToCache`: `std::map::insert`, which leaves a key alone that is there. -/
def addObjectTypeToCache (row : ObjectTypeRow) (db : EMdFDB) : EMdFDB :=
  match db.findObjectType row.objectTypeName with
  | some _ => db
  | none =>
    { db with
      objectTypeCacheMap :=
        db.objectTypeCacheMap.orderedInsert (fun a b => a.objectTypeName ≤ b.objectTypeName) row }

/-- `deleteObjectTypeFromCache`. -/
def deleteObjectTypeFromCache (otn : Name) (db : EMdFDB) : EMdFDB :=
  { db with
    objectTypeCacheMap := db.objectTypeCacheMap.filter fun r => r.objectTypeName != otn }

/-- The assignment to `m_largest_object_length` where the type is in the cache. -/
def setCachedLength (otn : Name) (length : Int) (db : EMdFDB) : EMdFDB :=
  { db with
    objectTypeCacheMap := db.objectTypeCacheMap.map fun r =>
      if r.objectTypeName = otn then { r with largestObjectLength := length } else r }

end EMdFDB

/-! ## 2. Looking object types up -/

/-- `objectTypeExists`, by name.  The row stands for the values that are returned. -/
def objectTypeExists (objectTypeName : Name) : DB (Option ObjectTypeRow) := do
  let otn := normalizeOTName objectTypeName
  match ← Effect.read (EMdFDB.findObjectType otn) with
  | some row => pure (some row)
  | none =>
    match ← selectRow 3 fun t => some (t.objectTypeByName otn) with
    | none => pure none
    | some row =>
      Effect.modify (EMdFDB.addObjectTypeToCache row)
      pure (some row)

/-- `getOTObjectRangeType`. -/
def getOTObjectRangeType (objectTypeName : Name) : DB ObjectRangeType := do
  match ← objectTypeExists objectTypeName with
  | none => Effect.stop .returnedFalse
  | some row => pure row.objectRangeType

/-- `getObjectTypes`. -/
def getObjectTypes : DB (List Name) :=
  selectRows 1 fun t => some (t.objectTypes.map ObjectTypeRow.objectTypeName)

/-- `objectTypeHasObjects`. -/
def objectTypeHasObjects (objectTypeName : Name) : DB Bool := do
  let rows ← execSelect (Tables.objectRows (objectsTableName (normalizeOTName objectTypeName)))
  pure (!rows.isEmpty)

/-! ## 3. The largest object -/

/-- `MAX(last_monad - first_monad + 1)`. -/
def maxLength (rows : List ObjectRow) : Option Int := (rows.map ObjectRow.length).max?

/-- `getLargestObjectLengthFromOT_objects`. -/
def getLargestObjectLengthFromOTObjects (objectTypeName : Name)
    (objectRangeType : ObjectRangeType) : DB Int := do
  let otn := normalizeOTName objectTypeName
  if ← objectTypeHasObjects objectTypeName then
    if objectRangeType = .singleMonad then pure 1
    else
      match ← selectRow 1 fun t => (t.objectRows (objectsTableName otn)).map maxLength with
      | some length => pure length
      | none => Effect.stop .returnedFalse
  else pure 0

/-- `getLargestObjectLength`. -/
def getLargestObjectLength (objectTypeName : Name) (objectRangeType : ObjectRangeType) :
    DB Int := do
  let otn := normalizeOTName objectTypeName
  match ← Effect.read (EMdFDB.findObjectType otn) with
  | some row => pure row.largestObjectLength
  | none =>
    -- only a select that fails is made up for, not an access
    let selected : DB (Option (Option ObjectTypeRow)) :=
      Effect.handle (do pure (some (← execSelect fun t => some (t.objectTypeByName otn))))
        fun _ => pure none
    match ← selected with
    | some (some row) =>
      catchNULLValue accessTuple
      pure row.largestObjectLength
    | some none => Effect.stop .returnedFalse
    | none => getLargestObjectLengthFromOTObjects otn objectRangeType

/-- `setLargestObjectLengthIfNecessary`.  A commit without a change is not looked at. -/
def setLargestObjectLengthIfNecessary (objectTypeName : Name) (newLargestObjectLength : Int)
    (objectRangeType : ObjectRangeType) (bSetUnconditionally : Bool) : DB Unit := do
  let otn := normalizeOTName objectTypeName
  let bDoCommit ← beginning
  let necessary ← orAbort bDoCommit
    (if bSetUnconditionally then pure true
      else do
        let currentLargest ← getLargestObjectLength objectTypeName objectRangeType
        pure (decide (currentLargest < newLargestObjectLength)))
  if necessary then
    orAbort bDoCommit (execCommand (Tables.updateLargestObjectLength otn newLargestObjectLength))
    commitIf bDoCommit
    Effect.modify (EMdFDB.setCachedLength otn newLargestObjectLength)
  else
    Effect.modify fun db => if bDoCommit then (commitTransaction db).2 else db

/-! ## 4. `min_m` and `max_m` -/

/-- `getMin_m`. -/
def getMinM : DB Int := do
  let m ← execSelect fun t => some t.minM
  catchNULLValue accessTuple
  pure m

/-- `getMax_m`. -/
def getMaxM : DB Int := do
  let m ← execSelect fun t => some t.maxM
  catchNULLValue accessTuple
  pure m

/-- `setMin_m`. -/
def setMinM (minMCandidate : Int) (bSetUnconditionally : Bool) : DB Unit := do
  let currentMinM ← getMinM
  if bSetUnconditionally ∨ minMCandidate < currentMinM then
    execCommand (Tables.updateMinM minMCandidate)

/-- `setMax_m`. -/
def setMaxM (maxMCandidate : Int) (bSetUnconditionally : Bool) : DB Unit := do
  let currentMaxM ← getMaxM
  if bSetUnconditionally ∨ currentMaxM < maxMCandidate then
    execCommand (Tables.updateMaxM maxMCandidate)

/-- `MIN(first_monad), MAX(last_monad)`; the columns are both `first_monad` for single monads. -/
def minMaxMonad (objectRangeType : ObjectRangeType) (rows : List ObjectRow) : Option (Int × Int) :=
  match (rows.map ObjectRow.firstMonad).min?,
      (rows.map fun o =>
        if objectRangeType = .singleMonad then o.firstMonad else o.lastMonad).max? with
  | some minM, some maxM => some (minM, maxM)
  | _, _ => none

/-- `setMin_max_m_fromObjectType`.  A `NULL` in the answer is taken for an empty table. -/
def setMinMaxMFromObjectType (objectTypeName : Name) : DB Unit := do
  let otn := normalizeOTName objectTypeName
  let objectRangeType ← getOTObjectRangeType otn
  let rows ← execSelect (Tables.objectRows (objectsTableName otn))
  if !rows.isEmpty then
    let bounds ← execSelect fun t =>
      (t.objectRows (objectsTableName otn)).map (minMaxMonad objectRangeType)
    let bSetMinMax ← Effect.handle (do accessColumns 2; pure true) fun e =>
      if e = .nullValueException then pure false else Effect.stop e
    match bounds with
    | none => Effect.stop .returnedFalse
    | some (minMCandidate, maxMCandidate) =>
      if bSetMinMax then
        setMinM minMCandidate false
        setMaxM maxMCandidate false

/-- The loop of `setMin_max_m_fromObjectTypes`. -/
def setMinMaxMFromEach : List Name → DB Unit
  | [] => pure ()
  | name :: names => do
    setMinMaxMFromObjectType name
    setMinMaxMFromEach names

/-- `setMin_max_m_fromObjectTypes`. -/
def setMinMaxMFromObjectTypes : DB Unit := do
  let objectTypeNames ← getObjectTypes
  setMinM maxMonad true
  setMaxM 0 true
  setMinMaxMFromEach objectTypeNames

/-- `getAll_m_1`: the bounds of its one range, if it has one. -/
def getAllM1 : DB (Option (Int × Int)) := do
  let minM ← getMinM
  let maxM ← getMaxM
  if minM = maxMonad ∧ maxM = 0 then pure none else pure (some (minM, maxM))

/-- `getSOMForObject`: the first and the last monad, those of the empty set if there is no such
object. -/
def getSOMForObject (objectTypeName : Name) (objectIdD : Int)
    (objectRangeType : ObjectRangeType) : DB (Int × Int) := do
  let otn := normalizeOTName objectTypeName
  let columns := if objectRangeType = .singleRange then 3 else 2
  let row ← selectRow columns fun t =>
    (t.objectRows (objectsTableName otn)).map fun rows => rows.find? fun o => o.objectIdD == objectIdD
  match row with
  | none => pure (maxMonad, 0)
  | some o =>
    pure (o.firstMonad, if objectRangeType = .singleMonad then o.firstMonad else o.lastMonad)

end Emdros
