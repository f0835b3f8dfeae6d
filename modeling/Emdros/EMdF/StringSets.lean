/-
# String sets (`string_set_cache.cpp`, `emdfdb.cpp`, `sqlite3emdfdb.cpp`)

A feature that is declared `FROM SET` has numbers in its column, and its strings in a table of its
own, the string set.  The pairs that have been met are kept in a cache, one for each feature, which
is asked before the table.

A cache has two maps, from the numbers and from the strings.  The first is filled as pairs are met;
the second is made from it when a string is looked up for the first time
(`fillStringToSetIDDCache`), and is kept up from then on.  A string that is neither in the cache nor
in the table gets a new row if an object is being created, and the number 0 if a query asks for it
(`getIDDFromStringSet`).

Nothing takes a pair out again, so an aborted transaction leaves the cache with numbers whose rows
are gone; the comparison of strings with such a cache is the subject of `Prequery`.
-/
import Emdros.EMdF.Connection

namespace Emdros

/-! ## 1. The cache -/

namespace StringSetCache

def empty : StringSetCache := ⟨[], [], false, false⟩

/-- `m_cache_set_id_to_string[set_id] = s`, in the order of the keys. -/
def putSetId (row : StringSetRow) (rows : List StringSetRow) : List StringSetRow :=
  (rows.filter fun r => r.idD != row.idD).orderedInsert (fun a b => a.idD ≤ b.idD) row

/-- `m_cache_string_to_set_id[s] = set_id`. -/
def putString (row : StringSetRow) (rows : List StringSetRow) : List StringSetRow :=
  row :: rows.filter fun r => r.stringValue != row.stringValue

/-- `addPair`. -/
def addPair (row : StringSetRow) (c : StringSetCache) : StringSetCache :=
  { c with
    isComplete := false
    cacheSetIdToString := putSetId row c.cacheSetIdToString
    cacheStringToSetId :=
      if c.hasFilledStringToSetIDCache then putString row c.cacheStringToSetId
      else c.cacheStringToSetId }

/-- `fillStringToSetIDDCache`, where it has not been done. -/
def fillStringToSetIDDCache (c : StringSetCache) : StringSetCache :=
  if c.hasFilledStringToSetIDCache then c
  else
    { c with
      cacheStringToSetId :=
        c.cacheSetIdToString.foldl (fun rows row => putString row rows) c.cacheStringToSetId
      hasFilledStringToSetIDCache := true }

/-- `getID_DFromString`, in a cache that is filled. -/
def getIDDFromString (s : Name) (c : StringSetCache) : Option Int :=
  (c.cacheStringToSetId.find? fun r => r.stringValue == s).map StringSetRow.idD

end StringSetCache

namespace EMdFDB

/-- The cache of one feature, which is made where it is missing (`getSSC`). -/
def getSSC (objectTypeId : Nat) (encodedFeatureName : Name) (db : EMdFDB) : StringSetCache :=
  (db.stringSetsCache objectTypeId encodedFeatureName).getD .empty

def setSSC (objectTypeId : Nat) (encodedFeatureName : Name) (c : StringSetCache) (db : EMdFDB) :
    EMdFDB :=
  { db with
    stringSetsCache := fun o f =>
      if o = objectTypeId ∧ f = encodedFeatureName then some c else db.stringSetsCache o f }

/-- `addStringToSetCacheIfNotAlreadyThere`. -/
def addStringToSetCache (objectTypeId : Nat) (encodedFeatureName : Name) (row : StringSetRow)
    (db : EMdFDB) : EMdFDB :=
  db.setSSC objectTypeId encodedFeatureName
    ((db.getSSC objectTypeId encodedFeatureName).addPair row)

end EMdFDB

/-- `findID_DInSetCacheFromString`. -/
def findIDDInSetCacheFromString (objectTypeId : Nat) (encodedFeatureName s : Name) :
    DB (Option Int) := fun db =>
  match db.stringSetsCache objectTypeId encodedFeatureName with
  | none => (.ok none, db)
  | some c =>
    (.ok (c.fillStringToSetIDDCache.getIDDFromString s),
      db.setSSC objectTypeId encodedFeatureName c.fillStringToSetIDDCache)

/-! ## 2. The tables -/

/-- `SQLite3EMdFDB::addStringToStringSetTable`. -/
def addStringToStringSetTable (otn encodedFeatureName stringToCreate : Name) : DB Int := do
  let tableName := stringSetTableName otn encodedFeatureName
  execCommand (Tables.insertString tableName stringToCreate)
  Effect.read fun db =>
    (((db.tables.stringSets tableName).bind List.getLast?).map StringSetRow.idD).getD 0

/-- `getID_DFromStringSet`. -/
def getIDDFromStringSet (otn : Name) (objectTypeId : Nat) (encodedFeatureName originalString : Name)
    (bCreateIfNotThere : Bool) : DB Int := do
  match ← findIDDInSetCacheFromString objectTypeId encodedFeatureName originalString with
  | some idD => pure idD
  | none =>
    let tableName := stringSetTableName otn encodedFeatureName
    let row ← selectRow 1 fun t =>
      (t.stringSets tableName).map fun rows => rows.find? fun r => r.stringValue == originalString
    match row with
    | some row =>
      Effect.modify (EMdFDB.addStringToSetCache objectTypeId encodedFeatureName row)
      pure row.idD
    | none =>
      if bCreateIfNotThere then
        let idD ← addStringToStringSetTable otn encodedFeatureName originalString
        Effect.modify
          (EMdFDB.addStringToSetCache objectTypeId encodedFeatureName ⟨idD, originalString⟩)
        pure idD
      else pure 0

/-- `FeatureInfo2SQLvalue`.  A set of monads is left in the text in which it is given. -/
def featureInfo2SQLvalue (otn : Name) (objectTypeId : Nat) (bCreateStringIDDIfNotThere : Bool)
    (fi : FeatureInfo) : DB SqlValue :=
  if featureTypeIdIsFromSet fi.retrievedType then
    Effect.handle
      (do
        let idD ← getIDDFromStringSet otn objectTypeId (encodeFeatureName fi.retrievedFeatureName)
          fi.defaultValue bCreateStringIDDIfNotThere
        pure (.number idD))
      fun e => Effect.stop (if e = .returnedFalse then .dbError else e)
  else pure (.text fi.defaultValue)

/-- The index is not modelled. -/
def createIndex : DB Unit := execCommand some

/-- `createStringSetTable`. -/
def createStringSetTable (objectTypeName featureName : Name) : DB Unit := do
  execCommand (Tables.createStringSet
    (stringSetTableName (normalizeOTName objectTypeName) (encodeFeatureName featureName)))
  createIndex

end Emdros
