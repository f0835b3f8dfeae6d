/-
# Features and the tables of objects (`emdfdb.cpp`, `sqlite3emdfdb.cpp`)

An object type has features, which are rows of `features` and columns of its table of objects.  In
the tables their names are encoded; the cache of features has them as they were written, in lower
case.  It has the features of an object type either all or not at all, which is what the comment of
`getFeaturesForObjectType` asks for, and so one cached feature is enough for it not to ask the
table.

`createObjectType` writes all of this in one transaction: the row of the type, its table of objects
with the primary key that the monad uniqueness type asks for, each feature with its string set, the
feature `self`, and the indices.  Only after the commit is the type put into its cache; the
features are in theirs by then.  `dropObjectType` undoes it, but for the cache of features and the
string sets, which are left alone.
-/
import Emdros.EMdF.ObjectTypes
import Emdros.EMdF.Sequences
import Emdros.EMdF.StringSets

namespace Emdros

/-! ## 1. The cache -/

namespace EMdFDB

/-- `m_feature_cache->find(feature_name, 2, object_type_id, 1)`, without regard to case. -/
def findFeature (featureName : Name) (objectTypeId : Nat) (db : EMdFDB) : Option FeatureRow :=
  db.featureCache.find? fun r =>
    sameNocase r.featureName featureName && r.objectTypeId == objectTypeId

/-- `addFeatureToCacheIfNotAlreadyThere`; in the cache, names are not encoded. -/
def addFeatureToCacheIfNotAlreadyThere (row : FeatureRow) (db : EMdFDB) : EMdFDB :=
  match db.findFeature row.featureName row.objectTypeId with
  | some _ => db
  | none => { db with featureCache := db.featureCache ++ [row] }

/-- The rows of an object type in the cache. -/
def cachedFeatures (objectTypeId : Nat) (db : EMdFDB) : List FeatureRow :=
  db.featureCache.filter fun r => r.objectTypeId == objectTypeId

end EMdFDB

/-- A row of `features` with the name as it is in the cache. -/
def FeatureRow.decode (row : FeatureRow) : FeatureRow :=
  { row with featureName := decodeFeatureName row.featureName }

/-- The `FeatureInfo` of a row of the cache. -/
def FeatureRow.info (row : FeatureRow) : FeatureInfo :=
  FeatureInfo.make row.featureName [] row.featureTypeId row.defaultValue

/-! ## 2. Looking features up -/

/-- The loop over the rows in `getFeaturesForObjectType`. -/
def loadFeatures : List FeatureRow → DB Unit
  | [] => pure ()
  | row :: rows => do
    accessColumns 4
    Effect.modify (EMdFDB.addFeatureToCacheIfNotAlreadyThere row.decode)
    getNextTuple
    loadFeatures rows

/-- `getFeaturesForObjectType`. -/
def getFeaturesForObjectType (objectTypeId : Nat) : DB (List FeatureInfo) := do
  let cached ← Effect.read (EMdFDB.cachedFeatures objectTypeId)
  if !cached.isEmpty then pure (cached.map FeatureRow.info)
  else
    let rows ← execSelect fun t => some (t.featuresOf objectTypeId)
    catchNULLValue (loadFeatures rows)
    pure (rows.map fun row => row.decode.info)

/-! ## 3. Creating features and object types -/

/-- `createFeature`. -/
def createFeature (objectTypeName : Name) (objectTypeId : Nat) (fi : FeatureInfo) : DB Unit := do
  let lowercaseFeatureName := strToLower fi.name
  execCommand (Tables.insertFeature
    ⟨objectTypeId, encodeFeatureName lowercaseFeatureName, fi.outputType, fi.defaultValue,
      fi.isComputed⟩)
  if featureTypeIdIsFromSet fi.retrievedType then
    createStringSetTable objectTypeName lowercaseFeatureName
  let _ ← getFeaturesForObjectType objectTypeId
  Effect.modify (EMdFDB.addFeatureToCacheIfNotAlreadyThere
    ⟨objectTypeId, lowercaseFeatureName, fi.outputType, fi.defaultValue, fi.isComputed⟩)

/-- The loop over the features in `createObjectType`. -/
def createFeatures (objectTypeName : Name) (objectTypeId : Nat) : List FeatureInfo → DB Unit
  | [] => pure ()
  | fi :: fis => do
    createFeature objectTypeName objectTypeId fi
    createFeatures objectTypeName objectTypeId fis

/-- `createObjectTypeOT_objects`. -/
def createObjectTypeOTObjects (objectTypeName : Name) (objectRangeType : ObjectRangeType)
    (monadUniquenessType : MonadUniquenessType) : DB Unit :=
  execCommand (Tables.createObjectTable (objectsTableName (normalizeOTName objectTypeName))
    (monadUniquenessType.upgrade objectRangeType))

/-- The loop over the features in `createIndicesOnOTObjects`, where failures are ignored. -/
def createFeatureIndices : List FeatureInfo → DB Unit
  | [] => pure ()
  | fi :: fis => do
    if featureTypeIdIsWithIndex fi.retrievedType then
      Effect.handle createIndex fun _ => pure ()
    createFeatureIndices fis

/-- `createIndicesOnOTObjects`. -/
def createIndicesOnOTObjects (objectTypeName : Name) : DB Unit := do
  match ← objectTypeExists objectTypeName with
  | none => Effect.stop .returnedFalse
  | some row =>
    createIndex
    let featureInfos ← getFeaturesForObjectType row.objectTypeId
    createFeatureIndices featureInfos

/-- The feature `self`. -/
def selfFeature : FeatureInfo := FeatureInfo.make "self".toList [] 3 "0".toList

/-- `createObjectType`. -/
def createObjectType (objectTypeName : Name) (featureInfos : List FeatureInfo)
    (objectRangeType : ObjectRangeType) (monadUniquenessType : MonadUniquenessType) : DB Nat := do
  let otn := normalizeOTName objectTypeName
  let uniqueness := monadUniquenessType.upgrade objectRangeType
  let objectTypeId ← transaction do
    let objectTypeId ← getNextTypeID
    execCommand (Tables.insertObjectType ⟨objectTypeId, otn, objectRangeType, uniqueness, 0⟩)
    createObjectTypeOTObjects objectTypeName objectRangeType monadUniquenessType
    createFeatures objectTypeName objectTypeId featureInfos
    createFeature objectTypeName objectTypeId selfFeature
    createIndicesOnOTObjects otn
    pure objectTypeId
  Effect.modify
    (EMdFDB.addObjectTypeToCache ⟨objectTypeId, otn, objectRangeType, uniqueness, 0⟩)
  pure objectTypeId

/-- `dropObjectType`. -/
def dropObjectType (objectTypeName : Name) (objectTypeId : Nat) : DB Unit := do
  let otn := normalizeOTName objectTypeName
  transaction do
    let _ ← withoutAbort (getOTObjectRangeType objectTypeName)
    execCommand (Tables.dropObjectTable (objectsTableName otn))
    execCommand (Tables.deleteFeatures objectTypeId)
    execCommand (Tables.deleteObjectType objectTypeId)
  Effect.modify (EMdFDB.deleteObjectTypeFromCache otn)

end Emdros
