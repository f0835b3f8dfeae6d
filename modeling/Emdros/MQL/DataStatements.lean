/-
# Statements that create and delete objects

These are the statements of `mql_object_statements.cpp`, `mql_object_type_statements.cpp` and
`mql_database_statements.cpp` that change the objects of a database, as far as they do that.  A
statement checks names and monads, and then calls `EMdFDB`.  The weeding of names and the types of
the values that are assigned are left out, and so are the results.

The order in which things are checked matters, since a check that fails leaves the database as the
ones before have made it: ids are given out before an object is created, and a sequence that has
stepped stays where it is.

`DataStatement.exec` is a computation that may stop.  The machine that executes one statement after
another goes on in any case, from the state that was reached: nothing that a statement has thrown or
returned keeps the next one from being executed.  `USE DATABASE` closes the connection and opens it
again, so it empties the caches and loses what was not committed.
-/
import Emdros.EMdF.Objects
import Emdros.MQL.MonadSetChain

namespace Emdros

/-! ## 1. Checks -/

/-- A check that gives a value or an error message. -/
def orStop {α : Type} : Option α → DB α
  | some a => pure a
  | none => Effect.stop .returnedFalse

def check (b : Bool) : DB Unit := if b then pure () else Effect.stop .returnedFalse

/-- `NIL`. -/
def nil : Int := 0

/-- `objectID_DExistsInType`. -/
def objectIDDExistsInType (objectIdD : Int) (objectTypeName : Name) : DB Bool :=
  execSelect fun t =>
    (t.objectRows (objectsTableName (normalizeOTName objectTypeName))).map fun rows =>
      rows.any fun o => o.objectIdD == objectIdD

/-- The loop of `objectID_DExists`. -/
def objectIDDExistsIn (objectIdD : Int) : List Name → DB Bool
  | [] => pure false
  | name :: names => do
    let _ ← objectTypeExists name
    if ← objectIDDExistsInType objectIdD name then pure true
    else objectIDDExistsIn objectIdD names

/-- `objectID_DExists`.  What `getObjectTypes` returns is not looked at. -/
def objectIDDExists (objectIdD : Int) : DB Bool := do
  let objectTypeNames ← Effect.handle getObjectTypes fun _ => pure []
  objectIDDExistsIn objectIdD objectTypeNames

/-- The loop of `symbolObjectsExistInType`. -/
def symbolObjectsExistInType (objectTypeName : Name) : List Int → DB Unit
  | [] => pure ()
  | idD :: idDs => do
    symbolObjectsExistInType objectTypeName idDs
    check (← objectIDDExistsInType idD objectTypeName)

/-- The set of monads of a statement. -/
def monadsOf (monadSet : List MQLMonadSetElement) : DB SetOfMonads :=
  match MQLMonadSetElement.weed monadSet true with
  | .error _ => Effect.stop .returnedFalse
  | .ok _ => orStop (MQLMonadSetElement.monadsBuildSet monadSet .empty)

/-- The checks for `WITH SINGLE RANGE OBJECTS` and `WITH SINGLE MONAD OBJECTS`. -/
def fitsRangeType (objectRangeType : ObjectRangeType) (monads : SetOfMonads) : Bool :=
  match objectRangeType with
  | .multipleRange => true
  | .singleRange => monads.hasOnlyOneMSE
  | .singleMonad => monads.first == monads.last

/-- The features that an object is given: those that are assigned, then the defaults of the
others.  `infos` are the features of the object type. -/
def assignFeatures (infos : List FeatureInfo) (assignments : List (Name × Name)) :
    Option (List FeatureInfo) := do
  let assigned ← assignments.mapM fun a => do
    let fi ← infos.find? fun fi => fi.name == strToLower a.1
    if fi.isComputed then none
    else some (FeatureInfo.make (strToLower a.1) [] fi.retrievedType a.2)
  let others := infos.filter fun fi =>
    !fi.isComputed && !assignments.any fun a => strToLower a.1 == fi.name
  some (assigned ++ others.map fun fi =>
    FeatureInfo.make fi.name [] fi.retrievedType fi.defaultValue)

/-- `updateAll_m_1`. -/
def updateAllM1 : DB Unit := do
  let _ ← getAllM1
  pure ()

/-! ## 2. Creating -/

/-- `getNextObjectID_D`. -/
def getNextObjectIDD : DB Int := do
  let idD ← getNextID .objectIdDs
  pure idD

/-- An id that is given must not be in use. -/
def checkNewId (withIdD : Int) : DB Unit :=
  if withIdD = nil then pure ()
  else do
    let exists' ← objectIDDExists withIdD
    check (!exists')

/-- The id of a new object. -/
def newId (withIdD : Int) : DB Int :=
  if withIdD = nil then getNextObjectIDD
  else do
    setNextObjectIDDIfNotHigher (withIdD + 1)
    pure withIdD

/-- `CREATE OBJECT FROM MONADS = … WITH ID_D = … [objectTypeName …]`. -/
def createObjectFromMonads (objectTypeName : Name) (withIdD : Int)
    (monadSet : List MQLMonadSetElement) (assignments : List (Name × Name)) : DB Unit := do
  let monads ← monadsOf monadSet
  checkNewId withIdD
  let row ← orStop (← objectTypeExists objectTypeName)
  let infos ← getFeaturesForObjectType row.objectTypeId
  let features ← orStop (assignFeatures infos assignments)
  check (fitsRangeType row.objectRangeType monads)
  let idD ← newId withIdD
  createObject idD objectTypeName row.objectTypeId monads row.objectRangeType features
  updateAllM1

/-- `ObjectSpecNoOT`: an object in `CREATE OBJECTS`. -/
structure ObjectSpecNoOT where
  withIdD : Int
  monadSet : List MQLMonadSetElement
  assignments : List (Name × Name)
  deriving DecidableEq, Repr

/-- The object of a batch, but for an id that is still to be found. -/
def ObjectSpecNoOT.batchObject (infos : List FeatureInfo) (objectRangeType : ObjectRangeType)
    (spec : ObjectSpecNoOT) : DB BatchObject := do
  let features ← orStop (assignFeatures infos spec.assignments)
  let monads ← monadsOf spec.monadSet
  check (fitsRangeType objectRangeType monads)
  pure ⟨spec.withIdD, monads, features⟩

/-- The loops of `weed`, `symbol` and `monads` over the objects. -/
def batchObjects (infos : List FeatureInfo) (objectRangeType : ObjectRangeType) :
    List ObjectSpecNoOT → DB (List BatchObject)
  | [] => pure []
  | spec :: specs => do
    let o ← spec.batchObject infos objectRangeType
    let os ← batchObjects infos objectRangeType specs
    pure (o :: os)

/-- `ObjectSpecNoOT::exec`: the ids that are missing. -/
def giveIds : List BatchObject → DB (List BatchObject)
  | [] => pure []
  | o :: os => do
    let idD ← if o.idD = nil then getNextObjectIDD else pure o.idD
    let os ← giveIds os
    pure ({ o with idD := idD } :: os)

/-- `CREATE OBJECTS WITH OBJECT TYPE [objectTypeName] …`. -/
def createObjectsStatement (objectTypeName : Name) (specs : List ObjectSpecNoOT) : DB Unit := do
  let row ← orStop (← objectTypeExists objectTypeName)
  let infos ← getFeaturesForObjectType row.objectTypeId
  let infos := infos.filter fun fi => !fi.isComputed
  let objectList ← batchObjects infos row.objectRangeType specs
  transaction do
    let objectList ← giveIds objectList
    createObjects objectTypeName row.objectTypeId objectList row.objectRangeType
  updateAllM1

/-! ## 3. Deleting -/

/-- `execOneType` of `DELETE OBJECTS BY ID_DS`. -/
def dropEach (objectTypeName : Name) (objectRangeType : ObjectRangeType) : List Int → DB Unit
  | [] => pure ()
  | idD :: idDs => do
    dropObject idD objectTypeName objectRangeType
    dropEach objectTypeName objectRangeType idDs

/-- `DELETE OBJECTS BY ID_DS = … [objectTypeName]`. -/
def deleteObjectsByIDDs (objectTypeName : Name) (idDs : List Int) : DB Unit := do
  check (!sameNocase objectTypeName "all".toList && !idDs.contains nil)
  let row ← orStop (← objectTypeExists objectTypeName)
  symbolObjectsExistInType objectTypeName idDs
  dropEach objectTypeName row.objectRangeType idDs
  updateAllM1

/-- `ObjectTypesStatement::symbol`: the names with their range types. -/
def symbolObjectTypesExist : List Name → DB (List (Name × ObjectRangeType))
  | [] => pure []
  | name :: names => do
    let row ← orStop (← objectTypeExists name)
    let others ← symbolObjectTypesExist names
    pure ((name, row.objectRangeType) :: others)

/-- `execOneType` of `DELETE OBJECTS BY MONADS`, for each type. -/
def dropInEach (monads : SetOfMonads) : List (Name × ObjectRangeType) → DB Unit
  | [] => pure ()
  | ot :: ots => do
    let _ ← dropObjectsInMonads monads ot.1 ot.2
    dropInEach monads ots

/-- `DELETE OBJECTS BY MONADS = … [objectTypeName]`. -/
def deleteObjectsByMonads (objectTypeName : Name) (monadSet : List MQLMonadSetElement) :
    DB Unit := do
  let monads ← monadsOf monadSet
  let names ← if sameNocase objectTypeName "all".toList then getObjectTypes
    else pure [objectTypeName]
  let objectTypes ← symbolObjectTypesExist names
  transaction do
    dropInEach monads objectTypes
    updateAllM1

/-! ## 4. Object types and transactions -/

/-- `CREATE OBJECT TYPE`. -/
def createObjectTypeStatement (objectTypeName : Name) (featureInfos : List FeatureInfo)
    (objectRangeType : ObjectRangeType) (monadUniquenessType : MonadUniquenessType)
    (bIfNotExists : Bool) : DB Unit := do
  match ← objectTypeExists objectTypeName with
  | some _ => check bIfNotExists
  | none =>
    let _ ← createObjectType objectTypeName featureInfos objectRangeType monadUniquenessType
    pure ()

/-- `DROP OBJECT TYPE`. -/
def dropObjectTypeStatement (objectTypeName : Name) : DB Unit := do
  let row ← orStop (← objectTypeExists objectTypeName)
  dropObjectType objectTypeName row.objectTypeId

/-- `USE DATABASE`: the connection is closed, which commits, and opened.  What has not been
committed by then is lost. -/
def useDatabase (db : EMdFDB) : EMdFDB :=
  { (commitTransaction db).2 with
    tables := (commitTransaction db).2.saved.getD (commitTransaction db).2.tables
    transactionInProgress := false
    saved := none
    objectTypeCacheMap := []
    featureCache := []
    enumCache := []
    enumConstCache := .empty
    stringSetsCache := fun _ _ => none }

/-- The statements. -/
inductive DataStatement where
  | createObjectType (objectTypeName : Name) (featureInfos : List FeatureInfo)
      (objectRangeType : ObjectRangeType) (monadUniquenessType : MonadUniquenessType)
      (bIfNotExists : Bool)
  | dropObjectType (objectTypeName : Name)
  | createObject (objectTypeName : Name) (withIdD : Int) (monadSet : List MQLMonadSetElement)
      (assignments : List (Name × Name))
  | createObjects (objectTypeName : Name) (specs : List ObjectSpecNoOT)
  | deleteObjectsByIDDs (objectTypeName : Name) (idDs : List Int)
  | deleteObjectsByMonads (objectTypeName : Name) (monadSet : List MQLMonadSetElement)
  | beginTransaction
  | commitTransaction
  | abortTransaction
  | useDatabase
  deriving DecidableEq, Repr

/-- What a statement does. -/
def DataStatement.exec : DataStatement → DB Unit
  | createObjectType objectTypeName featureInfos objectRangeType monadUniquenessType
      bIfNotExists =>
    createObjectTypeStatement objectTypeName featureInfos objectRangeType monadUniquenessType
      bIfNotExists
  | dropObjectType objectTypeName => dropObjectTypeStatement objectTypeName
  | createObject objectTypeName withIdD monadSet assignments =>
    createObjectFromMonads objectTypeName withIdD monadSet assignments
  | createObjects objectTypeName specs => createObjectsStatement objectTypeName specs
  | deleteObjectsByIDDs objectTypeName idDs => Emdros.deleteObjectsByIDDs objectTypeName idDs
  | deleteObjectsByMonads objectTypeName monadSet =>
    Emdros.deleteObjectsByMonads objectTypeName monadSet
  | beginTransaction => Effect.modify fun db => (Emdros.beginTransaction db).2
  | commitTransaction => Effect.modify fun db => (Emdros.commitTransaction db).2
  | abortTransaction => Effect.modify fun db => (Emdros.abortTransaction db).2
  | useDatabase => Effect.modify Emdros.useDatabase

/-- A database that has been created, as it is after `USE DATABASE`. -/
def EMdFDB.initial : EMdFDB where
  tables := .initial
  saved := none
  transactionInProgress := false
  outcomes := []
  beginFails := false
  commitFails := false
  rollbackFails := false
  objectTypeCacheMap := []
  featureCache := []
  enumCache := []
  enumConstCache := .empty
  stringSetsCache _ _ := none

end Emdros
