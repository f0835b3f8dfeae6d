/-
# Creating and deleting objects (`emdfdb.cpp`, `sqlite3emdfdb.cpp`)

An object is a row in the table of its type.  Of its monads only the first and the last go into
columns that are read here, and for an object of a single monad only the first; the compact string
of all of them is left out.  The features are columns too, with a number in place of the string
where they are declared `FROM SET`.

`createObject` and `dropObject` are transactions of their own.  Each first changes the table and
then what is stored about all objects: the bounds `min_m` and `max_m`, and the greatest length for
the type.  Creating widens them.  Dropping finds them again, but only if the object was at a bound,
or was as long as the longest one; the length that is then stored is its own, although it is gone,
so that the length may be too great afterwards but never too small.

`createObjects` has the bounds of all of the batch in hand before it inserts anything
(`BatchBounds`), and runs in the transaction of its caller.  `dropObjectsInMonads` deletes what is
wholly within one stretch of a set of monads.
-/
import Emdros.EMdF.Features

namespace Emdros

/-! ## 1. One object -/

/-- The columns that `features` are written to, and their values. -/
def featureValues (otn : Name) (objectTypeId : Nat) : List FeatureInfo → DB (List (Name × SqlValue))
  | [] => pure []
  | fi :: fis => do
    let value ← featureInfo2SQLvalue otn objectTypeId true fi
    let values ← featureValues otn objectTypeId fis
    pure ((encodeFeatureName fi.retrievedFeatureName, value) :: values)

/-- The row of a new object; the table of a `WITH SINGLE MONAD OBJECTS` type has no column
`last_monad`. -/
def newRow (objectIdD : Int) (monads : SetOfMonads) (objectRangeType : ObjectRangeType)
    (values : List (Name × SqlValue)) : ObjectRow where
  objectIdD := objectIdD
  firstMonad := monads.first
  lastMonad := if objectRangeType = .singleMonad then monads.first else monads.last
  features := values

/-- The length of an object with these monads. -/
def monadsLength (monads : SetOfMonads) : Int := monads.last - monads.first + 1

/-- `createObject`. -/
def createObject (objectIdD : Int) (objectTypeName : Name) (objectTypeId : Nat)
    (monads : SetOfMonads) (objectRangeType : ObjectRangeType) (features : List FeatureInfo) :
    DB Unit :=
  let otn := normalizeOTName objectTypeName
  catchDBError <| transaction do
    let values ← featureValues otn objectTypeId (features.filter fun fi => !fi.isComputed)
    execCommand (Tables.insertObject (objectsTableName otn)
      (newRow objectIdD monads objectRangeType values))
    setMinM monads.first false
    setMaxM monads.last false
    setLargestObjectLengthIfNecessary otn (monadsLength monads) objectRangeType false

/-- The part of `dropObject` that sees whether the object was at one of the bounds. -/
def updateBounds (first last : Int) : DB Unit := do
  let currentMinM ← getMinM
  let currentMaxM ← getMaxM
  if currentMinM = first ∨ currentMaxM = last then setMinMaxMFromObjectTypes

/-- The part of `dropObject` that sees whether the object was the largest. -/
def updateLargest (otn : Name) (objectLength : Int) (objectRangeType : ObjectRangeType) :
    DB Unit := do
  let largestObjectLength ← getLargestObjectLength otn objectRangeType
  if largestObjectLength ≤ objectLength then
    setLargestObjectLengthIfNecessary otn objectLength objectRangeType true

/-- `dropObject`.  What `getSOMForObject` returns is not looked at. -/
def dropObject (objectIdD : Int) (objectTypeName : Name) (objectRangeType : ObjectRangeType) :
    DB Unit :=
  let otn := normalizeOTName objectTypeName
  transaction do
    let monads ← Effect.handle (getSOMForObject otn objectIdD objectRangeType)
      fun _ => pure (maxMonad, 0)
    execCommand (Tables.deleteObjects (objectsTableName otn) fun o => o.objectIdD == objectIdD)
    updateBounds monads.1 monads.2
    updateLargest otn (monads.2 - monads.1 + 1) objectRangeType

/-! ## 2. Many objects -/

/-- `makeMonadConstraintsFromSOM`, as what it says of a row. -/
def makeMonadConstraintsFromSOM (monads : SetOfMonads) (objectRangeType : ObjectRangeType)
    (o : ObjectRow) : Bool :=
  monads.monadMs.any fun mse =>
    match objectRangeType with
    | .singleMonad => decide (mse.firstM ≤ o.firstMonad ∧ o.firstMonad ≤ mse.lastM)
    | .singleRange => decide (mse.firstM ≤ o.firstMonad ∧ o.lastMonad ≤ mse.lastM)
    | .multipleRange =>
      decide (mse.firstM ≤ o.firstMonad ∧ o.firstMonad ≤ mse.lastM ∧ o.lastMonad ≤ mse.lastM)

/-- `getObjectsWithinMonads`. -/
def getObjectsWithinMonads (monads : SetOfMonads) (objectTypeName : Name)
    (objectRangeType : ObjectRangeType) : DB (List Int) :=
  if monads.isEmpty then pure []
  else
    selectRows 1 fun t =>
      (t.objectRows (objectsTableName (normalizeOTName objectTypeName))).map fun rows =>
        (rows.filter (makeMonadConstraintsFromSOM monads objectRangeType)).map ObjectRow.objectIdD

/-- `dropObjectsInMonads`. -/
def dropObjectsInMonads (monads : SetOfMonads) (objectTypeName : Name)
    (objectRangeType : ObjectRangeType) : DB (List Int) := do
  let otn := normalizeOTName objectTypeName
  if monads.isEmpty then pure []
  else if ← objectTypeHasObjects objectTypeName then
    let result ← getObjectsWithinMonads monads objectTypeName objectRangeType
    if result.isEmpty then pure []
    else
      transaction do
        execCommand (Tables.deleteObjects (objectsTableName otn)
          (makeMonadConstraintsFromSOM monads objectRangeType))
        setMinMaxMFromObjectTypes
        let largestObjectLength ← getLargestObjectLengthFromOTObjects otn objectRangeType
        setLargestObjectLengthIfNecessary otn largestObjectLength objectRangeType true
      pure result
  else pure []

/-- An `InstObject` of a batch, with the values of the features. -/
structure BatchObject where
  idD : Int
  monads : SetOfMonads
  features : List FeatureInfo
  deriving DecidableEq, Repr

/-- The candidates of `createObjects`. -/
structure BatchBounds where
  minM : Int
  maxM : Int
  maxIdD : Int
  largestObjectLength : Int
  deriving DecidableEq, Repr

def BatchBounds.start : BatchBounds := ⟨maxMonad, 0, 0, 0⟩

/-- What the loop of `createObjects` does to the candidates. -/
def BatchBounds.add (b : BatchBounds) (o : BatchObject) : BatchBounds where
  minM := if o.monads.first < b.minM then o.monads.first else b.minM
  maxM := if b.maxM < o.monads.last then o.monads.last else b.maxM
  maxIdD := if b.maxIdD < o.idD then o.idD else b.maxIdD
  largestObjectLength :=
    if b.largestObjectLength < monadsLength o.monads then monadsLength o.monads
    else b.largestObjectLength

/-- `SQLite3EMdFDB::createObjectsOT_objects`. -/
def createObjectsOTObjects (objectTypeName : Name) (objectTypeId : Nat) (o : BatchObject)
    (objectRangeType : ObjectRangeType) : DB Unit := do
  let values ← featureValues objectTypeName objectTypeId o.features
  execCommand (Tables.insertObject (objectsTableName objectTypeName)
    (newRow o.idD o.monads objectRangeType values))

/-- The loop of `createObjects`. -/
def createEach (otn : Name) (objectTypeId : Nat) (objectRangeType : ObjectRangeType) :
    List BatchObject → DB Unit
  | [] => pure ()
  | o :: os => do
    createObjectsOTObjects otn objectTypeId o objectRangeType
    createEach otn objectTypeId objectRangeType os

/-- `SQLite3EMdFDB::createObjects`. -/
def createObjects (objectTypeName : Name) (objectTypeId : Nat) (objectList : List BatchObject)
    (objectRangeType : ObjectRangeType) : DB Unit := do
  let otn := normalizeOTName objectTypeName
  let candidates := objectList.foldl BatchBounds.add .start
  createEach otn objectTypeId objectRangeType objectList
  setMinM candidates.minM false
  setMaxM candidates.maxM false
  setLargestObjectLengthIfNecessary otn candidates.largestObjectLength objectRangeType false
  setNextObjectIDDIfNotHigher (candidates.maxIdD + 1)

end Emdros
