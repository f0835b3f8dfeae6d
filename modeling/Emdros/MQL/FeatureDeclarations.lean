/-
# Declarations of features (`mql_helper_classes.cpp`, `emdfdb.cpp`)

`CREATE OBJECT TYPE` takes a list of declarations, each of a name, a type and perhaps a default.
Before anything is written four passes find the enumerations and constants that are named, assign
the type ids and check the defaults; `declareTypes` is these four.

Declarations hang on chains through `m_next` whose head is what was written last.  A chain is a
list here, and the passes over it take care of the next one before the declaration itself.  A pass
that sets members of a declaration gives the declarations back.  A pass that finds an error stops,
and so does one that finds the database failing.

Enumerations and their constants are asked of caches before the tables are (`enumExists`,
`findEnumConst`, `getDefault`), and what is found in a table is added to its cache.  So what a pass
says of one declaration depends on which were looked up before it, and on what earlier statements
have left in the caches: an aborted transaction takes back the tables and not the caches.
-/
import Emdros.Monads.StringForm
import Emdros.MQL.DataStatements

namespace Emdros

/-! ## 1. Enumeration constants -/

/-- The constant of a row. -/
def EnumerationConstantRow.ecInfo (row : EnumerationConstantRow) : EnumConstInfo :=
  ⟨String.ofList row.enumValueName, row.value, row.isDefault⟩

/-- `addEnumConstToCache`.  Where `addEci` would follow a pointer that is not there, or its
assertion fires, the computation stops. -/
def addEnumConstToCache (enumId : Nat) (enumName : Name) (ecInfo : EnumConstInfo) : DB Unit := do
  let added ← Effect.read fun db =>
    db.enumConstCache.addEci (stripEnumIdOfLowerBits enumId) (String.ofList enumName) ecInfo
  let (added, enumConstCache) ← orStop added
  Effect.modify fun db => { db with enumConstCache }
  check added

/-- `enumConstExists`, which asks the cache before the table, and for the name of the enumeration of
a constant that it finds in the table. -/
def findEnumConst (enumConstName : Name) (enumId : Nat) : DB (Option Int) := do
  let enumId := stripEnumIdOfLowerBits enumId
  let cached ← Effect.read fun db => db.enumConstCache.find enumId (String.ofList enumConstName)
  match ← orStop cached with
  | some eci => pure (some eci.value)
  | none =>
    let row ← selectRow 3 fun t =>
      some (t.enumerationConstants.find? fun r =>
        r.enumId == enumId && r.enumValueName == enumConstName)
    match row with
    | none => pure none
    | some row =>
      match ← enumIdExists enumId with
      | none => Effect.stop .returnedFalse
      | some enumName =>
        addEnumConstToCache enumId enumName row.ecInfo
        pure (some row.value)

/-- `getDefault`, which asks the cache before the table too. -/
def getDefault (enumId : Nat) : DB (Option Name) := do
  let enumId := stripEnumIdOfLowerBits enumId
  let cached ← Effect.read fun db => db.enumConstCache.getDefault enumId
  match ← orStop cached with
  | some eci => pure (some eci.name.toList)
  | none =>
    let row ← selectRow 1 fun t =>
      some (t.enumerationConstants.find? fun r => r.enumId == enumId && r.isDefault)
    pure (row.map EnumerationConstantRow.enumValueName)

/-! ## 2. Types and defaults of features -/

/-- The types of features (`eType`). -/
inductive FeatureTypeKind where
  | integer
  | idD
  | string
  | ascii
  | enumeration
  | listOfInteger
  | listOfIdD
  | listOfEnumeration
  | setOfMonads
  deriving DecidableEq, Repr

/-- `class MQLType`.  `typeId` is not initialised by the constructors. -/
structure MQLType where
  type : FeatureTypeKind
  enumeration : Name
  fromSet : Bool
  withIndex : Bool
  typeId : Nat
  deriving DecidableEq, Repr

/-- `class Expression`.  `values` has the values of the constants, once they have been found. -/
inductive Expression where
  | integer (i : Int)
  | string (s : Name)
  | identifier (name : Name)
  | emptyList
  | listOfInteger (is : List Int)
  | listOfIdentifier (names : List Name) (values : Option (List Int))
  | monadSetElements (monadSet : List MQLMonadSetElement)
  | setOfMonads (som : SetOfMonads)
  deriving DecidableEq, Repr

namespace MQLType

/-- `enumExists(…, m_type_id)`, which sets the member where it finds the enumeration. -/
def symbolEnumerationExists (T : MQLType) : DB (Bool × MQLType) := do
  match ← enumExists T.enumeration with
  | some enumId => pure (true, { T with typeId := enumId })
  | none => pure (false, T)

/-- `FEATURE_TYPE_WITH_INDEX`. -/
def indexBit (T : MQLType) : Nat := if T.withIndex then 256 else 0

/-- `FEATURE_TYPE_FROM_SET`. -/
def fromSetBit (T : MQLType) : Nat := if T.fromSet then 512 else 0

/-- `typeAssignTypeID`.  What `enumExists` finds is not looked at. -/
def typeAssignTypeID (T : MQLType) : DB MQLType :=
  match T.type with
  | .integer => pure { T with typeId := 0 ||| T.indexBit }
  | .listOfInteger => pure { T with typeId := 8 }
  | .string => pure { T with typeId := 1 ||| T.fromSetBit ||| T.indexBit }
  | .ascii => pure { T with typeId := 2 ||| T.fromSetBit ||| T.indexBit }
  | .idD => pure { T with typeId := 3 ||| T.indexBit }
  | .listOfIdD => pure { T with typeId := 11 }
  | .enumeration => do
    let (_, T) ← T.symbolEnumerationExists
    pure { T with typeId := T.typeId ||| 4 ||| T.indexBit }
  | .listOfEnumeration => do
    let (_, T) ← T.symbolEnumerationExists
    pure { T with typeId := T.typeId ||| 12 }
  | .setOfMonads => pure { T with typeId := 5 }

end MQLType

/-- The loop over the identifiers of a list in `typeTypeCompatibility`. -/
def findEnumConsts (enumId : Nat) : List Name → DB (List (Option Int))
  | [] => pure []
  | name :: names => do
    let value ← findEnumConst name enumId
    let values ← findEnumConsts enumId names
    pure (value :: values)

namespace Expression

/-- `typeTypeCompatibility`. -/
def typeTypeCompatibility (T : MQLType) : Expression → DB Expression
  | .integer i => do
    check (T.type = .integer || T.type = .idD && decide (0 ≤ i))
    pure (.integer i)
  | .string s => do
    check (T.type = .string || T.type = .ascii)
    pure (.string s)
  | .identifier name => do
    check (T.type = .enumeration)
    let value ← findEnumConst name T.typeId
    check value.isSome
    pure (.identifier name)
  | .emptyList => do
    check (T.type = .listOfInteger || T.type = .listOfIdD || T.type = .listOfEnumeration)
    pure .emptyList
  | .listOfInteger is => do
    check (T.type = .listOfInteger || T.type = .listOfIdD)
    pure (.listOfInteger is)
  | .listOfIdentifier names _ => do
    check (T.type = .listOfEnumeration)
    let values ← findEnumConsts T.typeId names
    check (values.all Option.isSome)
    pure (.listOfIdentifier names (some (values.filterMap id)))
  | .monadSetElements monadSet => do
    check (T.type = .setOfMonads)
    pure (.monadSetElements monadSet)
  | .setOfMonads som => do
    check (T.type = .setOfMonads)
    pure (.setOfMonads som)

/-- The default of a type. -/
def typeDefault (T : MQLType) : DB Expression :=
  match T.type with
  | .integer => pure (.integer 0)
  | .string => pure (.string [])
  | .ascii => pure (.string [])
  | .idD => pure (.integer nil)
  | .enumeration => do
    let name ← orStop (← getDefault T.typeId)
    pure (.identifier name)
  | .listOfInteger => pure .emptyList
  | .listOfIdD => pure .emptyList
  | .listOfEnumeration => pure .emptyList
  | .setOfMonads => pure (.setOfMonads .empty)

end Expression

/-! ## 3. Declarations of features -/

/-- `class FeatureDeclaration`. -/
structure FeatureDeclaration where
  featureName : Name
  type : MQLType
  defaultSpecification : Option Expression
  deriving DecidableEq, Repr

namespace FeatureDeclaration

/-- A pass over a chain. -/
def eachDeclaration (pass : FeatureDeclaration → DB FeatureDeclaration) :
    List FeatureDeclaration → DB (List FeatureDeclaration)
  | [] => pure []
  | d :: ds => do
    let ds ← eachDeclaration pass ds
    let d ← pass d
    pure (d :: ds)

/-- `symbolEnumerationsExist`.  It looks at `kEnumeration` only. -/
def symbolEnumerationsExist (d : FeatureDeclaration) : DB FeatureDeclaration :=
  if d.type.type = .enumeration then do
    let (bResult, T) ← d.type.symbolEnumerationExists
    check bResult
    pure { d with type := T }
  else pure d

/-- `symbolEnumConstantsExist`. -/
def symbolEnumConstantsExist (d : FeatureDeclaration) : DB FeatureDeclaration :=
  match d.type.type, d.defaultSpecification with
  | .enumeration, some (.identifier name) => do
    let value ← findEnumConst name d.type.typeId
    check value.isSome
    pure d
  | _, _ => pure d

/-- `typeAssignTypeID`. -/
def typeAssignTypeID (d : FeatureDeclaration) : DB FeatureDeclaration := do
  let T ← d.type.typeAssignTypeID
  pure { d with type := T }

/-- `typeTypeCompatibility`, which makes a default where there is none. -/
def typeTypeCompatibility (d : FeatureDeclaration) : DB FeatureDeclaration :=
  match d.defaultSpecification with
  | some e => do
    let e ← e.typeTypeCompatibility d.type
    pure { d with defaultSpecification := some e }
  | none => do
    let e ← Expression.typeDefault d.type
    pure { d with defaultSpecification := some e }

end FeatureDeclaration

/-- The passes over a list of declarations, in the order of `symbol` and `type`. -/
def FeatureDeclaration.declareTypes (ds : List FeatureDeclaration) :
    DB (List FeatureDeclaration) := do
  let ds ← eachDeclaration symbolEnumerationsExist ds
  let ds ← eachDeclaration symbolEnumConstantsExist ds
  let ds ← eachDeclaration typeAssignTypeID ds
  eachDeclaration typeTypeCompatibility ds

end Emdros
