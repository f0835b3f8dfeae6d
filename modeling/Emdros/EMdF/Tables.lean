/-
# The tables of a database (`emdfdb.cpp`, `sqlite3emdfdb.cpp`)

The tables that the operations of `EMdFDB` read and write, and what the SQL of these operations
does to them.  A command gives the new tables, or `none` where SQLite refuses it (a primary key
that is there already, a table that exists or does not); a query gives its answer, or `none` where
a table does not exist.

Names are lists of characters.  The tables of an object type are found under the names that are
built for them.
-/
import Mathlib.Data.List.Basic
import Mathlib.Data.List.Sort
import Emdros.Monads.SetOfMonads

namespace Emdros

/-! ## 1. Names and types -/

abbrev Name := List Char

/-- `str_tolower`. -/
def strToLower (name : Name) : Name := name.map Char.toLower

/-- `strcmp_nocase(a, b) == 0`. -/
def sameNocase (a b : Name) : Bool := strToLower a == strToLower b

/-- `normalizeOTName`. -/
def normalizeOTName (objectTypeName : Name) : Name := strToLower objectTypeName

/-- `encodeFeatureName`. -/
def encodeFeatureName (featureName : Name) : Name := "mdf_".toList ++ strToLower featureName

/-- `decodeFeatureName`. -/
def decodeFeatureName (codedFeatureName : Name) : Name := codedFeatureName.drop 4

/-- `OTN + "_objects"`. -/
def objectsTableName (otn : Name) : Name := otn ++ "_objects".toList

/-- `OTN + "_" + encoded_feature_name + "_set"`. -/
def stringSetTableName (otn encodedFeatureName : Name) : Name :=
  otn ++ "_".toList ++ encodedFeatureName ++ "_set".toList

/-- `eObjectRangeType`. -/
inductive ObjectRangeType where
  | multipleRange
  | singleRange
  | singleMonad
  deriving DecidableEq, Repr

/-- `eMonadUniquenessType`. -/
inductive MonadUniquenessType where
  | nonUniqueMonads
  | uniqueFirstMonads
  | uniqueFirstAndLastMonads
  deriving DecidableEq, Repr

/-- `WITH UNIQUE FIRST AND LAST MONADS` is `WITH UNIQUE FIRST MONADS` for single monads. -/
def MonadUniquenessType.upgrade (u : MonadUniquenessType) (r : ObjectRangeType) :
    MonadUniquenessType :=
  if u = .uniqueFirstAndLastMonads ∧ r = .singleMonad then .uniqueFirstMonads else u

/-- The lowest eight bits (`FEATURE_TYPE_TYPE_MASK`). -/
def featureTypeKind (featureTypeId : Nat) : Nat := featureTypeId % 256

/-- `featureTypeIdIsASCIIorSTRING`. -/
def featureTypeIdIsASCIIorSTRING (featureTypeId : Nat) : Bool :=
  featureTypeKind featureTypeId == 2 || featureTypeKind featureTypeId == 1

/-- `featureTypeIdIsFromSet`; `FEATURE_TYPE_FROM_SET` is bit 9. -/
def featureTypeIdIsFromSet (featureTypeId : Nat) : Bool :=
  featureTypeIdIsASCIIorSTRING featureTypeId && featureTypeId.testBit 9

/-- `featureTypeIdIsListOf`. -/
def featureTypeIdIsListOf (featureTypeId : Nat) : Bool :=
  [8, 11, 12].contains (featureTypeKind featureTypeId)

/-- `featureTypeIdIsSOM`. -/
def featureTypeIdIsSOM (featureTypeId : Nat) : Bool := featureTypeKind featureTypeId == 5

/-- `featureTypeIdIsENUM`. -/
def featureTypeIdIsENUM (featureTypeId : Nat) : Bool := featureTypeKind featureTypeId == 4

/-- `featureTypeIdIsWithIndex`; `FEATURE_TYPE_WITH_INDEX` is bit 8. -/
def featureTypeIdIsWithIndex (featureTypeId : Nat) : Bool :=
  decide (featureTypeId < 65536) && featureTypeId.testBit 8

/-- `STRIP_ENUM_ID_OF_LOWER_BITS`. -/
def stripEnumIdOfLowerBits (enumId : Nat) : Nat := enumId / 65536 * 65536

/-- `eComputedFeatureKind`, without the kinds that are not asked for here. -/
inductive ComputedFeatureKind where
  | none
  | self
  | ofMonads
  deriving DecidableEq, Repr

/-- `getComputedFeatureKindFromComputedFeatureName`. -/
def computedFeatureKind (name : Name) : ComputedFeatureKind :=
  if sameNocase name "self".toList then .self
  else if ["first_monad", "last_monad", "monad_count", "monad_set_length"].any
      fun computed => sameNocase name computed.toList then .ofMonads
  else .none

/-- `class FeatureInfo`. -/
structure FeatureInfo where
  name : Name
  kind : ComputedFeatureKind
  outputType : Nat
  retrievedType : Nat
  retrievedFeatureName : Name
  defaultValue : Name
  deriving DecidableEq, Repr

/-- `FeatureInfo(name, parameter1, retrieved_type, default_value)`. -/
def FeatureInfo.make (name parameter1 : Name) (retrievedType : Nat) (defaultValue : Name) :
    FeatureInfo :=
  match computedFeatureKind name with
  | .none => ⟨name, .none, retrievedType, retrievedType, name, defaultValue⟩
  | .self => ⟨name, .self, 3, 3, "self".toList, defaultValue⟩
  | .ofMonads =>
    ⟨name, .ofMonads, 0, 5, if parameter1.isEmpty then "monads".toList else parameter1,
      defaultValue⟩

/-- `getIsComputed`. -/
def FeatureInfo.isComputed (fi : FeatureInfo) : Bool := fi.kind != .none

/-! ## 2. The tables -/

/-- A row of `object_types`; the flags are decoded. -/
structure ObjectTypeRow where
  objectTypeId : Nat
  objectTypeName : Name
  objectRangeType : ObjectRangeType
  monadUniquenessType : MonadUniquenessType
  largestObjectLength : Int
  deriving DecidableEq, Repr

/-- A row of `features`. -/
structure FeatureRow where
  objectTypeId : Nat
  featureName : Name
  featureTypeId : Nat
  defaultValue : Name
  computed : Bool
  deriving DecidableEq, Repr

/-- A row of `enumerations`. -/
structure EnumerationRow where
  enumId : Nat
  enumName : Name
  deriving DecidableEq, Repr

/-- A row of `enumeration_constants`. -/
structure EnumerationConstantRow where
  enumId : Nat
  enumValueName : Name
  value : Int
  isDefault : Bool
  deriving DecidableEq, Repr

/-- What a column of a feature has. -/
inductive SqlValue where
  | number (i : Int)
  | text (s : Name)
  deriving DecidableEq, Repr

/-- A row of a table of objects.  Where there is no column `last_monad`, it stands for
`first_monad`; the column `monads` is left out. -/
structure ObjectRow where
  objectIdD : Int
  firstMonad : Int
  lastMonad : Int
  features : List (Name × SqlValue)
  deriving DecidableEq, Repr

/-- The length of an object. -/
def ObjectRow.length (o : ObjectRow) : Int := o.lastMonad - o.firstMonad + 1

/-- `OT_objects`: what its primary key is, and its rows. -/
structure ObjectTable where
  primaryKey : MonadUniquenessType
  rows : List ObjectRow
  deriving DecidableEq, Repr

/-- A row of a string set. -/
structure StringSetRow where
  idD : Int
  stringValue : Name
  deriving DecidableEq, Repr

/-- The tables. -/
structure Tables where
  objectTypes : List ObjectTypeRow
  features : List FeatureRow
  enumerations : List EnumerationRow
  enumerationConstants : List EnumerationConstantRow
  objects : Name → Option ObjectTable
  stringSets : Name → Option (List StringSetRow)
  minM : Int
  maxM : Int
  objectIdDs : Nat
  typeIds : Nat

namespace Tables

/-- The tables of a new database. -/
def initial : Tables where
  objectTypes := []
  features := []
  enumerations := []
  enumerationConstants := []
  objects _ := none
  stringSets _ := none
  minM := maxMonad
  maxM := 0
  objectIdDs := 0
  typeIds := 0

/-! ## 3. Commands -/

/-- `INSERT INTO object_types`; the primary key is `object_type_id`. -/
def insertObjectType (row : ObjectTypeRow) (t : Tables) : Option Tables :=
  if t.objectTypes.any fun r => r.objectTypeId == row.objectTypeId then none
  else some { t with objectTypes := t.objectTypes ++ [row] }

/-- `DELETE FROM object_types WHERE object_type_id = …`. -/
def deleteObjectType (objectTypeId : Nat) (t : Tables) : Option Tables :=
  some { t with objectTypes := t.objectTypes.filter fun r => r.objectTypeId != objectTypeId }

/-- `UPDATE object_types SET largest_object_length = … WHERE object_type_name = …`. -/
def updateLargestObjectLength (otn : Name) (length : Int) (t : Tables) : Option Tables :=
  some { t with
         objectTypes := t.objectTypes.map fun r =>
           if r.objectTypeName = otn then { r with largestObjectLength := length } else r }

/-- `INSERT INTO features`; the primary key is `(object_type_id, feature_name)`. -/
def insertFeature (row : FeatureRow) (t : Tables) : Option Tables :=
  if t.features.any fun r =>
      r.objectTypeId == row.objectTypeId && r.featureName == row.featureName then none
  else some { t with features := t.features ++ [row] }

/-- `DELETE FROM features WHERE object_type_id = …`. -/
def deleteFeatures (objectTypeId : Nat) (t : Tables) : Option Tables :=
  some { t with features := t.features.filter fun r => r.objectTypeId != objectTypeId }

/-- A table under a name. -/
def withObjects (t : Tables) (name : Name) (table : Option ObjectTable) : Tables :=
  { t with objects := fun n => if n = name then table else t.objects n }

/-- `CREATE TABLE` of a table of objects. -/
def createObjectTable (name : Name) (primaryKey : MonadUniquenessType) (t : Tables) :
    Option Tables :=
  match t.objects name with
  | some _ => none
  | none => some (t.withObjects name (some ⟨primaryKey, []⟩))

/-- `DROP TABLE` of a table of objects. -/
def dropObjectTable (name : Name) (t : Tables) : Option Tables :=
  match t.objects name with
  | none => none
  | some _ => some (t.withObjects name none)

/-- Whether two rows have the same primary key. -/
def sameKey : MonadUniquenessType → ObjectRow → ObjectRow → Bool
  | .nonUniqueMonads, o, p => o.objectIdD == p.objectIdD
  | .uniqueFirstMonads, o, p => o.firstMonad == p.firstMonad
  | .uniqueFirstAndLastMonads, o, p => o.firstMonad == p.firstMonad && o.lastMonad == p.lastMonad

/-- `INSERT INTO` a table of objects. -/
def insertObject (name : Name) (row : ObjectRow) (t : Tables) : Option Tables :=
  match t.objects name with
  | none => none
  | some table =>
    if table.rows.any fun o => sameKey table.primaryKey o row then none
    else some (t.withObjects name (some { table with rows := table.rows ++ [row] }))

/-- `DELETE FROM` a table of objects. -/
def deleteObjects (name : Name) (which : ObjectRow → Bool) (t : Tables) : Option Tables :=
  match t.objects name with
  | none => none
  | some table =>
    some (t.withObjects name (some { table with rows := table.rows.filter fun o => !which o }))

def withStringSet (t : Tables) (name : Name) (rows : Option (List StringSetRow)) : Tables :=
  { t with stringSets := fun n => if n = name then rows else t.stringSets n }

/-- `CREATE TABLE` of a string set. -/
def createStringSet (name : Name) (t : Tables) : Option Tables :=
  match t.stringSets name with
  | some _ => none
  | none => some (t.withStringSet name (some []))

/-- The key that SQLite gives to a row that is inserted with `NULL` for it. -/
def nextRowId (rows : List StringSetRow) : Int := rows.foldr (fun r m => max r.idD m) 0 + 1

/-- `INSERT INTO` a string set `VALUES(NULL, …)`. -/
def insertString (name : Name) (stringValue : Name) (t : Tables) : Option Tables :=
  match t.stringSets name with
  | none => none
  | some rows => some (t.withStringSet name (some (rows ++ [⟨nextRowId rows, stringValue⟩])))

/-- `UPDATE min_m`. -/
def updateMinM (m : Int) (t : Tables) : Option Tables := some { t with minM := m }

/-- `UPDATE max_m`. -/
def updateMaxM (m : Int) (t : Tables) : Option Tables := some { t with maxM := m }

/-! ## 4. Queries -/

/-- `WHERE object_type_name = …`. -/
def objectTypeByName (otn : Name) (t : Tables) : Option ObjectTypeRow :=
  t.objectTypes.find? fun r => r.objectTypeName == otn

/-- The rows of a table of objects. -/
def objectRows (name : Name) (t : Tables) : Option (List ObjectRow) :=
  (t.objects name).map ObjectTable.rows

/-- `SELECT … FROM features WHERE object_type_id = … ORDER BY feature_type_id`. -/
def featuresOf (objectTypeId : Nat) (t : Tables) : List FeatureRow :=
  (t.features.filter fun r => r.objectTypeId == objectTypeId).insertionSort
    fun a b => a.featureTypeId ≤ b.featureTypeId

end Tables

end Emdros
