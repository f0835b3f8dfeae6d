/-
# Sequences and enumerations (`emdfdb.cpp`, `sqlite3emdfdb.cpp`)

New ids come from sequences, each a table with one number.  A sequence is stepped and read within
one transaction, so what it gives out is what it has stored.  An id that the user gives pushes the
sequence of the objects up to it, if it is not there already.

`id_d_t` has 32 bits, and numbers beyond them wrap as they are read from a sequence.  The sequences
here are for the ids below `2 ^ 31`: what is proved with them is about monads and caches and not
about ids.

Enumerations are known by name and by id.  Either way the cache of their names is asked before the
table, and what is found in the table is added to it.
-/
import Emdros.EMdF.Connection

namespace Emdros

/-! ## 1. Sequences -/

/-- `SEQUENCE_OBJECT_ID_DS` and `SEQUENCE_TYPE_IDS`. -/
inductive Sequence where
  | objectIdDs
  | typeIds
  deriving DecidableEq, Repr

def Tables.sequence (t : Tables) : Sequence → Nat
  | .objectIdDs => t.objectIdDs
  | .typeIds => t.typeIds

/-- `UPDATE sequence_… SET sequence_value = …`. -/
def Tables.setSequence (s : Sequence) (value : Nat) (t : Tables) : Tables :=
  match s with
  | .objectIdDs => { t with objectIdDs := value }
  | .typeIds => { t with typeIds := value }

/-- `SQLite3EMdFDB::getNextID`, for ids that have 32 bits. -/
def getNextID (s : Sequence) : DB Nat :=
  transaction do
    execCommand fun t => some (t.setSequence s (t.sequence s + 1))
    let out ← execSelect fun t => some (t.sequence s)
    catchNULLValue accessTuple
    pure out

/-- `getNextTypeID`. -/
def getNextTypeID : DB Nat := do
  let idD ← getNextID .typeIds
  pure (idD * 65536)

/-- `SQLite3EMdFDB::setNextObjectID_DIfNotHigher`, for ids that have 32 bits. -/
def setNextObjectIDDIfNotHigher (nextIdD : Int) : DB Unit :=
  transaction do
    let currentIdD ← execSelect fun t => some (t.sequence .objectIdDs)
    catchNULLValue accessTuple
    if (currentIdD : Int) < nextIdD - 1 then
      execCommand fun t => some (t.setSequence .objectIdDs (nextIdD - 1).toNat)

/-! ## 2. Enumerations -/

namespace EMdFDB

/-- `addEnumToCache`. -/
def addEnumToCache (row : EnumerationRow) (db : EMdFDB) : EMdFDB :=
  { db with enumCache := db.enumCache ++ [row] }

end EMdFDB

/-- `enumExists`, by id. -/
def enumIdExists (enumId : Nat) : DB (Option Name) := do
  let enumId := stripEnumIdOfLowerBits enumId
  match ← Effect.read fun db => db.enumCache.find? fun r => r.enumId == enumId with
  | some row => pure (some row.enumName)
  | none =>
    match ← selectRow 1 fun t => some (t.enumerations.find? fun r => r.enumId == enumId) with
    | none => pure none
    | some row =>
      Effect.modify (EMdFDB.addEnumToCache ⟨enumId, row.enumName⟩)
      pure (some row.enumName)

/-- `enumExists`, by name.  The cache is searched without regard to case. -/
def enumExists (enumName : Name) : DB (Option Nat) := do
  match ← Effect.read fun db => db.enumCache.find? fun r => sameNocase r.enumName enumName with
  | some row => pure (some row.enumId)
  | none =>
    match ← selectRow 1 fun t => some (t.enumerations.find? fun r => r.enumName == enumName) with
    | none => pure none
    | some row =>
      Effect.modify (EMdFDB.addEnumToCache ⟨row.enumId, enumName⟩)
      pure (some row.enumId)

end Emdros
