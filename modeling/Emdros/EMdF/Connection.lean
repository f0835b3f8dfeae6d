/-
# The connection to the backend (`sqlite3conn.cpp`) and the state of `EMdFDB`

`EMdFDB` holds the tables, the transaction that is open and the caches of the schema and of the
string sets.  Its operations are computations `DB` that return, or stop with a `Failure` in the
state that they have reached.

Every call of the backend may fail: `outcomes` has what becomes of the calls that are still to
come, and a call beyond its end succeeds.  `Working` states are those in which no call fails but
for what SQL refuses.
-/
import Emdros.Base.Effect
import Emdros.EMdF.EnumConstMaps
import Emdros.EMdF.Tables

namespace Emdros

/-! ## 1. State -/

/-- What becomes of a call of the backend. -/
inductive Outcome where
  | success
  | failure
  | nullValue
  deriving DecidableEq, Repr

/-- How an operation ends that does not return `true`.  `leaves` is a `return false` without the
`abortTransaction` that the other exits of the operation have. -/
inductive Failure where
  | returnedFalse
  | leaves
  | nullValueException
  | dbError
  deriving DecidableEq, Repr

/-- `class StringSetCache`. -/
structure StringSetCache where
  cacheSetIdToString : List StringSetRow
  cacheStringToSetId : List StringSetRow
  isComplete : Bool
  hasFilledStringToSetIDCache : Bool
  deriving DecidableEq, Repr

/-- The caches of `class EMdFDB`. -/
structure Caches where
  objectTypeCacheMap : List ObjectTypeRow
  featureCache : List FeatureRow
  enumCache : List EnumerationRow
  enumConstCache : EnumConstMaps
  stringSetsCache : Nat → Name → Option StringSetCache

/-- `class EMdFDB` with its connection.  `saved` has the tables as they were at `BEGIN`, while a
transaction is open in the backend; `transactionInProgress` is what the connection thinks. -/
structure EMdFDB extends Caches where
  tables : Tables
  saved : Option Tables
  transactionInProgress : Bool
  outcomes : List Outcome
  beginFails : Bool
  commitFails : Bool
  rollbackFails : Bool

abbrev DB (α : Type) := Effect EMdFDB Failure α

/-! ## 2. Calls -/

/-- `execCommand`.  A command that fails leaves an open transaction open; after some errors, such as
a full disk, SQLite rolls it back by itself, and these are left out. -/
def execCommand (command : Tables → Option Tables) : DB Unit := fun db =>
  let db' := { db with outcomes := db.outcomes.tail }
  match db.outcomes.headD .success with
  | .success =>
    match command db.tables with
    | some tables => (.ok (), { db' with tables := tables })
    | none => (.error .returnedFalse, db')
  | _ => (.error .returnedFalse, db')

/-- `execSelect`. -/
def execSelect {α : Type} (query : Tables → Option α) : DB α := fun db =>
  let db' := { db with outcomes := db.outcomes.tail }
  match db.outcomes.headD .success with
  | .success =>
    match query db.tables with
    | some a => (.ok a, db')
    | none => (.error .returnedFalse, db')
  | _ => (.error .returnedFalse, db')

/-- `accessTuple`, whose value is read off the row. -/
def accessTuple : DB Unit := fun db =>
  let db' := { db with outcomes := db.outcomes.tail }
  match db.outcomes.headD .success with
  | .success => (.ok (), db')
  | .failure => (.error .returnedFalse, db')
  | .nullValue => (.error .nullValueException, db')

/-- `getNextTuple`. -/
def getNextTuple : DB Unit := fun db =>
  let db' := { db with outcomes := db.outcomes.tail }
  match db.outcomes.headD .success with
  | .success => (.ok (), db')
  | _ => (.error .returnedFalse, db')

/-- `accessTuple` for each of the columns. -/
def accessColumns : Nat → DB Unit
  | 0 => pure ()
  | n + 1 => do
    accessTuple
    accessColumns n

/-- `catch (EMdFNULLValueException&) { return false; }`. -/
def catchNULLValue {α : Type} (x : DB α) : DB α :=
  Effect.handle x fun e => Effect.stop (if e = .nullValueException then .returnedFalse else e)

/-- `catch (EMdFDBDBError&) { return false; }`. -/
def catchDBError {α : Type} (x : DB α) : DB α :=
  Effect.handle x fun e => Effect.stop (if e = .dbError then .returnedFalse else e)

/-- A select, `hasRow` and the columns of the row, if there is one. -/
def selectRow {α : Type} (columns : Nat) (query : Tables → Option (Option α)) : DB (Option α) :=
  do
  match ← execSelect query with
  | none => pure none
  | some a =>
    catchNULLValue (accessColumns columns)
    pure (some a)

/-- The columns of each row of an answer, up to the last. -/
def accessRows (columns : Nat) : Nat → DB Unit
  | 0 => pure ()
  | n + 1 => do
    accessColumns columns
    getNextTuple
    accessRows columns n

/-- A select with all its rows. -/
def selectRows {α : Type} (columns : Nat) (query : Tables → Option (List α)) : DB (List α) := do
  let rows ← execSelect query
  catchNULLValue (accessRows columns rows.length)
  pure rows

/-- A `return false` that is not preceded by `abortTransaction`. -/
def withoutAbort {α : Type} (x : DB α) : DB α :=
  Effect.handle x fun e => Effect.stop (if e = .returnedFalse then .leaves else e)

/-! ## 3. Transactions -/

/-- `beginTransaction`.  It notes that a transaction is in progress before it knows. -/
def beginTransaction (db : EMdFDB) : Bool × EMdFDB :=
  if db.transactionInProgress then (false, db)
  else if db.beginFails ∨ db.saved.isSome then (false, { db with transactionInProgress := true })
  else (true, { db with transactionInProgress := true, saved := some db.tables })

/-- `commitTransaction`. -/
def commitTransaction (db : EMdFDB) : Bool × EMdFDB :=
  if db.transactionInProgress then
    if db.commitFails ∨ db.saved.isNone then (false, { db with transactionInProgress := false })
    else (true, { db with transactionInProgress := false, saved := none })
  else (false, db)

/-- `abortTransaction`. -/
def abortTransaction (db : EMdFDB) : Bool × EMdFDB :=
  if db.transactionInProgress then
    match db.rollbackFails, db.saved with
    | false, some tables =>
      (true, { db with transactionInProgress := false, saved := none, tables := tables })
    | _, _ => (false, { db with transactionInProgress := false })
  else (false, db)

/-- `bool bDoCommit = beginTransaction();`. -/
def beginning : DB Bool := fun db => (.ok (beginTransaction db).1, (beginTransaction db).2)

/-- `if (bDoCommit) { if (!commitTransaction()) return false; }`. -/
def commitIf (bDoCommit : Bool) : DB Unit := fun db =>
  if bDoCommit then
    (if (commitTransaction db).1 then .ok () else .error .returnedFalse, (commitTransaction db).2)
  else (.ok (), db)

/-- `if (!x) { if (bDoCommit) abortTransaction(); return false; }`.  A `return false` that leaves
the abort out, and an exception, end the operation as they are. -/
def orAbort {α : Type} (bDoCommit : Bool) (x : DB α) : DB α :=
  Effect.handle x fun e =>
    match e with
    | .returnedFalse => fun db =>
      (.error .returnedFalse, if bDoCommit then (abortTransaction db).2 else db)
    | .leaves => Effect.stop .returnedFalse
    | e => Effect.stop e

/-- The pattern of the operations that write. -/
def transaction {α : Type} (body : DB α) : DB α := do
  let bDoCommit ← beginning
  let a ← orAbort bDoCommit body
  commitIf bDoCommit
  pure a

end Emdros
