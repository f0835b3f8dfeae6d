/-
# Enumeration constants: the table and its cache (`emdfdb.cpp`, `enum_const_cache.cpp`)

The constants of one enumeration are rows of `enumeration_constants`, whose primary key is the
name.  `EnumConstCache` keeps some of them twice: `VECI` from the value and `SECI` from the name
to the same `EnumConstInfo` on the heap.  Objects are freed through `VECI` alone, and a look-up by
name that hits the cache never reaches the table.

The functions here are for one `enum_id`; an enumeration that is not in the cache is one with
empty maps.  `none` stands for `return false`, for an `ASSERT_THROW` and for a dangling pointer.
-/
import Mathlib.Data.List.AList
import Mathlib.Data.String.Basic
import Mathlib.Data.List.Sort
import Emdros.Base.Heap

namespace Emdros

/-- `class EnumConstInfo`, which is also a row of the table. -/
structure EnumConstInfo where
  name : String
  value : Int
  isDefault : Bool
  deriving DecidableEq, Repr

/-! ## 1. The cache -/

/-- The part of `class EnumConstCache` that belongs to one enumeration. -/
structure EnumConstCache where
  objects : Heap EnumConstInfo
  veci : AList fun _ : Int => Nat
  seci : AList fun _ : String => Nat

namespace EnumConstCache

def empty : EnumConstCache := ⟨Heap.empty, ∅, ∅⟩

/-- `find(enum_id, enum_const_name)`, and a read through the pointer that it returns. -/
def find (c : EnumConstCache) (enumConstName : String) : Option (Option EnumConstInfo) :=
  match c.seci.lookup enumConstName with
  | none => some none
  | some pECI => (c.objects.cell pECI).map some

/-- The cache with a new object in both maps. -/
def added (c : EnumConstCache) (eci : EnumConstInfo) : EnumConstCache where
  objects := c.objects.alloc eci
  veci := c.veci.insert eci.value c.objects.next
  seci := c.seci.insert eci.name c.objects.next

/-- `addEci`: false when the value is there already. -/
def addEci (c : EnumConstCache) (eci : EnumConstInfo) : Option (Bool × EnumConstCache) :=
  match c.veci.lookup eci.value with
  | some _ => some (false, c)
  | none =>
    match c.seci.lookup eci.name with
    | some _ => none
    | none => some (true, c.added eci)

/-- `std::map::insert`, which leaves a key alone that is there already. -/
def insertNew {κ : Type} [DecidableEq κ] (m : AList fun _ : κ => Nat) (k : κ) (p : Nat) :
    AList fun _ : κ => Nat :=
  match m.lookup k with
  | some _ => m
  | none => m.insert k p

/-- `drop(enum_id, enum_const_name)`.  The object to delete is the one that `VECI` has at the
value. -/
def drop (c : EnumConstCache) (enumConstName : String) : Option EnumConstCache :=
  match c.seci.lookup enumConstName with
  | none => some c
  | some pECI => do
    let o ← c.objects.cell pECI
    let pVECI ← c.veci.lookup o.value
    let (_, objects) ← (Heap.delete pVECI).run c.objects
    some { objects := objects, veci := c.veci.erase o.value, seci := c.seci.erase enumConstName }

/-- `updateValue`: give the object the value and move it in `VECI`. -/
def updateValue (c : EnumConstCache) (enumConstName : String) (newValue : Int) :
    Option EnumConstCache :=
  match c.seci.lookup enumConstName with
  | none => some c
  | some pECI => do
    let o ← c.objects.cell pECI
    let (_, objects) ← (Heap.write pECI { o with value := newValue }).run c.objects
    let _ ← c.veci.lookup o.value
    some { c with objects := objects, veci := insertNew (c.veci.erase o.value) newValue pECI }

/-- The loop of `setNewDefault`, over what is left of `SECI`. -/
def setNewDefaultLoop (enumValueName : String) :
    List (Sigma fun _ : String => Nat) → Heap EnumConstInfo → Option (Heap EnumConstInfo)
  | [], objects => some objects
  | ⟨_, pECI⟩ :: rest, objects => do
    let o ← objects.cell pECI
    let (_, objects) ←
      (Heap.write pECI { o with isDefault := o.name == enumValueName }).run objects
    setNewDefaultLoop enumValueName rest objects

/-- `setNewDefault`. -/
def setNewDefault (c : EnumConstCache) (enumValueName : String) : Option EnumConstCache := do
  let objects ← setNewDefaultLoop enumValueName c.seci.entries c.objects
  some { c with objects := objects }

/-- The cache after `updateValue` of a live object. -/
def updated (c : EnumConstCache) (o : EnumConstInfo) (v : Int) (p : Nat)
    (hp : p < c.objects.next) : EnumConstCache where
  objects := c.objects.set p (some { o with value := v }) hp
  veci := insertNew (c.veci.erase o.value) v p
  seci := c.seci

/-- The cache after `drop` of a live object, where `VECI` has `q` at its value. -/
def dropped (c : EnumConstCache) (o : EnumConstInfo) (q : Nat) (hq : q < c.objects.next) :
    EnumConstCache where
  objects := c.objects.set q none hq
  veci := c.veci.erase o.value
  seci := c.seci.erase o.name

end EnumConstCache

/-! ## 2. The table -/

/-- The constants of an enumeration as stored, and the cache in front of them. -/
structure EnumState where
  rows : List EnumConstInfo
  cache : EnumConstCache

/-- A row of the table has this name. -/
def hasName (rows : List EnumConstInfo) (name : String) : Prop := ∃ o ∈ rows, o.name = name

instance (rows : List EnumConstInfo) (name : String) : Decidable (hasName rows name) :=
  inferInstanceAs (Decidable (∃ o ∈ rows, o.name = name))

/-- The row with this name. -/
def findRow (rows : List EnumConstInfo) (name : String) : Option EnumConstInfo :=
  rows.find? fun o => o.name = name

namespace EnumState

/-- `addEnumConstToCache`. -/
def addEnumConstToCache (st : EnumState) (eci : EnumConstInfo) : Option (Bool × EnumState) := do
  let (added, cache) ← st.cache.addEci eci
  some (added, { st with cache := cache })

/-- `enumConstExists(enum_const_name, enum_id)`: the constant, or none. -/
def enumConstExists (st : EnumState) (enumConstName : String) :
    Option (Option EnumConstInfo × EnumState) :=
  match st.cache.find enumConstName with
  | none => none
  | some (some eci) => some (some eci, st)
  | some none =>
    match findRow st.rows enumConstName with
    | none => some (none, st)
    | some row =>
      match st.addEnumConstToCache row with
      | some (true, st) => some (some row, st)
      | _ => none

/-- `createEnumConstant`.  The `INSERT` violates the primary key when the name is there. -/
def createEnumConstant (st : EnumState) (ecInfo : EnumConstInfo) : Option EnumState :=
  if hasName st.rows ecInfo.name then none
  else
    match addEnumConstToCache { st with rows := st.rows ++ [ecInfo] } ecInfo with
    | some (true, st) => some st
    | _ => none

/-- `updateEnumConst`. -/
def updateEnumConst (st : EnumState) (enumConstName : String) (oldValue newValue : Int) :
    Option EnumState := do
  let cache ← st.cache.updateValue enumConstName newValue
  some
    { rows := st.rows.map fun o =>
        if o.name = enumConstName ∧ o.value = oldValue then { o with value := newValue } else o
      cache := cache }

/-- `dropEnumConst`. -/
def dropEnumConst (st : EnumState) (enumConstName : String) (value : Int) : Option EnumState := do
  let cache ← st.cache.drop enumConstName
  some
    { rows := st.rows.filter fun o => ¬ (o.name = enumConstName ∧ o.value = value)
      cache := cache }

/-- `setDefaultEnumConst`: two `UPDATE`s of the table, then the cache. -/
def setDefaultEnumConst (st : EnumState) (enumConstName : String) : Option EnumState := do
  let cache ← st.cache.setNewDefault enumConstName
  some
    { rows := (st.rows.map fun o => { o with isDefault := false }).map fun o =>
        if o.name = enumConstName then { o with isDefault := true } else o
      cache := cache }

/-- The loop of `getEnumConstants` over the rows selected, each of which is offered to the
cache. -/
def cacheRows : List EnumConstInfo → EnumState → Option EnumState
  | [], st => some st
  | row :: rows, st => do
    let (_, st) ← st.addEnumConstToCache row
    cacheRows rows st

/-- `getEnumConstants`, which selects the rows in the order of their names. -/
def getEnumConstants (st : EnumState) : Option (List EnumConstInfo × EnumState) := do
  let result := st.rows.insertionSort fun a b => a.name ≤ b.name
  let st ← cacheRows result st
  some (result, st)

end EnumState

end Emdros
