/-
# Flat sheaves

`mql_flatten_sheaf` takes the matched objects out of a sheaf, at all depths, and puts them into
one flat straw for each object type.  A matched object gives itself to the flat sheaf before it
goes into its inner sheaf, which it then deletes; a straw deletes the matched objects that the flat
sheaf did not take.

What a part of the sheaf does to the flat sheaf is stated for the list of its matched objects in
the order of the walk (`Adds`), and these statements compose.  The counts of a sheaf are sums over
the same list, so that they are the lengths of the flat straws (`mqlFlattenSheaf_exact`).

A matched object in a flat straw is a pointer, and its inner sheaf has gone when the walk is over;
it stands here without one.
-/
import Emdros.Base.Grouping
import Emdros.MQL.Sheaf

namespace Emdros

/-! ## 1. Object types -/

/-- `OBJECT_TYPE_POW_M`. -/
def objectTypePowM : Int := -1

/-- The object types of a database, by their normalized names, and the names in the blocks of a
query.  The id of a block's type is what `objectTypeExists` finds for the name; no object type can
be called `pow_m`. -/
structure ObjectTypes where
  getObjectTypeName : ObjectBlockBase → String
  names : List String
  idOf : String → Int
  empty_not_mem : "" ∉ names
  powM_not_mem : "pow_m" ∉ names
  idOf_injective : ∀ a ∈ names, ∀ b ∈ names, idOf a = idOf b → a = b
  idOf_ne_powM : ∀ a ∈ names, idOf a ≠ objectTypePowM

/-- A type of matched objects, by its id and by its name. -/
def ObjectTypes.IsType (types : ObjectTypes) (T : Int) (name : String) : Prop :=
  name ∈ types.names ∧ T = types.idOf name ∨ T = objectTypePowM ∧ name = "pow_m"

namespace MatchedObject

/-- `getObjectTypeId()`; `none` is the access through a null pointer to the block. -/
def getObjectTypeId (types : ObjectTypes) (mo : MatchedObject) : Option Int :=
  if mo.idD < 0 ∧ mo.idD ≥ -4 then some objectTypePowM
  else mo.getObjectBlockBase.map fun obb => types.idOf (types.getObjectTypeName obb)

/-- `getObjectTypeName()`. -/
def getObjectTypeName (types : ObjectTypes) (mo : MatchedObject) : Option String :=
  if mo.idD < 0 ∧ mo.idD ≥ -4 then some "pow_m"
  else mo.getObjectBlockBase.map types.getObjectTypeName

/-- `getFocus()`. -/
def getFocus (mo : MatchedObject) : Option Bool :=
  if mo.isIDD then mo.getObjectBlockBase.map ObjectBlockBase.isFocus else some (mo.idD = -4)

end MatchedObject

/-! ## 2. Counts -/

/-- `bDoIt` of `countObjects`. -/
def countsObject (bUseOnlyFocusObjects : Bool) (mo : MatchedObject) : Option Bool :=
  if bUseOnlyFocusObjects then mo.getFocus else some true

/-- `bDoIt` of `countObjectsFromObjectType`. -/
def countsObjectFromObjectType (types : ObjectTypes) (objectTypeName : String)
    (bUseOnlyFocusObjects : Bool) (mo : MatchedObject) : Option Bool := do
  let bDoIt ← countsObject bUseOnlyFocusObjects mo
  if bDoIt && !objectTypeName.isEmpty then do
    let name ← mo.getObjectTypeName types
    pure (objectTypeName = name)
  else pure bDoIt

section Count

variable (bDoIt : MatchedObject → Option Bool)

mutual

/-- `MatchedObject::countObjects` and `MatchedObject::countObjectsFromObjectType`, which differ in
`bDoIt`. -/
def countMO : MatchedObject → Option Nat
  | .mk idD monads obb none => do
    let b ← bDoIt (.mk idD monads obb none)
    pure (if b then 1 else 0)
  | .mk idD monads obb (some sheaf) => do
    let b ← bDoIt (.mk idD monads obb (some sheaf))
    let inner ← countSheaf sheaf
    pure ((if b then 1 else 0) + inner)

/-- The loop of `Straw::countObjects`. -/
def countMOs : List MatchedObject → Option Nat
  | [] => some 0
  | mo :: list => do
    let result ← countMO mo
    let rest ← countMOs list
    pure (result + rest)

def countStraw : Straw → Option Nat
  | .mk _ list => countMOs list

/-- The loop of `Sheaf::countObjects`. -/
def countStraws : List Straw → Option Nat
  | [] => some 0
  | straw :: straws => do
    let result ← countStraw straw
    let rest ← countStraws straws
    pure (result + rest)

def countSheaf : Sheaf → Option Nat
  | .fail => some 0
  | .plist straws => countStraws straws

end

end Count

namespace Sheaf

/-- `Sheaf::countObjects`. -/
def countObjects (sheaf : Sheaf) (bUseOnlyFocusObjects : Bool) : Option Nat :=
  countSheaf (countsObject bUseOnlyFocusObjects) sheaf

/-- `Sheaf::countObjectsFromObjectType`. -/
def countObjectsFromObjectType (types : ObjectTypes) (sheaf : Sheaf) (objectTypeName : String)
    (bUseOnlyFocusObjects : Bool) : Option Nat :=
  countSheaf (countsObjectFromObjectType types objectTypeName bUseOnlyFocusObjects) sheaf

end Sheaf

/-! ## 3. Flattening -/

/-- `FlatStraw`, over an arena of pointers to matched objects. -/
structure FlatStraw where
  objectTypeName : String
  arena : List MatchedObject

def FlatStraw.addMO (straw : FlatStraw) (mo : MatchedObject) : FlatStraw :=
  { straw with arena := straw.arena ++ [mo] }

structure FlatSheaf where
  map : OrdMap Int FlatStraw
  bDoAll : Bool
  bIsFail : Bool

namespace FlatSheaf

/-- `addEmptyFlatStraw`. -/
def addEmptyFlatStraw (f : FlatSheaf) (objectTypeId : Int) (objectTypeName : String) : FlatSheaf :=
  { f with map := f.map.assign objectTypeId ⟨objectTypeName, []⟩ fun _ => ⟨objectTypeName, []⟩ }

/-- `FlatSheaf()`, for all object types. -/
def all : FlatSheaf := ⟨.empty, true, false⟩

/-- `FlatSheaf(object_types)`. -/
def ofObjectTypes (objectTypes : List (Int × String)) : FlatSheaf :=
  objectTypes.foldl (fun f t => f.addEmptyFlatStraw t.1 t.2) ⟨.empty, false, false⟩

/-- The flat sheaf that `mql_flatten_sheaf` starts with. -/
def new (objectTypes : List (Int × String)) : FlatSheaf :=
  if objectTypes.isEmpty then all else ofObjectTypes objectTypes

/-- `pFlatStraw->addMO(pMO)` on the flat straw of a type. -/
def addToFlatStraw (f : FlatSheaf) (objectTypeId : Int) (mo : MatchedObject) : FlatSheaf :=
  { f with map := f.map.modify objectTypeId fun straw => straw.addMO mo }

/-- `FlatSheaf::addMO`. -/
def addMO (types : ObjectTypes) (f : FlatSheaf) (mo : MatchedObject) :
    Option (Bool × FlatSheaf) := do
  let objectTypeId ← mo.getObjectTypeId types
  match f.map.value (some objectTypeId) with
  | some _ => pure (true, f.addToFlatStraw objectTypeId mo)
  | none =>
    if f.bDoAll then do
      let objectTypeName ← mo.getObjectTypeName types
      pure (true, (f.addEmptyFlatStraw objectTypeId objectTypeName).addToFlatStraw objectTypeId mo)
    else pure (false, f)

end FlatSheaf

/-- Where the walk has come to: the flat sheaf, and the matched objects that have been deleted. -/
structure Flattening where
  flatSheaf : FlatSheaf
  deleted : List MatchedObject

/-- A matched object when its inner sheaf has gone. -/
def MatchedObject.withoutSheaf : MatchedObject → MatchedObject
  | .mk idD monads obb _ => .mk idD monads obb none

/-- `delete pMO`, for a matched object that was not added. -/
def Flattening.deleteUnless (F : Flattening) (bAdded : Bool) (mo : MatchedObject) : Flattening :=
  if bAdded then F else { F with deleted := F.deleted ++ [mo.withoutSheaf] }

/-- Give a matched object to the flat sheaf. -/
def Flattening.addMO (types : ObjectTypes) (F : Flattening) (mo : MatchedObject) :
    Option (Bool × Flattening) := do
  let (bResult, flatSheaf) ← F.flatSheaf.addMO types mo.withoutSheaf
  pure (bResult, { F with flatSheaf })

section Flatten

variable (types : ObjectTypes)

mutual

/-- `MatchedObject::flatten`. -/
def flattenMO : MatchedObject → Flattening → Option (Bool × Flattening)
  | .mk idD monads obb none, F => F.addMO types (.mk idD monads obb none)
  | .mk idD monads obb (some sheaf), F => do
    let (bResult, F) ← F.addMO types (.mk idD monads obb (some sheaf))
    let F ← flattenSheaf sheaf F
    pure (bResult, F)

/-- The loop of `Straw::flatten`. -/
def flattenMOs : List MatchedObject → Flattening → Option Flattening
  | [], F => some F
  | mo :: list, F => do
    let (bAdded, F) ← flattenMO mo F
    flattenMOs list (F.deleteUnless bAdded mo)

/-- `Straw::flatten`. -/
def flattenStraw : Straw → Flattening → Option Flattening
  | .mk _ list, F => flattenMOs list F

/-- The loop of `Sheaf::flatten`. -/
def flattenStraws : List Straw → Flattening → Option Flattening
  | [], F => some F
  | straw :: straws, F => do
    let F ← flattenStraw straw F
    flattenStraws straws F

/-- `Sheaf::flatten`. -/
def flattenSheaf : Sheaf → Flattening → Option Flattening
  | .fail, F => some { F with flatSheaf := { F.flatSheaf with bIsFail := true } }
  | .plist straws, F => flattenStraws straws F

end

end Flatten

/-- `mql_flatten_sheaf(object_types, ppSheaf)` on a sheaf that is there; no object types stand for
all. -/
def mqlFlattenSheaf (types : ObjectTypes) (objectTypes : List (Int × String)) (sheaf : Sheaf) :
    Option Flattening :=
  flattenSheaf types sheaf ⟨.new objectTypes, []⟩

/-! ## 4. The matched objects of a sheaf -/

mutual

/-- The matched objects of a sheaf, each before those of its inner sheaf. -/
def preOrderMO : MatchedObject → List MatchedObject
  | .mk idD monads obb none => [.mk idD monads obb none]
  | .mk idD monads obb (some sheaf) => .mk idD monads obb none :: preOrderSheaf sheaf

def preOrderMOs : List MatchedObject → List MatchedObject
  | [] => []
  | mo :: list => preOrderMO mo ++ preOrderMOs list

def preOrderStraw : Straw → List MatchedObject
  | .mk _ list => preOrderMOs list

def preOrderStraws : List Straw → List MatchedObject
  | [] => []
  | straw :: straws => preOrderStraw straw ++ preOrderStraws straws

def preOrderSheaf : Sheaf → List MatchedObject
  | .fail => []
  | .plist straws => preOrderStraws straws

end

section Walk

variable {types : ObjectTypes}

/-- An object comes from an object block whose type exists, so that the pointer to the block is
not null. -/
def MatchedObject.HasType (types : ObjectTypes) (mo : MatchedObject) : Prop :=
  mo.isIDD = true → ∃ obb, mo.getObjectBlockBase = some obb ∧
    types.getObjectTypeName obb ∈ types.names

/-- The matched objects of a type. -/
def ofType (types : ObjectTypes) (T : Int) (l : List MatchedObject) : List MatchedObject :=
  l.filter fun mo => mo.getObjectTypeId types = some T

@[simp] theorem ofType_nil (T : Int) : ofType types T [] = [] := rfl

@[simp] theorem ofType_append (T : Int) (l l' : List MatchedObject) :
    ofType types T (l ++ l') = ofType types T l ++ ofType types T l' := List.filter_append ..

theorem MatchedObject.HasType.getObjectTypeId {mo : MatchedObject} (h : mo.HasType types) :
    ∃ T, mo.getObjectTypeId types = some T := by
  unfold MatchedObject.getObjectTypeId
  split
  · exact ⟨_, rfl⟩
  · rename_i hid
    obtain ⟨obb, hobb, -⟩ := h (decide_eq_true (by omega))
    exact ⟨_, by rw [hobb]; rfl⟩

theorem MatchedObject.HasType.getObjectTypeName {mo : MatchedObject} (h : mo.HasType types) :
    ∃ name, mo.getObjectTypeName types = some name := by
  unfold MatchedObject.getObjectTypeName
  split
  · exact ⟨_, rfl⟩
  · rename_i hid
    obtain ⟨obb, hobb, -⟩ := h (decide_eq_true (by omega))
    exact ⟨_, by rw [hobb]; rfl⟩

/-- A type's id and its name select the same matched objects. -/
theorem MatchedObject.HasType.name_iff {mo : MatchedObject} (h : mo.HasType types) {T : Int}
    {name : String} (hT : types.IsType T name) :
    mo.getObjectTypeName types = some name ↔ mo.getObjectTypeId types = some T := by
  unfold MatchedObject.getObjectTypeName MatchedObject.getObjectTypeId
  by_cases hid : mo.idD < 0 ∧ mo.idD ≥ -4
  · rw [if_pos hid, if_pos hid]
    rcases hT with ⟨hname, rfl⟩ | ⟨rfl, rfl⟩
    · constructor
      · rintro h
        exact absurd (Option.some.inj h ▸ hname) types.powM_not_mem
      · intro h
        exact absurd (Option.some.inj h).symm (types.idOf_ne_powM name hname)
    · exact iff_of_true rfl rfl
  · obtain ⟨obb, hobb, hmem⟩ := h (decide_eq_true (by omega))
    rw [if_neg hid, if_neg hid, hobb, Option.map_some, Option.map_some, Option.some_inj,
      Option.some_inj]
    rcases hT with ⟨hname, rfl⟩ | ⟨rfl, rfl⟩
    · exact ⟨fun h => by rw [h], types.idOf_injective _ hmem _ hname⟩
    · constructor
      · intro h
        exact absurd (h ▸ hmem) types.powM_not_mem
      · intro h
        exact absurd h (types.idOf_ne_powM _ hmem)

theorem ObjectTypes.IsType.ne_empty {T : Int} {name : String} (h : types.IsType T name) :
    name.isEmpty = false := by
  rcases h with ⟨hname, -⟩ | ⟨-, rfl⟩
  · by_contra he
    rw [Bool.not_eq_false, String.isEmpty_iff] at he
    exact types.empty_not_mem (he ▸ hname)
  · decide

/-! ## 5. What the walk adds -/

/-- What the flat straw of a type holds, if there is one. -/
def FlatSheaf.listOf (f : FlatSheaf) (T : Int) : Option (List MatchedObject) :=
  (f.map.value (some T)).map FlatStraw.arena

/-- The lengths of the flat straws together. -/
def FlatSheaf.totalLength (f : FlatSheaf) : Nat :=
  OrdMap.sumValues (fun straw => straw.arena.length) f.map

/-- A flat straw, or none, after some matched objects of its type. -/
def extend (bDoAll : Bool) (old : Option (List MatchedObject)) (new : List MatchedObject) :
    Option (List MatchedObject) :=
  match old with
  | some old => some (old ++ new)
  | none => if bDoAll && !new.isEmpty then some new else none

@[simp] theorem extend_nil (bDoAll : Bool) (old : Option (List MatchedObject)) :
    extend bDoAll old [] = old := by
  cases old <;> simp [extend]

theorem extend_extend (bDoAll : Bool) (old : Option (List MatchedObject))
    (l l' : List MatchedObject) :
    extend bDoAll (extend bDoAll old l) l' = extend bDoAll old (l ++ l') := by
  cases old with
  | some old => simp [extend]
  | none =>
    cases bDoAll
    · rfl
    · cases l with
      | nil => rfl
      | cons mo l => simp [extend]

theorem isSome_extend_false (old : Option (List MatchedObject)) (new : List MatchedObject) :
    (extend false old new).isSome = old.isSome := by
  cases old <;> rfl

/-- Whether the flat sheaf takes a matched object. -/
def FlatSheaf.takes (types : ObjectTypes) (f : FlatSheaf) (mo : MatchedObject) : Bool :=
  f.bDoAll || ((mo.getObjectTypeId types).bind f.listOf).isSome

/-- What a part of the walk does, for the list of its matched objects: those that the flat sheaf
takes are at the end of the flat straws of their types, the others are deleted. -/
structure Adds (types : ObjectTypes) (F : Flattening) (l : List MatchedObject) (F' : Flattening) :
    Prop where
  bDoAll : F'.flatSheaf.bDoAll = F.flatSheaf.bDoAll
  listOf : ∀ T, F'.flatSheaf.listOf T
    = extend F.flatSheaf.bDoAll (F.flatSheaf.listOf T) (ofType types T l)
  totalLength : F'.flatSheaf.totalLength
    = F.flatSheaf.totalLength + (l.filter (F.flatSheaf.takes types)).length
  deleted : F'.deleted.Perm (F.deleted ++ l.filter fun mo => !F.flatSheaf.takes types mo)

namespace Adds

variable {F F₁ F₂ : Flattening} {l l' : List MatchedObject}

theorem refl (F : Flattening) : Adds types F [] F where
  bDoAll := rfl
  listOf := by simp
  totalLength := by simp
  deleted := by simp

/-- The flat sheaf goes on to take the same types. -/
theorem takes_eq (h : Adds types F l F₁) : F₁.flatSheaf.takes types = F.flatSheaf.takes types := by
  funext mo
  unfold FlatSheaf.takes
  rw [h.bDoAll]
  cases hall : F.flatSheaf.bDoAll
  · cases mo.getObjectTypeId types with
    | none => rfl
    | some T =>
      simp only [Option.bind_some, Bool.false_or]
      rw [h.listOf T, hall, isSome_extend_false]
  · rfl

theorem trans (h : Adds types F l F₁) (h' : Adds types F₁ l' F₂) : Adds types F (l ++ l') F₂ where
  bDoAll := h'.bDoAll.trans h.bDoAll
  listOf T := by rw [h'.listOf T, h.bDoAll, h.listOf T, extend_extend, ofType_append]
  totalLength := by
    rw [h'.totalLength, h.totalLength, h.takes_eq, List.filter_append, List.length_append]
    omega
  deleted := by
    have hdeleted := h'.deleted.trans (h.deleted.append_right _)
    rw [h.takes_eq, List.append_assoc, ← List.filter_append] at hdeleted
    exact hdeleted

/-- Deleting a matched object can wait. -/
theorem deleteUnless (h : Adds types F l F₁) (bAdded : Bool) (mo : MatchedObject) :
    Adds types (F.deleteUnless bAdded mo) l (F₁.deleteUnless bAdded mo) := by
  cases bAdded
  · refine ⟨h.bDoAll, h.listOf, h.totalLength, ?_⟩
    have hperm := h.deleted.append_right [mo.withoutSheaf]
    rw [List.append_assoc] at hperm
    refine hperm.trans ?_
    show (F.deleted ++ (_ ++ [mo.withoutSheaf])).Perm (F.deleted ++ [mo.withoutSheaf] ++ _)
    rw [List.append_assoc]
    exact List.perm_append_comm.append_left F.deleted
  · exact h

end Adds

/-! ## 6. The walk -/

@[simp] theorem listOf_addToFlatStraw (f : FlatSheaf) (T T' : Int) (mo : MatchedObject) :
    (f.addToFlatStraw T mo).listOf T'
      = if T = T' then (f.listOf T).map (· ++ [mo]) else f.listOf T' := by
  unfold FlatSheaf.listOf FlatSheaf.addToFlatStraw
  rw [OrdMap.value_modify]
  split
  · cases f.map.value (some T) <;> rfl
  · rfl

@[simp] theorem listOf_addEmptyFlatStraw (f : FlatSheaf) (T T' : Int) (name : String) :
    (f.addEmptyFlatStraw T name).listOf T' = if T = T' then some [] else f.listOf T' := by
  unfold FlatSheaf.listOf FlatSheaf.addEmptyFlatStraw
  rw [OrdMap.value_assign]
  split <;> rfl

theorem totalLength_addToFlatStraw {f : FlatSheaf} {T : Int} (h : (f.listOf T).isSome = true)
    (mo : MatchedObject) : (f.addToFlatStraw T mo).totalLength = f.totalLength + 1 := by
  obtain ⟨straw, hstraw⟩ : ∃ straw, f.map.value (some T) = some straw := by
    unfold FlatSheaf.listOf at h
    exact Option.isSome_iff_exists.mp (by simpa using h)
  have hsum := OrdMap.sumValues_modify (fun straw : FlatStraw => straw.arena.length) hstraw
    fun straw => straw.addMO mo
  simp only [FlatStraw.addMO, List.length_append, List.length_singleton] at hsum
  show OrdMap.sumValues _ _ = OrdMap.sumValues _ _ + 1
  unfold FlatSheaf.addToFlatStraw FlatStraw.addMO
  dsimp only
  omega

theorem totalLength_addEmptyFlatStraw {f : FlatSheaf} {T : Int} (h : f.listOf T = none)
    (name : String) : (f.addEmptyFlatStraw T name).totalLength = f.totalLength := by
  have hnone : f.map.value (some T) = none := by
    unfold FlatSheaf.listOf at h
    simpa using h
  have hinsert := OrdMap.sumValues_insert (fun straw : FlatStraw => straw.arena.length) hnone
    (v := ⟨name, []⟩)
  have hvalue : (f.map.insert T ⟨name, []⟩).value (some T) = some ⟨name, []⟩ := by
    rw [OrdMap.value_insert, if_pos rfl, hnone]
    rfl
  have hmodify := OrdMap.sumValues_modify (fun straw : FlatStraw => straw.arena.length) hvalue
    fun _ => ⟨name, []⟩
  simp only [List.length_nil, Nat.add_zero] at hinsert hmodify
  exact hmodify.trans hinsert

/-- The three ways of `addMO`. -/
theorem FlatSheaf.addMO_eq (f : FlatSheaf) {mo : MatchedObject} {T : Int} {name : String}
    (hT : mo.getObjectTypeId types = some T) (hname : mo.getObjectTypeName types = some name) :
    f.addMO types mo = some (
      if (f.listOf T).isSome then (true, f.addToFlatStraw T mo)
      else if f.bDoAll then (true, (f.addEmptyFlatStraw T name).addToFlatStraw T mo)
      else (false, f)) := by
  unfold FlatSheaf.addMO FlatSheaf.listOf
  rw [hT, hname]
  cases hvalue : f.map.value (some T) with
  | some straw => simp [hvalue]
  | none => cases f.bDoAll <;> simp [hvalue]

/-- What `addMO` does with one matched object, whose deletion then follows. -/
theorem Flattening.addMO_adds (F : Flattening) (mo : MatchedObject)
    (h : mo.withoutSheaf.HasType types) :
    ∃ b F', F.addMO types mo = some (b, F') ∧
      Adds types F [mo.withoutSheaf] (F'.deleteUnless b mo) := by
  obtain ⟨T, hT⟩ := h.getObjectTypeId
  obtain ⟨name, hname⟩ := h.getObjectTypeName
  have hadd := F.flatSheaf.addMO_eq hT hname
  have htype (T' : Int) : ofType types T' [mo.withoutSheaf]
      = if T = T' then [mo.withoutSheaf] else [] := by
    unfold ofType
    rw [List.filter_singleton, hT]
    by_cases hTT : T = T' <;> simp [hTT]
  have htakes : F.flatSheaf.takes types mo.withoutSheaf
      = (F.flatSheaf.bDoAll || (F.flatSheaf.listOf T).isSome) := by
    unfold FlatSheaf.takes
    rw [hT]
    rfl
  unfold Flattening.addMO
  cases hlist : F.flatSheaf.listOf T with
  | some old =>
    rw [hlist, Option.isSome_some, if_pos rfl] at hadd
    rw [hlist, Option.isSome_some, Bool.or_true] at htakes
    rw [hadd]
    refine ⟨true, _, rfl, rfl, fun T' => ?_, ?_, ?_⟩
    · show (F.flatSheaf.addToFlatStraw T mo.withoutSheaf).listOf T' = _
      rw [listOf_addToFlatStraw, htype]
      by_cases hTT : T = T'
      · rw [if_pos hTT, if_pos hTT, ← hTT, hlist]
        rfl
      · rw [if_neg hTT, if_neg hTT, extend_nil]
    · rw [List.filter_singleton, htakes]
      exact totalLength_addToFlatStraw (by rw [hlist]; rfl) _
    · rw [List.filter_singleton, htakes]
      simp [Flattening.deleteUnless]
  | none =>
    rw [hlist, Option.isSome_none, Bool.or_false] at htakes
    rw [hlist, Option.isSome_none, if_neg Bool.false_ne_true] at hadd
    cases hall : F.flatSheaf.bDoAll with
    | true =>
      rw [hall] at htakes
      rw [hall, if_pos rfl] at hadd
      rw [hadd]
      refine ⟨true, _, rfl, rfl, fun T' => ?_, ?_, ?_⟩
      · show ((F.flatSheaf.addEmptyFlatStraw T name).addToFlatStraw T mo.withoutSheaf).listOf T' = _
        rw [listOf_addToFlatStraw, listOf_addEmptyFlatStraw, listOf_addEmptyFlatStraw, htype]
        by_cases hTT : T = T'
        · rw [if_pos hTT, if_pos rfl, if_pos hTT, ← hTT, hlist, hall]
          rfl
        · rw [if_neg hTT, if_neg hTT, if_neg hTT, extend_nil]
      · rw [List.filter_singleton, htakes]
        have hempty := totalLength_addEmptyFlatStraw hlist name
        have hadded := totalLength_addToFlatStraw (f := F.flatSheaf.addEmptyFlatStraw T name)
          (T := T) (by simp) mo.withoutSheaf
        rw [hempty] at hadded
        exact hadded
      · rw [List.filter_singleton, htakes]
        simp [Flattening.deleteUnless]
    | false =>
      rw [hall] at htakes
      rw [hall, if_neg Bool.false_ne_true] at hadd
      rw [hadd]
      refine ⟨false, _, rfl, rfl, fun T' => ?_, ?_, ?_⟩
      · show F.flatSheaf.listOf T' = _
        rw [htype]
        by_cases hTT : T = T'
        · rw [if_pos hTT, ← hTT, hlist, hall]
          rfl
        · rw [if_neg hTT, extend_nil]
      · rw [List.filter_singleton, htakes]
        rfl
      · rw [List.filter_singleton, htakes]
        exact List.Perm.refl _

mutual

theorem flattenMO_adds : ∀ (mo : MatchedObject) (F : Flattening),
    (∀ x ∈ preOrderMO mo, x.HasType types) →
      ∃ b F', flattenMO types mo F = some (b, F') ∧
        Adds types F (preOrderMO mo) (F'.deleteUnless b mo)
  | .mk idD monads obb none, F, h =>
    F.addMO_adds (.mk idD monads obb none) (h _ List.mem_cons_self)
  | .mk idD monads obb (some sheaf), F, h => by
    obtain ⟨b, F₁, hadd, hadds⟩ :=
      F.addMO_adds (.mk idD monads obb (some sheaf)) (h _ List.mem_cons_self)
    obtain ⟨F₂, hflatten, hinner⟩ :=
      flattenSheaf_adds sheaf F₁ fun x hx => h x (List.mem_cons_of_mem _ hx)
    refine ⟨b, F₂, ?_, hadds.trans (hinner.deleteUnless b _)⟩
    rw [flattenMO, hadd]
    simp [hflatten]

theorem flattenMOs_adds : ∀ (list : List MatchedObject) (F : Flattening),
    (∀ x ∈ preOrderMOs list, x.HasType types) →
      ∃ F', flattenMOs types list F = some F' ∧ Adds types F (preOrderMOs list) F'
  | [], F, _ => ⟨F, rfl, .refl F⟩
  | mo :: list, F, h => by
    obtain ⟨b, F₁, hmo, hadds⟩ :=
      flattenMO_adds mo F fun x hx => h x (List.mem_append_left _ hx)
    obtain ⟨F₂, hlist, hrest⟩ := flattenMOs_adds list (F₁.deleteUnless b mo)
      fun x hx => h x (List.mem_append_right _ hx)
    refine ⟨F₂, ?_, hadds.trans hrest⟩
    rw [flattenMOs, hmo]
    exact hlist

theorem flattenStraw_adds : ∀ (straw : Straw) (F : Flattening),
    (∀ x ∈ preOrderStraw straw, x.HasType types) →
      ∃ F', flattenStraw types straw F = some F' ∧ Adds types F (preOrderStraw straw) F'
  | .mk _ list, F, h => flattenMOs_adds list F h

theorem flattenStraws_adds : ∀ (straws : List Straw) (F : Flattening),
    (∀ x ∈ preOrderStraws straws, x.HasType types) →
      ∃ F', flattenStraws types straws F = some F' ∧ Adds types F (preOrderStraws straws) F'
  | [], F, _ => ⟨F, rfl, .refl F⟩
  | straw :: straws, F, h => by
    obtain ⟨F₁, hstraw, hadds⟩ :=
      flattenStraw_adds straw F fun x hx => h x (List.mem_append_left _ hx)
    obtain ⟨F₂, hstraws, hrest⟩ :=
      flattenStraws_adds straws F₁ fun x hx => h x (List.mem_append_right _ hx)
    refine ⟨F₂, ?_, hadds.trans hrest⟩
    rw [flattenStraws, hstraw]
    exact hstraws

theorem flattenSheaf_adds : ∀ (sheaf : Sheaf) (F : Flattening),
    (∀ x ∈ preOrderSheaf sheaf, x.HasType types) →
      ∃ F', flattenSheaf types sheaf F = some F' ∧ Adds types F (preOrderSheaf sheaf) F'
  | .fail, F, _ => ⟨_, rfl, ⟨rfl, (Adds.refl F).listOf, (Adds.refl F).totalLength,
      (Adds.refl F).deleted⟩⟩
  | .plist straws, F, h => flattenStraws_adds straws F h

end

/-! ## 7. The counts -/

section Counts

variable {bDoIt : MatchedObject → Option Bool} {p : MatchedObject → Bool}

/-- Whether a matched object is counted does not depend on its inner sheaf. -/
def IgnoresSheaf (bDoIt : MatchedObject → Option Bool) : Prop :=
  ∀ mo, bDoIt mo.withoutSheaf = bDoIt mo

mutual

/-- A count is the number of matched objects that are counted. -/
theorem countMO_eq (hignores : IgnoresSheaf bDoIt) : ∀ mo : MatchedObject,
    (∀ x ∈ preOrderMO mo, bDoIt x = some (p x)) →
      countMO bDoIt mo = some ((preOrderMO mo).countP p)
  | .mk idD monads obb none, h => by
    rw [countMO, h _ List.mem_cons_self]
    simp [preOrderMO, List.countP_cons]
  | .mk idD monads obb (some sheaf), h => by
    have hself := h _ List.mem_cons_self
    have hinner := countSheaf_eq hignores sheaf fun x hx => h x (List.mem_cons_of_mem _ hx)
    have hmo := hignores (.mk idD monads obb (some sheaf))
    rw [MatchedObject.withoutSheaf, hself] at hmo
    rw [countMO, ← hmo, hinner]
    simp [preOrderMO, List.countP_cons, Nat.add_comm]

theorem countMOs_eq (hignores : IgnoresSheaf bDoIt) : ∀ list : List MatchedObject,
    (∀ x ∈ preOrderMOs list, bDoIt x = some (p x)) →
      countMOs bDoIt list = some ((preOrderMOs list).countP p)
  | [], _ => rfl
  | mo :: list, h => by
    rw [countMOs, countMO_eq hignores mo fun x hx => h x (List.mem_append_left _ hx),
      countMOs_eq hignores list fun x hx => h x (List.mem_append_right _ hx), preOrderMOs,
      List.countP_append]
    rfl

theorem countStraw_eq (hignores : IgnoresSheaf bDoIt) : ∀ straw : Straw,
    (∀ x ∈ preOrderStraw straw, bDoIt x = some (p x)) →
      countStraw bDoIt straw = some ((preOrderStraw straw).countP p)
  | .mk _ list, h => countMOs_eq hignores list h

theorem countStraws_eq (hignores : IgnoresSheaf bDoIt) : ∀ straws : List Straw,
    (∀ x ∈ preOrderStraws straws, bDoIt x = some (p x)) →
      countStraws bDoIt straws = some ((preOrderStraws straws).countP p)
  | [], _ => rfl
  | straw :: straws, h => by
    rw [countStraws, countStraw_eq hignores straw fun x hx => h x (List.mem_append_left _ hx),
      countStraws_eq hignores straws fun x hx => h x (List.mem_append_right _ hx), preOrderStraws,
      List.countP_append]
    rfl

theorem countSheaf_eq (hignores : IgnoresSheaf bDoIt) : ∀ sheaf : Sheaf,
    (∀ x ∈ preOrderSheaf sheaf, bDoIt x = some (p x)) →
      countSheaf bDoIt sheaf = some ((preOrderSheaf sheaf).countP p)
  | .fail, _ => rfl
  | .plist straws, h => countStraws_eq hignores straws h

end

end Counts

/-- `countObjects(false)` is the number of matched objects. -/
theorem Sheaf.countObjects_false (sheaf : Sheaf) :
    sheaf.countObjects false = some (preOrderSheaf sheaf).length := by
  have hignores : IgnoresSheaf (countsObject false) := fun _ => rfl
  have h := countSheaf_eq hignores (p := fun _ => true) sheaf fun _ _ => rfl
  rw [Sheaf.countObjects, h, List.countP_true]

/-- `countObjectsFromObjectType(T, false)` is the number of those of the type. -/
theorem Sheaf.countObjectsFromObjectType_false {sheaf : Sheaf}
    (h : ∀ x ∈ preOrderSheaf sheaf, x.HasType types) {T : Int} {name : String}
    (hT : types.IsType T name) :
    sheaf.countObjectsFromObjectType types name false
      = some (ofType types T (preOrderSheaf sheaf)).length := by
  have hignores : IgnoresSheaf (countsObjectFromObjectType types name false) := by
    rintro ⟨idD, monads, obb, inner⟩
    rfl
  have hcount := countSheaf_eq hignores (p := fun mo => mo.getObjectTypeId types = some T) sheaf
    fun x hx => by
      obtain ⟨name', hname'⟩ := (h x hx).getObjectTypeName
      have hiff := (h x hx).name_iff hT
      rw [hname', Option.some_inj] at hiff
      simp [countsObjectFromObjectType, countsObject, hT.ne_empty, hname', ← hiff, eq_comm]
  rw [Sheaf.countObjectsFromObjectType, hcount, List.countP_eq_length_filter, ofType]

/-! ## 8. The flat sheaf -/

theorem foldl_addEmptyFlatStraw : ∀ (objectTypes : List (Int × String)) (f : FlatSheaf),
    (objectTypes.foldl (fun f t => f.addEmptyFlatStraw t.1 t.2) f).bDoAll = f.bDoAll ∧
      ∀ T, (objectTypes.foldl (fun f t => f.addEmptyFlatStraw t.1 t.2) f).listOf T
        = if T ∈ objectTypes.map Prod.fst then some [] else f.listOf T
  | [], f => ⟨rfl, fun _ => rfl⟩
  | t :: objectTypes, f => by
    obtain ⟨hall, hlist⟩ := foldl_addEmptyFlatStraw objectTypes (f.addEmptyFlatStraw t.1 t.2)
    refine ⟨hall, fun T => ?_⟩
    rw [List.foldl_cons, hlist T, listOf_addEmptyFlatStraw]
    by_cases hT : T ∈ objectTypes.map Prod.fst
    · simp [hT]
    · simp [hT, eq_comm]

theorem bDoAll_new (objectTypes : List (Int × String)) :
    (FlatSheaf.new objectTypes).bDoAll = objectTypes.isEmpty := by
  cases objectTypes with
  | nil => rfl
  | cons t objectTypes => exact (foldl_addEmptyFlatStraw (t :: objectTypes) _).1

theorem listOf_new (objectTypes : List (Int × String)) (T : Int) :
    (FlatSheaf.new objectTypes).listOf T
      = if T ∈ objectTypes.map Prod.fst then some [] else none := by
  cases objectTypes with
  | nil => rfl
  | cons t objectTypes => exact (foldl_addEmptyFlatStraw (t :: objectTypes) _).2 T

/-- A type has a flat straw: it was asked for, or all types were and the sheaf has one of it. -/
def HasFlatStraw (types : ObjectTypes) (objectTypes : List (Int × String)) (sheaf : Sheaf)
    (T : Int) : Prop :=
  if objectTypes = [] then ofType types T (preOrderSheaf sheaf) ≠ []
  else T ∈ objectTypes.map Prod.fst

/-- The types whose objects are wanted. -/
def IsRequested (objectTypes : List (Int × String)) (T : Int) : Prop :=
  objectTypes = [] ∨ T ∈ objectTypes.map Prod.fst

/-- A matched object is of a requested type. -/
def MatchedObject.isRequested (types : ObjectTypes) (objectTypes : List (Int × String))
    (mo : MatchedObject) : Bool :=
  objectTypes.isEmpty ||
    (mo.getObjectTypeId types).any fun T => (objectTypes.map Prod.fst).contains T

/-- What is said of a flat sheaf.  The flat straw of a type lists the matched objects of the type,
in the order of the walk; other types have none; what is in no flat straw is deleted; and the
lengths are the counts. -/
structure FlattensExactly (types : ObjectTypes) (objectTypes : List (Int × String)) (sheaf : Sheaf)
    (F : Flattening) : Prop where
  listed : ∀ T, HasFlatStraw types objectTypes sheaf T →
    F.flatSheaf.listOf T = some (ofType types T (preOrderSheaf sheaf))
  absent : ∀ T, ¬ HasFlatStraw types objectTypes sheaf T → F.flatSheaf.listOf T = none
  deleted : F.deleted.Perm
    ((preOrderSheaf sheaf).filter fun mo => !mo.isRequested types objectTypes)
  length : ∀ T name, types.IsType T name → IsRequested objectTypes T →
    sheaf.countObjectsFromObjectType types name false
      = some ((F.flatSheaf.listOf T).getD []).length
  lengths : objectTypes = [] → sheaf.countObjects false = some F.flatSheaf.totalLength

theorem takes_new (objectTypes : List (Int × String)) :
    (FlatSheaf.new objectTypes).takes types = MatchedObject.isRequested types objectTypes := by
  funext mo
  unfold FlatSheaf.takes MatchedObject.isRequested
  rw [bDoAll_new]
  cases mo.getObjectTypeId types with
  | none => rfl
  | some T =>
    rw [Option.bind_some, listOf_new]
    by_cases hT : T ∈ objectTypes.map Prod.fst <;> simp [hT]

/-- **Flattening keeps the requested objects, each once, in the order of the walk.** -/
theorem mqlFlattenSheaf_exact (objectTypes : List (Int × String)) {sheaf : Sheaf}
    (h : ∀ x ∈ preOrderSheaf sheaf, x.HasType types) :
    ∃ F, mqlFlattenSheaf types objectTypes sheaf = some F ∧
      FlattensExactly types objectTypes sheaf F := by
  obtain ⟨F, hF, hadds⟩ := flattenSheaf_adds sheaf ⟨.new objectTypes, []⟩ h
  have hlist (T : Int) : F.flatSheaf.listOf T = extend objectTypes.isEmpty
      (if T ∈ objectTypes.map Prod.fst then some [] else none)
      (ofType types T (preOrderSheaf sheaf)) := by
    rw [hadds.listOf T, bDoAll_new, listOf_new]
  have hrequested (T : Int) (hT : IsRequested objectTypes T) :
      (F.flatSheaf.listOf T).getD [] = ofType types T (preOrderSheaf sheaf) := by
    rw [hlist T]
    by_cases hmem : T ∈ objectTypes.map Prod.fst
    · rw [if_pos hmem]
      rfl
    · have hempty : objectTypes = [] := hT.resolve_right hmem
      subst hempty
      cases ofType types T (preOrderSheaf sheaf) <;> rfl
  refine ⟨F, hF, fun T hT => ?_, fun T hT => ?_, ?_, fun T name hname hT => ?_, ?_⟩
  · rw [hlist T]
    unfold HasFlatStraw at hT
    split at hT
    · rename_i hempty
      subst hempty
      simp [extend, hT]
    · rw [if_pos hT]
      rfl
  · rw [hlist T]
    unfold HasFlatStraw at hT
    split at hT
    · rename_i hempty
      subst hempty
      rw [not_not.mp hT, extend_nil]
      rfl
    · rename_i hne
      rw [if_neg hT]
      simp [extend, hne]
  · have hdeleted := hadds.deleted
    rw [takes_new] at hdeleted
    simpa using hdeleted
  · rw [hrequested T hT, Sheaf.countObjectsFromObjectType_false h hname]
  · rintro rfl
    have htotal := hadds.totalLength
    have hall : MatchedObject.isRequested types [] = fun _ => true := rfl
    have hzero : (FlatSheaf.new []).totalLength = 0 := rfl
    rw [takes_new, hall, hzero, List.filter_true, Nat.zero_add] at htotal
    rw [Sheaf.countObjects_false, htotal]

end Walk

/-- A phrase with two words in it, and a gap after them. -/
def phraseSheaf : Sheaf :=
  .plist [.mk 0 [.mk 7 .empty (some ⟨1, .kRetrieve⟩) (some (.plist
    [.mk 0 [.mk 3 .empty (some ⟨0, .kRetrieve⟩) none, .mk (-2) .empty none none],
      .mk 0 [.mk 4 .empty (some ⟨0, .kRetrieve⟩) none]]))]]

def wordAndPhrase : ObjectTypes where
  getObjectTypeName obb := if obb.nodeNumber = 0 then "word" else "phrase"
  names := ["word", "phrase"]
  idOf name := if name = "word" then 10 else 11
  empty_not_mem := by decide
  powM_not_mem := by decide
  idOf_injective := by decide
  idOf_ne_powM := by decide

/-- The words alone: the phrase is not in the flat sheaf, but the words inside it are. -/
theorem mqlFlattenSheaf_exact_words :
    ∃ F, mqlFlattenSheaf wordAndPhrase [(10, "word")] phraseSheaf = some F ∧
      FlattensExactly wordAndPhrase [(10, "word")] phraseSheaf F := by
  refine mqlFlattenSheaf_exact [(10, "word")] fun x hx hid => ?_
  simp only [phraseSheaf, preOrderSheaf, preOrderStraws, preOrderStraw, preOrderMOs, preOrderMO,
    List.append_nil, List.nil_append, List.cons_append, List.mem_cons, List.not_mem_nil,
    or_false] at hx
  rcases hx with rfl | rfl | rfl | rfl
  · exact ⟨_, rfl, by decide⟩
  · exact ⟨_, rfl, by decide⟩
  · exact absurd hid (by decide)
  · exact ⟨_, rfl, by decide⟩

end Emdros
