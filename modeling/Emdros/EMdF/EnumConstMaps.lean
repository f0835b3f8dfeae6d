/-
# The enumeration constant cache as a whole (`enum_const_cache.h`, `enum_const_cache.cpp`)

`EnumConstCache` has the maps of one enumeration.  Here are the four maps of the class, from
enumerations to their names and back and to the two maps of their constants, over one heap.

`Contents` is what the cache is for: the constants of each enumeration.  `run_represents` says
that the two maps of every enumeration hold these constants after every operation of a run in which
no constant gets the value that another one has at that moment, and no enumeration is dropped whose
name is gone from the map of names.
-/
import Mathlib
import Emdros.EMdF.EnumConstInv

namespace Emdros

/-- `class EnumConstCache`, with all enumerations. -/
structure EnumConstMaps where
  objects : Heap EnumConstInfo
  iddEnumName : AList fun _ : Nat => String
  enumNameIdd : AList fun _ : String => Nat
  iddVeci : AList fun _ : Nat => AList fun _ : Int => Nat
  iddSeci : AList fun _ : Nat => AList fun _ : String => Nat

namespace EnumConstMaps

/-! ## 1. The functions -/

def empty : EnumConstMaps := ⟨Heap.empty, ∅, ∅, ∅, ∅⟩

/-- `std::map::insert`. -/
def insertNew {κ β : Type} [DecidableEq κ] (m : AList fun _ : κ => β) (k : κ) (b : β) :
    AList fun _ : κ => β :=
  match m.lookup k with
  | some _ => m
  | none => m.insert k b

def hasEnum (cs : EnumConstMaps) (enumId : Nat) : Bool := (cs.iddEnumName.lookup enumId).isSome

def addEnum (cs : EnumConstMaps) (enumId : Nat) (enumName : String) : EnumConstMaps :=
  if cs.hasEnum enumId then cs
  else
    { cs with
      iddEnumName := insertNew cs.iddEnumName enumId enumName
      enumNameIdd := insertNew cs.enumNameIdd enumName enumId
      iddVeci := insertNew cs.iddVeci enumId ∅
      iddSeci := insertNew cs.iddSeci enumId ∅ }

/-- The two maps of an enumeration are replaced. -/
def setEnumeration (cs : EnumConstMaps) (enumId : Nat) (c : EnumConstCache) : EnumConstMaps :=
  { cs with
    objects := c.objects
    iddVeci := cs.iddVeci.insert enumId c.veci
    iddSeci := cs.iddSeci.insert enumId c.seci }

/-- `addEci`: false when the value is there already. -/
def addEci (cs : EnumConstMaps) (enumId : Nat) (enumName : String) (eci : EnumConstInfo) :
    Option (Bool × EnumConstMaps) := do
  let cs := cs.addEnum enumId enumName
  let veci ← cs.iddVeci.lookup enumId
  let seci ← cs.iddSeci.lookup enumId
  let (added, c) ← EnumConstCache.addEci ⟨cs.objects, veci, seci⟩ eci
  some (added, cs.setEnumeration enumId c)

/-- What `drop`, `updateValue` and `setNewDefault` have in common: an enumeration that is not there
is left alone, and both of its maps have to be there. -/
def inEnumeration (cs : EnumConstMaps) (enumId : Nat)
    (f : EnumConstCache → Option EnumConstCache) : Option EnumConstMaps :=
  match cs.iddSeci.lookup enumId with
  | none => some cs
  | some seci => do
    let veci ← cs.iddVeci.lookup enumId
    let c ← f ⟨cs.objects, veci, seci⟩
    some (cs.setEnumeration enumId c)

def drop (cs : EnumConstMaps) (enumId : Nat) (enumConstName : String) : Option EnumConstMaps :=
  cs.inEnumeration enumId fun c => c.drop enumConstName

def updateValue (cs : EnumConstMaps) (enumId : Nat) (enumConstName : String) (newValue : Int) :
    Option EnumConstMaps :=
  cs.inEnumeration enumId fun c => c.updateValue enumConstName newValue

def setNewDefault (cs : EnumConstMaps) (enumId : Nat) (enumValueName : String) :
    Option EnumConstMaps :=
  cs.inEnumeration enumId fun c => c.setNewDefault enumValueName

/-- The loop of `clearVECIMap`. -/
def clearVECIMap : List (Sigma fun _ : Int => Nat) → Heap EnumConstInfo →
    Option (Heap EnumConstInfo)
  | [], objects => some objects
  | ⟨_, pECI⟩ :: rest, objects => do
    let (_, objects) ← (Heap.delete pECI).run objects
    clearVECIMap rest objects

/-- `dropEnum`.  The name is looked up without a check whether it is there. -/
def dropEnum (cs : EnumConstMaps) (enumId : Nat) : Option EnumConstMaps :=
  match cs.iddEnumName.lookup enumId with
  | none => some cs
  | some enumName => do
    let _ ← cs.enumNameIdd.lookup enumName
    let _ ← cs.iddSeci.lookup enumId
    let veci ← cs.iddVeci.lookup enumId
    let objects ← clearVECIMap veci.entries cs.objects
    some
      { objects := objects
        iddEnumName := cs.iddEnumName.erase enumId
        enumNameIdd := cs.enumNameIdd.erase enumName
        iddVeci := cs.iddVeci.erase enumId
        iddSeci := cs.iddSeci.erase enumId }

/-- The second loop of `clear`. -/
def clearEnumerations : List (Sigma fun _ : Nat => AList fun _ : Int => Nat) →
    Heap EnumConstInfo → Option (Heap EnumConstInfo)
  | [], objects => some objects
  | ⟨_, veci⟩ :: rest, objects => do
    let objects ← clearVECIMap veci.entries objects
    clearEnumerations rest objects

/-- `clear`. -/
def clear (cs : EnumConstMaps) : Option EnumConstMaps := do
  let objects ← clearEnumerations cs.iddVeci.entries cs.objects
  some ⟨objects, ∅, ∅, ∅, ∅⟩

/-- A constant behind a pointer that a map may have. -/
def behind (cs : EnumConstMaps) : Option Nat → Option (Option EnumConstInfo)
  | none => some none
  | some pECI => (cs.objects.cell pECI).map some

/-- `find(enum_id, enum_const_name)`. -/
def find (cs : EnumConstMaps) (enumId : Nat) (enumConstName : String) :
    Option (Option EnumConstInfo) :=
  cs.behind ((cs.iddSeci.lookup enumId).bind fun seci => seci.lookup enumConstName)

/-- `find(enum_id, enum_const_value)`. -/
def findValue (cs : EnumConstMaps) (enumId : Nat) (enumConstValue : Int) :
    Option (Option EnumConstInfo) :=
  cs.behind ((cs.iddVeci.lookup enumId).bind fun veci => veci.lookup enumConstValue)

/-- The loop of `getDefault`, over what is left of `VECI`: the first constant that is the default, and
the value that it is under. -/
def getDefaultLoop (objects : Heap EnumConstInfo) :
    List (Sigma fun _ : Int => Nat) → Option (Option (Int × EnumConstInfo))
  | [] => some none
  | ⟨v, pECI⟩ :: rest => do
    let o ← objects.cell pECI
    if o.isDefault then some (some (v, o)) else getDefaultLoop objects rest

/-- Where the loop of `getDefault` stops.  A `std::map` is gone through in the order of its keys. -/
def firstDefault (cs : EnumConstMaps) (enumId : Nat) : Option (Option (Int × EnumConstInfo)) :=
  match cs.iddVeci.lookup enumId with
  | none => some none
  | some veci =>
    getDefaultLoop cs.objects (veci.entries.insertionSort fun a b => a.1 ≤ b.1)

/-- `getDefault(enum_id)`. -/
def getDefault (cs : EnumConstMaps) (enumId : Nat) : Option (Option EnumConstInfo) :=
  (cs.firstDefault enumId).map fun found => found.map Prod.snd

/-! ## 2. What the cache is for -/

/-- The value of each constant and whether it is the default, and the names of enumerations. -/
structure Contents where
  consts : Nat → String → Option (Int × Bool)
  enumName : Nat → Option String
  nameId : String → Option Nat

/-- The constants have the names and the values that the two maps say. -/
structure Represents (cs : EnumConstMaps) (A : Contents) : Prop where
  byName : ∀ enumId n,
    cs.find enumId n = some ((A.consts enumId n).map fun x => ⟨n, x.1, x.2⟩)
  byValue : ∀ enumId v, ∃ r, cs.findValue enumId v = some r ∧
    ∀ c, r = some c ↔ c.value = v ∧ A.consts enumId c.name = some (c.value, c.isDefault)

/-- Then a constant is found by its name exactly if it is found by its value. -/
theorem Represents.find_iff {cs : EnumConstMaps} {A : Contents} (h : Represents cs A)
    (enumId : Nat) (c : EnumConstInfo) :
    cs.find enumId c.name = some (some c) ↔ cs.findValue enumId c.value = some (some c) := by
  obtain ⟨r, hr, hmem⟩ := h.byValue enumId c.value
  rw [h.byName, hr, Option.some.injEq, Option.some.injEq, hmem]
  cases hA : A.consts enumId c.name with
  | none => simp
  | some x =>
    obtain ⟨name, value, isDefault⟩ := c
    obtain ⟨v, d⟩ := x
    simp

/-- One step: an operation, or a group of calls of `updateValue`. -/
inductive Op where
  | addEci (enumId : Nat) (enumName : String) (eci : EnumConstInfo)
  | updateValues (calls : List (Nat × String × Int))
  | setNewDefault (enumId : Nat) (enumConstName : String)
  | drop (enumId : Nat) (enumConstName : String)
  | dropEnum (enumId : Nat)
  | clear

namespace Contents

def empty : Contents := ⟨fun _ _ => none, fun _ => none, fun _ => none⟩

def setConsts (A : Contents) (enumId : Nat) (consts : String → Option (Int × Bool)) : Contents :=
  { A with consts := Function.update A.consts enumId consts }

/-- An enumeration that is new gets its name; a name that is there stays. -/
def addEnum (A : Contents) (enumId : Nat) (enumName : String) : Contents :=
  if (A.enumName enumId).isSome then A
  else
    { A with
      enumName := Function.update A.enumName enumId (some enumName)
      nameId := Function.update A.nameId enumName ((A.nameId enumName).or (some enumId)) }

def updateValue (A : Contents) (enumId : Nat) (n : String) (v : Int) : Contents :=
  A.setConsts enumId
    (Function.update (A.consts enumId) n ((A.consts enumId n).map fun x => (v, x.2)))

def dropEnum (A : Contents) (enumId : Nat) : Contents where
  consts := Function.update A.consts enumId fun _ => none
  enumName := Function.update A.enumName enumId none
  nameId :=
    match A.enumName enumId with
    | none => A.nameId
    | some enumName => Function.update A.nameId enumName none

/-- What a step does to the contents. -/
def apply (A : Contents) : Op → Contents
  | .addEci enumId enumName eci =>
    let A := A.addEnum enumId enumName
    A.setConsts enumId
      (Function.update (A.consts enumId) eci.name (some (eci.value, eci.isDefault)))
  | .updateValues calls => calls.foldl (fun A u => A.updateValue u.1 u.2.1 u.2.2) A
  | .setNewDefault enumId n =>
    A.setConsts enumId fun m => (A.consts enumId m).map fun x => (x.1, m == n)
  | .drop enumId n => A.setConsts enumId (Function.update (A.consts enumId) n none)
  | .dropEnum enumId => A.dropEnum enumId
  | .clear => empty

/-- No two constants of an enumeration have the same value. -/
def Distinct (A : Contents) : Prop := ∀ enumId n m v d e, A.consts enumId n = some (v, d) →
  A.consts enumId m = some (v, e) → n = m

/-- What is promised of a step: a name that is added is new, and values are distinct after it. -/
def Allows (A : Contents) (op : Op) : Prop :=
  (∀ enumId enumName eci, op = .addEci enumId enumName eci → A.consts enumId eci.name = none) ∧
    (A.apply op).Distinct

/-- A call of `updateValue` gives no constant the value of another. -/
def Free (A : Contents) (enumId : Nat) (n : String) (v : Int) : Prop :=
  A.consts enumId n ≠ none → ∀ m, m ≠ n → ∀ d, A.consts enumId m ≠ some (v, d)

/-- ...and none in the group does, when its turn comes. -/
def FreeAll (A : Contents) : List (Nat × String × Int) → Prop
  | [] => True
  | u :: calls => A.Free u.1 u.2.1 u.2.2 ∧ (A.updateValue u.1 u.2.1 u.2.2).FreeAll calls

/-- Where a step is safe. -/
def Safe (A : Contents) : Op → Prop
  | .updateValues calls => A.FreeAll calls
  | .dropEnum enumId => ∀ enumName, A.enumName enumId = some enumName → A.nameId enumName ≠ none
  | _ => True

end Contents

/-- The calls of a group, one after the other. -/
def updateValues (cs : EnumConstMaps) (calls : List (Nat × String × Int)) :
    Option EnumConstMaps :=
  calls.foldlM (fun cs u => cs.updateValue u.1 u.2.1 u.2.2) cs

def apply (cs : EnumConstMaps) : Op → Option EnumConstMaps
  | .addEci enumId enumName eci => (cs.addEci enumId enumName eci).map Prod.snd
  | .updateValues calls => cs.updateValues calls
  | .setNewDefault enumId n => cs.setNewDefault enumId n
  | .drop enumId n => cs.drop enumId n
  | .dropEnum enumId => cs.dropEnum enumId
  | .clear => cs.clear

/-- The cache after some steps, if no assertion fires and no dangling pointer is used. -/
def run (ops : List Op) : Option EnumConstMaps := ops.foldlM apply empty

/-- The contents after some steps. -/
def contents (ops : List Op) : Contents := ops.foldl Contents.apply Contents.empty

/-! ## 3. One enumeration -/

/-- `SECI` has the constants `A` and no other, and `VECI` has the same objects at their values. -/
structure Mirrors (c : EnumConstCache) (A : String → Option (Int × Bool)) : Prop where
  named : ∀ n v d, A n = some (v, d) → ∃ p, c.seci.lookup n = some p ∧
    c.objects.cell p = some ⟨n, v, d⟩ ∧ c.veci.lookup v = some p
  absent : ∀ n, A n = none → c.seci.lookup n = none
  valued : ∀ v p, c.veci.lookup v = some p → ∃ n d, A n = some (v, d) ∧ c.seci.lookup n = some p

/-- An operation leads to the constants `A'`, and touches objects of its own or new ones. -/
structure Steps (c c' : EnumConstCache) (A' : String → Option (Int × Bool)) : Prop where
  mirrors : Mirrors c' A'
  frame : ∀ p o, c.objects.cell p = some o → (∀ n, c.seci.lookup n ≠ some p) →
    c'.objects.cell p = some o
  owned : ∀ n p, c'.seci.lookup n = some p → c.seci.lookup n = some p ∨ c.objects.next ≤ p

section Enumeration

variable {c : EnumConstCache} {A : String → Option (Int × Bool)}

theorem Mirrors.of_lookup (h : Mirrors c A) {n : String} {p : Nat}
    (hp : c.seci.lookup n = some p) : ∃ v d, A n = some (v, d) ∧
      c.objects.cell p = some ⟨n, v, d⟩ ∧ c.veci.lookup v = some p := by
  cases hA : A n with
  | none =>
    rw [h.absent n hA] at hp
    cases hp
  | some x =>
    obtain ⟨q, hq, hcell, hveci⟩ := h.named n x.1 x.2 hA
    rw [hp, Option.some.injEq] at hq
    subst hq
    exact ⟨x.1, x.2, rfl, hcell, hveci⟩

/-- An object has one name. -/
theorem Mirrors.name_eq (h : Mirrors c A) {n m : String} {p : Nat}
    (hn : c.seci.lookup n = some p) (hm : c.seci.lookup m = some p) : n = m := by
  obtain ⟨v, d, -, hcell, -⟩ := h.of_lookup hn
  obtain ⟨w, e, -, hcell', -⟩ := h.of_lookup hm
  rw [hcell, Option.some.injEq, EnumConstInfo.mk.injEq] at hcell'
  exact hcell'.1

theorem Mirrors.distinct (h : Mirrors c A) {n m : String} {v : Int} {d e : Bool}
    (hn : A n = some (v, d)) (hm : A m = some (v, e)) : n = m := by
  obtain ⟨p, hp, -, hveci⟩ := h.named n v d hn
  obtain ⟨q, hq, -, hveci'⟩ := h.named m v e hm
  rw [hveci, Option.some.injEq] at hveci'
  subst hveci'
  exact h.name_eq hp hq

theorem mirrors_empty (objects : Heap EnumConstInfo) :
    Mirrors ⟨objects, ∅, ∅⟩ fun _ => none where
  named := by
    intro n v d hA
    cases hA
  absent := fun _ _ => AList.lookup_empty _
  valued := by
    intro v p hp
    cases hp

/-- `addEci` of a constant whose name and value are new. -/
theorem Mirrors.addEci (h : Mirrors c A) {eci : EnumConstInfo} (hname : A eci.name = none)
    (hvalue : ∀ n d, A n ≠ some (eci.value, d)) :
    ∃ c', c.addEci eci = some (true, c') ∧
      Steps c c' (Function.update A eci.name (some (eci.value, eci.isDefault))) := by
  have hveci : c.veci.lookup eci.value = none := by
    cases hv : c.veci.lookup eci.value with
    | none => rfl
    | some p =>
      obtain ⟨n, d, hA, -⟩ := h.valued _ _ hv
      exact absurd hA (hvalue n d)
  have hseci := h.absent _ hname
  have hold : ∀ {n p}, c.seci.lookup n = some p → p ≠ c.objects.next := by
    intro n p hp
    obtain ⟨v, d, -, hcell, -⟩ := h.of_lookup hp
    exact Nat.ne_of_lt (Heap.lt_next hcell)
  refine ⟨c.added eci, ?_, ⟨⟨?_, ?_, ?_⟩, ?_, ?_⟩⟩
  · rw [EnumConstCache.addEci, hveci, hseci]
  · intro n v d hA
    by_cases hn : n = eci.name
    · rw [hn, Function.update_self, Option.some.injEq, Prod.mk.injEq] at hA
      obtain ⟨rfl, rfl⟩ := hA
      refine ⟨c.objects.next, ?_, ?_, ?_⟩
      · rw [hn]
        exact AList.lookup_insert _
      · rw [hn]
        exact Heap.cell_alloc_self _ _
      · exact AList.lookup_insert _
    · rw [Function.update_of_ne hn] at hA
      obtain ⟨p, hp, hcell, hv⟩ := h.named n v d hA
      have hne : v ≠ eci.value := by
        rintro rfl
        exact hvalue n d hA
      refine ⟨p, ?_, Heap.cell_alloc hcell _, ?_⟩
      · exact (AList.lookup_insert_ne hn).trans hp
      · exact (AList.lookup_insert_ne hne).trans hv
  · intro n hA
    by_cases hn : n = eci.name
    · rw [hn, Function.update_self] at hA
      cases hA
    · rw [Function.update_of_ne hn] at hA
      exact (AList.lookup_insert_ne hn).trans (h.absent n hA)
  · intro v p hp
    by_cases hv : v = eci.value
    · rw [hv] at hp
      change (c.veci.insert eci.value c.objects.next).lookup eci.value = some p at hp
      rw [AList.lookup_insert, Option.some.injEq] at hp
      refine ⟨eci.name, eci.isDefault, ?_, ?_⟩
      · rw [Function.update_self, hv]
      · rw [← hp]
        exact AList.lookup_insert _
    · change (c.veci.insert eci.value c.objects.next).lookup v = some p at hp
      rw [AList.lookup_insert_ne hv] at hp
      obtain ⟨n, d, hA, hn⟩ := h.valued v p hp
      have hne : n ≠ eci.name := by
        rintro rfl
        rw [hname] at hA
        cases hA
      refine ⟨n, d, ?_, (AList.lookup_insert_ne hne).trans hn⟩
      rw [Function.update_of_ne hne]
      exact hA
  · intro p o hp _
    exact Heap.cell_alloc hp _
  · intro n p hp
    by_cases hn : n = eci.name
    · change (c.seci.insert eci.name c.objects.next).lookup n = some p at hp
      rw [hn, AList.lookup_insert, Option.some.injEq] at hp
      exact .inr (Nat.le_of_eq hp)
    · change (c.seci.insert eci.name c.objects.next).lookup n = some p at hp
      rw [AList.lookup_insert_ne hn] at hp
      exact .inl hp

theorem Steps.refl (h : Mirrors c A) : Steps c c A where
  mirrors := h
  frame := fun _ _ hp _ => hp
  owned := fun _ _ hp => .inl hp

/-- `updateValue` to a value that no other constant has. -/
theorem Mirrors.updateValue (h : Mirrors c A) {n : String} {v : Int}
    (hfree : A n ≠ none → ∀ m, m ≠ n → ∀ d, A m ≠ some (v, d)) :
    ∃ c', c.updateValue n v = some c' ∧
      Steps c c' (Function.update A n ((A n).map fun x => (v, x.2))) := by
  cases hA : A n with
  | none =>
    refine ⟨c, ?_, ?_⟩
    · rw [EnumConstCache.updateValue, h.absent n hA]
    · rw [Option.map_none, ← hA, Function.update_eq_self]
      exact Steps.refl h
  | some x =>
    obtain ⟨old, d⟩ := x
    obtain ⟨p, hp, hcell, hveci⟩ := h.named n old d hA
    have hother : ∀ m, m ≠ n → ∀ d, A m ≠ some (v, d) := hfree (by rw [hA]; simp)
    have hlt := Heap.lt_next hcell
    have hnone : (c.veci.erase old).lookup v = none := by
      by_cases hv : v = old
      · rw [hv]
        exact AList.lookup_erase old c.veci
      · rw [AList.lookup_erase_ne hv]
        cases hq : c.veci.lookup v with
        | none => rfl
        | some q =>
          obtain ⟨m, e, hm, -⟩ := h.valued v q hq
          by_cases hmn : m = n
          · rw [hmn, hA, Option.some.injEq, Prod.mk.injEq] at hm
            exact absurd hm.1.symm hv
          · exact absurd hm (hother m hmn e)
    have hinsert : EnumConstCache.insertNew (c.veci.erase old) v p =
        (c.veci.erase old).insert v p := by
      rw [EnumConstCache.insertNew, hnone]
    refine ⟨c.updated ⟨n, old, d⟩ v p hlt, ?_, ⟨⟨?_, ?_, ?_⟩, ?_, ?_⟩⟩
    · simp only [EnumConstCache.updateValue, hp, hcell, Heap.write, Heap.run_assign hcell, hveci,
        Option.bind_eq_bind, Option.bind_some]
      rfl
    · intro m w e hm
      by_cases hmn : m = n
      · rw [hmn, Function.update_self, Option.map_some, Option.some.injEq, Prod.mk.injEq] at hm
        obtain ⟨rfl, rfl⟩ := hm
        refine ⟨p, ?_, ?_, ?_⟩
        · rw [hmn]
          exact hp
        · rw [hmn]
          exact Heap.cell_set_self c.objects _ hlt
        · change (EnumConstCache.insertNew (c.veci.erase old) v p).lookup v = _
          rw [hinsert, AList.lookup_insert]
      · rw [Function.update_of_ne hmn] at hm
        obtain ⟨q, hq, hcellq, hveciq⟩ := h.named m w e hm
        have hqp : q ≠ p := by
          rintro rfl
          exact hmn (h.name_eq hq hp)
        have hwv : w ≠ v := by
          rintro rfl
          exact hother m hmn e hm
        have hwold : w ≠ old := by
          rintro rfl
          exact hmn (h.distinct hm hA)
        refine ⟨q, hq, (Heap.cell_set _ _ hlt hqp).trans hcellq, ?_⟩
        change (EnumConstCache.insertNew (c.veci.erase old) v p).lookup w = _
        rw [hinsert, AList.lookup_insert_ne hwv, AList.lookup_erase_ne hwold, hveciq]
    · intro m hm
      by_cases hmn : m = n
      · rw [hmn, Function.update_self] at hm
        cases hm
      · rw [Function.update_of_ne hmn] at hm
        exact h.absent m hm
    · intro w q hq
      change (EnumConstCache.insertNew (c.veci.erase old) v p).lookup w = some q at hq
      rw [hinsert] at hq
      by_cases hwv : w = v
      · rw [hwv, AList.lookup_insert, Option.some.injEq] at hq
        refine ⟨n, d, ?_, ?_⟩
        · rw [Function.update_self, hwv]
          rfl
        · rw [← hq]
          exact hp
      · rw [AList.lookup_insert_ne hwv] at hq
        have hwold : w ≠ old := by
          rintro rfl
          rw [AList.lookup_erase] at hq
          cases hq
        rw [AList.lookup_erase_ne hwold] at hq
        obtain ⟨m, e, hm, hmq⟩ := h.valued w q hq
        have hmn : m ≠ n := by
          rintro rfl
          rw [hA, Option.some.injEq, Prod.mk.injEq] at hm
          exact hwold hm.1.symm
        refine ⟨m, e, ?_, hmq⟩
        rw [Function.update_of_ne hmn]
        exact hm
    · intro q o hcellq hq
      refine (Heap.cell_set _ _ hlt ?_).trans hcellq
      rintro rfl
      exact hq n hp
    · exact fun _ _ hq => .inl hq

/-- `drop`. -/
theorem Mirrors.drop (h : Mirrors c A) (n : String) :
    ∃ c', c.drop n = some c' ∧ Steps c c' (Function.update A n none) := by
  cases hA : A n with
  | none =>
    refine ⟨c, ?_, ?_⟩
    · rw [EnumConstCache.drop, h.absent n hA]
    · rw [← hA, Function.update_eq_self]
      exact Steps.refl h
  | some x =>
    obtain ⟨old, d⟩ := x
    obtain ⟨p, hp, hcell, hveci⟩ := h.named n old d hA
    have hlt := Heap.lt_next hcell
    refine ⟨c.dropped ⟨n, old, d⟩ p hlt, ?_, ⟨⟨?_, ?_, ?_⟩, ?_, ?_⟩⟩
    · simp only [EnumConstCache.drop, hp, hcell, hveci, Heap.delete, Heap.run_assign hcell,
        Option.bind_eq_bind, Option.bind_some]
      rfl
    · intro m w e hm
      have hmn : m ≠ n := by
        rintro rfl
        rw [Function.update_self] at hm
        cases hm
      rw [Function.update_of_ne hmn] at hm
      obtain ⟨q, hq, hcellq, hveciq⟩ := h.named m w e hm
      have hqp : q ≠ p := by
        rintro rfl
        exact hmn (h.name_eq hq hp)
      have hwold : w ≠ old := by
        rintro rfl
        exact hmn (h.distinct hm hA)
      exact ⟨q, (AList.lookup_erase_ne hmn).trans hq, (Heap.cell_set _ _ hlt hqp).trans hcellq,
        (AList.lookup_erase_ne hwold).trans hveciq⟩
    · intro m hm
      by_cases hmn : m = n
      · rw [hmn]
        exact AList.lookup_erase _ _
      · rw [Function.update_of_ne hmn] at hm
        exact (AList.lookup_erase_ne hmn).trans (h.absent m hm)
    · intro w q hq
      change (c.veci.erase old).lookup w = some q at hq
      have hwold : w ≠ old := by
        rintro rfl
        rw [AList.lookup_erase] at hq
        cases hq
      rw [AList.lookup_erase_ne hwold] at hq
      obtain ⟨m, e, hm, hmq⟩ := h.valued w q hq
      have hmn : m ≠ n := by
        rintro rfl
        rw [hA, Option.some.injEq, Prod.mk.injEq] at hm
        exact hwold hm.1.symm
      refine ⟨m, e, ?_, (AList.lookup_erase_ne hmn).trans hmq⟩
      rw [Function.update_of_ne hmn]
      exact hm
    · intro q o hcellq hq
      refine (Heap.cell_set _ _ hlt ?_).trans hcellq
      rintro rfl
      exact hq n hp
    · intro m q hq
      change (c.seci.erase n).lookup m = some q at hq
      have hmn : m ≠ n := by
        rintro rfl
        rw [AList.lookup_erase] at hq
        cases hq
      rw [AList.lookup_erase_ne hmn] at hq
      exact .inl hq

/-- `setNewDefault`. -/
theorem Mirrors.setNewDefault (h : Mirrors c A) (n : String) :
    ∃ c', c.setNewDefault n = some c' ∧
      Steps c c' fun m => (A m).map fun x => (x.1, m == n) := by
  have hmem : ∀ {m p}, c.seci.lookup m = some p ↔ (⟨m, p⟩ : Sigma fun _ => Nat) ∈ c.seci.entries :=
    AList.mem_lookup_iff
  obtain ⟨objects, hrun, hcells⟩ := EnumState.setNewDefaultLoop_spec n c.seci.entries c.objects
    fun e he => by
      obtain ⟨v, d, -, hcell, -⟩ := h.of_lookup (hmem.mpr he)
      exact ⟨_, hcell⟩
  have hown : ∀ p, p ∈ c.seci.entries.map (·.2) ↔ ∃ m, c.seci.lookup m = some p := by
    intro p
    rw [List.mem_map]
    constructor
    · rintro ⟨⟨m, q⟩, he, rfl⟩
      exact ⟨m, hmem.mpr he⟩
    · rintro ⟨m, hm⟩
      exact ⟨⟨m, p⟩, hmem.mp hm, rfl⟩
  refine ⟨{ c with objects := objects }, ?_, ⟨⟨?_, ?_, ?_⟩, ?_, ?_⟩⟩
  · rw [EnumConstCache.setNewDefault, hrun]
    rfl
  · intro m v d hA
    cases hm : A m with
    | none =>
      rw [hm] at hA
      cases hA
    | some x =>
      rw [hm, Option.map_some, Option.some.injEq, Prod.mk.injEq] at hA
      obtain ⟨rfl, rfl⟩ := hA
      obtain ⟨p, hp, hcell, hv⟩ := h.named m x.1 x.2 hm
      refine ⟨p, hp, ?_, hv⟩
      rw [hcells p _ hcell, if_pos ((hown p).mpr ⟨m, hp⟩)]
      rfl
  · intro m hA
    rw [Option.map_eq_none_iff] at hA
    exact h.absent m hA
  · intro v p hp
    obtain ⟨m, d, hm, hseci⟩ := h.valued v p hp
    exact ⟨m, m == n, by rw [hm]; rfl, hseci⟩
  · intro p o hcell hp
    rw [hcells p o hcell, if_neg]
    exact fun hmemp => by
      obtain ⟨m, hm⟩ := (hown p).mp hmemp
      exact hp m hm
  · exact fun _ _ hp => .inl hp

/-- The objects of `VECI`, each of them once. -/
theorem Mirrors.pointers (h : Mirrors c A) :
    (∀ e ∈ c.veci.entries, ∃ o, c.objects.cell e.2 = some o) ∧
      (c.veci.entries.map (·.2)).Nodup ∧
      ∀ p ∈ c.veci.entries.map (·.2), ∃ n, c.seci.lookup n = some p := by
  have hmem : ∀ {v p}, c.veci.lookup v = some p ↔ (⟨v, p⟩ : Sigma fun _ => Nat) ∈ c.veci.entries :=
    AList.mem_lookup_iff
  have hvalued : ∀ e ∈ c.veci.entries, ∃ n d, A n = some (e.1, d) ∧ c.seci.lookup n = some e.2 :=
    fun e he => h.valued e.1 e.2 (hmem.mpr he)
  refine ⟨fun e he => ?_, ?_, fun p hp => ?_⟩
  · obtain ⟨n, d, -, hseci⟩ := hvalued e he
    obtain ⟨v, d, -, hcell, -⟩ := h.of_lookup hseci
    exact ⟨_, hcell⟩
  · have hnodup : c.veci.entries.Nodup := List.Nodup.of_map Sigma.fst c.veci.nodupKeys
    refine (List.nodup_map_iff_inj_on hnodup).mpr fun e he f hf heq => ?_
    obtain ⟨n, d, hn, hp⟩ := hvalued e he
    obtain ⟨m, d', hm, hq⟩ := hvalued f hf
    rw [heq] at hp
    have hnm := h.name_eq hp hq
    rw [hnm, hm, Option.some.injEq, Prod.mk.injEq] at hn
    obtain ⟨v, p⟩ := e
    obtain ⟨w, q⟩ := f
    dsimp only at hn heq
    rw [hn.1, heq]
  · obtain ⟨e, he, rfl⟩ := List.mem_map.mp hp
    obtain ⟨n, d, -, hseci⟩ := hvalued e he
    exact ⟨n, hseci⟩

end Enumeration

/-- Objects that are there, each once, are freed, by induction on the entries. -/
theorem clearVECIMap_eq : ∀ {l : List (Sigma fun _ : Int => Nat)} (objects : Heap EnumConstInfo),
    (∀ e ∈ l, ∃ o, objects.cell e.2 = some o) → (l.map (·.2)).Nodup →
      ∃ objects', clearVECIMap l objects = some objects' ∧
        ∀ p, p ∉ l.map (·.2) → objects'.cell p = objects.cell p := by
  intro l
  induction l with
  | nil => exact fun _ _ _ => ⟨_, rfl, fun _ _ => rfl⟩
  | cons e l ih =>
    intro objects halive hnodup
    rw [List.map_cons, List.nodup_cons] at hnodup
    obtain ⟨o, ho⟩ := halive e List.mem_cons_self
    have hother : ∀ p, p ≠ e.2 → (objects.set e.2 none (Heap.lt_next ho)).cell p = objects.cell p :=
      fun p hp => Heap.cell_set _ _ _ hp
    obtain ⟨objects', hrun, hcells⟩ := ih (objects.set e.2 none (Heap.lt_next ho))
      (fun f hf => by
        obtain ⟨o', ho'⟩ := halive f (List.mem_cons_of_mem _ hf)
        have hne : f.2 ≠ e.2 := fun heq => hnodup.1 (heq ▸ List.mem_map_of_mem hf)
        exact ⟨o', (hother _ hne).trans ho'⟩) hnodup.2
    refine ⟨objects', ?_, fun p hp => ?_⟩
    · obtain ⟨v, q⟩ := e
      rw [clearVECIMap, Heap.delete, Heap.run_assign ho]
      exact hrun
    · rw [List.map_cons, List.mem_cons, not_or] at hp
      rw [hcells p hp.2, hother p hp.1]

/-! ## 4. All enumerations -/

/-- The two maps of an enumeration, on the common heap. -/
def IsEnumeration (cs : EnumConstMaps) (enumId : Nat) (c : EnumConstCache) : Prop :=
  c.objects = cs.objects ∧ cs.iddVeci.lookup enumId = some c.veci ∧
    cs.iddSeci.lookup enumId = some c.seci

/-- **The invariant.**  An enumeration is in all maps or in none, and no object belongs to two. -/
structure Holds (cs : EnumConstMaps) (A : Contents) : Prop where
  names : ∀ enumId, cs.iddEnumName.lookup enumId = A.enumName enumId
  ids : ∀ enumName, cs.enumNameIdd.lookup enumName = A.nameId enumName
  cached : ∀ enumId, A.enumName enumId ≠ none →
    ∃ c, cs.IsEnumeration enumId c ∧ Mirrors c (A.consts enumId)
  absent : ∀ enumId, A.enumName enumId = none → cs.iddVeci.lookup enumId = none ∧
    cs.iddSeci.lookup enumId = none ∧ ∀ n, A.consts enumId n = none
  apart : ∀ i j c d n m p, cs.IsEnumeration i c → cs.IsEnumeration j d →
    c.seci.lookup n = some p → d.seci.lookup m = some p → i = j

section Enumerations

variable {cs : EnumConstMaps} {A : Contents} {enumId : Nat}

theorem IsEnumeration.eq {c d : EnumConstCache} (hc : cs.IsEnumeration enumId c)
    (hd : cs.IsEnumeration enumId d) : c = d := by
  obtain ⟨hc₁, hc₂, hc₃⟩ := hc
  obtain ⟨hd₁, hd₂, hd₃⟩ := hd
  rw [hc₂, Option.some.injEq] at hd₂
  rw [hc₃, Option.some.injEq] at hd₃
  obtain ⟨objects, veci, seci⟩ := c
  obtain ⟨objects', veci', seci'⟩ := d
  dsimp only at hc₁ hd₁ hd₂ hd₃
  rw [hc₁, hd₁, hd₂, hd₃]

theorem holds_empty : Holds empty Contents.empty where
  names := fun _ => AList.lookup_empty _
  ids := fun _ => AList.lookup_empty _
  cached := fun _ h => absurd rfl h
  absent := fun _ _ => ⟨AList.lookup_empty _, AList.lookup_empty _, fun _ => rfl⟩
  apart := by
    intro i j c d n m p hc
    cases hc.2.1

/-- What is found is what the cache is for. -/
theorem Holds.represents (h : Holds cs A) : Represents cs A where
  byName := by
    intro enumId n
    rw [find]
    cases hname : A.enumName enumId with
    | none =>
      obtain ⟨-, hseci, hconsts⟩ := h.absent enumId hname
      rw [hseci, hconsts]
      rfl
    | some enumName =>
      obtain ⟨c, ⟨hobjects, -, hseci⟩, hc⟩ := h.cached enumId (by rw [hname]; simp)
      rw [hseci, Option.bind_some]
      cases hA : A.consts enumId n with
      | none =>
        rw [hc.absent n hA]
        rfl
      | some x =>
        obtain ⟨p, hp, hcell, -⟩ := hc.named n x.1 x.2 hA
        rw [hp, behind, ← hobjects, hcell]
        rfl
  byValue := by
    intro enumId v
    rw [findValue]
    cases hname : A.enumName enumId with
    | none =>
      obtain ⟨hveci, -, hconsts⟩ := h.absent enumId hname
      refine ⟨none, by rw [hveci]; rfl, fun c => ?_⟩
      rw [hconsts]
      simp
    | some enumName =>
      obtain ⟨c, ⟨hobjects, hveci, -⟩, hc⟩ := h.cached enumId (by rw [hname]; simp)
      rw [hveci, Option.bind_some]
      cases hv : c.veci.lookup v with
      | none =>
        refine ⟨none, rfl, fun o => ?_⟩
        simp only [reduceCtorEq, false_iff, not_and]
        rintro rfl hA
        obtain ⟨p, -, -, hp⟩ := hc.named _ _ _ hA
        rw [hv] at hp
        cases hp
      | some p =>
        obtain ⟨n, d, hA, hseci⟩ := hc.valued v p hv
        obtain ⟨w, e, hA', hcell, -⟩ := hc.of_lookup hseci
        rw [hA, Option.some.injEq, Prod.mk.injEq] at hA'
        obtain ⟨rfl, rfl⟩ := hA'
        refine ⟨some ⟨n, v, d⟩, ?_, fun o => ?_⟩
        · rw [behind, ← hobjects, hcell]
          rfl
        · rw [Option.some.injEq]
          constructor
          · rintro rfl
            exact ⟨rfl, hA⟩
          · rintro ⟨rfl, ho⟩
            have hn := hc.distinct hA ho
            rw [← hn, hA, Option.some.injEq, Prod.mk.injEq] at ho
            obtain ⟨name, value, isDefault⟩ := o
            dsimp only at hn ho
            rw [hn, ho.2]

/-- **One enumeration takes a step**, and the others do not notice. -/
theorem Holds.setEnumeration (h : Holds cs A) {c c' : EnumConstCache}
    {A' : String → Option (Int × Bool)} (hname : A.enumName enumId ≠ none)
    (hc : cs.IsEnumeration enumId c) (hstep : Steps c c' A') :
    Holds (cs.setEnumeration enumId c') (A.setConsts enumId A') := by
  have hself : (cs.setEnumeration enumId c').IsEnumeration enumId c' :=
    ⟨rfl, AList.lookup_insert _, AList.lookup_insert _⟩
  -- Another enumeration has the maps that it had before.
  have hother : ∀ {i d}, i ≠ enumId → (cs.setEnumeration enumId c').IsEnumeration i d →
      cs.IsEnumeration i { d with objects := cs.objects } := by
    rintro i d hi ⟨-, hv, hs⟩
    change (cs.iddVeci.insert enumId c'.veci).lookup i = _ at hv
    change (cs.iddSeci.insert enumId c'.seci).lookup i = _ at hs
    rw [AList.lookup_insert_ne hi] at hv hs
    exact ⟨rfl, hv, hs⟩
  have halive : ∀ {i d n p}, cs.IsEnumeration i d → d.seci.lookup n = some p →
      ∃ o, cs.objects.cell p = some o := by
    intro i d n p hd hp
    have hcached : A.enumName i ≠ none := by
      intro hnone
      have hseci := hd.2.2
      rw [(h.absent i hnone).2.1] at hseci
      cases hseci
    obtain ⟨d', hd', hmirrors⟩ := h.cached i hcached
    rw [hd.eq hd'] at hp
    obtain ⟨v, e, -, hcell, -⟩ := hmirrors.of_lookup hp
    rw [hd'.1] at hcell
    exact ⟨_, hcell⟩
  refine ⟨h.names, h.ids, fun i hi => ?_, fun i hi => ?_, ?_⟩
  · by_cases hne : i = enumId
    · subst hne
      refine ⟨c', hself, ?_⟩
      change Mirrors c' (Function.update A.consts i A' i)
      rw [Function.update_self]
      exact hstep.mirrors
    · obtain ⟨d, hd, hmirrors⟩ := h.cached i hi
      refine ⟨{ d with objects := c'.objects }, ⟨rfl, ?_, ?_⟩, ?_⟩
      · exact (AList.lookup_insert_ne hne).trans hd.2.1
      · exact (AList.lookup_insert_ne hne).trans hd.2.2
      · change Mirrors _ (Function.update A.consts enumId A' i)
        rw [Function.update_of_ne hne]
        refine ⟨fun n v e hA => ?_, hmirrors.absent, hmirrors.valued⟩
        obtain ⟨p, hp, hcell, hv⟩ := hmirrors.named n v e hA
        refine ⟨p, hp, hstep.frame p _ ?_ fun m hm => ?_, hv⟩
        · rw [hc.1, ← hd.1]
          exact hcell
        · exact hne (h.apart i enumId d c n m p hd hc hp hm)
  · have hne : i ≠ enumId := by
      rintro rfl
      exact hname hi
    obtain ⟨hv, hs, hA⟩ := h.absent i hi
    refine ⟨(AList.lookup_insert_ne hne).trans hv, (AList.lookup_insert_ne hne).trans hs, ?_⟩
    intro n
    change Function.update A.consts enumId A' i n = none
    rw [Function.update_of_ne hne]
    exact hA n
  · have hcross : ∀ {j d n m p}, j ≠ enumId → (cs.setEnumeration enumId c').IsEnumeration j d →
        c'.seci.lookup n = some p → d.seci.lookup m ≠ some p := by
      intro j d n m p hj hd hp hm
      have hd' := hother hj hd
      rcases hstep.owned n p hp with hold | hnew
      · exact hj (h.apart j enumId _ c m n p hd' hc hm hold)
      · obtain ⟨o, ho⟩ := halive hd' hm
        have hlt := Heap.lt_next ho
        rw [hc.1] at hnew
        omega
    intro i j d e n m p hd he hn hm
    by_cases hi : i = enumId
    · by_cases hj : j = enumId
      · rw [hi, hj]
      · subst hi
        rw [hd.eq hself] at hn
        exact absurd hm (hcross hj he hn)
    · by_cases hj : j = enumId
      · subst hj
        rw [he.eq hself] at hm
        exact absurd hn (hcross hi hd hm)
      · exact h.apart i j _ _ n m p (hother hi hd) (hother hj he) hn hm

/-- A step of an enumeration that need not be there. -/
theorem Holds.inEnumeration (h : Holds cs A) {f : EnumConstCache → Option EnumConstCache}
    {A' : String → Option (Int × Bool)}
    (hf : ∀ c, Mirrors c (A.consts enumId) → ∃ c', f c = some c' ∧ Steps c c' A')
    (hnone : (∀ n, A.consts enumId n = none) → A' = A.consts enumId) :
    ∃ cs', cs.inEnumeration enumId f = some cs' ∧ Holds cs' (A.setConsts enumId A') := by
  cases hname : A.enumName enumId with
  | none =>
    obtain ⟨-, hseci, hconsts⟩ := h.absent enumId hname
    refine ⟨cs, ?_, ?_⟩
    · rw [EnumConstMaps.inEnumeration, hseci]
    · rw [hnone hconsts, Contents.setConsts, Function.update_eq_self]
      exact h
  | some enumName =>
    have hcached : A.enumName enumId ≠ none := by
      rw [hname]
      simp
    obtain ⟨c, hc, hmirrors⟩ := h.cached enumId hcached
    obtain ⟨c', hrun, hstep⟩ := hf c hmirrors
    refine ⟨cs.setEnumeration enumId c', ?_, h.setEnumeration hcached hc hstep⟩
    rw [EnumConstMaps.inEnumeration, hc.2.2]
    dsimp only
    rw [hc.2.1, ← hc.1]
    change (f c).bind _ = _
    rw [hrun]
    rfl

/-! ## 5. The steps -/

theorem lookup_insertNew {κ β : Type} [DecidableEq κ] (m : AList fun _ : κ => β) (k k' : κ)
    (b : β) : (insertNew m k b).lookup k' =
      if k' = k then (m.lookup k).or (some b) else m.lookup k' := by
  rw [insertNew]
  cases hk : m.lookup k with
  | none =>
    by_cases hne : k' = k
    · rw [hne, if_pos rfl]
      exact AList.lookup_insert _
    · rw [if_neg hne]
      exact AList.lookup_insert_ne hne
  | some b' =>
    by_cases hne : k' = k
    · rw [hne, if_pos rfl]
      exact hk
    · rw [if_neg hne]

/-- `addEnum`, where the enumeration is new. -/
theorem Holds.addEnum (h : Holds cs A) (enumId : Nat) (enumName : String) :
    Holds (cs.addEnum enumId enumName) (A.addEnum enumId enumName) ∧
      (A.addEnum enumId enumName).enumName enumId ≠ none ∧
      (A.addEnum enumId enumName).consts = A.consts := by
  rw [EnumConstMaps.addEnum, Contents.addEnum, hasEnum, h.names]
  cases hname : A.enumName enumId with
  | some e =>
    simp only [Option.isSome_some, if_true]
    exact ⟨h, by rw [hname]; simp, trivial⟩
  | none =>
    obtain ⟨hveci, hseci, hconsts⟩ := h.absent enumId hname
    simp only [Option.isSome_none, Bool.false_eq_true, if_false]
    refine ⟨⟨fun i => ?_, fun e => ?_, fun i hi => ?_, fun i hi => ?_, ?_⟩, ?_, trivial⟩
    · dsimp only
      rw [lookup_insertNew, h.names, hname]
      by_cases hi : i = enumId
      · rw [if_pos hi, hi, Function.update_self]
        rfl
      · rw [if_neg hi, Function.update_of_ne hi, h.names]
    · dsimp only
      rw [lookup_insertNew, h.ids]
      by_cases he : e = enumName
      · rw [if_pos he, he, Function.update_self]
      · rw [if_neg he, Function.update_of_ne he, h.ids]
    · dsimp only at hi ⊢
      by_cases hne : i = enumId
      · subst hne
        refine ⟨⟨cs.objects, ∅, ∅⟩, ⟨rfl, ?_, ?_⟩, ?_⟩
        · rw [lookup_insertNew, if_pos rfl, hveci]
          rfl
        · rw [lookup_insertNew, if_pos rfl, hseci]
          rfl
        · have hnone : A.consts i = fun _ => none := funext hconsts
          rw [hnone]
          exact mirrors_empty _
      · rw [Function.update_of_ne hne] at hi
        obtain ⟨d, hd, hmirrors⟩ := h.cached i hi
        refine ⟨d, ⟨hd.1, ?_, ?_⟩, hmirrors⟩
        · rw [lookup_insertNew, if_neg hne]
          exact hd.2.1
        · rw [lookup_insertNew, if_neg hne]
          exact hd.2.2
    · dsimp only at hi ⊢
      have hne : i ≠ enumId := by
        rintro rfl
        rw [Function.update_self] at hi
        cases hi
      rw [Function.update_of_ne hne] at hi
      obtain ⟨hv, hs, hA⟩ := h.absent i hi
      refine ⟨?_, ?_, hA⟩
      · rw [lookup_insertNew, if_neg hne, hv]
      · rw [lookup_insertNew, if_neg hne, hs]
    · rintro i j c d n m p ⟨hc₁, hc₂, hc₃⟩ ⟨hd₁, hd₂, hd₃⟩ hn hm
      -- The new enumeration has no objects.
      have hold : ∀ {i : Nat} {e : EnumConstCache} {n : String},
          (insertNew cs.iddSeci enumId ∅).lookup i = some e.seci → e.seci.lookup n = some p →
            i ≠ enumId := by
        rintro i e n he hp rfl
        rw [lookup_insertNew, if_pos rfl, hseci, Option.none_or, Option.some.injEq] at he
        rw [← he] at hp
        cases hp
      have hi := hold hc₃ hn
      have hj := hold hd₃ hm
      dsimp only at hc₂ hc₃ hd₂ hd₃
      rw [lookup_insertNew, if_neg hi] at hc₂ hc₃
      rw [lookup_insertNew, if_neg hj] at hd₂ hd₃
      exact h.apart i j c d n m p ⟨hc₁, hc₂, hc₃⟩ ⟨hd₁, hd₂, hd₃⟩ hn hm
    · rw [Function.update_self]
      simp

theorem Holds.dropEnum (h : Holds cs A)
    (hsafe : ∀ enumName, A.enumName enumId = some enumName → A.nameId enumName ≠ none) :
    ∃ cs', cs.dropEnum enumId = some cs' ∧ Holds cs' (A.dropEnum enumId) := by
  rw [EnumConstMaps.dropEnum, Contents.dropEnum, h.names]
  cases hname : A.enumName enumId with
  | none =>
    obtain ⟨-, -, hconsts⟩ := h.absent enumId hname
    refine ⟨cs, rfl, ?_⟩
    have hsame : Function.update A.consts enumId (fun _ => none) = A.consts := by
      rw [← show A.consts enumId = fun _ => none from funext hconsts, Function.update_eq_self]
    have hname' : Function.update A.enumName enumId none = A.enumName := by
      rw [← hname, Function.update_eq_self]
    rw [hsame, hname']
    exact h
  | some enumName =>
    obtain ⟨c, hc, hmirrors⟩ := h.cached enumId (by rw [hname]; simp)
    obtain ⟨nameId, hnameId⟩ := Option.ne_none_iff_exists'.mp (hsafe enumName hname)
    obtain ⟨halive, hnodup, howned⟩ := hmirrors.pointers
    rw [hc.1] at halive
    obtain ⟨objects, hrun, hcells⟩ := clearVECIMap_eq _ halive hnodup
    refine ⟨⟨objects, cs.iddEnumName.erase enumId, cs.enumNameIdd.erase enumName,
      cs.iddVeci.erase enumId, cs.iddSeci.erase enumId⟩, ?_,
      ⟨fun i => ?_, fun e => ?_, fun i hi => ?_, fun i hi => ?_, ?_⟩⟩
    · dsimp only
      rw [h.ids, hnameId, hc.2.2, hc.2.1]
      change (clearVECIMap c.veci.entries cs.objects).bind _ = _
      rw [hrun]
      rfl
    · dsimp only
      by_cases hi : i = enumId
      · rw [hi, Function.update_self]
        exact AList.lookup_erase _ _
      · rw [Function.update_of_ne hi, ← h.names]
        exact AList.lookup_erase_ne hi
    · dsimp only
      by_cases he : e = enumName
      · rw [he, Function.update_self]
        exact AList.lookup_erase _ _
      · rw [Function.update_of_ne he, ← h.ids]
        exact AList.lookup_erase_ne he
    · dsimp only at hi ⊢
      have hne : i ≠ enumId := by
        rintro rfl
        rw [Function.update_self] at hi
        exact hi rfl
      rw [Function.update_of_ne hne] at hi ⊢
      obtain ⟨d, hd, hdmirrors⟩ := h.cached i hi
      refine ⟨{ d with objects := objects }, ⟨rfl, ?_, ?_⟩, ?_⟩
      · exact (AList.lookup_erase_ne hne).trans hd.2.1
      · exact (AList.lookup_erase_ne hne).trans hd.2.2
      · refine ⟨fun n v e hA => ?_, hdmirrors.absent, hdmirrors.valued⟩
        obtain ⟨p, hp, hcell, hv⟩ := hdmirrors.named n v e hA
        refine ⟨p, hp, (hcells p fun hmem => ?_).trans (hd.1 ▸ hcell), hv⟩
        obtain ⟨m, hm⟩ := howned p hmem
        exact hne (h.apart i enumId d c n m p hd hc hp hm)
    · dsimp only at hi ⊢
      by_cases hne : i = enumId
      · rw [hne, Function.update_self]
        exact ⟨AList.lookup_erase _ _, AList.lookup_erase _ _, fun _ => rfl⟩
      · rw [Function.update_of_ne hne] at hi ⊢
        obtain ⟨hv, hs, hA⟩ := h.absent i hi
        exact ⟨(AList.lookup_erase_ne hne).trans hv, (AList.lookup_erase_ne hne).trans hs, hA⟩
    · rintro i j d e n m p ⟨-, hd₂, hd₃⟩ ⟨-, he₂, he₃⟩ hn hm
      dsimp only at hd₂ hd₃ he₂ he₃
      have hold : ∀ {i : Nat} {seci : AList fun _ : String => Nat},
          (cs.iddSeci.erase enumId).lookup i = some seci → i ≠ enumId := by
        rintro i seci hs rfl
        rw [AList.lookup_erase] at hs
        cases hs
      have hi := hold hd₃
      have hj := hold he₃
      rw [AList.lookup_erase_ne hi] at hd₂ hd₃
      rw [AList.lookup_erase_ne hj] at he₂ he₃
      exact h.apart i j ⟨cs.objects, d.veci, d.seci⟩ ⟨cs.objects, e.veci, e.seci⟩ n m p
        ⟨rfl, hd₂, hd₃⟩ ⟨rfl, he₂, he₃⟩ hn hm

/-- The objects of several enumerations are freed, by induction on the enumerations. -/
theorem clearEnumerations_eq : ∀ {l : List (Sigma fun _ : Nat => AList fun _ : Int => Nat)}
    (objects : Heap EnumConstInfo),
    (∀ e ∈ l, ∀ f ∈ e.2.entries, ∃ o, objects.cell f.2 = some o) →
      (∀ e ∈ l, (e.2.entries.map (·.2)).Nodup) →
      l.Pairwise (fun e e' => ∀ p ∈ e.2.entries.map (·.2), p ∉ e'.2.entries.map (·.2)) →
      ∃ objects', clearEnumerations l objects = some objects' := by
  intro l
  induction l with
  | nil => exact fun _ _ _ _ => ⟨_, rfl⟩
  | cons e l ih =>
    intro objects halive hnodup hapart
    rw [List.pairwise_cons] at hapart
    obtain ⟨objects₁, hrun₁, hcells⟩ :=
      clearVECIMap_eq objects (halive e List.mem_cons_self) (hnodup e List.mem_cons_self)
    obtain ⟨objects', hrun⟩ := ih objects₁
      (fun e' he' f hf => by
        obtain ⟨o, ho⟩ := halive e' (List.mem_cons_of_mem _ he') f hf
        refine ⟨o, (hcells f.2 fun hmem => ?_).trans ho⟩
        exact hapart.1 e' he' f.2 hmem (List.mem_map_of_mem hf))
      (fun e' he' => hnodup e' (List.mem_cons_of_mem _ he')) hapart.2
    refine ⟨objects', ?_⟩
    obtain ⟨i, veci⟩ := e
    rw [clearEnumerations, hrun₁]
    exact hrun

theorem Holds.clear (h : Holds cs A) : ∃ cs', cs.clear = some cs' ∧ Holds cs' Contents.empty := by
  have hentry : ∀ e ∈ cs.iddVeci.entries, ∃ c, cs.IsEnumeration e.1 c ∧ c.veci = e.2 ∧
      Mirrors c (A.consts e.1) := by
    rintro ⟨i, veci⟩ he
    have hlookup : cs.iddVeci.lookup i = some veci := AList.mem_lookup_iff.mpr he
    have hcached : A.enumName i ≠ none := by
      intro hnone
      rw [(h.absent i hnone).1] at hlookup
      cases hlookup
    obtain ⟨c, hc, hmirrors⟩ := h.cached i hcached
    refine ⟨c, hc, ?_, hmirrors⟩
    have hveci := hc.2.1
    rw [hlookup, Option.some.injEq] at hveci
    exact hveci.symm
  obtain ⟨objects, hrun⟩ := @clearEnumerations_eq cs.iddVeci.entries cs.objects
    (fun e he => by
      obtain ⟨c, hc, hveci, hmirrors⟩ := hentry e he
      rw [← hveci, ← hc.1]
      exact hmirrors.pointers.1)
    (fun e he => by
      obtain ⟨c, hc, hveci, hmirrors⟩ := hentry e he
      rw [← hveci]
      exact hmirrors.pointers.2.1)
    ((List.pairwise_map.mp (List.nodup_iff_pairwise_ne.mp cs.iddVeci.nodupKeys)).imp_of_mem
      fun he he' hne p hp hp' => by
        obtain ⟨c, hc, hveci, hmirrors⟩ := hentry _ he
        obtain ⟨c', hc', hveci', hmirrors'⟩ := hentry _ he'
        rw [← hveci] at hp
        rw [← hveci'] at hp'
        obtain ⟨n, hn⟩ := hmirrors.pointers.2.2 p hp
        obtain ⟨m, hm⟩ := hmirrors'.pointers.2.2 p hp'
        exact hne (h.apart _ _ c c' n m p hc hc' hn hm))
  refine ⟨⟨objects, ∅, ∅, ∅, ∅⟩, ?_, ?_⟩
  · rw [EnumConstMaps.clear, hrun]
    rfl
  · exact ⟨fun _ => AList.lookup_empty _, fun _ => AList.lookup_empty _,
      fun _ hne => absurd rfl hne,
      fun _ _ => ⟨AList.lookup_empty _, AList.lookup_empty _, fun _ => rfl⟩,
      fun i j c d n m p hc => by cases hc.2.1⟩

/-! ## 6. Runs -/

theorem Holds.addEci (h : Holds cs A) {enumName : String} {eci : EnumConstInfo}
    (hallows : A.Allows (.addEci enumId enumName eci)) :
    ∃ cs', (cs.addEci enumId enumName eci).map Prod.snd = some cs' ∧
      Holds cs' (A.apply (.addEci enumId enumName eci)) := by
  obtain ⟨hadd, hname, hconsts⟩ := h.addEnum enumId enumName
  have hnew := hallows.1 enumId enumName eci rfl
  rw [← hconsts] at hnew
  obtain ⟨c, hc, hmirrors⟩ := hadd.cached enumId hname
  have hvalue : ∀ n d, (A.addEnum enumId enumName).consts enumId n ≠ some (eci.value, d) := by
    intro n d hn
    have hne : n ≠ eci.name := by
      rintro rfl
      rw [hnew] at hn
      cases hn
    refine hne (hallows.2 enumId n eci.name eci.value d eci.isDefault ?_ ?_)
    · rw [hconsts] at hn
      simpa [Contents.apply, Contents.setConsts, hconsts, hne] using hn
    · simp [Contents.apply, Contents.setConsts]
  obtain ⟨c', hrun, hstep⟩ := hmirrors.addEci hnew hvalue
  refine ⟨_, ?_, hadd.setEnumeration hname hc hstep⟩
  rw [EnumConstMaps.addEci]
  dsimp only
  rw [hc.2.1, hc.2.2, ← hc.1]
  change ((EnumConstCache.addEci c eci).bind _).map _ = _
  rw [hrun]
  rfl

theorem Holds.updateValue (h : Holds cs A) {n : String} {v : Int} (hfree : A.Free enumId n v) :
    ∃ cs', cs.updateValue enumId n v = some cs' ∧ Holds cs' (A.updateValue enumId n v) :=
  h.inEnumeration (fun _ hc => hc.updateValue hfree) fun hnone => by
    rw [hnone, Option.map_none, ← hnone n, Function.update_eq_self]

/-- **A group of calls**, by induction on those that are still to come. -/
theorem Holds.updateValues {calls : List (Nat × String × Int)} :
    ∀ {cs : EnumConstMaps} {A : Contents}, Holds cs A → A.FreeAll calls →
      ∃ cs', cs.updateValues calls = some cs' ∧
        Holds cs' (A.apply (.updateValues calls)) := by
  induction calls with
  | nil => exact fun h _ => ⟨_, rfl, h⟩
  | cons u calls ih =>
    intro cs A h hfree
    obtain ⟨cs₁, hrun₁, h₁⟩ := h.updateValue hfree.1
    obtain ⟨cs', hrun, h'⟩ := ih h₁ hfree.2
    refine ⟨cs', ?_, h'⟩
    rw [EnumConstMaps.updateValues, List.foldlM_cons, hrun₁]
    exact hrun

/-- **One step** that is safe. -/
theorem Holds.apply (h : Holds cs A) {op : Op} (hallows : A.Allows op) (hsafe : A.Safe op) :
    ∃ cs', cs.apply op = some cs' ∧ Holds cs' (A.apply op) := by
  cases op with
  | addEci enumId enumName eci => exact h.addEci hallows
  | updateValues calls => exact h.updateValues hsafe
  | setNewDefault enumId n =>
    refine h.inEnumeration (fun c hc => hc.setNewDefault n) fun hnone => funext fun m => ?_
    rw [hnone, Option.map_none]
  | drop enumId n =>
    refine h.inEnumeration (fun c hc => hc.drop n) fun hnone => ?_
    rw [← hnone n, Function.update_eq_self]
  | dropEnum enumId => exact h.dropEnum hsafe
  | clear => exact h.clear

end Enumerations

/-- What is promised of a run. -/
def AllowsAll (A : Contents) : List Op → Prop
  | [] => True
  | op :: ops => A.Allows op ∧ AllowsAll (A.apply op) ops

/-- Where all steps of a run are safe. -/
def SafeAll (A : Contents) : List Op → Prop
  | [] => True
  | op :: ops => A.Safe op ∧ SafeAll (A.apply op) ops

theorem run_holds : ∀ {ops : List Op} {cs : EnumConstMaps} {A : Contents}, Holds cs A →
    AllowsAll A ops → SafeAll A ops →
      ∃ cs', ops.foldlM apply cs = some cs' ∧ Holds cs' (ops.foldl Contents.apply A) := by
  intro ops
  induction ops with
  | nil => exact fun h _ _ => ⟨_, rfl, h⟩
  | cons op ops ih =>
    intro cs A h hallows hsafe
    obtain ⟨cs₁, hrun₁, h₁⟩ := h.apply hallows.1 hsafe.1
    obtain ⟨cs', hrun, h'⟩ := ih h₁ hallows.2 hsafe.2
    refine ⟨cs', ?_, h'⟩
    rw [List.foldlM_cons, hrun₁]
    exact hrun

/-- What is promised of a run is promised of its beginnings, and what is safe is safe there. -/
theorem allowsAll_append {A : Contents} {done rest : List Op} (h : AllowsAll A (done ++ rest)) :
    AllowsAll A done := by
  induction done generalizing A with
  | nil => trivial
  | cons op done ih => exact ⟨h.1, ih h.2⟩

theorem safeAll_append {A : Contents} {done rest : List Op} (h : SafeAll A (done ++ rest)) :
    SafeAll A done := by
  induction done generalizing A with
  | nil => trivial
  | cons op done ih => exact ⟨h.1, ih h.2⟩

/-- **The cache is coherent.**  After each step of a safe run the two maps of every enumeration
hold its constants and no other, and no assertion has fired. -/
theorem run_represents (ops : List Op) (hallows : AllowsAll Contents.empty ops)
    (hsafe : SafeAll Contents.empty ops) :
    ∀ done rest, ops = done ++ rest → ∃ cs, run done = some cs ∧ Represents cs (contents done) ∧
      ∀ enumId c, cs.find enumId c.name = some (some c) ↔
        cs.findValue enumId c.value = some (some c) := by
  rintro done rest rfl
  obtain ⟨cs, hrun, hcs⟩ := run_holds holds_empty (allowsAll_append hallows) (safeAll_append hsafe)
  exact ⟨cs, hrun, hcs.represents, hcs.represents.find_iff⟩

/-! ## 7. Two colours -/

theorem Contents.consts_addEnum (A : Contents) (enumId : Nat) (enumName : String) :
    (A.addEnum enumId enumName).consts = A.consts := by
  unfold Contents.addEnum
  split <;> rfl

theorem Contents.consts_addEci (A : Contents) (enumId : Nat) (enumName : String)
    (eci : EnumConstInfo) (i : Nat) (n : String) :
    (A.apply (.addEci enumId enumName eci)).consts i n =
      if i = enumId ∧ n = eci.name then some (eci.value, eci.isDefault) else A.consts i n := by
  simp only [Contents.apply, Contents.setConsts, Contents.consts_addEnum, Function.update_apply]
  grind

theorem Contents.consts_updateValue (A : Contents) (enumId : Nat) (n : String) (v : Int) (i : Nat)
    (m : String) : (A.updateValue enumId n v).consts i m =
      if i = enumId ∧ m = n then (A.consts i m).map fun x => (v, x.2) else A.consts i m := by
  simp only [Contents.updateValue, Contents.setConsts, Function.update_apply]
  grind

/-- Red is 1 and blue is 2. -/
def colours : List Op :=
  [.addEci 1 "colour_t" ⟨"red", 1, true⟩, .addEci 1 "colour_t" ⟨"blue", 2, false⟩]

theorem consts_colours (i : Nat) (n : String) : (contents colours).consts i n =
    if i = 1 ∧ n = "blue" then some (2, false)
    else if i = 1 ∧ n = "red" then some (1, true) else none := by
  simp only [contents, colours, List.foldl_cons, List.foldl_nil, Contents.consts_addEci,
    Contents.empty]

/-- A step that follows the two colours. -/
theorem allowsAll_colours {op : Op} (hop : (contents colours).Allows op) :
    AllowsAll Contents.empty (colours ++ [op]) := by
  refine ⟨⟨fun _ _ _ _ => rfl, ?_⟩, ⟨?_, ?_⟩, hop, trivial⟩
  · intro i n m v d e hn hm
    rw [Contents.consts_addEci] at hn hm
    simp only [Contents.empty] at hn hm
    grind
  · rintro i e eci ⟨⟩
    simp [Contents.consts_addEci, Contents.empty]
  · intro i n m v d e hn hm
    change (contents colours).consts i _ = _ at hn hm
    rw [consts_colours] at hn hm
    grind

/-- Blue moves out of the way before red gets its value. -/
def repaint : Op := .updateValues [(1, "blue", 3), (1, "red", 2)]

theorem allows_repaint : (contents colours).Allows repaint := by
  refine ⟨?_, ?_⟩
  · rintro i e eci ⟨⟩
  · intro i n m v d e hn hm
    change (((contents colours).updateValue 1 "blue" 3).updateValue 1 "red" 2).consts i _ = _
      at hn hm
    rw [Contents.consts_updateValue, Contents.consts_updateValue, consts_colours] at hn hm
    grind

theorem safeAll_repaint : SafeAll Contents.empty (colours ++ [repaint]) := by
  refine ⟨trivial, trivial, ⟨?_, ?_, trivial⟩, trivial⟩
  · intro _ m hm d
    change (contents colours).consts 1 m ≠ some (3, d)
    rw [consts_colours]
    grind
  · intro _ m hm d
    change ((contents colours).updateValue 1 "blue" 3).consts 1 m ≠ some (2, d)
    rw [Contents.consts_updateValue, consts_colours]
    grind

/-- Red is 2 in the end. -/
theorem run_represents_repaint : ∃ cs, run (colours ++ [repaint]) = some cs ∧
    cs.find 1 "red" = some (some ⟨"red", 2, true⟩) ∧
      cs.findValue 1 2 = some (some ⟨"red", 2, true⟩) := by
  obtain ⟨cs, hrun, hcs, hfind⟩ := run_represents (colours ++ [repaint])
    (allowsAll_colours allows_repaint) safeAll_repaint (colours ++ [repaint]) []
    (List.append_nil _).symm
  have hred : cs.find 1 "red" = some (some ⟨"red", 2, true⟩) := by
    rw [hcs.byName]
    rfl
  exact ⟨cs, hrun, hred, (hfind 1 ⟨"red", 2, true⟩).mp hred⟩

/-- The two values are exchanged. -/
def exchange : Op := .updateValues [(1, "red", 2), (1, "blue", 1)]

theorem allows_exchange : (contents colours).Allows exchange := by
  refine ⟨?_, ?_⟩
  · rintro i e eci ⟨⟩
  · intro i n m v d e hn hm
    change (((contents colours).updateValue 1 "red" 2).updateValue 1 "blue" 1).consts i _ = _
      at hn hm
    rw [Contents.consts_updateValue, Contents.consts_updateValue, consts_colours] at hn hm
    grind

/-- **The map of values loses red.** -/
theorem exchange_not_represents : AllowsAll Contents.empty (colours ++ [exchange]) ∧
    ¬ ∃ cs, run (colours ++ [exchange]) = some cs ∧
      Represents cs (contents (colours ++ [exchange])) := by
  refine ⟨allowsAll_colours allows_exchange, ?_⟩
  rintro ⟨cs, hrun, hcs⟩
  have hfind : (run (colours ++ [exchange])).bind (fun cs => cs.find 1 "red") =
      some (some ⟨"red", 2, true⟩) := by decide
  have hfindValue : (run (colours ++ [exchange])).bind (fun cs => cs.findValue 1 2) =
      some none := by decide
  rw [hrun, Option.bind_some] at hfind hfindValue
  have hred := (hcs.find_iff 1 ⟨"red", 2, true⟩).mp hfind
  rw [hfindValue] at hred
  cases hred

end EnumConstMaps

end Emdros
