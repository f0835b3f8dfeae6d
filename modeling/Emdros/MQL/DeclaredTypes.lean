/-
# What the passes over feature declarations establish (`mql_helper_classes.cpp`)

Four passes go over a list of feature declarations: `symbolEnumerationsExist`,
`symbolEnumConstantsExist`, `typeAssignTypeID` and `typeTypeCompatibility`.  `Sound` is what
they are for: the enumeration that a declaration names is in the table, the type id is the id of
that enumeration with the bits of the type, and there is a default that is of the type.

They do not always come to that.  The first pass looks at `kEnumeration` and not at
`kListOfEnumeration`, and the third does not look at what `enumExists` found.  And every question
about enumerations and constants is put to a cache before it is put to the table.  The cache of
the enumerations is searched without regard to case; that of the constants keeps what statements
have put there whose transaction was aborted.  `Declarable` is what has to hold of the caches and
of the declarations, and `declareTypes_sound_iff` says that the declarations that pass are sound
exactly then.

The argument follows the two caches through the passes.  The cache of the enumerations only grows,
and by rows of the table (`Grows`), so the id that is found in the end is the one that was found
first.  The cache of the constants changes when a constant is looked up, and `getDefault` depends
on which have been (`LookedUp`, `FoundDefault`): the second pass looks up the constants that are
defaults, and the fourth the elements of lists, from the last declaration to the first.  So what
the fourth pass does for a declaration depends on those behind it (`Alongside`), and
`Passed.hasType_iff` says for each declaration when its default is of its type.
-/
import Mathlib.Data.List.Forall2
import Mathlib.Data.Nat.Bitwise
import Emdros.EMdF.CachedConstants
import Emdros.MQL.FeatureDeclarations

namespace Emdros

/-! ## 1. What they are for -/

namespace MQLType

/-- A declaration names an enumeration as its type or as the type of the elements of a list. -/
def NamesEnumeration (T : MQLType) : Prop := T.type = .enumeration ∨ T.type = .listOfEnumeration

instance decidableNamesEnumeration (T : MQLType) : Decidable T.NamesEnumeration :=
  inferInstanceAs (Decidable (_ ∨ _))

/-- The number of a type. -/
def kindBits : FeatureTypeKind → Nat
  | .integer => 0
  | .string => 1
  | .ascii => 2
  | .idD => 3
  | .enumeration => 4
  | .setOfMonads => 5
  | .listOfInteger => 8
  | .listOfIdD => 11
  | .listOfEnumeration => 12

/-- The types that may be declared `WITH INDEX`. -/
def mayHaveIndex : FeatureTypeKind → Bool
  | .integer | .string | .ascii | .idD | .enumeration => true
  | _ => false

/-- The types that may be declared `FROM SET`. -/
def mayBeFromSet : FeatureTypeKind → Bool
  | .string | .ascii => true
  | _ => false

/-- The bits of a type. -/
def typeBits (T : MQLType) : Nat :=
  kindBits T.type + (if mayHaveIndex T.type && T.withIndex then 256 else 0) +
    if mayBeFromSet T.type && T.fromSet then 512 else 0

end MQLType

/-- A constant of an enumeration. -/
def Tables.IsConstant (t : Tables) (enumId : Nat) (name : Name) (value : Int) : Prop :=
  ∃ isDefault, ⟨enumId, name, value, isDefault⟩ ∈ t.enumerationConstants

/-- The rows of the table of constants. -/
def Tables.constants (t : Tables) (enumId : Nat) (c : EnumConstInfo) : Prop :=
  ∃ row ∈ t.enumerationConstants, row.enumId = enumId ∧ row.ecInfo = c

theorem Tables.isConstant_of_constants {t : Tables} {enumId : Nat} {c : EnumConstInfo}
    (h : t.constants enumId c) : t.IsConstant enumId c.name.toList c.value := by
  obtain ⟨row, hrow, rfl, rfl⟩ := h
  exact ⟨row.isDefault, by simpa [EnumerationConstantRow.ecInfo] using hrow⟩

/-- The values of a type; `enumId` is the enumeration that it names. -/
def Expression.HasType (t : Tables) (enumId : Nat) : FeatureTypeKind → Expression → Prop
  | .integer, e => ∃ i, e = .integer i
  | .idD, e => ∃ i, e = .integer i ∧ 0 ≤ i
  | .string, e => ∃ s, e = .string s
  | .ascii, e => ∃ s, e = .string s
  | .enumeration, e => ∃ name value, e = .identifier name ∧ t.IsConstant enumId name value
  | .listOfInteger, e => e = .emptyList ∨ ∃ is, e = .listOfInteger is
  | .listOfIdD, e => e = .emptyList ∨ ∃ is, e = .listOfInteger is ∧ ∀ i ∈ is, 0 ≤ i
  | .listOfEnumeration, e => e = .emptyList ∨
    ∃ names values, e = .listOfIdentifier names (some values) ∧
      List.Forall₂ (t.IsConstant enumId) names values
  | .setOfMonads, e => (∃ monadSet, e = .monadSetElements monadSet) ∨ ∃ som, e = .setOfMonads som

/-- What becomes of a declaration. -/
structure FeatureDeclaration.Sound (t : Tables) (d d' : FeatureDeclaration) : Prop where
  featureName : d'.featureName = d.featureName
  type : d'.type = { d.type with typeId := d'.type.typeId }
  typed : ∃ enumId e, (d.type.NamesEnumeration → ⟨enumId, d.type.enumeration⟩ ∈ t.enumerations) ∧
    (¬ d.type.NamesEnumeration → enumId = 0) ∧ d'.type.typeId = enumId ||| d.type.typeBits ∧
    d'.defaultSpecification = some e ∧ e.HasType t enumId d.type.type

/-- Ids of enumerations are type ids; `enum_id` is the primary key of the enumerations, and with the
name that of the constants; `CREATE ENUMERATION` takes no name that there is; and what the cache of
the constants points to has been allocated. -/
structure TypeIds (db : EMdFDB) : Prop where
  ids : ∀ row ∈ db.tables.enumerations, row.enumId % 65536 = 0
  cached : ∀ row ∈ db.enumCache, row.enumId % 65536 = 0
  primaryKey : ∀ row ∈ db.tables.enumerations, ∀ row' ∈ db.tables.enumerations,
    row.enumId = row'.enumId → row = row'
  names : ∀ row ∈ db.tables.enumerations, ∀ row' ∈ db.tables.enumerations,
    row.enumName = row'.enumName → row = row'
  constantKey : ∀ row ∈ db.tables.enumerationConstants, ∀ row' ∈ db.tables.enumerationConstants,
    row.enumId = row'.enumId → row.enumValueName = row'.enumValueName → row = row'
  allocated : db.enumConstCache.Allocated

/-- The constants that a declaration names: its default, or the elements of its default. -/
def FeatureDeclaration.UsesConstant (d : FeatureDeclaration) (name : Name) : Prop :=
  match d.type.type, d.defaultSpecification with
  | .enumeration, some (.identifier n) => name = n
  | .listOfEnumeration, some (.listOfIdentifier names _) => name ∈ names
  | _, _ => False

/-- What the cache has for a constant that a declaration names is right: there is such a constant,
and a list, which keeps the values, gets its value. -/
def FeatureDeclaration.UsesKnown (db : EMdFDB) (enumId : Nat) (d : FeatureDeclaration) : Prop :=
  ∀ name, d.UsesConstant name → ∀ eci,
    db.enumConstCache.find enumId (String.ofList name) = some (some eci) →
      (∃ value, db.tables.IsConstant enumId name value) ∧
        (d.type.type = .listOfEnumeration → db.tables.IsConstant enumId name eci.value)

/-- A constant is looked up before the default is asked for of a declaration with `later` behind it:
the constants that are given as defaults in `ds` are, by the second pass, and so are the elements of
lists in `later`, which the fourth pass takes first. -/
def FeatureDeclaration.LookedUpBefore (ds later : List FeatureDeclaration) (enumeration : Name)
    (name : Name) : Prop :=
  ∃ e, (e ∈ ds ∧ e.type.type = .enumeration ∨ e ∈ later) ∧
    e.type.enumeration = enumeration ∧ e.UsesConstant name

/-- What the cache has for the default of an enumeration is right, or a default of the table that is
looked up before comes before it in the order of values. -/
def FeatureDeclaration.DefaultKnown (db : EMdFDB) (ds later : List FeatureDeclaration)
    (enumId : Nat) (enumeration : Name) : Prop :=
  ∀ v eci, db.enumConstCache.firstDefault enumId = some (some (v, eci)) →
    (∃ value, db.tables.IsConstant enumId eci.name.toList value) ∨
      ∃ row ∈ db.tables.enumerationConstants, row.enumId = enumId ∧ row.isDefault = true ∧
        row.value < v ∧
        db.enumConstCache.find enumId (String.ofList row.enumValueName) = some none ∧
        LookedUpBefore ds later enumeration row.enumValueName

/-- The exact condition. -/
structure Declarable (db : EMdFDB) (ds : List FeatureDeclaration) : Prop where
  listed : ∀ d ∈ ds, d.type.type = .listOfEnumeration →
    ∃ enumId, ⟨enumId, d.type.enumeration⟩ ∈ db.tables.enumerations
  cached : ∀ d ∈ ds, d.type.NamesEnumeration → ∀ row,
    (db.enumCache.find? fun r => sameNocase r.enumName d.type.enumeration) = some row →
      ⟨row.enumId, d.type.enumeration⟩ ∈ db.tables.enumerations
  sameCase : ∀ d ∈ ds, ∀ e ∈ ds, d.type.NamesEnumeration → e.type.NamesEnumeration →
    sameNocase d.type.enumeration e.type.enumeration → d.type.enumeration = e.type.enumeration
  idDs : ∀ d ∈ ds, d.type.type = .listOfIdD → ∀ is,
    d.defaultSpecification = some (.listOfInteger is) → ∀ i ∈ is, 0 ≤ i
  constants : ∀ d ∈ ds, ∀ enumId, ⟨enumId, d.type.enumeration⟩ ∈ db.tables.enumerations →
    d.UsesKnown db enumId
  defaults : ∀ l d later, ds = l ++ d :: later → d.type.type = .enumeration →
    d.defaultSpecification = none → ∀ enumId,
      ⟨enumId, d.type.enumeration⟩ ∈ db.tables.enumerations →
        FeatureDeclaration.DefaultKnown db ds later enumId d.type.enumeration

theorem stripEnumIdOfLowerBits_of_mod {enumId : Nat} (h : enumId % 65536 = 0) :
    stripEnumIdOfLowerBits enumId = enumId := by
  rw [stripEnumIdOfLowerBits]
  omega

theorem stripEnumIdOfLowerBits_stripEnumIdOfLowerBits (enumId : Nat) :
    stripEnumIdOfLowerBits (stripEnumIdOfLowerBits enumId) = stripEnumIdOfLowerBits enumId :=
  stripEnumIdOfLowerBits_of_mod (Nat.mul_mod_left _ _)

/-- The bits of a type do not reach into the id of an enumeration. -/
theorem stripEnumIdOfLowerBits_or {enumId bits : Nat} (h : enumId % 65536 = 0)
    (hbits : bits < 65536) : stripEnumIdOfLowerBits (enumId ||| bits) = enumId := by
  rw [stripEnumIdOfLowerBits, show 65536 = 2 ^ 16 from rfl, Nat.or_div_two_pow,
    Nat.div_eq_of_lt hbits, Nat.or_zero]
  omega

theorem MQLType.typeBits_lt (T : MQLType) : T.typeBits < 65536 := by
  have hkind : kindBits T.type ≤ 12 := by
    cases T.type <;> decide
  rw [typeBits]
  split <;> split <;> omega

/-! ## 2. What a look at the database does -/

/-- The cache of the enumerations grows by rows of the table whose names are among `P`. -/
def Grows (P : Name → Prop) (db db' : EMdFDB) : Prop :=
  db'.tables = db.tables ∧ ∃ added, db'.enumCache = db.enumCache ++ added ∧
    ∀ row ∈ added, row ∈ db.tables.enumerations ∧ P row.enumName

/-- The id that the cache gives a name. -/
def cachedId (cache : List EnumerationRow) (enumName : Name) : Option Nat :=
  (cache.find? fun r => sameNocase r.enumName enumName).map EnumerationRow.enumId

section Grows

variable {P Q : Name → Prop} {db db' db'' : EMdFDB}

theorem Grows.refl (P : Name → Prop) (db : EMdFDB) : Grows P db db :=
  ⟨rfl, [], (List.append_nil _).symm, fun _ hrow => by cases hrow⟩

theorem Grows.trans (h : Grows P db db') (h' : Grows P db' db'') : Grows P db db'' := by
  obtain ⟨ht, added, hcache, hadded⟩ := h
  obtain ⟨ht', added', hcache', hadded'⟩ := h'
  refine ⟨ht'.trans ht, added ++ added', ?_, fun row hrow => ?_⟩
  · rw [hcache', hcache, List.append_assoc]
  · rcases List.mem_append.mp hrow with hrow | hrow
    · exact hadded row hrow
    · rw [← ht]
      exact hadded' row hrow

theorem Grows.mono (h : Grows P db db') (hPQ : ∀ row ∈ db.tables.enumerations,
    P row.enumName → Q row.enumName) : Grows Q db db' := by
  obtain ⟨ht, added, hcache, hadded⟩ := h
  exact ⟨ht, added, hcache, fun row hrow =>
    ⟨(hadded row hrow).1, hPQ row (hadded row hrow).1 (hadded row hrow).2⟩⟩

/-- What the cache has it keeps. -/
theorem Grows.cachedId (h : Grows P db db') {enumName : Name} {enumId : Nat}
    (hid : cachedId db.enumCache enumName = some enumId) :
    cachedId db'.enumCache enumName = some enumId := by
  obtain ⟨-, added, hcache, -⟩ := h
  rw [hcache, Emdros.cachedId, List.find?_append]
  rw [Emdros.cachedId, Option.map_eq_some_iff] at hid
  obtain ⟨row, hrow, rfl⟩ := hid
  rw [hrow]
  rfl

theorem catchNULLValue_ok {α : Type} {x : DB α} {a : α}
    (h : catchNULLValue x db = (.ok a, db')) : x db = (.ok a, db') := by
  unfold catchNULLValue Effect.handle at h
  rcases hx : x db with ⟨r, db₁⟩
  rw [hx] at h
  cases r with
  | ok b => exact h
  | error e => cases h

/-- Reading columns leaves the tables and the caches alone. -/
theorem accessColumns_same : ∀ {n : Nat} {db db' : EMdFDB} {r : Except Failure Unit},
    accessColumns n db = (r, db') → db'.tables = db.tables ∧ db'.toCaches = db.toCaches := by
  intro n
  induction n with
  | zero =>
    intro db db' r h
    cases h
    exact ⟨rfl, rfl⟩
  | succ n ih =>
    intro db db' r h
    have htuple : (accessTuple db).2.tables = db.tables ∧
        (accessTuple db).2.toCaches = db.toCaches := by
      unfold accessTuple
      cases db.outcomes.headD .success <;> exact ⟨rfl, rfl⟩
    rw [accessColumns, Effect.bind_apply] at h
    rcases haccess : accessTuple db with ⟨_ | _, db₁⟩
    · rw [haccess] at h htuple
      cases h
      exact htuple
    · rw [haccess] at h htuple
      obtain ⟨ht, hcache⟩ := ih h
      exact ⟨ht.trans htuple.1, hcache.trans htuple.2⟩

theorem execSelect_ok {α : Type} {query : Tables → Option α} {a : α}
    (h : execSelect query db = (.ok a, db')) :
    query db.tables = some a ∧ db'.tables = db.tables ∧ db'.toCaches = db.toCaches := by
  unfold execSelect at h
  cases hout : db.outcomes.headD .success with
  | success =>
    rw [hout] at h
    cases hq : query db.tables with
    | some b =>
      rw [hq] at h
      cases h
      exact ⟨rfl, rfl, rfl⟩
    | none =>
      rw [hq] at h
      cases h
  | failure =>
    rw [hout] at h
    cases h
  | nullValue =>
    rw [hout] at h
    cases h

theorem selectRow_ok {α : Type} {columns : Nat} {query : Tables → Option (Option α)}
    {r : Option α} (h : selectRow columns query db = (.ok r, db')) :
    query db.tables = some r ∧ db'.tables = db.tables ∧ db'.toCaches = db.toCaches := by
  obtain ⟨a, db₁, hselect, hrest⟩ := Effect.bind_ok_iff.mp h
  obtain ⟨hquery, ht, hcache⟩ := execSelect_ok hselect
  cases a with
  | none =>
    cases hrest
    exact ⟨hquery, ht, hcache⟩
  | some a =>
    obtain ⟨u, db₂, hcolumns, hpure⟩ := Effect.bind_ok_iff.mp hrest
    obtain ⟨ht', hcache'⟩ := accessColumns_same (catchNULLValue_ok hcolumns)
    cases hpure
    exact ⟨hquery, ht'.trans ht, hcache'.trans hcache⟩

theorem grows_of_same (ht : db'.tables = db.tables) (hcache : db'.toCaches = db.toCaches)
    (P : Name → Prop) : Grows P db db' :=
  ⟨ht, [], by rw [congrArg Caches.enumCache hcache, List.append_nil], fun _ hrow => by cases hrow⟩

theorem check_ok {b : Bool} (h : check b db = (.ok (), db')) : b = true ∧ db' = db := by
  cases b with
  | true =>
    cases h
    exact ⟨rfl, rfl⟩
  | false => cases h

theorem orStop_ok {α : Type} {o : Option α} {a : α} (h : orStop o db = (.ok a, db')) :
    o = some a ∧ db' = db := by
  cases o with
  | some b =>
    cases h
    exact ⟨rfl, rfl⟩
  | none => cases h

/-- `enumExists`: what it finds the cache has afterwards, and what it does not find is not in the
table. -/
theorem enumExists_ok {enumName : Name} {r : Option Nat}
    (h : enumExists enumName db = (.ok r, db')) :
    Grows (fun n => n = enumName) db db' ∧ db'.enumConstCache = db.enumConstCache ∧
      (∀ enumId, r = some enumId → cachedId db'.enumCache enumName = some enumId) ∧
      (r = none → ∀ enumId, ⟨enumId, enumName⟩ ∉ db.tables.enumerations) := by
  unfold enumExists at h
  rw [Effect.read_bind] at h
  cases hfound : db.enumCache.find? fun r => sameNocase r.enumName enumName with
  | some row =>
    rw [hfound] at h
    cases h
    refine ⟨Grows.refl _ _, rfl, ?_, fun hnone => by cases hnone⟩
    rintro enumId ⟨⟩
    rw [cachedId, hfound]
    rfl
  | none =>
    rw [hfound] at h
    obtain ⟨row, db₂, hselect, hrest⟩ := Effect.bind_ok_iff.mp h
    obtain ⟨hquery, ht, hcache⟩ := selectRow_ok hselect
    have henum := congrArg Caches.enumCache hcache
    have hconst := congrArg Caches.enumConstCache hcache
    rw [Option.some.injEq] at hquery
    cases row with
    | none =>
      cases hrest
      refine ⟨grows_of_same ht hcache _, hconst, fun _ hsome => (by cases hsome),
        fun _ enumId hmem => ?_⟩
      exact List.find?_eq_none.mp hquery _ hmem (by simp)
    | some row =>
      obtain ⟨u, db₃, hmodify, hpure⟩ := Effect.bind_ok_iff.mp hrest
      cases hmodify
      cases hpure
      have hname : row.enumName = enumName := by simpa using List.find?_some hquery
      have hmem := List.mem_of_find?_eq_some hquery
      refine ⟨⟨ht, [⟨row.enumId, enumName⟩], ?_, ?_⟩, hconst, ?_, fun hnone => by cases hnone⟩
      · rw [EMdFDB.addEnumToCache, henum]
      · intro row' hrow'
        rw [List.mem_singleton] at hrow'
        subst hrow'
        refine ⟨?_, rfl⟩
        rw [← hname]
        exact hmem
      · rintro enumId ⟨⟩
        rw [EMdFDB.addEnumToCache, henum, cachedId, List.find?_append, hfound]
        simp [sameNocase]

/-- `enumExists` by id. -/
theorem enumIdExists_ok {enumId : Nat} {r : Option Name}
    (h : enumIdExists enumId db = (.ok r, db')) :
    Grows (fun n => ⟨stripEnumIdOfLowerBits enumId, n⟩ ∈ db.tables.enumerations) db db' ∧
      db'.enumConstCache = db.enumConstCache := by
  unfold enumIdExists at h
  rw [Effect.read_bind] at h
  cases hfound : db.enumCache.find? fun r => r.enumId == stripEnumIdOfLowerBits enumId with
  | some row =>
    rw [hfound] at h
    cases h
    exact ⟨Grows.refl _ _, rfl⟩
  | none =>
    rw [hfound] at h
    obtain ⟨row, db₂, hselect, hrest⟩ := Effect.bind_ok_iff.mp h
    obtain ⟨hquery, ht, hcache⟩ := selectRow_ok hselect
    have hconst := congrArg Caches.enumConstCache hcache
    rw [Option.some.injEq] at hquery
    cases row with
    | none =>
      cases hrest
      exact ⟨grows_of_same ht hcache _, hconst⟩
    | some row =>
      obtain ⟨u, db₃, hmodify, hpure⟩ := Effect.bind_ok_iff.mp hrest
      cases hmodify
      cases hpure
      have hid : row.enumId = stripEnumIdOfLowerBits enumId := by
        simpa using List.find?_some hquery
      have hmem := List.mem_of_find?_eq_some hquery
      refine ⟨⟨ht, [⟨stripEnumIdOfLowerBits enumId, row.enumName⟩], ?_, ?_⟩, hconst⟩
      · rw [EMdFDB.addEnumToCache, congrArg Caches.enumCache hcache]
      · intro row' hrow'
        rw [List.mem_singleton] at hrow'
        subst hrow'
        rw [← hid]
        exact ⟨hmem, hmem⟩

/-- Adding to the cache of the constants leaves the rest alone. -/
theorem addEnumConstToCache_ok {enumId : Nat} {enumName : Name} {ecInfo : EnumConstInfo}
    (h : addEnumConstToCache enumId enumName ecInfo db = (.ok (), db')) :
    ∃ cs, db.enumConstCache.addEci (stripEnumIdOfLowerBits enumId) (String.ofList enumName) ecInfo =
        some (true, cs) ∧ db' = { db with enumConstCache := cs } := by
  unfold addEnumConstToCache at h
  rw [Effect.read_bind] at h
  obtain ⟨⟨added, cs⟩, db₁, hadd, hrest⟩ := Effect.bind_ok_iff.mp h
  obtain ⟨hadd, rfl⟩ := orStop_ok hadd
  obtain ⟨u, db₂, hmodify, hcheck⟩ := Effect.bind_ok_iff.mp hrest
  cases hmodify
  obtain ⟨rfl, rfl⟩ := check_ok hcheck
  exact ⟨cs, hadd, rfl⟩

/-- `enumConstExists`, from the cache or else from the table. -/
theorem findEnumConst_cases {name : Name} {enumId : Nat} {r : Option Int}
    (h : findEnumConst name enumId db = (.ok r, db')) :
    (∃ eci, db.enumConstCache.find (stripEnumIdOfLowerBits enumId) (String.ofList name) =
        some (some eci) ∧ r = some eci.value ∧ db' = db) ∨
      db.enumConstCache.find (stripEnumIdOfLowerBits enumId) (String.ofList name) = some none ∧
        Grows (fun n => ⟨stripEnumIdOfLowerBits enumId, n⟩ ∈ db.tables.enumerations) db db' ∧
        ∀ value, r = some value → ∃ row ∈ db.tables.enumerationConstants,
          row.enumId = stripEnumIdOfLowerBits enumId ∧ row.enumValueName = name ∧
            row.value = value ∧ ∃ enumName, db.enumConstCache.addEci
              (stripEnumIdOfLowerBits enumId) enumName row.ecInfo =
                some (true, db'.enumConstCache) := by
  unfold findEnumConst at h
  rw [Effect.read_bind] at h
  obtain ⟨found, db₁, hfind, hrest⟩ := Effect.bind_ok_iff.mp h
  obtain ⟨hfind, rfl⟩ := orStop_ok hfind
  cases found with
  | some eci =>
    cases hrest
    exact .inl ⟨eci, hfind, rfl, rfl⟩
  | none =>
    refine .inr ⟨hfind, ?_⟩
    obtain ⟨row, db₂, hselect, hrest⟩ := Effect.bind_ok_iff.mp hrest
    obtain ⟨hquery, ht, hcache⟩ := selectRow_ok hselect
    rw [Option.some.injEq] at hquery
    cases row with
    | none =>
      cases hrest
      exact ⟨grows_of_same ht hcache _, fun _ hsome => by cases hsome⟩
    | some row =>
      obtain ⟨found, db₃, henum, hrest⟩ := Effect.bind_ok_iff.mp hrest
      obtain ⟨hgrows, hconst⟩ := enumIdExists_ok henum
      rw [stripEnumIdOfLowerBits_stripEnumIdOfLowerBits, ht] at hgrows
      have hgrows := (grows_of_same ht hcache _).trans hgrows
      cases found with
      | none => cases hrest
      | some enumName =>
        obtain ⟨u, db₄, hadd, hpure⟩ := Effect.bind_ok_iff.mp hrest
        obtain ⟨cs, hcs, rfl⟩ := addEnumConstToCache_ok hadd
        cases hpure
        rw [stripEnumIdOfLowerBits_stripEnumIdOfLowerBits, hconst,
          congrArg Caches.enumConstCache hcache] at hcs
        have hrow := List.find?_some hquery
        rw [Bool.and_eq_true, beq_iff_eq, beq_iff_eq] at hrow
        refine ⟨hgrows, ?_⟩
        rintro value ⟨⟩
        exact ⟨row, List.mem_of_find?_eq_some hquery, hrow.1, hrow.2, rfl, _, hcs⟩

theorem findEnumConst_grows {name : Name} {enumId : Nat} {r : Option Int}
    (h : findEnumConst name enumId db = (.ok r, db')) :
    Grows (fun n => ⟨stripEnumIdOfLowerBits enumId, n⟩ ∈ db.tables.enumerations) db db' := by
  rcases findEnumConst_cases h with ⟨eci, -, -, rfl⟩ | ⟨-, hgrows, -⟩
  · exact Grows.refl _ _
  · exact hgrows

end Grows

/-! ## 3. What looking constants up does to their cache -/

/-- The cache of the constants is what `before` comes to when the constants of `M` have been looked
up. -/
def LookedUp (before : EnumConstMaps) (M : Nat → Name → Prop) (db : EMdFDB) : Prop :=
  EnumConstMaps.Extended db.tables.constants (fun e n => M e n.toList) before db.enumConstCache

/-- The value that is found for a constant: what the cache had for it, or that of the table. -/
def FoundConstant (t : Tables) (before : EnumConstMaps) (enumId : Nat) (name : Name) (value : Int) :
    Prop :=
  (∃ eci, before.find enumId (String.ofList name) = some (some eci) ∧ value = eci.value) ∨
    before.find enumId (String.ofList name) = some none ∧ t.IsConstant enumId name value

/-- The default that is found, after the constants of `M` have been looked up: the one that the
cache had, or one of the table where that is overtaken or the cache had none. -/
def FoundDefault (t : Tables) (before : EnumConstMaps) (M : Nat → Name → Prop) (enumId : Nat)
    (name : Name) : Prop :=
  (∃ v eci, before.firstDefault enumId = some (some (v, eci)) ∧ eci.name.toList = name ∧
      ¬ EnumConstMaps.Overtaken t.constants (fun e n => M e n.toList) before enumId v) ∨
    (∃ value, t.IsConstant enumId name value) ∧
      ∀ v eci, before.firstDefault enumId = some (some (v, eci)) →
        EnumConstMaps.Overtaken t.constants (fun e n => M e n.toList) before enumId v

section LookedUp

variable {db db' : EMdFDB} {before : EnumConstMaps} {M : Nat → Name → Prop}

theorem LookedUp.congr {M' : Nat → Name → Prop} (h : LookedUp before M db)
    (hM : ∀ e n, M e n ↔ M' e n) : LookedUp before M' db :=
  EnumConstMaps.Extended.congr h fun e n => hM e n.toList

theorem LookedUp.of_same (h : LookedUp before M db) (ht : db'.tables = db.tables)
    (hcache : db'.enumConstCache = db.enumConstCache) : LookedUp before M db' := by
  rwa [LookedUp, ht, hcache]

/-- One constant more. -/
theorem LookedUp.of_extended {enumId : Nat} {name : Name}
    (h : EnumConstMaps.Extended db.tables.constants
      (fun e n => M e n.toList ∨ e = enumId ∧ n = String.ofList name) before db.enumConstCache) :
    LookedUp before (fun e n => M e n ∨ e = enumId ∧ n = name) db := by
  refine EnumConstMaps.Extended.congr h fun e n => or_congr_right (and_congr_right fun _ => ?_)
  rw [← String.ofList_inj, String.ofList_toList]

theorem lookedUp_refl (db : EMdFDB) : LookedUp db.enumConstCache (fun _ _ => False) db :=
  EnumConstMaps.Extended.refl _

/-- `enumConstExists`. -/
theorem findEnumConst_ok (ha : before.Allocated)
    (hkey : ∀ row ∈ db.tables.enumerationConstants, ∀ row' ∈ db.tables.enumerationConstants,
      row.enumId = row'.enumId → row.enumValueName = row'.enumValueName → row = row')
    (hlooked : LookedUp before M db) {name : Name} {enumId : Nat} {value : Int}
    (h : findEnumConst name enumId db = (.ok (some value), db')) :
    db'.tables = db.tables ∧
      LookedUp before (fun e n => M e n ∨ e = stripEnumIdOfLowerBits enumId ∧ n = name) db' ∧
      FoundConstant db.tables before (stripEnumIdOfLowerBits enumId) name value := by
  rcases findEnumConst_cases h with ⟨eci, hfind, hvalue, rfl⟩ | ⟨hfind, hgrows, hrow⟩
  · rw [Option.some.injEq] at hvalue
    refine ⟨rfl, LookedUp.of_extended (hlooked.hit hfind), ?_⟩
    rcases hlooked.find_eq_some ha hfind with hold | ⟨hnone, hrow, hname⟩
    · exact .inl ⟨eci, hold, hvalue⟩
    · have hconst := Tables.isConstant_of_constants hrow
      rw [hname, String.toList_ofList, ← hvalue] at hconst
      exact .inr ⟨hnone, hconst⟩
  · obtain ⟨row, hmem, hid, rfl, rfl, enumName, hadd⟩ := hrow value rfl
    refine ⟨hgrows.1, ?_, .inr ⟨hlooked.find_eq_none hfind, row.isDefault, ?_⟩⟩
    · have hkey' : ∀ c, db.tables.constants (stripEnumIdOfLowerBits enumId) c →
          c.name = row.ecInfo.name → c = row.ecInfo := by
        rintro c ⟨row', hmem', hid', rfl⟩ hname
        have hsame := hkey row' hmem' row hmem (hid'.trans hid.symm) (String.ofList_injective hname)
        rw [hsame]
      have hmiss := hlooked.miss hkey' ⟨row, hmem, hid, rfl⟩ hadd
      rw [← hgrows.1] at hmiss
      exact LookedUp.of_extended hmiss
    · rw [← hid]
      exact hmem

/-- The constants of a list. -/
theorem findEnumConsts_ok (ha : before.Allocated) {enumId : Nat} {names : List Name} :
    ∀ {db db' : EMdFDB} {M : Nat → Name → Prop} {values : List (Option Int)},
      (∀ row ∈ db.tables.enumerationConstants, ∀ row' ∈ db.tables.enumerationConstants,
        row.enumId = row'.enumId → row.enumValueName = row'.enumValueName → row = row') →
      LookedUp before M db → findEnumConsts enumId names db = (.ok values, db') →
      values.all Option.isSome = true → db'.tables = db.tables ∧
        LookedUp before (fun e n => M e n ∨ e = stripEnumIdOfLowerBits enumId ∧ n ∈ names) db' ∧
        List.Forall₂ (FoundConstant db.tables before (stripEnumIdOfLowerBits enumId)) names
          (values.filterMap id) := by
  induction names with
  | nil =>
    intro db db' M values _ hlooked h _
    cases h
    exact ⟨rfl, hlooked.congr fun e n => by simp, .nil⟩
  | cons name names ih =>
    intro db db' M values hkey hlooked h hall
    obtain ⟨value, db₁, hname, hrest⟩ := Effect.bind_ok_iff.mp h
    obtain ⟨values', db₂, hnames, hpure⟩ := Effect.bind_ok_iff.mp hrest
    cases hpure
    rw [List.all_cons, Bool.and_eq_true] at hall
    obtain ⟨v, rfl⟩ := Option.isSome_iff_exists.mp hall.1
    obtain ⟨ht₁, hlooked₁, hvalue⟩ := findEnumConst_ok ha hkey hlooked hname
    obtain ⟨ht₂, hlooked₂, hvalues⟩ := ih (by rwa [ht₁]) hlooked₁ hnames hall.2
    rw [ht₁] at hvalues
    refine ⟨ht₂.trans ht₁, hlooked₂.congr fun e n => ?_, .cons hvalue hvalues⟩
    rw [List.mem_cons]
    tauto

/-- `getDefault`. -/
theorem getDefault_ok (ha : before.Allocated) (hlooked : LookedUp before M db) {enumId : Nat}
    {name : Name} (h : getDefault enumId db = (.ok (some name), db')) :
    db'.tables = db.tables ∧ db'.toCaches = db.toCaches ∧
      FoundDefault db.tables before M (stripEnumIdOfLowerBits enumId) name := by
  unfold getDefault at h
  rw [Effect.read_bind] at h
  obtain ⟨found, db₁, hfind, hrest⟩ := Effect.bind_ok_iff.mp h
  obtain ⟨hfind, rfl⟩ := orStop_ok hfind
  rw [EnumConstMaps.getDefault, Option.map_eq_some_iff] at hfind
  obtain ⟨first, hfirst, rfl⟩ := hfind
  cases first with
  | some p =>
    obtain ⟨v, eci⟩ := p
    cases hrest
    refine ⟨rfl, rfl, ?_⟩
    rcases hlooked.firstDefault_eq_some ha hfirst with ⟨hold, hnot⟩ | ⟨hrow, hovertaken⟩
    · exact .inl ⟨v, eci, hold, rfl, hnot⟩
    · exact .inr ⟨⟨eci.value, Tables.isConstant_of_constants hrow⟩, hovertaken⟩
  | none =>
    obtain ⟨row, db₂, hselect, hpure⟩ := Effect.bind_ok_iff.mp hrest
    obtain ⟨hquery, ht, hcache⟩ := selectRow_ok hselect
    rw [Option.some.injEq] at hquery
    change (Except.ok _, db₂) = _ at hpure
    rw [Prod.mk.injEq, Except.ok.injEq] at hpure
    obtain ⟨hname, rfl⟩ := hpure
    obtain ⟨row', rfl, rfl⟩ := Option.map_eq_some_iff.mp hname
    have hrow := List.find?_some hquery
    rw [Bool.and_eq_true, beq_iff_eq] at hrow
    refine ⟨ht, hcache, .inr ⟨⟨row'.value, row'.isDefault, ?_⟩, fun v eci hold => ?_⟩⟩
    · rw [← hrow.1]
      exact List.mem_of_find?_eq_some hquery
    · exact absurd hold (hlooked.firstDefault_eq_none ha hfirst v eci)

end LookedUp

/-! ## 4. The passes -/

namespace MQLType

variable {db db' : EMdFDB} {T : MQLType}

/-- `symbolEnumerationExists` changes the type id, if anything. -/
theorem symbolEnumerationExists_ok {bResult : Bool} {T' : MQLType}
    (h : symbolEnumerationExists T db = (.ok (bResult, T'), db')) :
    Grows (fun n => n = T.enumeration) db db' ∧ db'.enumConstCache = db.enumConstCache ∧
      ∃ enumId, T' = { T with typeId := enumId } ∧
      (bResult = true → cachedId db'.enumCache T.enumeration = some enumId) ∧
      (cachedId db'.enumCache T.enumeration = some enumId ∨
        ∀ i, ⟨i, T.enumeration⟩ ∉ db.tables.enumerations) := by
  obtain ⟨found, db₁, henum, hpure⟩ := Effect.bind_ok_iff.mp h
  obtain ⟨hgrows, hconst, hcached, hnone⟩ := enumExists_ok henum
  cases found with
  | none =>
    cases hpure
    exact ⟨hgrows, hconst, T.typeId, rfl, fun h => absurd h (by decide), .inr (hnone rfl)⟩
  | some enumId =>
    cases hpure
    exact ⟨hgrows, hconst, enumId, rfl, fun _ => hcached enumId rfl, .inl (hcached enumId rfl)⟩

theorem typeAssignTypeID_enumeration {T' : MQLType} (hnames : T.NamesEnumeration)
    (h : typeAssignTypeID T db = (.ok T', db')) : ∃ bResult enumId,
      symbolEnumerationExists T db = (.ok (bResult, { T with typeId := enumId }), db') ∧
        T' = { T with typeId := enumId ||| T.typeBits } := by
  obtain ⟨kind, enumeration, fromSet, withIndex, typeId⟩ := T
  unfold typeAssignTypeID at h
  rcases hnames with hkind | hkind
  · cases hkind
    obtain ⟨⟨bResult, T₁⟩, db₁, hexists, hpure⟩ := Effect.bind_ok_iff.mp h
    obtain ⟨-, -, enumId, rfl, -⟩ := symbolEnumerationExists_ok hexists
    cases hpure
    have hbits : typeBits ⟨.enumeration, enumeration, fromSet, withIndex, typeId⟩ =
        4 ||| if withIndex then 256 else 0 := by
      cases withIndex <;> simp [typeBits, kindBits, mayHaveIndex, mayBeFromSet]
    refine ⟨bResult, enumId, hexists, ?_⟩
    rw [hbits, ← Nat.or_assoc]
    rfl
  · cases hkind
    obtain ⟨⟨bResult, T₁⟩, db₁, hexists, hpure⟩ := Effect.bind_ok_iff.mp h
    obtain ⟨-, -, enumId, rfl, -⟩ := symbolEnumerationExists_ok hexists
    cases hpure
    exact ⟨bResult, enumId, hexists, rfl⟩

/-- The types that name no enumeration. -/
theorem typeAssignTypeID_other (hnames : ¬ T.NamesEnumeration) :
    typeAssignTypeID T = pure { T with typeId := T.typeBits } := by
  obtain ⟨kind, enumeration, fromSet, withIndex, typeId⟩ := T
  cases kind with
  | enumeration => exact absurd (.inl rfl) hnames
  | listOfEnumeration => exact absurd (.inr rfl) hnames
  | string | ascii =>
    cases fromSet <;> cases withIndex <;>
      simp [typeAssignTypeID, indexBit, fromSetBit, typeBits, kindBits, mayHaveIndex, mayBeFromSet]
  | integer | idD =>
    cases withIndex <;>
      simp [typeAssignTypeID, indexBit, typeBits, kindBits, mayHaveIndex, mayBeFromSet]
  | listOfInteger | listOfIdD | setOfMonads =>
    simp [typeAssignTypeID, typeBits, kindBits, mayHaveIndex, mayBeFromSet]

end MQLType

namespace FeatureDeclaration

variable {db db' : EMdFDB} {d d' : FeatureDeclaration}

/-- What a pass establishes for each declaration, where a cache that grows leaves it as it is. -/
theorem eachDeclaration_ok {pass : FeatureDeclaration → DB FeatureDeclaration}
    {P : Tables → FeatureDeclaration → Name → Prop}
    {R : EMdFDB → FeatureDeclaration → FeatureDeclaration → Prop}
    (hpass : ∀ {db db' d d'}, pass d db = (.ok d', db') →
      Grows (P db.tables d) db db' ∧ R db' d d')
    (hgrows : ∀ {db db' d d' Q}, Grows Q db db' → R db d d' → R db' d d')
    {ds : List FeatureDeclaration} : ∀ {db db' : EMdFDB} {ds' : List FeatureDeclaration},
      eachDeclaration pass ds db = (.ok ds', db') →
        Grows (fun n => ∃ d ∈ ds, P db.tables d n) db db' ∧ List.Forall₂ (R db') ds ds' := by
  induction ds with
  | nil =>
    intro db db' ds' h
    cases h
    exact ⟨Grows.refl _ _, .nil⟩
  | cons d ds ih =>
    intro db db' ds' h
    obtain ⟨ds₁, db₁, hds, hrest⟩ := Effect.bind_ok_iff.mp h
    obtain ⟨d', db₂, hd, hpure⟩ := Effect.bind_ok_iff.mp hrest
    cases hpure
    obtain ⟨hgrows₁, hall⟩ := ih hds
    obtain ⟨hgrows₂, hone⟩ := hpass hd
    rw [hgrows₁.1] at hgrows₂
    refine ⟨(hgrows₁.mono ?_).trans (hgrows₂.mono ?_), .cons hone (hall.imp fun _ _ hR =>
      hgrows hgrows₂ hR)⟩
    · rintro row - ⟨e, he, hP⟩
      exact ⟨e, List.mem_cons_of_mem _ he, hP⟩
    · exact fun row _ hP => ⟨d, List.mem_cons_self, hP⟩

/-- A pass that leaves the cache of the constants alone, for each declaration. -/
theorem eachDeclaration_constants {pass : FeatureDeclaration → DB FeatureDeclaration}
    (hpass : ∀ {db db' d d'}, pass d db = (.ok d', db') → db'.enumConstCache = db.enumConstCache)
    {ds : List FeatureDeclaration} : ∀ {db db' : EMdFDB} {ds' : List FeatureDeclaration},
      eachDeclaration pass ds db = (.ok ds', db') → db'.enumConstCache = db.enumConstCache := by
  induction ds with
  | nil =>
    intro db db' ds' h
    cases h
    rfl
  | cons d ds ih =>
    intro db db' ds' h
    obtain ⟨ds₁, db₁, hds, hrest⟩ := Effect.bind_ok_iff.mp h
    obtain ⟨d', db₂, hd, hpure⟩ := Effect.bind_ok_iff.mp hrest
    cases hpure
    exact (hpass hd).trans (ih hds)

/-- The first pass finds the enumerations that are the type of a feature. -/
def Found (db : EMdFDB) (d d' : FeatureDeclaration) : Prop :=
  d' = { d with type := { d.type with typeId := d'.type.typeId } } ∧
    (d.type.type = .enumeration →
      cachedId db.enumCache d.type.enumeration = some d'.type.typeId)

theorem symbolEnumerationsExist_ok (h : symbolEnumerationsExist d db = (.ok d', db')) :
    (Grows (fun n => d.type.type = .enumeration ∧ n = d.type.enumeration) db db' ∧
      Found db' d d') ∧ db'.enumConstCache = db.enumConstCache := by
  unfold symbolEnumerationsExist at h
  by_cases htype : d.type.type = .enumeration
  · rw [if_pos htype] at h
    obtain ⟨⟨bResult, T⟩, db₁, hexists, hrest⟩ := Effect.bind_ok_iff.mp h
    obtain ⟨u, db₂, hcheck, hpure⟩ := Effect.bind_ok_iff.mp hrest
    obtain ⟨hresult, rfl⟩ := check_ok hcheck
    cases hpure
    obtain ⟨hgrows, hconst, enumId, hT, hcached, -⟩ := MQLType.symbolEnumerationExists_ok hexists
    subst hT
    exact ⟨⟨hgrows.mono fun _ _ hn => ⟨htype, hn⟩, rfl, fun _ => hcached hresult⟩, hconst⟩
  · rw [if_neg htype] at h
    cases h
    exact ⟨⟨Grows.refl _ _, rfl, fun h => absurd h htype⟩, rfl⟩

/-- The second pass looks up the constants that are given as defaults. -/
theorem symbolEnumConstantsExist_cases (h : symbolEnumConstantsExist d db = (.ok d', db')) :
    d = d' ∧ ((∃ name value, d.type.type = .enumeration ∧
        d.defaultSpecification = some (.identifier name) ∧
        findEnumConst name d.type.typeId db = (.ok (some value), db')) ∨
      (¬ ∃ name, d.type.type = .enumeration ∧ d.UsesConstant name) ∧ db' = db) := by
  by_cases hid : d.type.type = .enumeration ∧
      ∃ name, d.defaultSpecification = some (.identifier name)
  · obtain ⟨htype, name, hname⟩ := hid
    rw [symbolEnumConstantsExist, htype, hname] at h
    obtain ⟨value, db₁, hfind, hrest⟩ := Effect.bind_ok_iff.mp h
    obtain ⟨u, db₂, hcheck, hpure⟩ := Effect.bind_ok_iff.mp hrest
    obtain ⟨hsome, rfl⟩ := check_ok hcheck
    cases hpure
    obtain ⟨v, rfl⟩ := Option.isSome_iff_exists.mp hsome
    exact ⟨rfl, .inl ⟨name, v, htype, hname, hfind⟩⟩
  · have hpure : symbolEnumConstantsExist d = pure d := by
      unfold symbolEnumConstantsExist
      split
      · next name htype hname => exact absurd ⟨htype, name, hname⟩ hid
      · rfl
    rw [hpure] at h
    cases h
    refine ⟨rfl, .inr ⟨?_, rfl⟩⟩
    rintro ⟨name, htype, huses⟩
    unfold UsesConstant at huses
    split at huses
    · next n _ hdefault => exact hid ⟨htype, n, hdefault⟩
    · next hlist _ =>
      rw [htype] at hlist
      cases hlist
    · exact huses

theorem symbolEnumConstantsExist_ok (h : symbolEnumConstantsExist d db = (.ok d', db')) :
    Grows (fun n => d.type.type = .enumeration ∧
      ⟨stripEnumIdOfLowerBits d.type.typeId, n⟩ ∈ db.tables.enumerations) db db' ∧ d = d' := by
  obtain ⟨rfl, ⟨name, value, htype, -, hfind⟩ | ⟨-, rfl⟩⟩ := symbolEnumConstantsExist_cases h
  · exact ⟨(findEnumConst_grows hfind).mono fun _ _ hn => ⟨htype, hn⟩, rfl⟩
  · exact ⟨Grows.refl _ _, rfl⟩

/-- What the second pass has looked up when it is through. -/
theorem symbolEnumConstantsExist_lookedUp {before : EnumConstMaps} (ha : before.Allocated)
    {ds : List FeatureDeclaration} : ∀ {db db' : EMdFDB} {ds' : List FeatureDeclaration}
      {M : Nat → Name → Prop},
      (∀ row ∈ db.tables.enumerationConstants, ∀ row' ∈ db.tables.enumerationConstants,
        row.enumId = row'.enumId → row.enumValueName = row'.enumValueName → row = row') →
      LookedUp before M db → eachDeclaration symbolEnumConstantsExist ds db = (.ok ds', db') →
      db'.tables = db.tables ∧ LookedUp before (fun e n => M e n ∨ ∃ d ∈ ds,
        e = stripEnumIdOfLowerBits d.type.typeId ∧ d.type.type = .enumeration ∧
          d.UsesConstant n) db' := by
  induction ds with
  | nil =>
    intro db db' ds' M _ hlooked h
    cases h
    exact ⟨rfl, hlooked.congr fun e n => by simp⟩
  | cons d ds ih =>
    intro db db' ds' M hkey hlooked h
    obtain ⟨ds₁, db₁, hds, hrest⟩ := Effect.bind_ok_iff.mp h
    obtain ⟨d', db₂, hd, hpure⟩ := Effect.bind_ok_iff.mp hrest
    cases hpure
    obtain ⟨ht₁, hlooked₁⟩ := ih hkey hlooked hds
    obtain ⟨-, ⟨name, value, htype, hdefault, hfind⟩ | ⟨hnone, rfl⟩⟩ :=
      symbolEnumConstantsExist_cases hd
    · obtain ⟨ht₂, hlooked₂, -⟩ := findEnumConst_ok ha (by rwa [ht₁]) hlooked₁ hfind
      refine ⟨ht₂.trans ht₁, hlooked₂.congr fun e n => ?_⟩
      have huses : d.UsesConstant n ↔ n = name := by
        rw [UsesConstant, htype, hdefault]
      simp only [List.mem_cons, exists_eq_or_imp, htype, huses, true_and]
      rw [or_assoc]
      exact or_congr_right or_comm
    · refine ⟨ht₁, hlooked₁.congr fun e n => ?_⟩
      have hno : ¬ (d.type.type = .enumeration ∧ d.UsesConstant n) := fun h => hnone ⟨n, h⟩
      simp only [List.mem_cons, exists_eq_or_imp]
      exact or_congr_right (or_iff_right fun h => hno h.2).symm

/-- The third pass assigns type ids. -/
def Assigned (db : EMdFDB) (d d' : FeatureDeclaration) : Prop :=
  ∃ enumId, d' = { d with type := { d.type with typeId := enumId ||| d.type.typeBits } } ∧
    (¬ d.type.NamesEnumeration → enumId = 0) ∧
    (d.type.NamesEnumeration → cachedId db.enumCache d.type.enumeration = some enumId ∨
      ∀ i, ⟨i, d.type.enumeration⟩ ∉ db.tables.enumerations)

theorem typeAssignTypeID_ok (h : typeAssignTypeID d db = (.ok d', db')) :
    (Grows (fun n => d.type.NamesEnumeration ∧ n = d.type.enumeration) db db' ∧
      Assigned db' d d') ∧ db'.enumConstCache = db.enumConstCache := by
  obtain ⟨T, db₁, hassign, hpure⟩ := Effect.bind_ok_iff.mp h
  cases hpure
  by_cases hnames : d.type.NamesEnumeration
  · obtain ⟨bResult, enumId, hexists, rfl⟩ := MQLType.typeAssignTypeID_enumeration hnames hassign
    obtain ⟨hgrows, hconst, i, hi, -, hcached⟩ := MQLType.symbolEnumerationExists_ok hexists
    rw [MQLType.mk.injEq] at hi
    refine ⟨⟨hgrows.mono fun _ _ hn => ⟨hnames, hn⟩, enumId, rfl, fun h => absurd hnames h,
      fun _ => ?_⟩, hconst⟩
    rw [hi.2.2.2.2, hgrows.1]
    exact hcached
  · rw [MQLType.typeAssignTypeID_other hnames] at hassign
    cases hassign
    refine ⟨⟨Grows.refl _ _, 0, ?_, fun _ => rfl, fun h => absurd h hnames⟩, rfl⟩
    rw [Nat.zero_or]

/-- The values of the types that name no enumeration, but for lists of `id_d`s. -/
def Plain (T : FeatureTypeKind) : Prop :=
  T ≠ .listOfIdD ∧ T ≠ .enumeration ∧ T ≠ .listOfEnumeration

/-- What the fourth pass keeps as the default; the constants of `M` have been looked up before. -/
structure Defaulted (t : Tables) (before : EnumConstMaps) (M : Nat → Name → Prop)
    (d d' : FeatureDeclaration) (e : Expression) : Prop where
  eq : d' = { d with defaultSpecification := some e }
  idDs : d.type.type = .listOfIdD → e = d.defaultSpecification.getD .emptyList ∧
    (e = .emptyList ∨ ∃ is, e = .listOfInteger is)
  plain : Plain d.type.type → e.HasType t 0 d.type.type
  constant : d.type.type = .enumeration → ∃ name, e = .identifier name ∧
    ((d.UsesConstant name ∧
        ∃ value, FoundConstant t before (stripEnumIdOfLowerBits d.type.typeId) name value) ∨
      d.defaultSpecification = none ∧
        FoundDefault t before M (stripEnumIdOfLowerBits d.type.typeId) name)
  elements : d.type.type = .listOfEnumeration →
    e = .emptyList ∧ (∀ name, ¬ d.UsesConstant name) ∨
    ∃ names values, e = .listOfIdentifier names (some values) ∧
      (∀ name, d.UsesConstant name ↔ name ∈ names) ∧ List.Forall₂
        (FoundConstant t before (stripEnumIdOfLowerBits d.type.typeId)) names values

/-- The constants that the fourth pass looks up for a declaration. -/
def LooksUp (d : FeatureDeclaration) (enumId : Nat) (name : Name) : Prop :=
  enumId = stripEnumIdOfLowerBits d.type.typeId ∧ d.UsesConstant name

section Fourth

variable {before : EnumConstMaps} {M : Nat → Name → Prop}

theorem not_usesConstant_of_plain (h : Plain d.type.type) (name : Name) :
    ¬ d.UsesConstant name := by
  intro huses
  unfold UsesConstant at huses
  split at huses
  · next htype _ => exact h.2.1 htype
  · next htype _ => exact h.2.2 htype
  · exact huses

/-- **A declaration with a default**: most are checked and kept. -/
theorem typeTypeCompatibility_some (ha : before.Allocated)
    (hkey : ∀ row ∈ db.tables.enumerationConstants, ∀ row' ∈ db.tables.enumerationConstants,
      row.enumId = row'.enumId → row.enumValueName = row'.enumValueName → row = row')
    (hlooked : LookedUp before M db) {e e' : Expression}
    (hdefault : d.defaultSpecification = some e)
    (h : e.typeTypeCompatibility d.type db = (.ok e', db')) :
    db'.tables = db.tables ∧ LookedUp before (fun i n => M i n ∨ d.LooksUp i n) db' ∧
      Defaulted db.tables before M d { d with defaultSpecification := some e' } e' := by
  -- What looks nothing up, and is not a constant.
  have hkeep : db' = db → (∀ name, ¬ d.UsesConstant name) →
      (d.type.type = .listOfIdD → e' = e ∧ (e' = .emptyList ∨ ∃ is, e' = .listOfInteger is)) →
      (Plain d.type.type → e'.HasType db.tables 0 d.type.type) → d.type.type ≠ .enumeration →
      (d.type.type = .listOfEnumeration → e' = .emptyList) →
      db'.tables = db.tables ∧ LookedUp before (fun i n => M i n ∨ d.LooksUp i n) db' ∧
        Defaulted db.tables before M d { d with defaultSpecification := some e' } e' := by
    rintro rfl huses hidDs hplain hne hlist
    refine ⟨rfl, hlooked.congr fun i n => ?_, rfl, fun htype => ?_, hplain,
      fun htype => absurd htype hne, fun htype => .inl ⟨hlist htype, huses⟩⟩
    · simp [LooksUp, huses n]
    · rw [hdefault]
      exact hidDs htype
  have hsame : ∀ {b : Bool}, (do check b; pure e : DB Expression) db = (.ok e', db') →
      b = true ∧ e' = e ∧ db' = db := by
    intro b hb
    obtain ⟨u, db₁, hcheck, hpure⟩ := Effect.bind_ok_iff.mp hb
    obtain ⟨htrue, rfl⟩ := check_ok hcheck
    cases hpure
    exact ⟨htrue, rfl, rfl⟩
  have hnone : (∀ n, e ≠ .identifier n) → (∀ ns vs, e ≠ .listOfIdentifier ns vs) →
      ∀ name, ¬ d.UsesConstant name := by
    intro hid hlist name huses
    unfold UsesConstant at huses
    rw [hdefault] at huses
    split at huses
    · next heq => exact hid _ (Option.some.inj heq)
    · next heq => exact hlist _ _ (Option.some.inj heq)
    · exact huses
  cases e with
  | integer i =>
    obtain ⟨hb, rfl, hdb⟩ := hsame h
    simp only [Bool.or_eq_true, Bool.and_eq_true, decide_eq_true_eq] at hb
    refine hkeep hdb (hnone (by simp) (by simp)) (fun htype => ?_) (fun _ => ?_)
      (fun htype => ?_) fun htype => ?_
    · simp [htype] at hb
    · rcases hb with htype | ⟨htype, hi⟩
      · rw [htype]
        exact ⟨i, rfl⟩
      · rw [htype]
        exact ⟨i, rfl, hi⟩
    · simp [htype] at hb
    · simp [htype] at hb
  | string str =>
    obtain ⟨hb, rfl, hdb⟩ := hsame h
    simp only [Bool.or_eq_true, decide_eq_true_eq] at hb
    refine hkeep hdb (hnone (by simp) (by simp)) (fun htype => ?_) (fun _ => ?_)
      (fun htype => ?_) fun htype => ?_
    · simp [htype] at hb
    · rcases hb with htype | htype
      · rw [htype]
        exact ⟨str, rfl⟩
      · rw [htype]
        exact ⟨str, rfl⟩
    · simp [htype] at hb
    · simp [htype] at hb
  | identifier name =>
    obtain ⟨u, db₁, hcheck, hrest⟩ := Effect.bind_ok_iff.mp h
    obtain ⟨htype, rfl⟩ := check_ok hcheck
    obtain ⟨value, db₂, hfind, hrest⟩ := Effect.bind_ok_iff.mp hrest
    obtain ⟨u', db₃, hcheck', hpure⟩ := Effect.bind_ok_iff.mp hrest
    obtain ⟨hsome, rfl⟩ := check_ok hcheck'
    cases hpure
    rw [decide_eq_true_eq] at htype
    obtain ⟨v, rfl⟩ := Option.isSome_iff_exists.mp hsome
    obtain ⟨ht, hlooked', hfound⟩ := findEnumConst_ok ha hkey hlooked hfind
    have huses : ∀ n, d.UsesConstant n ↔ n = name := by
      intro n
      rw [UsesConstant, htype, hdefault]
    refine ⟨ht, hlooked'.congr fun i n => by rw [LooksUp, huses], rfl, ?_, ?_,
      fun _ => ⟨name, rfl, .inl ⟨(huses name).mpr rfl, v, hfound⟩⟩, ?_⟩
    · intro hlist
      rw [htype] at hlist
      cases hlist
    · exact fun hplain => absurd htype hplain.2.1
    · intro hlist
      rw [htype] at hlist
      cases hlist
  | emptyList =>
    obtain ⟨hb, rfl, hdb⟩ := hsame h
    simp only [Bool.or_eq_true, decide_eq_true_eq] at hb
    refine hkeep hdb (hnone (by simp) (by simp)) (fun _ => ⟨rfl, .inl rfl⟩) (fun hplain => ?_)
      (fun htype => ?_) fun _ => rfl
    · rcases hb with (htype | htype) | htype
      · rw [htype]
        exact .inl rfl
      · exact absurd htype hplain.1
      · exact absurd htype hplain.2.2
    · simp [htype] at hb
  | listOfInteger is =>
    obtain ⟨hb, rfl, hdb⟩ := hsame h
    simp only [Bool.or_eq_true, decide_eq_true_eq] at hb
    refine hkeep hdb (hnone (by simp) (by simp)) (fun _ => ⟨rfl, .inr ⟨is, rfl⟩⟩)
      (fun hplain => ?_) (fun htype => ?_) fun htype => ?_
    · rw [hb.resolve_right hplain.1]
      exact .inr ⟨is, rfl⟩
    · simp [htype] at hb
    · simp [htype] at hb
  | listOfIdentifier names values =>
    obtain ⟨u, db₁, hcheck, hrest⟩ := Effect.bind_ok_iff.mp h
    obtain ⟨htype, rfl⟩ := check_ok hcheck
    obtain ⟨found, db₂, hfind, hrest⟩ := Effect.bind_ok_iff.mp hrest
    obtain ⟨u', db₃, hcheck', hpure⟩ := Effect.bind_ok_iff.mp hrest
    obtain ⟨hall, rfl⟩ := check_ok hcheck'
    cases hpure
    rw [decide_eq_true_eq] at htype
    obtain ⟨ht, hlooked', hfound⟩ := findEnumConsts_ok ha hkey hlooked hfind hall
    have huses : ∀ n, d.UsesConstant n ↔ n ∈ names := by
      intro n
      rw [UsesConstant, htype, hdefault]
    refine ⟨ht, hlooked'.congr fun i n => by rw [LooksUp, huses], rfl, ?_, ?_, ?_,
      fun _ => .inr ⟨names, _, rfl, huses, hfound⟩⟩
    · intro hidDs
      rw [htype] at hidDs
      cases hidDs
    · exact fun hplain => absurd htype hplain.2.2
    · intro henum
      rw [htype] at henum
      cases henum
  | monadSetElements monadSet =>
    obtain ⟨hb, rfl, hdb⟩ := hsame h
    rw [decide_eq_true_eq] at hb
    refine hkeep hdb (hnone (by simp) (by simp)) (by simp [hb]) (fun _ => ?_) (by simp [hb])
      (by simp [hb])
    rw [hb]
    exact .inl ⟨monadSet, rfl⟩
  | setOfMonads som =>
    obtain ⟨hb, rfl, hdb⟩ := hsame h
    rw [decide_eq_true_eq] at hb
    refine hkeep hdb (hnone (by simp) (by simp)) (by simp [hb]) (fun _ => ?_) (by simp [hb])
      (by simp [hb])
    rw [hb]
    exact .inr ⟨som, rfl⟩

/-- **A declaration without a default** gets that of its type. -/
theorem typeDefault_ok (ha : before.Allocated) (hlooked : LookedUp before M db) {e : Expression}
    (hdefault : d.defaultSpecification = none)
    (h : Expression.typeDefault d.type db = (.ok e, db')) :
    db'.tables = db.tables ∧ LookedUp before (fun i n => M i n ∨ d.LooksUp i n) db' ∧
      Defaulted db.tables before M d { d with defaultSpecification := some e } e := by
  have huses : ∀ name, ¬ d.UsesConstant name := by
    intro name hname
    unfold UsesConstant at hname
    rw [hdefault] at hname
    split at hname <;> simp_all
  have hlooked' : db'.tables = db.tables → db'.enumConstCache = db.enumConstCache →
      LookedUp before (fun i n => M i n ∨ d.LooksUp i n) db' := fun ht hcache =>
    (hlooked.of_same ht hcache).congr fun i n => by simp [LooksUp, huses n]
  have hkeep : db' = db → (d.type.type = .listOfIdD → e = .emptyList) →
      (Plain d.type.type → e.HasType db.tables 0 d.type.type) → d.type.type ≠ .enumeration →
      (d.type.type = .listOfEnumeration → e = .emptyList) →
      db'.tables = db.tables ∧ LookedUp before (fun i n => M i n ∨ d.LooksUp i n) db' ∧
        Defaulted db.tables before M d { d with defaultSpecification := some e } e := by
    rintro rfl hidDs hplain hne hlist
    refine ⟨rfl, hlooked' rfl rfl, rfl, fun htype => ?_, hplain, fun htype => absurd htype hne,
      fun htype => .inl ⟨hlist htype, huses⟩⟩
    rw [hdefault, hidDs htype]
    exact ⟨rfl, .inl rfl⟩
  rw [Expression.typeDefault] at h
  cases htype : d.type.type with
  | enumeration =>
    rw [htype] at h
    obtain ⟨found, db₁, hget, hrest⟩ := Effect.bind_ok_iff.mp h
    obtain ⟨name, db₂, hsome, hpure⟩ := Effect.bind_ok_iff.mp hrest
    obtain ⟨rfl, rfl⟩ := orStop_ok hsome
    cases hpure
    obtain ⟨ht, hcache, hfound⟩ := getDefault_ok ha hlooked hget
    refine ⟨ht, hlooked' ht (congrArg Caches.enumConstCache hcache), rfl, ?_, ?_,
      fun _ => ⟨name, rfl, .inr ⟨hdefault, hfound⟩⟩, ?_⟩
    · intro h
      rw [htype] at h
      cases h
    · exact fun h => absurd htype h.2.1
    · intro h
      rw [htype] at h
      cases h
  | listOfIdD | listOfEnumeration =>
    rw [htype] at h
    cases h
    exact hkeep rfl (fun _ => rfl) (fun hplain => by simp [Plain, htype] at hplain)
      (by simp [htype]) fun _ => rfl
  | integer =>
    rw [htype] at h
    cases h
    exact hkeep rfl (by simp [htype]) (fun _ => by rw [htype]; exact ⟨0, rfl⟩) (by simp [htype])
      (by simp [htype])
  | idD =>
    rw [htype] at h
    cases h
    exact hkeep rfl (by simp [htype]) (fun _ => by rw [htype]; exact ⟨nil, rfl, by decide⟩)
      (by simp [htype]) (by simp [htype])
  | string | ascii =>
    rw [htype] at h
    cases h
    exact hkeep rfl (by simp [htype]) (fun _ => by rw [htype]; exact ⟨[], rfl⟩) (by simp [htype])
      (by simp [htype])
  | listOfInteger =>
    rw [htype] at h
    cases h
    exact hkeep rfl (by simp [htype]) (fun _ => by rw [htype]; exact .inl rfl) (by simp [htype])
      (by simp [htype])
  | setOfMonads =>
    rw [htype] at h
    cases h
    exact hkeep rfl (by simp [htype]) (fun _ => by rw [htype]; exact .inr ⟨.empty, rfl⟩)
      (by simp [htype]) (by simp [htype])

theorem typeTypeCompatibility_ok (ha : before.Allocated)
    (hkey : ∀ row ∈ db.tables.enumerationConstants, ∀ row' ∈ db.tables.enumerationConstants,
      row.enumId = row'.enumId → row.enumValueName = row'.enumValueName → row = row')
    (hlooked : LookedUp before M db) (h : typeTypeCompatibility d db = (.ok d', db')) :
    db'.tables = db.tables ∧ LookedUp before (fun i n => M i n ∨ d.LooksUp i n) db' ∧
      ∃ e, Defaulted db.tables before M d d' e := by
  unfold typeTypeCompatibility at h
  cases hdefault : d.defaultSpecification with
  | some e =>
    rw [hdefault] at h
    obtain ⟨e', db₁, hcompatible, hpure⟩ := Effect.bind_ok_iff.mp h
    cases hpure
    obtain ⟨ht, hlooked', hdefaulted⟩ :=
      typeTypeCompatibility_some ha hkey hlooked hdefault hcompatible
    exact ⟨ht, hlooked', e', hdefaulted⟩
  | none =>
    rw [hdefault] at h
    obtain ⟨e', db₁, hmade, hpure⟩ := Effect.bind_ok_iff.mp h
    cases hpure
    obtain ⟨ht, hlooked', hdefaulted⟩ := typeDefault_ok ha hlooked hdefault hmade
    exact ⟨ht, hlooked', e', hdefaulted⟩

end Fourth

end FeatureDeclaration

/-! ## 5. All passes -/

/-- Two relations between lists, one after the other. -/
theorem forall₂_comp {α β γ : Type} {R : α → β → Prop} {S : β → γ → Prop} :
    ∀ {l : List α} {m : List β} {r : List γ}, List.Forall₂ R l m → List.Forall₂ S m r →
      List.Forall₂ (fun a c => ∃ b, R a b ∧ S b c) l r := by
  intro l m r h
  induction h generalizing r with
  | nil =>
    intro h'
    cases h'
    exact .nil
  | cons hab _ ih =>
    intro h'
    cases h' with
    | cons hbc hrest => exact .cons ⟨_, hab, hbc⟩ (ih hrest)

theorem forall₂_and {α β : Type} {R S : α → β → Prop} {l : List α} {m : List β}
    (h : List.Forall₂ R l m) (h' : List.Forall₂ S l m) :
    List.Forall₂ (fun a b => R a b ∧ S a b) l m := by
  induction h with
  | nil => exact .nil
  | cons hab _ ih =>
    cases h' with
    | cons hab' hrest => exact .cons ⟨hab, hab'⟩ (ih hrest)

/-- Two lists are related element by element, by a relation that looks at the rest of the first. -/
inductive Alongside {α β : Type} (R : List α → α → β → Prop) : List α → List β → Prop where
  | nil : Alongside R [] []
  | cons {a : α} {b : β} {as : List α} {bs : List β} (h : R as a b) (hrest : Alongside R as bs) :
    Alongside R (a :: as) (b :: bs)

theorem forall₂_alongside {α β γ : Type} {R : α → β → Prop} {S : List β → β → γ → Prop} :
    ∀ {l : List α} {m : List β} {r : List γ}, List.Forall₂ R l m → Alongside S m r →
      Alongside (fun as a c => ∃ bs b, List.Forall₂ R as bs ∧ R a b ∧ S bs b c) l r := by
  intro l m r h
  induction h generalizing r with
  | nil =>
    intro h'
    cases h'
    exact .nil
  | cons hab hrest ih =>
    intro h'
    cases h' with
    | cons hbc hrest' => exact .cons ⟨_, _, hrest, hab, hbc⟩ (ih hrest')

theorem Alongside.imp {α β : Type} {R S : List α → α → β → Prop} {l : List α} {m : List β}
    (h : Alongside R l m) (hRS : ∀ as a b, R as a b → S as a b) : Alongside S l m := by
  induction h with
  | nil => exact .nil
  | cons hR _ ih => exact .cons (hRS _ _ _ hR) ih

/-- Element by element, for each way of cutting the first list. -/
theorem Alongside.forall₂ {α β : Type} {R : List α → α → β → Prop} {S : α → β → Prop}
    {l : List α} {m : List β} (h : Alongside R l m)
    (hS : ∀ front a as b, l = front ++ a :: as → R as a b → S a b) : List.Forall₂ S l m := by
  induction h with
  | nil => exact .nil
  | @cons a b as bs hR _ ih =>
    refine .cons (hS [] a as b rfl hR) (ih fun front a' as' b' hsplit => ?_)
    exact hS (a :: front) a' as' b' (by rw [hsplit, List.cons_append])

theorem Alongside.exists_of_split {α β : Type} {R : List α → α → β → Prop} {S : α → β → Prop}
    {l : List α} {m : List β} (h : Alongside R l m) (h' : List.Forall₂ S l m) {front as : List α}
    {a : α} (hsplit : l = front ++ a :: as) : ∃ b, R as a b ∧ S a b := by
  induction h generalizing front with
  | nil => simp at hsplit
  | cons hR _ ih =>
    cases h' with
    | cons hS hrest =>
      cases front with
      | nil =>
        rw [List.nil_append, List.cons.injEq] at hsplit
        obtain ⟨rfl, rfl⟩ := hsplit
        exact ⟨_, hR, hS⟩
      | cons a' front =>
        rw [List.cons_append, List.cons.injEq] at hsplit
        exact ih hrest hsplit.2

theorem exists_of_mem_left {α β : Type} {R : α → β → Prop} {l : List α} {m : List β}
    (h : List.Forall₂ R l m) {a : α} (ha : a ∈ l) : ∃ b ∈ m, R a b := by
  induction h with
  | nil => cases ha
  | cons hR _ ih =>
    rcases List.mem_cons.mp ha with rfl | ha
    · exact ⟨_, List.mem_cons_self, hR⟩
    · obtain ⟨b, hb, hab⟩ := ih ha
      exact ⟨b, List.mem_cons_of_mem _ hb, hab⟩

theorem exists_of_mem_right {α β : Type} {R : α → β → Prop} {l : List α} {m : List β}
    (h : List.Forall₂ R l m) {b : β} (hb : b ∈ m) : ∃ a ∈ l, R a b := by
  induction h with
  | nil => cases hb
  | cons hab _ ih =>
    rcases List.mem_cons.mp hb with rfl | hb
    · exact ⟨_, List.mem_cons_self, hab⟩
    · obtain ⟨a, ha, hR⟩ := ih hb
      exact ⟨a, List.mem_cons_of_mem _ ha, hR⟩

namespace FeatureDeclaration

variable {db db' : EMdFDB} {ds ds' : List FeatureDeclaration}

/-- The enumerations that a list of declarations names. -/
def Names (ds : List FeatureDeclaration) (enumName : Name) : Prop :=
  ∃ d ∈ ds, d.type.NamesEnumeration ∧ enumName = d.type.enumeration

/-- A declaration through all passes: the first leaves `typeId`, the third assigns the type id with
`enumId`, and both are found in the cache as it is after the third. -/
structure Passed (db cached : EMdFDB) (M : Nat → Name → Prop) (d d' : FeatureDeclaration)
    (typeId enumId : Nat) (e : Expression) : Prop where
  eq : d' = { d with
    type := { d.type with typeId := enumId ||| d.type.typeBits }, defaultSpecification := some e }
  type : d.type.type = .enumeration →
    cachedId cached.enumCache d.type.enumeration = some typeId
  other : ¬ d.type.NamesEnumeration → enumId = 0
  names : d.type.NamesEnumeration →
    cachedId cached.enumCache d.type.enumeration = some enumId ∨
      ∀ i, ⟨i, d.type.enumeration⟩ ∉ db.tables.enumerations
  defaulted : ∃ d₃, d₃ = { d with type := { d.type with typeId := enumId ||| d.type.typeBits } } ∧
    Defaulted db.tables db.enumConstCache M d₃ d' e

/-- The constants that have been looked up when the fourth pass comes to a declaration with `later`
behind it, by the ids that the cache gives the enumerations. -/
def LookedUpBy (db cached : EMdFDB) (ds later : List FeatureDeclaration) (enumId : Nat)
    (name : Name) : Prop :=
  (∃ e ∈ ds, e.type.type = .enumeration ∧ e.UsesConstant name ∧
    ∃ i, cachedId cached.enumCache e.type.enumeration = some i ∧
      enumId = stripEnumIdOfLowerBits i) ∨
  ∃ e ∈ later, e.UsesConstant name ∧ ∃ i,
    (cachedId cached.enumCache e.type.enumeration = some i ∨
      ∀ j, ⟨j, e.type.enumeration⟩ ∉ db.tables.enumerations) ∧
    enumId = stripEnumIdOfLowerBits (i ||| e.type.typeBits)

/-- Under the condition, what the cache has is in the table. -/
theorem mem_of_cachedId (h : Declarable db ds) {cached : EMdFDB}
    (hgrows : Grows (Names ds) db cached) {d : FeatureDeclaration} (hd : d ∈ ds)
    (hnames : d.type.NamesEnumeration) {enumId : Nat}
    (hid : cachedId cached.enumCache d.type.enumeration = some enumId) :
    ⟨enumId, d.type.enumeration⟩ ∈ db.tables.enumerations := by
  obtain ⟨-, added, hcache, hadded⟩ := hgrows
  rw [hcache, cachedId, List.find?_append, Option.map_eq_some_iff] at hid
  obtain ⟨row, hrow, rfl⟩ := hid
  cases hfound : db.enumCache.find? fun r => sameNocase r.enumName d.type.enumeration with
  | some row' =>
    rw [hfound, Option.some_or, Option.some.injEq] at hrow
    subst hrow
    exact h.cached d hd hnames row' hfound
  | none =>
    rw [hfound, Option.none_or] at hrow
    obtain ⟨hmem, e, he, henames, hname⟩ := hadded row (List.mem_of_find?_eq_some hrow)
    have hcase := List.find?_some hrow
    rw [hname] at hcase
    rw [← h.sameCase e he d hd henames hnames hcase, ← hname]
    exact hmem

theorem Found.of_grows {d d' : FeatureDeclaration} {P : Name → Prop} (h : Found db d d')
    (hgrows : Grows P db db') : Found db' d d' :=
  ⟨h.1, fun htype => hgrows.cachedId (h.2 htype)⟩

theorem Assigned.of_grows {d d' : FeatureDeclaration} {P : Name → Prop} (h : Assigned db d d')
    (hgrows : Grows P db db') : Assigned db' d d' := by
  obtain ⟨enumId, heq, hother, hnames⟩ := h
  refine ⟨enumId, heq, hother, fun hn => ?_⟩
  rw [hgrows.1]
  exact (hnames hn).imp_left hgrows.cachedId

/-- What names a constant names an enumeration. -/
theorem UsesConstant.namesEnumeration {d : FeatureDeclaration} {name : Name}
    (h : d.UsesConstant name) : d.type.NamesEnumeration := by
  by_contra hnames
  unfold UsesConstant at h
  split at h
  · next htype _ => exact hnames (.inl htype)
  · next htype _ => exact hnames (.inr htype)
  · exact h

/-- The passes change nothing that says which constants are named. -/
theorem usesConstant_congr (d d' : FeatureDeclaration) (htype : d'.type.type = d.type.type)
    (hdefault : d'.defaultSpecification = d.defaultSpecification) (name : Name) :
    d'.UsesConstant name ↔ d.UsesConstant name := by
  rw [UsesConstant, UsesConstant, htype, hdefault]

/-- The fourth pass, for each declaration with what is behind it. -/
theorem typeTypeCompatibility_alongside {before : EnumConstMaps} (ha : before.Allocated)
    {ds : List FeatureDeclaration} : ∀ {db db' : EMdFDB} {ds' : List FeatureDeclaration}
      {M : Nat → Name → Prop},
      (∀ row ∈ db.tables.enumerationConstants, ∀ row' ∈ db.tables.enumerationConstants,
        row.enumId = row'.enumId → row.enumValueName = row'.enumValueName → row = row') →
      LookedUp before M db → eachDeclaration typeTypeCompatibility ds db = (.ok ds', db') →
      db'.tables = db.tables ∧
        LookedUp before (fun i n => M i n ∨ ∃ d ∈ ds, d.LooksUp i n) db' ∧
        Alongside (fun later d d' => ∃ e, Defaulted db.tables before
          (fun i n => M i n ∨ ∃ u ∈ later, u.LooksUp i n) d d' e) ds ds' := by
  induction ds with
  | nil =>
    intro db db' ds' M _ hlooked h
    cases h
    exact ⟨rfl, hlooked.congr fun i n => by simp, .nil⟩
  | cons d ds ih =>
    intro db db' ds' M hkey hlooked h
    obtain ⟨ds₁, db₁, hds, hrest⟩ := Effect.bind_ok_iff.mp h
    obtain ⟨d', db₂, hd, hpure⟩ := Effect.bind_ok_iff.mp hrest
    cases hpure
    obtain ⟨ht₁, hlooked₁, hall⟩ := ih hkey hlooked hds
    obtain ⟨ht₂, hlooked₂, hone⟩ := typeTypeCompatibility_ok ha (by rwa [ht₁]) hlooked₁ hd
    rw [ht₁] at hone
    refine ⟨ht₂.trans ht₁, hlooked₂.congr fun i n => ?_, .cons hone hall⟩
    simp only [List.mem_cons, exists_eq_or_imp]
    rw [or_assoc]
    exact or_congr_right or_comm

/-- **What the passes do**: `cached` is the state after the third of them. -/
theorem declareTypes_ok (hids : TypeIds db) (h : declareTypes ds db = (.ok ds', db')) :
    ∃ cached : EMdFDB, Grows (fun _ => True) db cached ∧
      Alongside (fun later d d' => ∃ M typeId enumId e,
        (∀ i n, M i n → LookedUpBy db cached ds later i n) ∧
        (∀ e ∈ ds, ∀ i n, e.type.type = .enumeration → e.UsesConstant n →
          cachedId cached.enumCache e.type.enumeration = some i → M (stripEnumIdOfLowerBits i) n) ∧
        (∀ e ∈ later, ∀ i n, e.UsesConstant n →
          cachedId cached.enumCache e.type.enumeration = some i →
          (∃ j, ⟨j, e.type.enumeration⟩ ∈ db.tables.enumerations) →
            M (stripEnumIdOfLowerBits (i ||| e.type.typeBits)) n) ∧
        Passed db cached M d d' typeId enumId e) ds ds' ∧
      (Declarable db ds → Grows (Names ds) db cached) := by
  obtain ⟨ds₁, db₁, h₁, hrest⟩ := Effect.bind_ok_iff.mp h
  obtain ⟨ds₂, db₂, h₂, hrest⟩ := Effect.bind_ok_iff.mp hrest
  obtain ⟨ds₃, db₃, h₃, h₄⟩ := Effect.bind_ok_iff.mp hrest
  obtain ⟨hg₁, hfound⟩ := eachDeclaration_ok
    (P := fun _ d n => d.type.type = .enumeration ∧ n = d.type.enumeration) (R := Found)
    (fun hd => (symbolEnumerationsExist_ok hd).1) (fun hg hR => hR.of_grows hg) h₁
  obtain ⟨hg₂, hsame⟩ := eachDeclaration_ok
    (P := fun t d n => d.type.type = .enumeration ∧
      ⟨stripEnumIdOfLowerBits d.type.typeId, n⟩ ∈ t.enumerations) (R := fun _ d d' => d = d')
    symbolEnumConstantsExist_ok (fun _ hR => hR) h₂
  obtain ⟨hg₃, hassigned⟩ := eachDeclaration_ok
    (P := fun _ d n => d.type.NamesEnumeration ∧ n = d.type.enumeration) (R := Assigned)
    (fun hd => (typeAssignTypeID_ok hd).1) (fun hg hR => hR.of_grows hg) h₃
  rw [List.forall₂_eq_eq_eq] at hsame
  subst hsame
  -- The cache of the constants: the first and the third pass leave it alone.
  have hlooked₁ : LookedUp db.enumConstCache (fun _ _ => False) db₁ :=
    (lookedUp_refl db).of_same hg₁.1
      (eachDeclaration_constants (fun hd => (symbolEnumerationsExist_ok hd).2) h₁)
  obtain ⟨ht₂, hlooked₂⟩ := symbolEnumConstantsExist_lookedUp hids.allocated
    (by rw [hg₁.1]; exact hids.constantKey) hlooked₁ h₂
  have hlooked₃ := hlooked₂.of_same hg₃.1
    (eachDeclaration_constants (fun hd => (typeAssignTypeID_ok hd).2) h₃)
  obtain ⟨-, -, halong⟩ := typeTypeCompatibility_alongside hids.allocated
    (by rw [hg₃.1, ht₂, hg₁.1]; exact hids.constantKey) hlooked₃ h₄
  have hany : ∀ {P : Name → Prop} {db db' : EMdFDB}, Grows P db db' →
      Grows (fun _ => True) db db' := fun hg => hg.mono fun _ _ _ => trivial
  have hg : Grows (fun _ => True) db db₃ := ((hany hg₁).trans (hany hg₂)).trans (hany hg₃)
  have hfound₃ : List.Forall₂ (Found db₃) ds ds₁ :=
    hfound.imp fun _ _ hd => (hd.of_grows hg₂).of_grows hg₃
  refine ⟨db₃, hg, ?_, fun hdecl => ?_⟩
  · have hthird := forall₂_comp hfound₃ hassigned
    rw [hg.1] at halong
    refine (forall₂_alongside hthird halong).imp ?_
    rintro later d d' ⟨later₃, d₃, hlater, ⟨d₁, hd₁, hd₃⟩, e, hdefaulted⟩
    obtain ⟨heq, htype⟩ := hd₁
    have hd₃' := hd₃
    rw [heq] at hd₃'
    obtain ⟨enumId, hd₃eq, hother, hnames⟩ := hd₃'
    rw [hg.1] at hnames
    refine ⟨fun i n => (False ∨ ∃ u ∈ ds₁, i = stripEnumIdOfLowerBits u.type.typeId ∧
        u.type.type = .enumeration ∧ u.UsesConstant n) ∨ ∃ u ∈ later₃, u.LooksUp i n,
      d₁.type.typeId, enumId, e, fun i n hM => ?_, fun u hu i n hut huses hi => ?_,
      fun u hu i n huses hi hrow => ?_, ?_⟩
    rotate_left 3
    · refine ⟨?_, htype, hother, hnames, d₃, hd₃eq, hdefaulted⟩
      rw [hdefaulted.eq, hd₃eq]
      rfl
    · rcases hM with (hfalse | ⟨u₁, hu₁, rfl, hut, huses⟩) | ⟨u₃, hu₃, rfl, huses⟩
      · exact hfalse.elim
      · obtain ⟨u, hu, hueq, hcached⟩ := exists_of_mem_right hfound₃ hu₁
        have hut' : u.type.type = .enumeration := by
          rw [hueq] at hut
          exact hut
        refine .inl ⟨u, hu, hut', ?_, _, hcached hut', rfl⟩
        rwa [← usesConstant_congr u u₁ (by rw [hueq]) (by rw [hueq])]
      · obtain ⟨u, hu, u₁, ⟨hueq, -⟩, hu₃'⟩ := exists_of_mem_right hlater hu₃
        rw [hueq] at hu₃'
        obtain ⟨j, rfl, -, hj⟩ := hu₃'
        have huses' : u.UsesConstant n :=
          (usesConstant_congr u _ rfl rfl n).mp huses
        refine .inr ⟨u, hu, huses', j, ?_, rfl⟩
        have hj := hj huses'.namesEnumeration
        rwa [hg.1] at hj
    · obtain ⟨u₁, hu₁, hueq, hcached⟩ := exists_of_mem_left hfound₃ hu
      have hid := hcached hut
      rw [hi, Option.some.injEq] at hid
      refine .inl (.inr ⟨u₁, hu₁, by rw [hid], by rw [hueq]; exact hut, ?_⟩)
      rwa [usesConstant_congr u u₁ (by rw [hueq]) (by rw [hueq])]
    · obtain ⟨u₃, hu₃, u₁, ⟨hueq, -⟩, hu₃'⟩ := exists_of_mem_left hlater hu
      rw [hueq] at hu₃'
      obtain ⟨j, rfl, -, hj⟩ := hu₃'
      refine .inr ⟨_, hu₃, ?_, (usesConstant_congr u _ rfl rfl n).mpr huses⟩
      rcases hj huses.namesEnumeration with hj | hnone
      · have hij : i = j := by
          change cachedId db₃.enumCache u.type.enumeration = some j at hj
          rw [hi, Option.some.injEq] at hj
          exact hj
        rw [hij]
        rfl
      · obtain ⟨k, hk⟩ := hrow
        rw [hg.1] at hnone
        exact absurd hk (hnone k)
  · have hgrows₁ : Grows (Names ds) db db₁ := by
      refine hg₁.mono ?_
      rintro row - ⟨d, hd, htype, hname⟩
      exact ⟨d, hd, .inl htype, hname⟩
    have hgrows₂ : Grows (Names ds) db₁ db₂ := by
      refine hg₂.mono ?_
      rintro row - ⟨d₁, hd₁, htype, hmem⟩
      obtain ⟨d, hd, heq, hcached⟩ := exists_of_mem_right hfound hd₁
      rw [heq] at htype
      -- The id that the first pass found is that of a row of the table, and there is no other.
      have hrow := mem_of_cachedId hdecl hgrows₁ hd (.inl htype) (hcached htype)
      rw [hg₁.1] at hmem
      have hid := hids.primaryKey _ hmem _ hrow
        (stripEnumIdOfLowerBits_of_mod (hids.ids _ hrow))
      exact ⟨d, hd, .inl htype, congrArg EnumerationRow.enumName hid⟩
    have hgrows₃ : Grows (Names ds) db₂ db₃ := by
      refine hg₃.mono ?_
      rintro row - ⟨d₁, hd₁, hnames, hname⟩
      obtain ⟨d, hd, heq, -⟩ := exists_of_mem_right hfound hd₁
      rw [heq] at hnames hname
      exact ⟨d, hd, hnames, hname⟩
    exact (hgrows₁.trans hgrows₂).trans hgrows₃

/-- Ids in the cache are type ids too. -/
theorem mod_of_cachedId (hids : TypeIds db) {cached : EMdFDB} {P : Name → Prop}
    (hgrows : Grows P db cached) {enumName : Name} {enumId : Nat}
    (hid : cachedId cached.enumCache enumName = some enumId) : enumId % 65536 = 0 := by
  obtain ⟨-, added, hcache, hadded⟩ := hgrows
  obtain ⟨row, hrow, rfl⟩ := Option.map_eq_some_iff.mp hid
  have hmem := List.mem_of_find?_eq_some hrow
  rw [hcache, List.mem_append] at hmem
  rcases hmem with hmem | hmem
  · exact hids.cached row hmem
  · exact hids.ids row (hadded row hmem).1

/-- The enumerations that are named are in the table, and in the cache under their ids. -/
def Resolved (db cached : EMdFDB) (ds : List FeatureDeclaration) : Prop :=
  ∀ d ∈ ds, d.type.NamesEnumeration → ∃ enumId,
    cachedId cached.enumCache d.type.enumeration = some enumId ∧
      ⟨enumId, d.type.enumeration⟩ ∈ db.tables.enumerations

section Resolved

variable {cached : EMdFDB} {M : Nat → Name → Prop} {d d' : FeatureDeclaration}
  {typeId enumId : Nat} {e : Expression} {later : List FeatureDeclaration}

/-- Where a declaration is sound, the cache has the enumeration that it names. -/
theorem Sound.cachedId {P : Name → Prop} (hids : TypeIds db) (hgrows : Grows P db cached)
    (hp : Passed db cached M d d' typeId enumId e) (hsound : Sound db.tables d d')
    (hnames : d.type.NamesEnumeration) :
    Emdros.cachedId cached.enumCache d.type.enumeration = some enumId ∧
      ⟨enumId, d.type.enumeration⟩ ∈ db.tables.enumerations := by
  obtain ⟨i, -, hmem, -, htypeId, -⟩ := hsound.typed
  have hmem := hmem hnames
  have hcached := (hp.names hnames).resolve_right fun hnone => hnone i hmem
  rw [hp.eq] at htypeId
  have hstrip := congrArg stripEnumIdOfLowerBits htypeId
  rw [stripEnumIdOfLowerBits_or (mod_of_cachedId hids hgrows hcached) (MQLType.typeBits_lt _),
    stripEnumIdOfLowerBits_or (hids.ids _ hmem) (MQLType.typeBits_lt _)] at hstrip
  rw [hstrip] at hcached ⊢
  exact ⟨hcached, hmem⟩

/-- The third pass has found what there is. -/
theorem Passed.mem (hresolved : Resolved db cached ds) (hd : d ∈ ds)
    (hp : Passed db cached M d d' typeId enumId e) (hnames : d.type.NamesEnumeration) :
    ⟨enumId, d.type.enumeration⟩ ∈ db.tables.enumerations := by
  obtain ⟨i, hi, hmem⟩ := hresolved d hd hnames
  rcases hp.names hnames with hid | hnone
  · rw [hi, Option.some.injEq] at hid
    rw [← hid]
    exact hmem
  · exact absurd hmem (hnone i)

theorem Passed.mod (hids : TypeIds db) (hresolved : Resolved db cached ds) (hd : d ∈ ds)
    (hp : Passed db cached M d d' typeId enumId e) : enumId % 65536 = 0 := by
  by_cases hn : d.type.NamesEnumeration
  · exact hids.ids _ (hp.mem hresolved hd hn)
  · rw [hp.other hn]

/-- The constants that have been looked up are those that the source names. -/
theorem lookedUp_iff (hids : TypeIds db) (hresolved : Resolved db cached ds)
    (hlater : ∀ u ∈ later, u ∈ ds) (hM : ∀ i n, M i n → LookedUpBy db cached ds later i n)
    (hsecond : ∀ u ∈ ds, ∀ i n, u.type.type = .enumeration → u.UsesConstant n →
      cachedId cached.enumCache u.type.enumeration = some i → M (stripEnumIdOfLowerBits i) n)
    (hfourth : ∀ u ∈ later, ∀ i n, u.UsesConstant n →
      cachedId cached.enumCache u.type.enumeration = some i →
      (∃ j, ⟨j, u.type.enumeration⟩ ∈ db.tables.enumerations) →
        M (stripEnumIdOfLowerBits (i ||| u.type.typeBits)) n)
    {enumeration : Name} (hmem : ⟨enumId, enumeration⟩ ∈ db.tables.enumerations) (name : Name) :
    M enumId name ↔ LookedUpBefore ds later enumeration name := by
  have hsame : ∀ {i : Nat} {n : Name}, ⟨i, n⟩ ∈ db.tables.enumerations → enumId = i →
      n = enumeration := by
    rintro i n hi rfl
    exact congrArg EnumerationRow.enumName (hids.primaryKey _ hi _ hmem rfl)
  constructor
  · intro h
    rcases hM _ _ h with ⟨u, hu, htype, huses, i, hi, hid⟩ | ⟨u, hu, huses, i, hi, hid⟩
    · obtain ⟨j, hj, hrow⟩ := hresolved u hu (.inl htype)
      rw [hi, Option.some.injEq] at hj
      subst hj
      rw [stripEnumIdOfLowerBits_of_mod (hids.ids _ hrow)] at hid
      exact ⟨u, .inl ⟨hu, htype⟩, hsame hrow hid, huses⟩
    · obtain ⟨j, hj, hrow⟩ := hresolved u (hlater u hu) huses.namesEnumeration
      have hi := hi.resolve_right fun hnone => hnone j hrow
      rw [hi, Option.some.injEq] at hj
      subst hj
      rw [stripEnumIdOfLowerBits_or (hids.ids _ hrow) (MQLType.typeBits_lt _)] at hid
      exact ⟨u, .inr hu, hsame hrow hid, huses⟩
  · rintro ⟨u, hu, rfl, huses⟩
    have huds : u ∈ ds := hu.elim And.left (hlater u)
    obtain ⟨i, hi, hrow⟩ := hresolved u huds huses.namesEnumeration
    have hid : i = enumId :=
      congrArg EnumerationRow.enumId (hids.names _ hrow _ hmem rfl)
    subst hid
    rcases hu with ⟨hu, htype⟩ | hu
    · have hlooked := hsecond u hu i name htype huses hi
      rwa [stripEnumIdOfLowerBits_of_mod (hids.ids _ hrow)] at hlooked
    · have hlooked := hfourth u hu i name huses hi ⟨i, hrow⟩
      rwa [stripEnumIdOfLowerBits_or (hids.ids _ hrow) (MQLType.typeBits_lt _)] at hlooked

/-- A row overtakes the default of the cache if it is looked up before. -/
theorem overtaken_iff {before : EnumConstMaps} {t : Tables} {looked : Name → Prop}
    (hM : ∀ n, M enumId n ↔ looked n) (v : Int) :
    EnumConstMaps.Overtaken t.constants (fun i n => M i n.toList) before enumId v ↔
      ∃ row ∈ t.enumerationConstants, row.enumId = enumId ∧ row.isDefault = true ∧
        row.value < v ∧ before.find enumId (String.ofList row.enumValueName) = some none ∧
        looked row.enumValueName := by
  constructor
  · rintro ⟨c, ⟨⟨row, hrow, hid, rfl⟩, hlooked, hnone⟩, hdefault, hlt⟩
    rw [EnumerationConstantRow.ecInfo, String.toList_ofList, hM] at hlooked
    exact ⟨row, hrow, hid, hdefault, hlt, EnumConstMaps.find_eq_none_iff.mpr hnone, hlooked⟩
  · rintro ⟨row, hrow, hid, hdefault, hlt, hnone, hlooked⟩
    refine ⟨row.ecInfo, ⟨⟨row, hrow, hid, rfl⟩, ?_, EnumConstMaps.find_eq_none_iff.mp hnone⟩,
      hdefault, hlt⟩
    change M enumId (String.ofList row.enumValueName).toList
    rw [String.toList_ofList, hM]
    exact hlooked

/-- The default that is found is in the table exactly if what the cache has is right or does not
come first. -/
theorem foundDefault_isConstant_iff {name : Name}
    (hM : ∀ n, M enumId n ↔ LookedUpBefore ds later d.type.enumeration n)
    (h : FoundDefault db.tables db.enumConstCache M enumId name) :
    (∃ value, db.tables.IsConstant enumId name value) ↔
      DefaultKnown db ds later enumId d.type.enumeration := by
  constructor
  · intro hconst v eci hfirst
    rcases h with ⟨w, eci', hfirst', hname, -⟩ | ⟨-, hovertaken⟩
    · rw [hfirst, Option.some.injEq, Option.some.injEq, Prod.mk.injEq] at hfirst'
      rw [hfirst'.2, hname]
      exact .inl hconst
    · exact .inr ((overtaken_iff hM v).mp (hovertaken v eci hfirst))
  · intro hknown
    rcases h with ⟨v, eci, hfirst, hname, hnot⟩ | ⟨hconst, -⟩
    · rcases hknown v eci hfirst with hconst | hovertaken
      · rwa [hname] at hconst
      · exact absurd ((overtaken_iff hM v).mpr hovertaken) hnot
    · exact hconst

/-- A constant that is found is in the table exactly if what the cache has for it is right. -/
theorem foundConstant_isConstant_iff {name : Name} {value : Int}
    (h : FoundConstant db.tables db.enumConstCache enumId name value) :
    ((∃ w, db.tables.IsConstant enumId name w) ↔ ∀ eci,
      db.enumConstCache.find enumId (String.ofList name) = some (some eci) →
        ∃ w, db.tables.IsConstant enumId name w) ∧
    (db.tables.IsConstant enumId name value ↔ ∀ eci,
      db.enumConstCache.find enumId (String.ofList name) = some (some eci) →
        db.tables.IsConstant enumId name eci.value) := by
  rcases h with ⟨eci, hfind, rfl⟩ | ⟨hnone, hconst⟩
  · refine ⟨⟨fun h _ _ => h, fun h => h eci hfind⟩, fun h eci' hfind' => ?_, fun h => h eci hfind⟩
    rw [hfind, Option.some.injEq, Option.some.injEq] at hfind'
    rwa [← hfind']
  · have hmiss : ∀ eci,
        db.enumConstCache.find enumId (String.ofList name) ≠ some (some eci) := by
      intro eci hfind
      rw [hnone] at hfind
      cases hfind
    exact ⟨⟨fun h _ _ => h, fun _ => ⟨value, hconst⟩⟩, fun _ eci hfind => absurd hfind (hmiss eci),
      fun _ => hconst⟩

/-- **The default of a declaration** is of the type exactly if the list has no negative `id_d`, and
what the cache has for the constants that are named, and for the default, is right. -/
theorem Passed.hasType_iff (hp : Passed db cached M d d' typeId enumId e)
    (hmod : enumId % 65536 = 0) (hM : d.type.type = .enumeration →
      ∀ n, M enumId n ↔ LookedUpBefore ds later d.type.enumeration n) :
    e.HasType db.tables enumId d.type.type ↔
      (d.type.type = .listOfIdD → ∀ is, d.defaultSpecification = some (.listOfInteger is) →
        ∀ i ∈ is, 0 ≤ i) ∧
      d.UsesKnown db enumId ∧
      (d.type.type = .enumeration → d.defaultSpecification = none →
        DefaultKnown db ds later enumId d.type.enumeration) := by
  obtain ⟨d₃, rfl, hdefaulted⟩ := hp.defaulted
  have hstrip : stripEnumIdOfLowerBits (enumId ||| d.type.typeBits) = enumId :=
    stripEnumIdOfLowerBits_or hmod (MQLType.typeBits_lt _)
  have huses : ∀ n, UsesConstant { d with
      type := { d.type with typeId := enumId ||| d.type.typeBits } } n ↔ d.UsesConstant n :=
    usesConstant_congr d _ rfl rfl
  by_cases hplain : Plain d.type.type
  · have hother : ¬ d.type.NamesEnumeration := fun h => h.elim hplain.2.1 hplain.2.2
    rw [hp.other hother]
    exact iff_of_true (hdefaulted.plain hplain) ⟨fun h => absurd h hplain.1,
      fun n hn => absurd hn (not_usesConstant_of_plain hplain n), fun h => absurd h hplain.2.1⟩
  cases htype : d.type.type with
  | listOfIdD =>
    obtain ⟨he, hshape⟩ := hdefaulted.idDs htype
    have hnone : ∀ n, ¬ d.UsesConstant n := by
      intro n hn
      rcases hn.namesEnumeration with h | h <;> simp [htype] at h
    have hfirst : e.HasType db.tables enumId .listOfIdD ↔ ∀ is,
        d.defaultSpecification = some (.listOfInteger is) → ∀ i ∈ is, 0 ≤ i := by
      constructor
      · rintro htyped is his
        rw [his, Option.getD_some] at he
        rcases htyped with hempty | ⟨is', his', hnonneg⟩
        · rw [he] at hempty
          cases hempty
        · rw [he, Expression.listOfInteger.injEq] at his'
          rw [his']
          exact hnonneg
      · intro hidDs
        rcases hshape with hempty | ⟨is, his⟩
        · exact .inl hempty
        · refine .inr ⟨is, his, hidDs is ?_⟩
          cases hdefault : d.defaultSpecification with
          | none =>
            rw [hdefault, his] at he
            cases he
          | some e' =>
            rw [hdefault, Option.getD_some, his] at he
            rw [he]
    rw [hfirst]
    exact ⟨fun h => ⟨fun _ => h, fun n hn => absurd hn (hnone n), fun h => (by cases h)⟩,
      fun h => h.1 rfl⟩
  | enumeration =>
    obtain ⟨name, rfl, hname⟩ := hdefaulted.constant htype
    simp only [hstrip, huses] at hname
    have hfirst : (Expression.identifier name).HasType db.tables enumId .enumeration ↔
        ∃ value, db.tables.IsConstant enumId name value := by
      simp [Expression.HasType]
    rw [hfirst]
    rcases hname with ⟨hnamed, value, hfound⟩ | ⟨hdefault, hfound⟩
    · rw [(foundConstant_isConstant_iff hfound).1]
      have hall : ∀ n, d.UsesConstant n ↔ n = name := by
        intro n
        unfold UsesConstant at hnamed ⊢
        rw [htype] at hnamed ⊢
        cases hdefault : d.defaultSpecification with
        | none => simp [hdefault] at hnamed
        | some e' => cases e' <;> simp_all
      have hsome : d.defaultSpecification ≠ none := by
        intro hdefault
        simp [UsesConstant, htype, hdefault] at hnamed
      refine ⟨fun h => ⟨fun h => (by cases h), ?_, fun _ h => absurd h hsome⟩, fun h eci hfind =>
        (h.2.1 name hnamed eci hfind).1⟩
      intro n hn eci hfind
      rw [(hall n).mp hn] at hfind ⊢
      refine ⟨h eci hfind, fun hlist => ?_⟩
      rw [htype] at hlist
      cases hlist
    · rw [foundDefault_isConstant_iff (hM htype) hfound]
      have hnone : ∀ n, ¬ d.UsesConstant n := by
        intro n hn
        simp [UsesConstant, htype, hdefault] at hn
      exact ⟨fun h => ⟨fun h => (by cases h), fun n hn => absurd hn (hnone n), fun _ _ => h⟩,
        fun h => h.2.2 rfl hdefault⟩
  | listOfEnumeration =>
    rcases hdefaulted.elements htype with ⟨rfl, hnone⟩ | ⟨names, values, rfl, hnames, hfound⟩
    · simp only [huses] at hnone
      exact iff_of_true (.inl rfl) ⟨fun h => (by cases h), fun n hn => absurd hn (hnone n),
        fun h => (by cases h)⟩
    · simp only [hstrip, huses] at hnames hfound
      have hfirst : (Expression.listOfIdentifier names (some values)).HasType db.tables enumId
          .listOfEnumeration ↔ List.Forall₂ (db.tables.IsConstant enumId) names values := by
        simp [Expression.HasType]
      rw [hfirst]
      constructor
      · intro hconst
        refine ⟨fun h => (by cases h), fun n hn eci hfind => ?_, fun h => (by cases h)⟩
        obtain ⟨value, -, hvalue, hn'⟩ :=
          exists_of_mem_left (forall₂_and hconst hfound) ((hnames n).mp hn)
        have hknown := (foundConstant_isConstant_iff hn').2.mp hvalue eci hfind
        exact ⟨⟨value, hvalue⟩, fun _ => hknown⟩
      · rintro ⟨-, hknown, -⟩
        refine ((List.forall₂_and_left _ _).mpr ⟨fun n hn => hn, hfound⟩).imp ?_
        rintro n value ⟨hn, hfoundn⟩
        exact (foundConstant_isConstant_iff hfoundn).2.mpr fun eci hfind =>
          (hknown n ((hnames n).mpr hn) eci hfind).2 htype
  | integer => simp [Plain, htype] at hplain
  | string => simp [Plain, htype] at hplain
  | ascii => simp [Plain, htype] at hplain
  | idD => simp [Plain, htype] at hplain
  | setOfMonads => simp [Plain, htype] at hplain
  | listOfInteger => simp [Plain, htype] at hplain

end Resolved

/-- **Declarations are type-sound** exactly if the enumerations that lists name exist, what the
caches have of the names is right, no two names differ only in case, and no list of `id_d`s has a
negative number. -/
theorem declareTypes_sound_iff (hids : TypeIds db) (h : declareTypes ds db = (.ok ds', db')) :
    List.Forall₂ (Sound db.tables) ds ds' ↔ Declarable db ds := by
  obtain ⟨cached, hgrows, halong, hnames⟩ := declareTypes_ok hids h
  have hpassed : List.Forall₂ (fun d d' => ∃ M typeId enumId e,
      Passed db cached M d d' typeId enumId e) ds ds' :=
    halong.forall₂ fun _ _ _ _ _ ⟨M, typeId, enumId, e, _, _, _, hp⟩ => ⟨M, typeId, enumId, e, hp⟩
  constructor
  · intro hsound
    have hresolved : Resolved db cached ds := by
      intro d hd hn
      obtain ⟨d', -, ⟨M, typeId, enumId, e, hp⟩, hs⟩ :=
        exists_of_mem_left (forall₂_and hpassed hsound) hd
      exact ⟨enumId, hs.cachedId hids hgrows hp hn⟩
    -- Each declaration with those behind it has a default of its type.
    have hdefaults : ∀ l d later, ds = l ++ d :: later → ∃ enumId,
        (d.type.NamesEnumeration → ⟨enumId, d.type.enumeration⟩ ∈ db.tables.enumerations) ∧
        (d.type.type = .listOfIdD → ∀ is, d.defaultSpecification = some (.listOfInteger is) →
          ∀ i ∈ is, 0 ≤ i) ∧
        d.UsesKnown db enumId ∧
        (d.type.type = .enumeration → d.defaultSpecification = none →
          DefaultKnown db ds later enumId d.type.enumeration) := by
      intro l d later hsplit
      have hd : d ∈ ds := by simp [hsplit]
      obtain ⟨d', ⟨M, typeId, enumId, e, hM, hsecond, hfourth, hp⟩, hs⟩ :=
        halong.exists_of_split hsound hsplit
      have hlater : ∀ u ∈ later, u ∈ ds := fun u hu => by simp [hsplit, hu]
      refine ⟨enumId, fun hn => hp.mem hresolved hd hn, ?_⟩
      refine (hp.hasType_iff (hp.mod hids hresolved hd) fun htype =>
        lookedUp_iff hids hresolved hlater hM hsecond hfourth
          (hp.mem hresolved hd (.inl htype))).mp ?_
      obtain ⟨i, e', hmem, hother, htypeId, he', htyped⟩ := hs.typed
      rw [hp.eq, Option.some.injEq] at he'
      rw [hp.eq] at htypeId
      have hid : enumId = i := by
        by_cases hn : d.type.NamesEnumeration
        · have hstrip := congrArg stripEnumIdOfLowerBits htypeId
          rwa [stripEnumIdOfLowerBits_or (hp.mod hids hresolved hd) (MQLType.typeBits_lt _),
            stripEnumIdOfLowerBits_or (hids.ids _ (hmem hn)) (MQLType.typeBits_lt _)] at hstrip
        · rw [hp.other hn, hother hn]
      rw [hid, he']
      exact htyped
    refine ⟨fun d hd hlist => ?_, fun d hd hn row hfound => ?_, fun d hd e he hn hn' hcase => ?_,
      fun d hd => ?_, fun d hd enumId hmem => ?_,
      fun l d later hsplit htype hdefault enumId hmem => ?_⟩
    · obtain ⟨enumId, -, hmem⟩ := hresolved d hd (.inr hlist)
      exact ⟨enumId, hmem⟩
    · obtain ⟨enumId, hcached, hmem⟩ := hresolved d hd hn
      have hfirst : cachedId db.enumCache d.type.enumeration = some row.enumId := by
        rw [cachedId, hfound]
        rfl
      rw [hgrows.cachedId hfirst, Option.some.injEq] at hcached
      rw [hcached]
      exact hmem
    · obtain ⟨i, hi, hmem⟩ := hresolved d hd hn
      obtain ⟨j, hj, hmem'⟩ := hresolved e he hn'
      have hlower : strToLower d.type.enumeration = strToLower e.type.enumeration := by
        simpa [sameNocase] using hcase
      have hij : i = j := by
        rw [cachedId] at hi hj
        simp only [sameNocase, hlower] at hi hj
        rw [hi, Option.some.injEq] at hj
        exact hj
      exact congrArg EnumerationRow.enumName (hids.primaryKey _ hmem _ hmem' hij)
    · obtain ⟨l, later, hsplit⟩ := List.append_of_mem hd
      obtain ⟨-, -, hidDs, -⟩ := hdefaults l d later hsplit
      exact hidDs
    · obtain ⟨l, later, hsplit⟩ := List.append_of_mem hd
      obtain ⟨i, hi, -, hknown, -⟩ := hdefaults l d later hsplit
      intro n hn
      have hid := hids.names _ (hi hn.namesEnumeration) _ hmem rfl
      rw [EnumerationRow.mk.injEq] at hid
      rw [← hid.1]
      exact hknown n hn
    · obtain ⟨i, hi, -, -, hknown⟩ := hdefaults l d later hsplit
      have hid := hids.names _ (hi (.inl htype)) _ hmem rfl
      rw [EnumerationRow.mk.injEq] at hid
      rw [← hid.1]
      exact hknown htype hdefault
  · intro hdecl
    have hcached := hnames hdecl
    have hresolved : Resolved db cached ds := by
      intro d hd hn
      obtain ⟨d', -, M, typeId, enumId, e, hp⟩ := exists_of_mem_left hpassed hd
      rcases hp.names hn with hid | hnone
      · exact ⟨enumId, hid, mem_of_cachedId hdecl hcached hd hn hid⟩
      · rcases hn with htype | hlist
        · exact ⟨typeId, hp.type htype,
            mem_of_cachedId hdecl hcached hd (.inl htype) (hp.type htype)⟩
        · obtain ⟨i, hi⟩ := hdecl.listed d hd hlist
          exact absurd hi (hnone i)
    refine halong.forall₂ ?_
    rintro l d later d' hsplit ⟨M, typeId, enumId, e, hM, hsecond, hfourth, hp⟩
    have hd : d ∈ ds := by simp [hsplit]
    have hlater : ∀ u ∈ later, u ∈ ds := fun u hu => by simp [hsplit, hu]
    refine ⟨by rw [hp.eq], by rw [hp.eq], enumId, e, hp.mem hresolved hd, hp.other, by rw [hp.eq],
      by rw [hp.eq], ?_⟩
    refine (hp.hasType_iff (hp.mod hids hresolved hd) fun htype =>
      lookedUp_iff hids hresolved hlater hM hsecond hfourth
        (hp.mem hresolved hd (.inl htype))).mpr ⟨hdecl.idDs d hd, ?_, fun htype hdefault =>
          hdecl.defaults l d later hsplit htype hdefault enumId
            (hp.mem hresolved hd (.inl htype))⟩
    intro n hn
    exact hdecl.constants d hd enumId (hp.mem hresolved hd hn.namesEnumeration) n hn

/-- A database with one enumeration. -/
def coloured : EMdFDB :=
  { EMdFDB.initial with
    tables :=
      { Tables.initial with
        enumerations := [⟨65536, "colour_t".toList⟩]
        enumerationConstants := [⟨65536, "red".toList, 1, true⟩] } }

/-- `colour : colour_t` and `colours : LIST OF colour_t`. -/
def colourFeatures : List FeatureDeclaration :=
  [⟨"colour".toList, ⟨.enumeration, "colour_t".toList, false, false, 0⟩, none⟩,
    ⟨"colours".toList, ⟨.listOfEnumeration, "colour_t".toList, false, false, 0⟩, some .emptyList⟩]

/-- Both are declared with the id of the enumeration, and red is the default. -/
theorem declareTypes_sound_iff_coloured :
    ∃ ds' db', declareTypes colourFeatures coloured = (.ok ds', db') ∧
      List.Forall₂ (Sound coloured.tables) colourFeatures ds' := by
  have hids : TypeIds coloured := by
    constructor <;> simp [coloured, EMdFDB.initial, EnumConstMaps.allocated_empty]
  refine ⟨_, _, rfl, (declareTypes_sound_iff hids rfl).mpr ⟨?_, ?_, ?_, ?_, ?_, ?_⟩⟩
  · simp [coloured, colourFeatures]
  · simp [coloured, colourFeatures, EMdFDB.initial]
  · simp [colourFeatures]
  · simp [colourFeatures]
  · intro d _ enumId _ n _ eci hfind
    cases hfind
  · intro l d later _ _ _ enumId _ v eci hfirst
    cases hfirst

/-- `CREATE OBJECT TYPE [Thing colours : LIST OF colour_t;]`, where there is no enumeration. -/
def undeclared : List FeatureDeclaration :=
  [⟨"colours".toList, ⟨.listOfEnumeration, "colour_t".toList, false, false, 0⟩, some .emptyList⟩]

/-- The list is declared all the same. -/
theorem undeclared_not_sound :
    ∃ ds' db', declareTypes undeclared EMdFDB.initial = (.ok ds', db') ∧
      ¬ List.Forall₂ (Sound EMdFDB.initial.tables) undeclared ds' := by
  refine ⟨_, _, rfl, fun hsound => ?_⟩
  cases hsound with
  | cons hs _ =>
    obtain ⟨enumId, e, hmem, -⟩ := hs.typed
    cases hmem (.inr rfl)

end FeatureDeclaration

end Emdros
