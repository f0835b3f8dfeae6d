/-
# Feature comparisons (`mql.yxx`, `mql_query.cpp`)

A comparison of a feature with a value is built by the parser, checked by
`weedFeatureConstraints`, `symbol` and `type`, and evaluated by `compare` on each object.  The
check and the evaluation are separate case distinctions over the operator, the right-hand side and
the type of the feature.

`none` stands for an `ASSERT_THROW` that fires and for undefined behaviour: a null pointer, or a
member of a union that was not written.  Error texts are left out.

The two do not agree: `compare_iff` says which comparisons pass the checks and then go wrong.
-/
import Emdros.EMdF.Value
import Emdros.EMdF.EnumConstCache

namespace Emdros

/-! ## 1. Feature types -/

/-- `featureTypeIdIsINTEGER`. -/
def featureTypeIdIsINTEGER (featureTypeId : Nat) : Bool := featureTypeKind featureTypeId == 0

/-- `featureTypeIdIsID_D`. -/
def featureTypeIdIsID_D (featureTypeId : Nat) : Bool := featureTypeKind featureTypeId == 3

/-- `featureTypeIdIsListOfINTEGER`. -/
def featureTypeIdIsListOfINTEGER (featureTypeId : Nat) : Bool := featureTypeKind featureTypeId == 8

/-- `featureTypeIdIsListOfID_D`. -/
def featureTypeIdIsListOfID_D (featureTypeId : Nat) : Bool := featureTypeKind featureTypeId == 11

/-- `featureTypeIdIsListOfENUM`. -/
def featureTypeIdIsListOfENUM (featureTypeId : Nat) : Bool := featureTypeKind featureTypeId == 12

/-- `GET_ENUM_FEATURE_ID_FROM_LIST_OF_ENUM_FEATURE_ID`. -/
def getEnumFeatureId (featureTypeId : Nat) : Nat := stripEnumIdOfLowerBits featureTypeId + 4

/-- A feature type id that a declaration makes: one of the nine types, with the id of an
enumeration in the upper bits if it is about one.  The flags are not restricted. -/
def IsFeatureType (t : Nat) : Prop :=
  featureTypeKind t ∈ [0, 1, 2, 3, 5, 8, 11] ∧ stripEnumIdOfLowerBits t = 0 ∨
    featureTypeKind t ∈ [4, 12]

/-- The values that are stored for a feature of a type. -/
def EMdFValue.OfType (t : Nat) : EMdFValue → Prop
  | int i => featureTypeKind t = 0 ∧ IsIvalue i
  | idD i => featureTypeKind t = 3 ∧ IsIvalue i
  | enumeration i => featureTypeKind t = 4 ∧ IsIvalue i
  | string _ => featureTypeKind t = 1 ∨ featureTypeKind t = 2
  | listOfInteger _ => featureTypeKind t = 8 ∨ featureTypeKind t = 12
  | listOfIdD _ => featureTypeKind t = 11
  | setOfMonads som => featureTypeKind t = 5 ∧ som.RepInv

/-! ## 2. Syntax -/

/-- `class ObjectReferenceUsage`: the feature that is used, and the type that its `symbol` found
for it. -/
structure ObjectReferenceUsage where
  featureName : Name
  parameter1 : Name
  retrievedType : Nat
  declared : IsFeatureType retrievedType

/-- `getOutputFeatureTypeId`. -/
def ObjectReferenceUsage.outputFeatureTypeId (u : ObjectReferenceUsage) : Nat :=
  (FeatureInfo.make u.featureName u.parameter1 u.retrievedType []).outputType

/-- `class Value`. -/
inductive ComparedValue where
  | enumConst (name : String)
  | integer (i : Int)
  | string (str : List UInt8)
  | objectReferenceUsage (u : ObjectReferenceUsage)

/-- Which of `m_value`, `m_in_enum_list` and `m_in_integer_list` is not null. -/
inductive RightHandSide where
  | value (v : ComparedValue)
  | enumList (names : List String)
  | integerList (l : List Int)

/-- `class FeatureComparison`, as the parser makes it. -/
structure FeatureComparison where
  featureName : Name
  parameter1 : Name
  comparisonOp : ComparisonOp
  rhs : RightHandSide

/-- Integers of a query have 32 bits. -/
def ComparedValue.IsLiteral : ComparedValue → Prop
  | integer i => IsIvalue i
  | _ => True

open RightHandSide ComparedValue in
/-- The productions of `feature_comparison` and of `aggregate_feature_comparison`.
`comparison_operator` is any operator but `IN`. -/
inductive FeatureComparison.Built : FeatureComparison → Prop where
  | value (n : Name) {o : ComparisonOp} {v : ComparedValue} :
    o ≠ .isIn → v.IsLiteral → Built ⟨n, [], o, value v⟩
  | computedValue (n p : Name) {o : ComparisonOp} {v : ComparedValue} :
    o ≠ .isIn → v.IsLiteral → Built ⟨n, p, o, value v⟩
  | equalEmptyList (n : Name) : Built ⟨n, [], .equal, integerList []⟩
  | equalEnumList (n : Name) {l : List String} : l ≠ [] → Built ⟨n, [], .equal, enumList l⟩
  | equalIntegerList (n : Name) {l : List Int} :
    l ≠ [] → (∀ i ∈ l, IsIvalue i) → Built ⟨n, [], .equal, integerList l⟩
  | inEnumList (n : Name) {l : List String} : l ≠ [] → Built ⟨n, [], .isIn, enumList l⟩
  | inIntegerList (n : Name) {l : List Int} :
    l ≠ [] → (∀ i ∈ l, IsIvalue i) → Built ⟨n, [], .isIn, integerList l⟩
  | computedInIntegerList (n p : Name) {l : List Int} :
    l ≠ [] → (∀ i ∈ l, IsIvalue i) → Built ⟨n, p, .isIn, integerList l⟩
  | inUsage (n : Name) (u : ObjectReferenceUsage) :
    Built ⟨n, [], .isIn, value (objectReferenceUsage u)⟩
  | computedInUsage (n p : Name) (u : ObjectReferenceUsage) :
    Built ⟨n, p, .isIn, value (objectReferenceUsage u)⟩
  | aggregateEnumList (n : Name) {o : ComparisonOp} {l : List String} :
    o ≠ .isIn → l ≠ [] → Built ⟨n, [], o, enumList l⟩
  | aggregateIntegerList (n : Name) {o : ComparisonOp} {l : List Int} :
    o ≠ .isIn → l ≠ [] → (∀ i ∈ l, IsIvalue i) → Built ⟨n, [], o, integerList l⟩

/-! ## 3. The checks -/

/-- What the checks ask: the features of the object type, the enumerations by their ids, PCRE, and
the checks of object reference usages. -/
structure QueryContext where
  /-- `featureExists`, with the type of the feature. -/
  featureType : Name → Option Nat
  constants : Nat → Option (List EnumConstInfo)
  pcreCompiles : List UInt8 → Bool
  pcreExec : List UInt8 → List UInt8 → Int
  usageWeed : ObjectReferenceUsage → Bool
  usageSymbol : ObjectReferenceUsage → Bool
  usageType : ObjectReferenceUsage → Bool
  declared : ∀ n t, featureType n = some t → IsFeatureType t
  ivalues : ∀ id l, constants id = some l → ∀ eci ∈ l, IsIvalue eci.value
  /-- The sequence of type ids does not start at 0. -/
  noNil : constants 0 = none
  /-- `self` is an id_d, and `featureExists` gives the other computed features as integers. -/
  computed : ∀ n t, featureType n = some t → computedFeatureKind n ≠ .none →
    featureTypeKind t = 0 ∨ featureTypeKind t = 3

/-- What `symbol` leaves in the comparison and in its value. -/
structure ComparisonSymbols where
  featureInfo : FeatureInfo
  enumConstValue : Int
  enumId : Nat
  /-- `m_in_enum_const_info_list`. -/
  infos : List EnumConstInfo
  /-- `m_in_enum_const_cache`, of the enumeration of the feature. -/
  cache : EnumConstCache

variable (ctx : QueryContext)

/-- `enumConstExists(enum_const_name, enum_id)`. -/
def QueryContext.enumConstExists (name : String) (enumId : Nat) : Option EnumConstInfo :=
  ((ctx.constants (stripEnumIdOfLowerBits enumId)).getD []).find? fun eci => eci.name == name

namespace FeatureComparison

/-- `weedFeatureConstraints`. -/
def weed (c : FeatureComparison) : Option Bool :=
  let usage := match c.rhs with
    | .value (.objectReferenceUsage u) => ctx.usageWeed u
    | _ => true
  if !usage then some false
  else if c.comparisonOp = .tilde ∨ c.comparisonOp = .notTilde then
    match c.rhs with
    | .value (.string str) => some (ctx.pcreCompiles str)
    | .value _ => some false
    | _ => none         -- m_value is null
  else some true

/-- `Value::symbol`: the enumeration constant's value and the enumeration's id. -/
def symbolValue (v : ComparedValue) (featureTypeId : Nat) : Option (Int × Nat) :=
  match v with
  | .enumConst name =>
    (ctx.enumConstExists name featureTypeId).map fun eci =>
      (eci.value, getEnumFeatureId featureTypeId)
  | .objectReferenceUsage u => if ctx.usageSymbol u then some (0, 0) else none
  | _ => some (0, 0)

/-- The loop of `symbol` over a list of enumeration constants. -/
def symbolEnumList (featureTypeId : Nat) :
    List String → List EnumConstInfo → EnumConstCache →
      Option (Option (List EnumConstInfo × EnumConstCache))
  | [], infos, cache => some (some (infos, cache))
  | name :: names, infos, cache =>
    match ctx.enumConstExists name featureTypeId with
    | none => some none
    | some eci =>
      (cache.addEci eci).bind fun r => symbolEnumList featureTypeId names (infos ++ [eci]) r.2

/-- `symbol`; the inner `none` is `bResult = false`. -/
def symbol (c : FeatureComparison) : Option (Option ComparisonSymbols) :=
  match ctx.featureType c.featureName with
  | none => some none
  | some featureTypeId =>
    let featureInfo := FeatureInfo.make c.featureName c.parameter1 featureTypeId []
    match c.rhs with
    | .value v =>
      some ((symbolValue ctx v featureTypeId).map fun r => ⟨featureInfo, r.1, r.2, [], .empty⟩)
    | .enumList names =>
      if (ctx.constants (stripEnumIdOfLowerBits featureTypeId)).isSome then
        (symbolEnumList ctx featureTypeId names [] .empty).map fun r =>
          r.map fun s => ⟨featureInfo, 0, 0, s.1, s.2⟩
      else some none
    | .integerList _ => some (some ⟨featureInfo, 0, 0, [], .empty⟩)

/-- The operators that name an order. -/
def isOrder (op : ComparisonOp) : Bool :=
  [.equal, .lessThan, .greaterThan, .notEqual, .lessThanOrEqual, .greaterThanOrEqual].contains op

/-- `type` for an enumeration constant. -/
def typeEnumConst (ft enumId : Nat) (op : ComparisonOp) : Bool :=
  if featureTypeIdIsListOf ft && !(op == .has && featureTypeIdIsListOfENUM ft) then false
  else stripEnumIdOfLowerBits ft == stripEnumIdOfLowerBits enumId

/-- `type` for an integer. -/
def typeInteger (ft : Nat) (op : ComparisonOp) : Bool :=
  if featureTypeIdIsListOf ft then
    op == .has && (featureTypeIdIsListOfINTEGER ft || featureTypeIdIsListOfID_D ft)
  else if featureTypeIdIsSOM ft then isOrder op
  else featureTypeIdIsINTEGER ft || featureTypeIdIsID_D ft

/-- `type` for a string. -/
def typeString (ft : Nat) (op : ComparisonOp) : Bool :=
  featureTypeIdIsASCIIorSTRING ft && (isOrder op || op == .tilde || op == .notTilde)

/-- `type` for an object reference usage with `HAS`. -/
def typeHasUsage (ft oruFt : Nat) : Bool :=
  if featureTypeIdIsListOf ft && !featureTypeIdIsListOf oruFt then
    if featureTypeIdIsListOfINTEGER ft then featureTypeIdIsINTEGER oruFt
    else if featureTypeIdIsListOfID_D ft then featureTypeIdIsID_D oruFt
    else if featureTypeIdIsListOfENUM ft then
      featureTypeIdIsENUM oruFt && stripEnumIdOfLowerBits ft == stripEnumIdOfLowerBits oruFt
    else true
  else false

/-- `type` for an object reference usage with `IN`.  Nothing is said about strings. -/
def typeInUsage (ft oruFt : Nat) : Bool :=
  if !featureTypeIdIsListOf ft && featureTypeIdIsListOf oruFt then
    if featureTypeIdIsINTEGER ft then featureTypeIdIsListOfINTEGER oruFt
    else if featureTypeIdIsID_D ft then featureTypeIdIsListOfID_D oruFt
    else if featureTypeIdIsSOM ft then featureTypeIdIsListOfINTEGER oruFt
    else if featureTypeIdIsENUM ft then
      featureTypeIdIsListOfENUM oruFt && stripEnumIdOfLowerBits ft == stripEnumIdOfLowerBits oruFt
    else true
  else false

/-- `type` for an object reference usage with the other operators. -/
def typeSameUsage (ft oruFt : Nat) (op : ComparisonOp) : Bool :=
  let same :=
    if featureTypeIdIsINTEGER ft && featureTypeIdIsINTEGER oruFt then true
    else if featureTypeIdIsID_D ft && featureTypeIdIsID_D oruFt then true
    else if featureTypeIdIsASCIIorSTRING ft && featureTypeIdIsASCIIorSTRING oruFt then true
    else if featureTypeIdIsENUM ft && featureTypeIdIsENUM oruFt then
      stripEnumIdOfLowerBits ft == stripEnumIdOfLowerBits oruFt
    else if featureTypeIdIsListOfINTEGER ft && featureTypeIdIsListOfINTEGER oruFt then true
    else if featureTypeIdIsListOfID_D ft && featureTypeIdIsListOfID_D oruFt then true
    else if featureTypeIdIsListOfENUM ft && featureTypeIdIsListOfENUM oruFt then
      getEnumFeatureId ft == getEnumFeatureId oruFt
    else if featureTypeIdIsSOM ft && featureTypeIdIsSOM oruFt then op == .equal
    else false
  if same && featureTypeIdIsListOf oruFt && featureTypeIdIsListOf ft then op == .equal else same

/-- `type` for a list of integers.  `IN` leaves `bResult` alone for a set of monads. -/
def typeIntegerList (ft : Nat) (l : List Int) (op : ComparisonOp) : Option Bool :=
  if op = .isIn then
    some (featureTypeIdIsINTEGER ft || featureTypeIdIsID_D ft || featureTypeIdIsSOM ft)
  else if op = .equal then
    some (featureTypeIdIsListOfINTEGER ft || featureTypeIdIsListOfID_D ft
      || (featureTypeIdIsListOfENUM ft && l.isEmpty))
  else none

/-- `type`. -/
def type (c : FeatureComparison) (s : ComparisonSymbols) : Option Bool :=
  let ft := s.featureInfo.outputType
  match c.rhs with
  | .value (.enumConst _) => some (typeEnumConst ft s.enumId c.comparisonOp)
  | .value (.integer _) => some (typeInteger ft c.comparisonOp)
  | .value (.string _) => some (typeString ft c.comparisonOp)
  | .value (.objectReferenceUsage u) =>
    if !ctx.usageType u then some false
    else some (match c.comparisonOp with
      | .has => typeHasUsage ft u.outputFeatureTypeId
      | .isIn => typeInUsage ft u.outputFeatureTypeId
      | op => typeSameUsage ft u.outputFeatureTypeId op)
  | .enumList _ => some true
  | .integerList l => typeIntegerList ft l c.comparisonOp

/-! ## 4. The evaluation -/

/-- The inner `switch`es over the kind of `m_value`; `right` is the value of the object reference
usage. -/
def compareValue (v : ComparedValue) (s : ComparisonSymbols) (left right : EMdFValue)
    (op : ComparisonOp) : Option Bool :=
  match v with
  | .enumConst _ => left.compare (.enumeration s.enumConstValue) op
  | .integer i => left.compare (.int i) op
  | .string str => left.compare (.string str) op
  | .objectReferenceUsage _ => left.compare right op

/-- The regular expression against the value. -/
def matchPattern (c : FeatureComparison) (left : EMdFValue) : Option Bool :=
  match c.rhs with
  | .value (.string pattern) => left.getString.map fun str => decide (0 < ctx.pcreExec pattern str)
  | _ => none

/-- `compare`. -/
def compare (c : FeatureComparison) (s : ComparisonSymbols) (left right : EMdFValue) :
    Option Bool :=
  match c.comparisonOp with
  | .equal =>
    match c.rhs with
    | .enumList names =>
      if names.isEmpty then left.integerList.map fun l => l.isEmpty
      else left.compare (.listOfInteger (s.infos.map EnumConstInfo.value)) .equal
    | .integerList l =>
      if l.isEmpty then left.integerList.map fun l => l.isEmpty
      else left.compare (.listOfInteger l) .equal
    | .value v => compareValue v s left right .equal
  | .isIn =>
    match c.rhs with
    | .enumList _ => left.number.map fun i => (s.cache.veci.lookup i).isSome
    | .integerList l => some (left.isFoundIn l)
    | .value (.objectReferenceUsage _) => left.compare right .isIn
    | .value _ => none
  | .tilde => matchPattern ctx c left
  | .notTilde => (matchPattern ctx c left).map fun b => !b
  | op =>
    match c.rhs with
    | .value v => compareValue v s left right op
    | _ => none         -- m_value is null

/-! ## 5. What a comparison means -/

/-- The value on the right-hand side. -/
def rightValue (c : FeatureComparison) (s : ComparisonSymbols) (right : EMdFValue) : EMdFValue :=
  match c.rhs with
  | .value (.enumConst _) => .enumeration s.enumConstValue
  | .value (.integer i) => .int i
  | .value (.string str) => .string str
  | .value (.objectReferenceUsage _) => right
  | .enumList _ => .listOfInteger (s.infos.map EnumConstInfo.value)
  | .integerList l => .listOfInteger l

/-- The comparison is true of a value; what a regular expression matches is PCRE's business. -/
def Means (c : FeatureComparison) (s : ComparisonSymbols) (left right : EMdFValue) : Prop :=
  match c.comparisonOp with
  | .tilde => ∃ pattern str, c.rhs = .value (.string pattern) ∧ left = .string str ∧
      0 < ctx.pcreExec pattern str
  | .notTilde => ∃ pattern str, c.rhs = .value (.string pattern) ∧ left = .string str ∧
      ¬ 0 < ctx.pcreExec pattern str
  | op => left.Relates op (c.rightValue s right)

/-- `compare` completes, with the truth of the comparison. -/
def Answers (c : FeatureComparison) (s : ComparisonSymbols) (left right : EMdFValue) : Prop :=
  ∃ b, compare ctx c s left right = some b ∧ (b = true ↔ Means ctx c s left right)

/-- The checks let the comparison pass. -/
structure Accepted (c : FeatureComparison) (s : ComparisonSymbols) : Prop where
  weed : weed ctx c = some true
  symbol : symbol ctx c = some (some s)
  type : type ctx c s = some true

/-- The values that the comparison can meet: of the type of the feature, and of that of the object
reference usage. -/
structure Fits (c : FeatureComparison) (s : ComparisonSymbols) (left right : EMdFValue) : Prop where
  left : left.OfType s.featureInfo.outputType
  right : ∀ u, c.rhs = .value (.objectReferenceUsage u) → right.OfType u.outputFeatureTypeId

/-- What the checks forget to refuse, for a feature of type `ft`: `HAS` on a feature that is no
list, an integer against a set of monads, `IN` with an object reference usage on a string or a set
of monads, and every operator with a list of enumeration constants but `IN` on an enumeration and
`=` on a list. -/
def Forgotten (c : FeatureComparison) (ft : Nat) : Prop :=
  match c.rhs with
  | .value (.enumConst _) => c.comparisonOp = .has ∧ featureTypeKind ft = 4
  | .value (.integer _) =>
    c.comparisonOp = .has ∧ (featureTypeKind ft = 0 ∨ featureTypeKind ft = 3) ∨
      featureTypeKind ft = 5
  | .value (.string _) => False
  | .value (.objectReferenceUsage _) => c.comparisonOp = .isIn ∧
      (featureTypeKind ft = 1 ∨ featureTypeKind ft = 2 ∨ featureTypeKind ft = 5)
  | .enumList _ => ¬ (c.comparisonOp = .isIn ∧ featureTypeKind ft = 4 ∨
      c.comparisonOp = .equal ∧ featureTypeKind ft = 12)
  | .integerList _ => False

/-! ## 6. What the parser and the checks leave -/

theorem Built.value_of_isIn {c : FeatureComparison} (h : Built c) (hop : c.comparisonOp = .isIn)
    {v : ComparedValue} (hv : c.rhs = .value v) : ∃ u, v = .objectReferenceUsage u := by
  cases h with
  | value n ho => exact absurd hop ho
  | computedValue n p ho => exact absurd hop ho
  | inUsage n u =>
    cases hv
    exact ⟨u, rfl⟩
  | computedInUsage n p u =>
    cases hv
    exact ⟨u, rfl⟩
  | _ => cases hv

theorem Built.enumList_ne_nil {c : FeatureComparison} (h : Built c) {l : List String}
    (hl : c.rhs = .enumList l) : l ≠ [] := by
  cases h with
  | equalEnumList n hne =>
    cases hl
    exact hne
  | inEnumList n hne =>
    cases hl
    exact hne
  | aggregateEnumList n ho hne =>
    cases hl
    exact hne
  | _ => cases hl

theorem Built.integerList_ivalues {c : FeatureComparison} (h : Built c) {l : List Int}
    (hl : c.rhs = .integerList l) : ∀ i ∈ l, IsIvalue i := by
  cases h with
  | equalEmptyList n =>
    cases hl
    intro i hi
    cases hi
  | equalIntegerList n hne hi =>
    cases hl
    exact hi
  | inIntegerList n hne hi =>
    cases hl
    exact hi
  | computedInIntegerList n p hne hi =>
    cases hl
    exact hi
  | aggregateIntegerList n ho hne hi =>
    cases hl
    exact hi
  | _ => cases hl

theorem Built.integer_ivalue {c : FeatureComparison} (h : Built c) {i : Int}
    (hi : c.rhs = .value (.integer i)) : IsIvalue i := by
  cases h with
  | value n ho hl =>
    cases hi
    exact hl
  | computedValue n p ho hl =>
    cases hi
    exact hl
  | _ => cases hi

variable {ctx} {c : FeatureComparison} {s : ComparisonSymbols}

/-- Regular expressions are strings. -/
theorem Accepted.pattern (h : Accepted ctx c s)
    (hop : c.comparisonOp = .tilde ∨ c.comparisonOp = .notTilde) :
    ∃ str, c.rhs = .value (.string str) := by
  have hweed := h.weed
  cases hv : c.rhs with
  | value v =>
    cases v with
    | string str => exact ⟨str, rfl⟩
    | _ => simp [FeatureComparison.weed, hv, hop] at hweed
  | _ => simp [FeatureComparison.weed, hv, hop] at hweed

/-- A constant is found in an enumeration, which is that of the feature. -/
theorem kind_of_constants {ft : Nat} (hft : ctx.featureType c.featureName = some ft)
    (h : (ctx.constants (stripEnumIdOfLowerBits ft)).isSome = true) :
    (FeatureInfo.make c.featureName c.parameter1 ft []).outputType = ft ∧
      (featureTypeKind ft = 4 ∨ featureTypeKind ft = 12) := by
  have hkind : featureTypeKind ft = 4 ∨ featureTypeKind ft = 12 := by
    rcases ctx.declared _ _ hft with ⟨-, hstrip⟩ | hkind
    · rw [hstrip, ctx.noNil] at h
      cases h
    · simpa using hkind
  refine ⟨?_, hkind⟩
  have hnone : computedFeatureKind c.featureName = .none := by
    by_contra hne
    have := ctx.computed _ _ hft hne
    omega
  rw [FeatureInfo.make, hnone]

/-- The kinds of the types that are declared. -/
theorem IsFeatureType.kinds {t : Nat} (h : IsFeatureType t) :
    featureTypeKind t ∈ [0, 1, 2, 3, 4, 5, 8, 11, 12] := by
  rcases h with ⟨h, -⟩ | h <;> simp only [List.mem_cons, List.not_mem_nil, or_false] at h ⊢ <;>
    omega

/-- A computed feature has a type of its own. -/
theorem kinds_make {t : Nat} (n p : Name) (h : IsFeatureType t) :
    featureTypeKind (FeatureInfo.make n p t []).outputType ∈ [0, 1, 2, 3, 4, 5, 8, 11, 12] := by
  rw [FeatureInfo.make]
  cases computedFeatureKind n with
  | none => exact IsFeatureType.kinds h
  | self => simp [featureTypeKind]
  | ofMonads => simp [featureTypeKind]

theorem Accepted.featureInfo_eq (h : Accepted ctx c s) :
    ∃ ft, ctx.featureType c.featureName = some ft ∧
      s.featureInfo = FeatureInfo.make c.featureName c.parameter1 ft [] := by
  have hsymbol := h.symbol
  rw [FeatureComparison.symbol] at hsymbol
  cases hft : ctx.featureType c.featureName with
  | none =>
    rw [hft] at hsymbol
    cases hsymbol
  | some ft =>
    refine ⟨ft, rfl, ?_⟩
    rw [hft] at hsymbol
    simp only at hsymbol
    split at hsymbol
    · obtain ⟨r, -, rfl⟩ := Option.map_eq_some_iff.mp (Option.some.inj hsymbol)
      rfl
    · split at hsymbol
      · obtain ⟨r, -, hmap⟩ := Option.map_eq_some_iff.mp hsymbol
        obtain ⟨s', -, rfl⟩ := Option.map_eq_some_iff.mp hmap
        rfl
      · cases hsymbol
    · cases hsymbol
      rfl

theorem Accepted.kinds (h : Accepted ctx c s) :
    featureTypeKind s.featureInfo.outputType ∈ [0, 1, 2, 3, 4, 5, 8, 11, 12] := by
  obtain ⟨ft, hft, hinfo⟩ := h.featureInfo_eq
  rw [hinfo]
  exact kinds_make _ _ (ctx.declared _ _ hft)

theorem Accepted.kind_of_enumConst (h : Accepted ctx c s) {name : String}
    (hv : c.rhs = .value (.enumConst name)) :
    featureTypeKind s.featureInfo.outputType = 4 ∨
      featureTypeKind s.featureInfo.outputType = 12 := by
  have hsymbol := h.symbol
  rw [FeatureComparison.symbol] at hsymbol
  cases hft : ctx.featureType c.featureName with
  | none =>
    rw [hft] at hsymbol
    cases hsymbol
  | some ft =>
    simp only [hft, hv, symbolValue, Option.map_map] at hsymbol
    obtain ⟨eci, heci, rfl⟩ := Option.map_eq_some_iff.mp (Option.some.inj hsymbol)
    have hsome : (ctx.constants (stripEnumIdOfLowerBits ft)).isSome = true := by
      rw [QueryContext.enumConstExists] at heci
      cases hc : ctx.constants (stripEnumIdOfLowerBits ft) with
      | none =>
        rw [hc] at heci
        cases heci
      | some l => rfl
    obtain ⟨htype, hkind⟩ := kind_of_constants hft hsome
    simpa [htype] using hkind

/-- The cache has the values of the list. -/
theorem symbolEnumList_spec {ft : Nat} : ∀ {names : List String} {infos infos' : List EnumConstInfo}
    {cache cache' : EnumConstCache},
    symbolEnumList ctx ft names infos cache = some (some (infos', cache')) →
    (∀ i, (cache.veci.lookup i).isSome = true ↔ i ∈ infos.map EnumConstInfo.value) →
      ∀ i, (cache'.veci.lookup i).isSome = true ↔ i ∈ infos'.map EnumConstInfo.value
  | [], infos, infos', cache, cache', h, hinv => by
    cases h
    exact hinv
  | name :: names, infos, infos', cache, cache', h, hinv => by
    rw [symbolEnumList] at h
    split at h
    · cases h
    · rename_i eci heci
      obtain ⟨⟨added, cache₁⟩, hadd, h⟩ := Option.bind_eq_some_iff.mp h
      refine symbolEnumList_spec h fun i => ?_
      rw [List.map_append, List.mem_append, ← hinv i, List.map_singleton, List.mem_singleton]
      rw [EnumConstCache.addEci] at hadd
      split at hadd
      · rename_i p hp
        cases hadd
        constructor
        · exact Or.inl
        · rintro (hi | rfl)
          · exact hi
          · rw [hp]
            rfl
      · split at hadd
        · cases hadd
        · cases hadd
          change ((cache.veci.insert eci.value cache.objects.next).lookup i).isSome = true ↔ _
          by_cases hi : i = eci.value
          · rw [hi, AList.lookup_insert]
            simp
          · rw [AList.lookup_insert_ne hi]
            simp [hi]

theorem ivalue_of_enumConstExists {name : String} {id : Nat} {eci : EnumConstInfo}
    (h : ctx.enumConstExists name id = some eci) : IsIvalue eci.value := by
  rw [QueryContext.enumConstExists] at h
  have hmem := List.mem_of_find?_eq_some h
  cases hc : ctx.constants (stripEnumIdOfLowerBits id) with
  | none =>
    rw [hc] at hmem
    cases hmem
  | some l =>
    rw [hc] at hmem
    exact ctx.ivalues _ _ hc eci hmem

/-- The constants of a list come from the database. -/
theorem symbolEnumList_ivalues {ft : Nat} : ∀ {names : List String}
    {infos infos' : List EnumConstInfo} {cache cache' : EnumConstCache},
    symbolEnumList ctx ft names infos cache = some (some (infos', cache')) →
    (∀ eci ∈ infos, IsIvalue eci.value) →
      (∀ eci ∈ infos', IsIvalue eci.value) ∧ (names ≠ [] → infos' ≠ []) ∧
        (infos ≠ [] → infos' ≠ [])
  | [], infos, infos', cache, cache', h, hinv => by
    cases h
    exact ⟨hinv, fun h => absurd rfl h, fun h => h⟩
  | name :: names, infos, infos', cache, cache', h, hinv => by
    rw [symbolEnumList] at h
    split at h
    · cases h
    · rename_i eci heci
      obtain ⟨⟨added, cache₁⟩, -, h⟩ := Option.bind_eq_some_iff.mp h
      have ih := symbolEnumList_ivalues h (by
        intro o ho
        rcases List.mem_append.mp ho with ho | ho
        · exact hinv o ho
        · rw [List.mem_singleton.mp ho]
          exact ivalue_of_enumConstExists heci)
      have hne : infos' ≠ [] := ih.2.2 (by simp)
      exact ⟨ih.1, fun _ => hne, fun _ => hne⟩

theorem Accepted.infos_ivalues (h : Accepted ctx c s) {l : List String}
    (hl : c.rhs = .enumList l) :
    (∀ i ∈ s.infos.map EnumConstInfo.value, IsIvalue i) ∧ (l ≠ [] → s.infos ≠ []) := by
  have hsymbol := h.symbol
  rw [FeatureComparison.symbol] at hsymbol
  cases hft : ctx.featureType c.featureName with
  | none =>
    rw [hft] at hsymbol
    cases hsymbol
  | some ft =>
    simp only [hft, hl] at hsymbol
    split at hsymbol
    · obtain ⟨r, hr, hmap⟩ := Option.map_eq_some_iff.mp hsymbol
      obtain ⟨⟨infos, cache⟩, rfl, rfl⟩ := Option.map_eq_some_iff.mp hmap
      obtain ⟨hinfos, hne, -⟩ := symbolEnumList_ivalues hr (by simp)
      refine ⟨fun i hi => ?_, hne⟩
      obtain ⟨eci, heci, rfl⟩ := List.mem_map.mp hi
      exact hinfos eci heci
    · cases hsymbol

theorem Accepted.enumConst_ivalue (h : Accepted ctx c s) {name : String}
    (hv : c.rhs = .value (.enumConst name)) : IsIvalue s.enumConstValue := by
  have hsymbol := h.symbol
  rw [FeatureComparison.symbol] at hsymbol
  cases hft : ctx.featureType c.featureName with
  | none =>
    rw [hft] at hsymbol
    cases hsymbol
  | some ft =>
    simp only [hft, hv, symbolValue, Option.map_map] at hsymbol
    obtain ⟨eci, heci, rfl⟩ := Option.map_eq_some_iff.mp (Option.some.inj hsymbol)
    exact ivalue_of_enumConstExists heci

theorem Accepted.enumList (h : Accepted ctx c s) {l : List String} (hl : c.rhs = .enumList l) :
    (featureTypeKind s.featureInfo.outputType = 4 ∨
      featureTypeKind s.featureInfo.outputType = 12) ∧
    ∀ i, (s.cache.veci.lookup i).isSome = true ↔ i ∈ s.infos.map EnumConstInfo.value := by
  have hsymbol := h.symbol
  rw [FeatureComparison.symbol] at hsymbol
  cases hft : ctx.featureType c.featureName with
  | none =>
    rw [hft] at hsymbol
    cases hsymbol
  | some ft =>
    simp only [hft, hl] at hsymbol
    split at hsymbol
    · rename_i hsome
      obtain ⟨r, hr, hmap⟩ := Option.map_eq_some_iff.mp hsymbol
      obtain ⟨⟨infos, cache⟩, rfl, rfl⟩ := Option.map_eq_some_iff.mp hmap
      obtain ⟨htype, hkind⟩ := kind_of_constants hft hsome
      refine ⟨by simpa [htype] using hkind, symbolEnumList_spec hr fun i => ?_⟩
      simp [EnumConstCache.empty]
    · cases hsymbol

/-! ## 7. Values of a type -/

section Values

variable {v w : EMdFValue} {t : Nat} {op : ComparisonOp}

theorem sound_of_ofType (h : v.OfType t) : v.Sound := by
  cases v with
  | setOfMonads som => exact h.2
  | _ => trivial

/-- A number is compared with a number by an operator that names an order. -/
theorem compare_number (h : v.OfType t)
    (ht : featureTypeKind t = 0 ∨ featureTypeKind t = 3 ∨ featureTypeKind t = 4) :
    ∃ i, v.number = some i ∧ IsIvalue i ∧
      ∀ w op, v.compare w op = v.compareInt w op := by
  cases v with
  | int i => exact ⟨i, rfl, h.2, fun _ _ => rfl⟩
  | enumeration i => exact ⟨i, rfl, h.2, fun _ _ => rfl⟩
  | idD i => exact ⟨i, rfl, h.2, fun _ _ => rfl⟩
  | _ => simp only [EMdFValue.OfType] at h; omega

theorem compare_list (h : v.OfType t)
    (ht : featureTypeKind t = 8 ∨ featureTypeKind t = 11 ∨ featureTypeKind t = 12) :
    ∃ l, v.integerList = some l ∧
      ∀ w op, v.compare w op = v.compareListOfIntegerWithOther w op := by
  cases v with
  | listOfInteger l => exact ⟨l, rfl, fun _ _ => rfl⟩
  | listOfIdD l => exact ⟨l, rfl, fun _ _ => rfl⟩
  | _ => simp only [EMdFValue.OfType] at h; omega

theorem eq_string (h : v.OfType t) (ht : featureTypeKind t = 1 ∨ featureTypeKind t = 2) :
    ∃ str, v = .string str := by
  cases v with
  | string str => exact ⟨str, rfl⟩
  | _ => simp only [EMdFValue.OfType] at h; omega

theorem eq_setOfMonads (h : v.OfType t) (ht : featureTypeKind t = 5) :
    ∃ som, v = .setOfMonads som := by
  cases v with
  | setOfMonads som => exact ⟨som, rfl⟩
  | _ => simp only [EMdFValue.OfType] at h; omega

theorem compareOrdered_isSome {α : Type} [DecidableEq α] [LT α] [LE α] [DecidableLT α]
    [DecidableLE α] (h : isOrder op = true) (left right : α) :
    (EMdFValue.compareOrdered op left right).isSome = true := by
  cases op <;> first | rfl | cases h

/-- Numbers are ordered. -/
theorem compareInt_isSome {i j : Int} (hv : v.number = some i) (hw : w.number = some j)
    (h : isOrder op = true) : (v.compareInt w op).isSome = true := by
  rw [EMdFValue.compareInt, hv, Option.bind_some]
  cases w with
  | int _ => exact compareOrdered_isSome h _ _
  | enumeration _ => exact compareOrdered_isSome h _ _
  | idD _ => exact compareOrdered_isSome h _ _
  | _ => cases hw

/-- A number is looked up in a list. -/
theorem compareInt_isIn {i : Int} {l : List Int} (hv : v.number = some i)
    (hw : w.integerList = some l) : (v.compareInt w .isIn).isSome = true := by
  rw [EMdFValue.compareInt, hv, Option.bind_some]
  cases w with
  | listOfInteger _ => simp [EMdFValue.compareListOfIntegerWithOther, hv, EMdFValue.integerList]
  | listOfIdD _ => simp [EMdFValue.compareListOfIntegerWithOther, hv, EMdFValue.integerList]
  | _ => cases hw

/-- A list has a number. -/
theorem compareListOfIntegerWithOther_has {l : List Int} {i : Int} (hv : v.integerList = some l)
    (hw : w.number = some i) : (v.compareListOfIntegerWithOther w .has).isSome = true := by
  simp [EMdFValue.compareListOfIntegerWithOther, hv, hw]

/-- Lists of one type are equal or not. -/
theorem compareListOfIntegerWithOther_equal {u : Nat} (hv : v.OfType t) (hw : w.OfType u)
    (ht : featureTypeKind t = 8 ∧ featureTypeKind u = 8 ∨
      featureTypeKind t = 11 ∧ featureTypeKind u = 11 ∨
      featureTypeKind t = 12 ∧ featureTypeKind u = 12) :
    (v.compareListOfIntegerWithOther w .equal).isSome = true := by
  cases v with
  | listOfInteger l =>
    cases w with
    | listOfInteger l' => rfl
    | _ => simp only [EMdFValue.OfType] at hv hw; omega
  | listOfIdD l =>
    cases w with
    | listOfIdD l' => rfl
    | _ => simp only [EMdFValue.OfType] at hv hw; omega
  | _ => simp only [EMdFValue.OfType] at hv; omega

end Values

/-! ## 8. The comparisons that go right -/

/-- Without a regular expression the meaning is a relation of two values. -/
theorem means_iff {left right : EMdFValue} (hp : c.comparisonOp ≠ .tilde)
    (hn : c.comparisonOp ≠ .notTilde) :
    Means ctx c s left right ↔ left.Relates c.comparisonOp (c.rightValue s right) := by
  rw [Means]
  cases hop : c.comparisonOp <;> first | exact Iff.rfl | exact absurd hop hp | exact absurd hop hn

/-- A comparison whose values are compared by `EMdFValue::compare` is right where that answers. -/
theorem answers_of_compare {left right : EMdFValue} (hp : c.comparisonOp ≠ .tilde)
    (hn : c.comparisonOp ≠ .notTilde)
    (hcompare : compare ctx c s left right
      = left.compare (c.rightValue s right) c.comparisonOp)
    (hsome : (left.compare (c.rightValue s right) c.comparisonOp).isSome = true)
    (hleft : left.Sound) (hright : (c.rightValue s right).Sound)
    (hin : c.comparisonOp = .isIn → (c.rightValue s right).number = none) :
    Answers ctx c s left right := by
  obtain ⟨b, hb⟩ := Option.isSome_iff_exists.mp hsome
  refine ⟨b, hcompare.trans hb, ?_⟩
  rw [EMdFValue.compare_spec hleft hright hin hb, means_iff hp hn]

/-- `compare` of a comparison with a value. -/
theorem compare_value {v : ComparedValue} (hv : c.rhs = .value v) (hp : c.comparisonOp ≠ .tilde)
    (hn : c.comparisonOp ≠ .notTilde)
    (hin : c.comparisonOp = .isIn → ∃ u, v = .objectReferenceUsage u) (left right : EMdFValue) :
    compare ctx c s left right = left.compare (c.rightValue s right) c.comparisonOp := by
  rw [compare, rightValue, hv]
  cases hop : c.comparisonOp with
  | tilde => exact absurd hop hp
  | notTilde => exact absurd hop hn
  | isIn =>
    obtain ⟨u, rfl⟩ := hin hop
    rfl
  | _ => cases v <;> rfl

/-- Only strings are matched. -/
theorem Accepted.no_pattern (h : Accepted ctx c s) (hv : ∀ str, c.rhs ≠ .value (.string str)) :
    c.comparisonOp ≠ .tilde ∧ c.comparisonOp ≠ .notTilde := by
  constructor
  · intro hop
    obtain ⟨str, hstr⟩ := h.pattern (.inl hop)
    exact hv str hstr
  · intro hop
    obtain ⟨str, hstr⟩ := h.pattern (.inr hop)
    exact hv str hstr

theorem isOrder_of_ne {op : ComparisonOp} (hp : op ≠ .tilde) (hn : op ≠ .notTilde)
    (hin : op ≠ .isIn) (hhas : op ≠ .has) : isOrder op = true := by
  cases op <;> first | rfl | contradiction

section Right

variable {left right : EMdFValue}

theorem answers_enumConst (hb : Built c) (h : Accepted ctx c s) {name : String}
    (hv : c.rhs = .value (.enumConst name)) (hf : ¬ c.Forgotten s.featureInfo.outputType)
    (hfits : Fits c s left right) : Answers ctx c s left right := by
  obtain ⟨hp, hn⟩ := h.no_pattern fun str hstr => by
    rw [hv] at hstr
    cases hstr
  have hin : c.comparisonOp ≠ .isIn := fun hop => by
    obtain ⟨u, hu⟩ := hb.value_of_isIn hop hv
    cases hu
  have hright : c.rightValue s right = .enumeration s.enumConstValue := by
    rw [rightValue, hv]
  have htype := h.type
  rw [FeatureComparison.type, hv, Option.some.injEq, typeEnumConst] at htype
  refine answers_of_compare hp hn
    (compare_value hv hp hn (fun hop => absurd hop hin) left right) ?_
    (sound_of_ofType hfits.left) (by rw [hright]; trivial) fun hop => absurd hop hin
  rw [hright]
  rw [Forgotten, hv] at hf
  rcases h.kind_of_enumConst hv with hkind | hkind
  · obtain ⟨i, hi, -, hcompare⟩ := compare_number hfits.left (.inr (.inr hkind))
    rw [hcompare]
    exact compareInt_isSome hi rfl (isOrder_of_ne hp hn hin fun hop => hf ⟨hop, hkind⟩)
  · have hhas : c.comparisonOp = .has := by
      simp [featureTypeIdIsListOf, featureTypeIdIsListOfENUM, hkind] at htype
      exact htype.1
    obtain ⟨l, hl, hcompare⟩ := compare_list hfits.left (.inr (.inr hkind))
    rw [hcompare, hhas]
    exact compareListOfIntegerWithOther_has hl rfl

theorem answers_integer (hb : Built c) (h : Accepted ctx c s) {i : Int}
    (hv : c.rhs = .value (.integer i)) (hf : ¬ c.Forgotten s.featureInfo.outputType)
    (hfits : Fits c s left right) : Answers ctx c s left right := by
  obtain ⟨hp, hn⟩ := h.no_pattern fun str hstr => by
    rw [hv] at hstr
    cases hstr
  have hin : c.comparisonOp ≠ .isIn := fun hop => by
    obtain ⟨u, hu⟩ := hb.value_of_isIn hop hv
    cases hu
  have hright : c.rightValue s right = .int i := by
    rw [rightValue, hv]
  have htype := h.type
  rw [FeatureComparison.type, hv, Option.some.injEq, typeInteger] at htype
  refine answers_of_compare hp hn
    (compare_value hv hp hn (fun hop => absurd hop hin) left right) ?_
    (sound_of_ofType hfits.left) (by rw [hright]; trivial) fun hop => absurd hop hin
  rw [hright]
  rw [Forgotten, hv] at hf
  split at htype
  · simp only [featureTypeIdIsListOfINTEGER, featureTypeIdIsListOfID_D, Bool.and_eq_true,
      Bool.or_eq_true, beq_iff_eq] at htype
    obtain ⟨l, hl, hcompare⟩ := compare_list hfits.left (by omega)
    rw [hcompare, htype.1]
    exact compareListOfIntegerWithOther_has hl rfl
  · split at htype
    · rename_i hsom
      exact absurd (.inr (by simpa [featureTypeIdIsSOM] using hsom)) hf
    · simp only [featureTypeIdIsINTEGER, featureTypeIdIsID_D, Bool.or_eq_true, beq_iff_eq] at htype
      obtain ⟨j, hj, -, hcompare⟩ := compare_number hfits.left (by omega)
      rw [hcompare]
      exact compareInt_isSome hj rfl
        (isOrder_of_ne hp hn hin fun hop => hf (.inl ⟨hop, htype⟩))

theorem answers_string (h : Accepted ctx c s) {pattern : List UInt8}
    (hv : c.rhs = .value (.string pattern)) (hfits : Fits c s left right) :
    Answers ctx c s left right := by
  have htype := h.type
  rw [FeatureComparison.type, hv, Option.some.injEq, typeString] at htype
  simp only [featureTypeIdIsASCIIorSTRING, Bool.and_eq_true, Bool.or_eq_true, beq_iff_eq] at htype
  obtain ⟨hkind, hop⟩ := htype
  obtain ⟨str, rfl⟩ := eq_string hfits.left (by omega)
  have hmatch : matchPattern ctx c (.string str) = some (decide (0 < ctx.pcreExec pattern str)) := by
    rw [matchPattern, hv]
    rfl
  rcases hop with (hop | hop) | hop
  · have hright : c.rightValue s right = .string pattern := by
      rw [rightValue, hv]
    have hne : ∀ op, isOrder op = false → c.comparisonOp ≠ op := by
      intro op hfalse heq
      rw [heq, hfalse] at hop
      cases hop
    refine answers_of_compare (hne _ rfl) (hne _ rfl)
      (compare_value hv (hne _ rfl) (hne _ rfl) (fun h => absurd h (hne _ rfl)) _ _) ?_ trivial
      (by rw [hright]; trivial) fun h => absurd h (hne _ rfl)
    rw [hright]
    exact compareOrdered_isSome hop _ _
  · refine ⟨_, by rw [compare, hop]; exact hmatch, ?_⟩
    rw [decide_eq_true_eq, Means, hop]
    constructor
    · exact fun hlt => ⟨pattern, str, hv, rfl, hlt⟩
    · rintro ⟨pattern', str', hv', hstr, hlt⟩
      rw [hv] at hv'
      cases hv'
      cases hstr
      exact hlt
  · refine ⟨_, by rw [compare, hop, hmatch]; rfl, ?_⟩
    rw [Means, hop, Bool.not_eq_true', decide_eq_false_iff_not]
    constructor
    · exact fun hlt => ⟨pattern, str, hv, rfl, hlt⟩
    · rintro ⟨pattern', str', hv', hstr, hlt⟩
      rw [hv] at hv'
      cases hv'
      cases hstr
      exact hlt

/-- `HAS` with an object reference usage: a list and a number. -/
theorem compare_hasUsage {t u : Nat} (hleft : left.OfType t) (hright : right.OfType u)
    (h : typeHasUsage t u = true) (ht : featureTypeKind t ∈ [0, 1, 2, 3, 4, 5, 8, 11, 12]) :
    (left.compare right .has).isSome = true := by
  have hkinds : (featureTypeKind t = 8 ∨ featureTypeKind t = 11 ∨ featureTypeKind t = 12) ∧
      (featureTypeKind u = 0 ∨ featureTypeKind u = 3 ∨ featureTypeKind u = 4) := by
    simp only [List.mem_cons, List.not_mem_nil, or_false] at ht
    rcases ht with ht | ht | ht | ht | ht | ht | ht | ht | ht <;>
      simp [typeHasUsage, featureTypeIdIsListOf, featureTypeIdIsListOfINTEGER, featureTypeIdIsINTEGER,
        featureTypeIdIsListOfID_D, featureTypeIdIsID_D, featureTypeIdIsListOfENUM,
        featureTypeIdIsENUM, ht] at h ⊢ <;> omega
  obtain ⟨l, hl, hcompare⟩ := compare_list hleft hkinds.1
  obtain ⟨i, hi, -, -⟩ := compare_number hright hkinds.2
  rw [hcompare]
  exact compareListOfIntegerWithOther_has hl hi

/-- `IN` with an object reference usage: a number and a list. -/
theorem compare_inUsage {t u : Nat} (hleft : left.OfType t) (hright : right.OfType u)
    (h : typeInUsage t u = true) (ht : featureTypeKind t ∈ [0, 1, 2, 3, 4, 5, 8, 11, 12])
    (hf : ¬ (featureTypeKind t = 1 ∨ featureTypeKind t = 2 ∨ featureTypeKind t = 5)) :
    (left.compare right .isIn).isSome = true ∧ right.number = none := by
  have hkinds : (featureTypeKind t = 0 ∨ featureTypeKind t = 3 ∨ featureTypeKind t = 4) ∧
      (featureTypeKind u = 8 ∨ featureTypeKind u = 11 ∨ featureTypeKind u = 12) := by
    simp only [List.mem_cons, List.not_mem_nil, or_false] at ht
    rcases ht with ht | ht | ht | ht | ht | ht | ht | ht | ht <;>
      simp [typeInUsage, featureTypeIdIsListOf, featureTypeIdIsListOfINTEGER, featureTypeIdIsINTEGER,
        featureTypeIdIsListOfID_D, featureTypeIdIsID_D, featureTypeIdIsListOfENUM,
        featureTypeIdIsENUM, featureTypeIdIsSOM, ht] at h hf ⊢ <;> omega
  obtain ⟨i, hi, -, hcompare⟩ := compare_number hleft hkinds.1
  obtain ⟨l, hl, -⟩ := compare_list hright hkinds.2
  rw [hcompare]
  exact ⟨compareInt_isIn hi hl, EMdFValue.number_of_integerList hl⟩

/-- The other operators with an object reference usage: two values of one type. -/
theorem compare_sameUsage {t u : Nat} {op : ComparisonOp} (hleft : left.OfType t)
    (hright : right.OfType u) (h : typeSameUsage t u op = true)
    (ht : featureTypeKind t ∈ [0, 1, 2, 3, 4, 5, 8, 11, 12]) (hop : isOrder op = true) :
    (left.compare right op).isSome = true := by
  have hkinds : ((featureTypeKind t = 0 ∨ featureTypeKind t = 3 ∨ featureTypeKind t = 4) ∧
        (featureTypeKind u = 0 ∨ featureTypeKind u = 3 ∨ featureTypeKind u = 4)) ∨
      ((featureTypeKind t = 1 ∨ featureTypeKind t = 2) ∧
        (featureTypeKind u = 1 ∨ featureTypeKind u = 2)) ∨
      (op = .equal ∧ (featureTypeKind t = 5 ∧ featureTypeKind u = 5)) ∨
      (op = .equal ∧ (featureTypeKind t = 8 ∧ featureTypeKind u = 8 ∨
        featureTypeKind t = 11 ∧ featureTypeKind u = 11 ∨
        featureTypeKind t = 12 ∧ featureTypeKind u = 12)) := by
    simp only [List.mem_cons, List.not_mem_nil, or_false] at ht
    rcases ht with ht | ht | ht | ht | ht | ht | ht | ht | ht <;>
      simp [typeSameUsage, featureTypeIdIsListOf, featureTypeIdIsListOfINTEGER,
        featureTypeIdIsINTEGER, featureTypeIdIsListOfID_D, featureTypeIdIsID_D,
        featureTypeIdIsListOfENUM, featureTypeIdIsENUM, featureTypeIdIsSOM,
        featureTypeIdIsASCIIorSTRING, ht] at h ⊢ <;> grind
  rcases hkinds with ⟨h₁, h₂⟩ | ⟨h₁, h₂⟩ | ⟨rfl, h₁, h₂⟩ | ⟨rfl, h₁⟩
  · obtain ⟨i, hi, -, hcompare⟩ := compare_number hleft h₁
    obtain ⟨j, hj, -, -⟩ := compare_number hright h₂
    rw [hcompare]
    exact compareInt_isSome hi hj hop
  · obtain ⟨str, rfl⟩ := eq_string hleft h₁
    obtain ⟨str', rfl⟩ := eq_string hright h₂
    exact compareOrdered_isSome hop _ _
  · obtain ⟨som, rfl⟩ := eq_setOfMonads hleft h₁
    obtain ⟨som', rfl⟩ := eq_setOfMonads hright h₂
    rfl
  · obtain ⟨l, -, hcompare⟩ := compare_list hleft (by omega)
    rw [hcompare]
    exact compareListOfIntegerWithOther_equal hleft hright h₁

theorem answers_usage (h : Accepted ctx c s) {u : ObjectReferenceUsage}
    (hv : c.rhs = .value (.objectReferenceUsage u))
    (hf : ¬ c.Forgotten s.featureInfo.outputType) (hfits : Fits c s left right) :
    Answers ctx c s left right := by
  obtain ⟨hp, hn⟩ := h.no_pattern fun str hstr => by
    rw [hv] at hstr
    cases hstr
  have hright : c.rightValue s right = right := by
    rw [rightValue, hv]
  have htype := h.type
  rw [FeatureComparison.type, hv] at htype
  simp only [Bool.not_eq_true'] at htype
  split at htype
  · cases htype
  rw [Option.some.injEq] at htype
  have hsome : (left.compare right c.comparisonOp).isSome = true ∧
      (c.comparisonOp = .isIn → right.number = none) := by
    have hin : c.comparisonOp = .isIn → ¬ (featureTypeKind s.featureInfo.outputType = 1 ∨
        featureTypeKind s.featureInfo.outputType = 2 ∨
        featureTypeKind s.featureInfo.outputType = 5) := by
      intro hop hkind
      rw [Forgotten, hv] at hf
      exact hf ⟨hop, hkind⟩
    have hr := hfits.right u hv
    cases hop : c.comparisonOp with
    | has =>
      rw [hop] at htype
      exact ⟨compare_hasUsage hfits.left hr htype h.kinds, nofun⟩
    | isIn =>
      rw [hop] at htype
      obtain ⟨hs, hnumber⟩ := compare_inUsage hfits.left hr htype h.kinds (hin hop)
      exact ⟨hs, fun _ => hnumber⟩
    | tilde => exact absurd hop hp
    | notTilde => exact absurd hop hn
    | _ =>
      rw [hop] at htype
      exact ⟨compare_sameUsage hfits.left hr htype h.kinds rfl, nofun⟩
  refine answers_of_compare hp hn (compare_value hv hp hn (fun _ => ⟨u, rfl⟩) left right)
    (by rw [hright]; exact hsome.1) (sound_of_ofType hfits.left) ?_
    (by rw [hright]; exact hsome.2)
  rw [hright]
  exact sound_of_ofType (hfits.right u hv)

theorem answers_enumList (hb : Built c) (h : Accepted ctx c s) {names : List String}
    (hv : c.rhs = .enumList names) (hf : ¬ c.Forgotten s.featureInfo.outputType)
    (hfits : Fits c s left right) : Answers ctx c s left right := by
  have hright : c.rightValue s right
      = .listOfInteger (s.infos.map EnumConstInfo.value) := by
    rw [rightValue, hv]
  rw [Forgotten, hv, not_not] at hf
  rcases hf with ⟨hop, hkind⟩ | ⟨hop, hkind⟩
  · obtain ⟨i, hi, -, -⟩ := compare_number hfits.left (.inr (.inr hkind))
    refine ⟨(s.cache.veci.lookup i).isSome, by rw [compare, hop, hv]; simp [hi], ?_⟩
    rw [(h.enumList hv).2 i, Means, hop, hright]
    exact (EMdFValue.relates_isIn (w := .listOfInteger _) hi rfl).symm
  · have hne : names.isEmpty = false := by
      simpa using hb.enumList_ne_nil hv
    have hne' : ∀ op, op ≠ .equal → c.comparisonOp ≠ op := fun op h heq => h (heq ▸ hop)
    refine answers_of_compare (hne' _ nofun) (hne' _ nofun)
      (by rw [compare, hop, hv, hright]; simp [hne]) ?_ (sound_of_ofType hfits.left)
      (by rw [hright]; trivial) fun h => by rw [hop] at h; cases h
    obtain ⟨l, hl, hcompare⟩ := compare_list hfits.left (.inr (.inr hkind))
    rw [hcompare, hright, hop]
    exact compareListOfIntegerWithOther_equal (u := 12) hfits.left (.inr rfl)
      (.inr (.inr ⟨hkind, rfl⟩))

/-- A list of integers is empty or is compared. -/
theorem compare_equalIntegerList {l : List Int} (hv : c.rhs = .integerList l)
    (hop : c.comparisonOp = .equal) {t : Nat} (hleft : left.OfType t)
    (ht : featureTypeKind t = 8 ∨ featureTypeKind t = 11 ∨ featureTypeKind t = 12) :
    ∃ l', left.integerList = some l' ∧ compare ctx c s left right = some (decide (l' = l)) := by
  obtain ⟨l', hl', hcompare⟩ := compare_list hleft ht
  refine ⟨l', hl', ?_⟩
  rw [compare, hop, hv]
  by_cases hl : l = []
  · cases l' <;> simp [hl, hl']
  · have hif : l.isEmpty = false := by simpa using hl
    simp only [hif, Bool.false_eq_true, if_false, hcompare,
      EMdFValue.compareListOfIntegerWithOther]
    cases left with
    | listOfInteger _ =>
      cases hl'
      simp [beq_eq_decide]
    | listOfIdD _ =>
      cases hl'
      simp [EMdFValue.integerList, beq_eq_decide]
    | _ => cases hl'

theorem answers_integerList (hb : Built c) (h : Accepted ctx c s) {l : List Int}
    (hv : c.rhs = .integerList l) (hfits : Fits c s left right) : Answers ctx c s left right := by
  have hright : c.rightValue s right = .listOfInteger l := by
    rw [rightValue, hv]
  have hl := hb.integerList_ivalues hv
  have htype := h.type
  rw [FeatureComparison.type, hv] at htype
  simp only [typeIntegerList, featureTypeIdIsINTEGER, featureTypeIdIsID_D, featureTypeIdIsSOM,
    featureTypeIdIsListOfINTEGER, featureTypeIdIsListOfID_D, featureTypeIdIsListOfENUM] at htype
  split at htype
  · rename_i hop
    refine ⟨left.isFoundIn l, by rw [compare, hop, hv], ?_⟩
    rw [Means, hop, hright]
    simp only [Option.some.injEq, Bool.or_eq_true, beq_iff_eq] at htype
    rcases htype with hkind | hkind
    · obtain ⟨i, hi, hrange, -⟩ := compare_number hfits.left (by omega)
      rw [EMdFValue.isFoundIn_number hi hrange hl]
      exact (EMdFValue.relates_isIn (w := .listOfInteger l) hi rfl).symm
    · obtain ⟨som, rfl⟩ := eq_setOfMonads hfits.left hkind
      rw [EMdFValue.isFoundIn_setOfMonads som hl]
      constructor
      · intro hfalse
        cases hfalse
      · rintro (⟨hn, -, -⟩ | _ | _ | _ | ⟨hn, -⟩ | _)
        · cases hn
        · cases hn
  · split at htype
    · rename_i hop
      simp only [Option.some.injEq, Bool.or_eq_true, Bool.and_eq_true, beq_iff_eq] at htype
      obtain ⟨l', hl', hcompare⟩ :=
        @compare_equalIntegerList ctx c s left right l hv hop _ hfits.left (by omega)
      refine ⟨_, hcompare, ?_⟩
      rw [decide_eq_true_eq, Means, hop, hright]
      exact (EMdFValue.relates_lists hl' rfl).symm
    · cases htype

/-- **Comparisons that the checks do not forget go right.** -/
theorem answers_of_not_forgotten (hb : Built c) (h : Accepted ctx c s)
    (hf : ¬ c.Forgotten s.featureInfo.outputType) (hfits : Fits c s left right) :
    Answers ctx c s left right := by
  cases hv : c.rhs with
  | value v =>
    cases v with
    | enumConst name => exact answers_enumConst hb h hv hf hfits
    | integer i => exact answers_integer hb h hv hf hfits
    | string pattern => exact answers_string h hv hfits
    | objectReferenceUsage u => exact answers_usage h hv hf hfits
  | enumList names => exact answers_enumList hb h hv hf hfits
  | integerList l => exact answers_integerList hb h hv hfits

end Right

/-! ## 9. The comparisons that go wrong -/

theorem not_answers_of_none {left right : EMdFValue} (h : compare ctx c s left right = none) :
    ¬ Answers ctx c s left right := by
  rintro ⟨b, hb, -⟩
  rw [h] at hb
  cases hb

/-- A value for a comparison without an object reference usage. -/
theorem fits_of_no_usage {left : EMdFValue} (hleft : left.OfType s.featureInfo.outputType)
    (hv : ∀ u, c.rhs ≠ .value (.objectReferenceUsage u)) : Fits c s left (.int 0) :=
  ⟨hleft, fun u hu => absurd hu (hv u)⟩

theorem fails_enumConst {name : String} (hv : c.rhs = .value (.enumConst name))
    (hf : c.Forgotten s.featureInfo.outputType) :
    ∃ left right, Fits c s left right ∧ compare ctx c s left right = none := by
  rw [Forgotten, hv] at hf
  obtain ⟨hop, hkind⟩ := hf
  refine ⟨.enumeration 0, .int 0, fits_of_no_usage ⟨hkind, by decide, by decide⟩ ?_, ?_⟩
  · intro u hu
    rw [hv] at hu
    cases hu
  · rw [compare, hop, hv]
    rfl

theorem fails_integer (h : Accepted ctx c s) {i : Int} (hv : c.rhs = .value (.integer i))
    (hf : c.Forgotten s.featureInfo.outputType) :
    ∃ left right, Fits c s left right ∧ compare ctx c s left right = none := by
  have hno : ∀ u, c.rhs ≠ .value (.objectReferenceUsage u) := by
    intro u hu
    rw [hv] at hu
    cases hu
  rw [Forgotten, hv] at hf
  rcases hf with ⟨hop, hkind | hkind⟩ | hkind
  · refine ⟨.int 0, .int 0, fits_of_no_usage ⟨hkind, by decide, by decide⟩ hno, ?_⟩
    rw [compare, hop, hv]
    rfl
  · refine ⟨.idD 0, .int 0, fits_of_no_usage ⟨hkind, by decide, by decide⟩ hno, ?_⟩
    rw [compare, hop, hv]
    rfl
  · refine ⟨.setOfMonads .empty, .int 0,
      fits_of_no_usage ⟨hkind, SetOfMonads.repInv_empty⟩ hno, ?_⟩
    have hop : isOrder c.comparisonOp = true := by
      have htype := h.type
      simpa [FeatureComparison.type, hv, typeInteger, featureTypeIdIsListOf, featureTypeIdIsSOM,
        hkind] using htype
    rw [compare, hv]
    cases hc : c.comparisonOp with
    | isIn => rfl
    | has =>
      rw [hc] at hop
      cases hop
    | tilde =>
      rw [hc] at hop
      cases hop
    | notTilde =>
      rw [hc] at hop
      cases hop
    | _ => rfl

theorem fails_usage (h : Accepted ctx c s) {u : ObjectReferenceUsage}
    (hv : c.rhs = .value (.objectReferenceUsage u)) (hf : c.Forgotten s.featureInfo.outputType) :
    ∃ left right, Fits c s left right ∧ compare ctx c s left right = none := by
  rw [Forgotten, hv] at hf
  obtain ⟨hop, hkind⟩ := hf
  have hlist : featureTypeIdIsListOf u.outputFeatureTypeId = true := by
    have htype := h.type
    rw [FeatureComparison.type, hv] at htype
    simp only [hop, typeInUsage] at htype
    split at htype
    · cases htype
    · simp only [Option.some.injEq] at htype
      split at htype
      · simp_all
      · cases htype
  have hright : ∃ right : EMdFValue, right.OfType u.outputFeatureTypeId ∧ right.number = none ∧
      right.getString = none ∧ ∀ som, right ≠ .setOfMonads som := by
    simp only [featureTypeIdIsListOf, List.contains_iff_mem, List.mem_cons, List.not_mem_nil,
      or_false] at hlist
    rcases hlist with hk | hk | hk
    · exact ⟨.listOfInteger [], .inl hk, rfl, rfl, nofun⟩
    · exact ⟨.listOfIdD [], hk, rfl, rfl, nofun⟩
    · exact ⟨.listOfInteger [], .inr hk, rfl, rfl, nofun⟩
  obtain ⟨right, hr, hnumber, hstring, hsom⟩ := hright
  have hfits : ∀ {left : EMdFValue}, left.OfType s.featureInfo.outputType →
      Fits c s left right := by
    refine fun hleft => ⟨hleft, fun u' hu => ?_⟩
    rw [hv] at hu
    cases hu
    exact hr
  have hcompare : ∀ left, compare ctx c s left right = left.compare right .isIn := by
    intro left
    rw [compare, hop, hv]
  rcases hkind with hkind | hkind | hkind
  · refine ⟨.string [], right, hfits (.inl hkind), ?_⟩
    rw [hcompare, EMdFValue.compare, EMdFValue.compareString, hstring]
    rfl
  · refine ⟨.string [], right, hfits (.inr hkind), ?_⟩
    rw [hcompare, EMdFValue.compare, EMdFValue.compareString, hstring]
    rfl
  · refine ⟨.setOfMonads .empty, right, hfits ⟨hkind, SetOfMonads.repInv_empty⟩, ?_⟩
    rw [hcompare]
    cases right with
    | int i => cases hnumber
    | setOfMonads som => exact absurd rfl (hsom som)
    | _ => rfl

theorem fails_enumList (hb : Built c) (h : Accepted ctx c s) {names : List String}
    (hv : c.rhs = .enumList names) (hf : c.Forgotten s.featureInfo.outputType) :
    ∃ left right, Fits c s left right ∧ compare ctx c s left right = none := by
  have hno : ∀ u, c.rhs ≠ .value (.objectReferenceUsage u) := by
    intro u hu
    rw [hv] at hu
    cases hu
  obtain ⟨hp, hn⟩ := h.no_pattern fun str hstr => by
    rw [hv] at hstr
    cases hstr
  have hne : names.isEmpty = false := by
    simpa using hb.enumList_ne_nil hv
  rw [Forgotten, hv] at hf
  obtain ⟨left, hleft, hfour, htwelve⟩ : ∃ left : EMdFValue,
      left.OfType s.featureInfo.outputType ∧
      (featureTypeKind s.featureInfo.outputType = 4 → left = .enumeration 0) ∧
      (featureTypeKind s.featureInfo.outputType = 12 → left = .listOfInteger []) := by
    rcases (h.enumList hv).1 with hkind | hkind
    · exact ⟨.enumeration 0, ⟨hkind, by decide, by decide⟩, fun _ => rfl, fun h => by omega⟩
    · exact ⟨.listOfInteger [], .inr hkind, fun h => by omega, fun _ => rfl⟩
  refine ⟨left, .int 0, fits_of_no_usage hleft hno, ?_⟩
  rw [compare, hv]
  cases hop : c.comparisonOp with
  | equal =>
    rcases (h.enumList hv).1 with hkind | hkind
    · rw [hfour hkind]
      simp only [hne]
      rfl
    · exact absurd (.inr ⟨hop, hkind⟩) hf
  | isIn =>
    rcases (h.enumList hv).1 with hkind | hkind
    · exact absurd (.inl ⟨hop, hkind⟩) hf
    · rw [htwelve hkind]
      rfl
  | tilde => exact absurd hop hp
  | notTilde => exact absurd hop hn
  | _ => rfl

/-- **Comparisons that the checks forget go wrong** on some object. -/
theorem fails_of_forgotten (hb : Built c) (h : Accepted ctx c s)
    (hf : c.Forgotten s.featureInfo.outputType) :
    ∃ left right, Fits c s left right ∧ compare ctx c s left right = none := by
  cases hv : c.rhs with
  | value v =>
    cases v with
    | enumConst name => exact fails_enumConst hv hf
    | integer i => exact fails_integer h hv hf
    | string pattern =>
      rw [Forgotten, hv] at hf
      exact hf.elim
    | objectReferenceUsage u => exact fails_usage h hv hf
  | enumList names => exact fails_enumList hb h hv hf
  | integerList l =>
    rw [Forgotten, hv] at hf
    exact hf.elim

/-- **Accepted comparisons** complete on all values that they can meet, with the truth of the
comparison, exactly if they are not among those that the checks forget. -/
theorem answers_iff_not_forgotten (hb : Built c) (h : Accepted ctx c s) :
    (∀ left right, Fits c s left right → Answers ctx c s left right) ↔
      ¬ c.Forgotten s.featureInfo.outputType := by
  constructor
  · intro hall hf
    obtain ⟨left, right, hfits, hnone⟩ := fails_of_forgotten hb h hf
    exact not_answers_of_none hnone (hall left right hfits)
  · exact fun hf left right hfits => answers_of_not_forgotten hb h hf hfits

/-- An object type with a feature `x`. -/
def featureX (t : Nat) (n : Name) : Option Nat := if n = ['x'] then some t else none

theorem featureX_eq_some {t t' : Nat} {n : Name} (h : featureX t n = some t') :
    n = ['x'] ∧ t' = t := by
  rw [featureX] at h
  split at h
  · exact ⟨‹_›, (Option.some.inj h).symm⟩
  · cases h

theorem featureX_declared {t : Nat} (ht : IsFeatureType t) (n : Name) (t' : Nat)
    (h : featureX t n = some t') : IsFeatureType t' := by
  rw [(featureX_eq_some h).2]
  exact ht

theorem featureX_computed {t : Nat} (n : Name) (t' : Nat) (h : featureX t n = some t')
    (hn : computedFeatureKind n ≠ .none) : featureTypeKind t' = 0 ∨ featureTypeKind t' = 3 := by
  rw [(featureX_eq_some h).1] at hn
  exact absurd (by decide) hn

def noConstants (_ : Nat) : Option (List EnumConstInfo) := none

theorem noConstants_ivalues (id : Nat) (l : List EnumConstInfo) (h : noConstants id = some l) :
    ∀ eci ∈ l, IsIvalue eci.value := by
  cases h

def contextOf {t : Nat} (ht : IsFeatureType t) : QueryContext where
  featureType := featureX t
  constants := noConstants
  pcreCompiles := fun _ => true
  pcreExec := fun _ _ => -1
  usageWeed := fun _ => true
  usageSymbol := fun _ => true
  usageType := fun _ => true
  declared := featureX_declared ht
  ivalues := noConstants_ivalues
  noNil := rfl
  computed := featureX_computed

/-- `x` is an integer. -/
theorem isFeatureType_integer : IsFeatureType 0 := .inl ⟨List.mem_cons_self, rfl⟩

def contextX : QueryContext := contextOf isFeatureType_integer

/-- What `symbol` makes of a comparison of `x` with an integer. -/
def symbolsX : ComparisonSymbols :=
  ⟨FeatureInfo.make ['x'] [] 0 [], 0, 0, [], .empty⟩

/-- `x <= 5` is right for every value of `x`. -/
theorem answers_iff_not_forgotten_le :
    (∀ left right, Fits ⟨['x'], [], .lessThanOrEqual, .value (.integer 5)⟩ symbolsX left right →
      Answers contextX ⟨['x'], [], .lessThanOrEqual, .value (.integer 5)⟩ symbolsX left right) ↔
    ¬ Forgotten ⟨['x'], [], .lessThanOrEqual, .value (.integer 5)⟩
      symbolsX.featureInfo.outputType :=
  answers_iff_not_forgotten (.value _ (by decide) ⟨by decide, by decide⟩) ⟨rfl, rfl, by decide⟩

/-- `x HAS 5` passes the checks, and an object aborts the query. -/
theorem not_answers_has : ¬ ∀ (ctx : QueryContext) (c : FeatureComparison) (s : ComparisonSymbols),
    Built c → Accepted ctx c s →
      ∀ left right, Fits c s left right → Answers ctx c s left right := by
  intro hall
  have hfits : Fits ⟨['x'], [], .has, .value (.integer 5)⟩ symbolsX (.int 5) (.int 0) :=
    ⟨⟨by decide, by decide, by decide⟩, nofun⟩
  exact not_answers_of_none rfl (hall contextX ⟨['x'], [], .has, .value (.integer 5)⟩ symbolsX
    (.value _ (by decide) ⟨by decide, by decide⟩) ⟨rfl, rfl, by decide⟩ _ _ hfits)

end FeatureComparison

end Emdros
