/-
# Batches of objects for PostgreSQL (`pgemdfdb.cpp`, `EMdFDB::createObjects`)

`createObjects` writes the objects of a list as lines of text and sends them in batches: after ten
thousand objects, after about a megabyte, and at the end.  A batch is a `COPY` command with a list
of columns, and the lines with an end marker.  The functions that PostgreSQL's backend supplies for
it are `createObjectsOTObjectsData`, which appends a line, `createObjectsInBetweenData` and
`createObjectsOTObjectsDB`, which sends a batch.

`createObjects_rows` says what the server reads from the commands.  The server may refuse a
command; then the commands before it hold the objects up to there.
-/
import Emdros.Base.CopyText
import Emdros.MQL.FeatureComparison
import Emdros.Monads.CompactString

namespace Emdros
namespace PgEMdFDB

open Lexer (bytes)
open CopyText (Encodes EncodesRow)

/-! ## 1. Escapes -/

/-- `"01234567"[d]`. -/
def octalDigit (d : UInt8) : UInt8 := d + 48

/-- `char2octal`. -/
def char2octal (c : UInt8) : List UInt8 :=
  [octalDigit (c >>> 6 &&& 3), octalDigit (c >>> 3 &&& 7), octalDigit (c &&& 7)]

/-- One byte of `escapeStringForCOPY`. -/
def escapeByteForCOPY (c : UInt8) : List UInt8 :=
  if c = 8 then bytes "\\b"
  else if c = 12 then bytes "\\f"
  else if c = 10 then bytes "\\n"
  else if c = 13 then bytes "\\r"
  else if c = 9 then bytes "\\t"
  else if c = 11 then bytes "\\v"
  else if c = 92 then bytes "\\\\"
  else if c > 127 ∨ c < 32 then 92 :: char2octal c
  else [c]

def escapeStringForCOPY (str : List UInt8) : List UInt8 := str.flatMap escapeByteForCOPY

/-! ## 2. The lines -/

/-- What `createObjects` takes from an `InstObject`. -/
structure InstObject where
  idD : Int
  monads : SetOfMonads
  featureValues : List EMdFValue

/-- A compact string, as bytes. -/
def compactBytes (som : SetOfMonads) : List UInt8 :=
  som.toCompactString.map fun c => UInt8.ofNat c.toNat

/-- `getSOM`. -/
def getSOM : EMdFValue → Option SetOfMonads
  | .setOfMonads som => some som
  | _ => none

/-- What is written for a feature.  A value of another kind than the feature's is `none`.
`setValue` is `FeatureInfo2SQLvalue`, which looks up and creates strings of a set. -/
def featureData (setValue : FeatureInfo → List UInt8 → List UInt8) (ci : FeatureInfo)
    (value : EMdFValue) : Option (List UInt8) :=
  match featureTypeKind ci.retrievedType with
  | 2 =>
    if featureTypeIdIsFromSet ci.retrievedType then
      value.getString.map fun str => escapeStringForCOPY (setValue
        (FeatureInfo.make ci.retrievedFeatureName [] ci.retrievedType []) str)
    else value.getString.map escapeStringForCOPY
  | 1 =>
    if featureTypeIdIsFromSet ci.retrievedType then
      value.getString.map fun str => setValue
        (FeatureInfo.make ci.name [] ci.retrievedType []) str
    else value.getString.map escapeStringForCOPY
  | 5 =>
    (getSOM value).map fun som => escapeStringForCOPY (compactBytes som) ++ [9] ++
      if som.isEmpty then longlong2string maxMonad else longlong2string som.first
  | 0 => value.number.map longlong2string
  | 3 => value.number.map longlong2string
  | 4 => value.number.map longlong2string
  | 8 => value.integerList.map fun l =>
      escapeStringForCOPY (delimitedString (l.map longlong2string))
  | 11 => value.integerList.map fun l =>
      escapeStringForCOPY (delimitedString (l.map longlong2string))
  | 12 => value.integerList.map fun l =>
      escapeStringForCOPY (delimitedString (l.map longlong2string))
  | _ => some []

/-- The loop over the features. -/
def featuresData (setValue : FeatureInfo → List UInt8 → List UInt8) (pObject : InstObject) :
    Nat → List FeatureInfo → List UInt8 → Option (List UInt8)
  | _, [], data => some data
  | index, ci :: features, data =>
    pObject.featureValues[index]?.bind fun value =>
      (featureData setValue ci value).bind fun s =>
        featuresData setValue pObject (index + 1) features (data ++ [9] ++ s)

def createObjectsOTObjectsData (setValue : FeatureInfo → List UInt8 → List UInt8)
    (pObject : InstObject) (som : SetOfMonads) (objectTypeFeatures : List FeatureInfo)
    (objectRangeType : ObjectRangeType) (data : List UInt8) : Option (List UInt8) :=
  let data := data ++ longlong2string pObject.idD
  let data := data ++ [9]
  let data := data ++ longlong2string som.first
  let data :=
    if objectRangeType ≠ .singleMonad then data ++ [9] ++ longlong2string som.last else data
  let data :=
    if objectRangeType = .multipleRange then
      data ++ [9] ++ escapeStringForCOPY (compactBytes som)
    else data
  featuresData setValue pObject 0 objectTypeFeatures data

def createObjectsInBetweenData (data : List UInt8) : List UInt8 := data ++ [10]

/-! ## 3. The commands -/

/-- `COPY table(columns) FROM stdin;`, and what is put into the copy stream. -/
structure CopyCommand where
  table : Name
  columns : List Name
  data : List UInt8

/-- The columns that are named for a feature. -/
def featureColumnNames (ci : FeatureInfo) : List Name :=
  let column := encodeFeatureName ci.retrievedFeatureName
  column :: if featureTypeIdIsSOM ci.retrievedType then ["first_monad_".toList ++ column] else []

/-- The columns that are named. -/
def copyColumns (objectRangeType : ObjectRangeType) (objectTypeFeatures : List FeatureInfo) :
    List Name :=
  ["object_id_d".toList, "first_monad".toList]
    ++ (if objectRangeType ≠ .singleMonad then ["last_monad".toList] else [])
    ++ (if objectRangeType = .multipleRange then ["monads".toList] else [])
    ++ objectTypeFeatures.flatMap featureColumnNames

def createObjectsOTObjectsDB (objectTypeName : Name) (data : List UInt8)
    (objectRangeType : ObjectRangeType) (objectTypeFeatures : List FeatureInfo) : CopyCommand :=
  ⟨objectsTableName objectTypeName, copyColumns objectRangeType objectTypeFeatures,
    data ++ bytes "\n\\.\n"⟩

/-- What `createObjects` returns, and the commands that the server has accepted. -/
structure Batches where
  result : Bool
  objectCount : Nat
  commands : List CopyCommand

/-- The loop of `createObjects`, with `data` written and not yet sent.  `accepts` is the server's
answer to a command after those before it. -/
def createObjectsLoop (accepts : List CopyCommand → CopyCommand → Bool)
    (setValue : FeatureInfo → List UInt8 → List UInt8) (objectTypeName : Name)
    (objectTypeFeatures : List FeatureInfo) (objectRangeType : ObjectRangeType)
    (objectCount countInThisRound : Nat) (data : List UInt8) (commands : List CopyCommand) :
    List InstObject → Option Batches
  | [] => some ⟨true, objectCount, commands⟩
  | ci :: objectList =>
    (createObjectsOTObjectsData setValue ci ci.monads objectTypeFeatures objectRangeType data).bind
      fun data =>
    let countInThisRound := countInThisRound + 1
    if countInThisRound = 10000 ∨ objectList = [] ∨ data.length > 1042441 then
      let command :=
        createObjectsOTObjectsDB objectTypeName data objectRangeType objectTypeFeatures
      if accepts commands command then
        createObjectsLoop accepts setValue objectTypeName objectTypeFeatures objectRangeType
          (objectCount + countInThisRound) 0 [] (commands ++ [command]) objectList
      else some ⟨false, objectCount, commands⟩
    else
      createObjectsLoop accepts setValue objectTypeName objectTypeFeatures objectRangeType
        objectCount countInThisRound (createObjectsInBetweenData data) commands objectList

/-- `EMdFDB::createObjects`, without the locks before the loop and the bounds that are stored
after it. -/
def createObjects (accepts : List CopyCommand → CopyCommand → Bool)
    (setValue : FeatureInfo → List UInt8 → List UInt8) (objectTypeName : Name)
    (objectTypeFeatures : List FeatureInfo) (objectList : List InstObject)
    (objectRangeType : ObjectRangeType) : Option Batches :=
  createObjectsLoop accepts setValue (normalizeOTName objectTypeName) objectTypeFeatures
    objectRangeType 0 0 [] [] objectList

/-! ## 4. Columns that are read back -/

theorem encodes_escapeByteForCOPY (c : UInt8) : Encodes (escapeByteForCOPY c) [c] := by
  have hoctal : ∀ c : UInt8, CopyText.isOctal (octalDigit (c >>> 6 &&& 3)) ∧
      CopyText.isOctal (octalDigit (c >>> 3 &&& 7)) ∧ CopyText.isOctal (octalDigit (c &&& 7)) ∧
      CopyText.octalValue (octalDigit (c >>> 6 &&& 3)) (octalDigit (c >>> 3 &&& 7))
        (octalDigit (c &&& 7)) = c := by
    decide +kernel
  unfold escapeByteForCOPY
  split
  · rename_i h
    exact h ▸ .letter 98 8 (by simp [CopyText.letters]) .nil
  split
  · rename_i h
    exact h ▸ .letter 102 12 (by simp [CopyText.letters]) .nil
  split
  · rename_i h
    exact h ▸ .letter 110 10 (by simp [CopyText.letters]) .nil
  split
  · rename_i h
    exact h ▸ .letter 114 13 (by simp [CopyText.letters]) .nil
  split
  · rename_i h
    exact h ▸ .letter 116 9 (by simp [CopyText.letters]) .nil
  split
  · rename_i h
    exact h ▸ .letter 118 11 (by simp [CopyText.letters]) .nil
  split
  · rename_i h
    exact h ▸ .letter 92 92 (by simp) .nil
  split
  · obtain ⟨h₁, h₂, h₃, hvalue⟩ := hoctal c
    have h := Encodes.octal _ _ _ h₁ h₂ h₃ .nil
    rwa [hvalue] at h
  · rename_i h₈ h₁₂ h₁₀ h₁₃ h₉ h₁₁ h₉₂ _
    exact .plain c (by simp [h₉, h₁₀, h₁₃, h₉₂]) .nil

/-- **What `escapeStringForCOPY` writes is safe**, whatever the bytes are. -/
theorem encodes_escapeStringForCOPY (str : List UInt8) : Encodes (escapeStringForCOPY str) str := by
  induction str with
  | nil => exact .nil
  | cons c str ih => exact (encodes_escapeByteForCOPY c).append ih

/-- The digits that the loop writes, for numbers of any size. -/
theorem mem_longlong2szLoop {room : Nat} : ∀ {v : Int} {p : List UInt8} {c : UInt8},
    c ∈ longlong2szLoop room v p → IsDecimal c ∨ c ∈ p := by
  induction room with
  | zero => exact fun h => Or.inr h
  | succ room ih =>
    intro v p c h
    rw [longlong2szLoop, digit_tmod] at h
    have hdigit : IsDecimal (UInt8.ofNat (48 + v.natAbs % 10)) := ⟨_, Nat.mod_lt _ (by decide), rfl⟩
    have hcons : ∀ {q : List UInt8}, q = UInt8.ofNat (48 + v.natAbs % 10) :: p → c ∈ q →
        IsDecimal c ∨ c ∈ p := by
      rintro _ rfl hc
      rcases List.mem_cons.mp hc with rfl | hc
      · exact Or.inl hdigit
      · exact Or.inr hc
    split at h
    · exact hcons rfl h
    · rcases ih h with hc | hc
      · exact Or.inl hc
      · exact hcons rfl hc

theorem encodes_longlong2string (i : Int) : Encodes (longlong2string i) (longlong2string i) := by
  have hbytes : ∀ c ∈ longlong2string i, 45 ≤ c.toNat ∧ c.toNat ≤ 57 := by
    intro c hc
    have hdigit : ∀ d ∈ longlong2szLoop 29 i [], 45 ≤ d.toNat ∧ d.toNat ≤ 57 := by
      intro d hd
      rcases mem_longlong2szLoop hd with hd | hd
      · have := hd.bounds
        omega
      · cases hd
    rw [longlong2string] at hc
    split at hc
    · rcases List.mem_cons.mp hc with rfl | hc
      · decide
      · exact hdigit c hc
    · exact hdigit c hc
  refine CopyText.encodes_self fun c hc hmem => ?_
  have hc := hbytes c hc
  simp only [List.mem_cons, List.not_mem_nil, or_false] at hmem
  rcases hmem with rfl | rfl | rfl | rfl <;> simp at hc

/-! ## 5. What the columns should hold -/

/-- A value of a column of a table. -/
inductive ColumnValue where
  | number (i : Int)
  | text (s : List UInt8)

/-- The text that stands for the value. -/
def ColumnValue.write : ColumnValue → List UInt8
  | number i => longlong2string i
  | text s => s

/-- A column that was read holds the value: a text byte for byte, and a number as a numeral that
gives the number again. -/
def ColumnValue.Holds : ColumnValue → Option (List UInt8) → Prop
  | number i, column => column = some (longlong2string i) ∧ sz2longlong (longlong2string i) = i
  | text s, column => column = some s

/-- The columns of a feature; a set of monads has two. -/
def featureColumns : EMdFValue → List ColumnValue
  | .int i => [.number i]
  | .enumeration i => [.number i]
  | .idD i => [.number i]
  | .string str => [.text str]
  | .listOfInteger l => [.text (delimitedString (l.map longlong2string))]
  | .listOfIdD l => [.text (delimitedString (l.map longlong2string))]
  | .setOfMonads som =>
    [.text (compactBytes som), .number (if som.isEmpty then maxMonad else som.first)]

/-- The columns of an object. -/
def objectColumns (objectRangeType : ObjectRangeType) (o : InstObject) : List ColumnValue :=
  [.number o.idD, .number o.monads.first]
    ++ (if objectRangeType ≠ .singleMonad then [.number o.monads.last] else [])
    ++ (if objectRangeType = .multipleRange then [.text (compactBytes o.monads)] else [])
    ++ o.featureValues.flatMap featureColumns

/-- The object is one of the type: its values are those of the features, in their order. -/
structure InstObject.Fits (o : InstObject) (objectTypeFeatures : List FeatureInfo) : Prop where
  idD : IsIvalue o.idD
  monads : o.monads.RepInv
  values : List.Forall₂ (fun value ci => value.OfType ci.retrievedType) o.featureValues
    objectTypeFeatures

theorem isIvalue_first {som : SetOfMonads} (h : som.RepInv) : IsIvalue som.first := by
  by_cases hne : som.monadMs = []
  · rw [SetOfMonads.first, (h.empty_eq hne).1]
    exact ⟨by decide, by decide⟩
  · have hmem := SetOfMonads.inRange_of_mem_cover h.inRange (h.isLeast_first hne).1
    have hmax : maxMonad = 2100000000 := rfl
    exact ⟨by change -2147483648 ≤ som.mFirst; omega, by change som.mFirst < 2147483648; omega⟩

theorem isIvalue_last {som : SetOfMonads} (h : som.RepInv) : IsIvalue som.last := by
  by_cases hne : som.monadMs = []
  · rw [SetOfMonads.last, (h.empty_eq hne).2]
    exact ⟨by decide, by decide⟩
  · have hmem := SetOfMonads.inRange_of_mem_cover h.inRange (h.isGreatest_last hne).1
    have hmax : maxMonad = 2100000000 := rfl
    exact ⟨by change -2147483648 ≤ som.mLast; omega, by change som.mLast < 2147483648; omega⟩

/-- Numbers of a column have 32 bits. -/
def ColumnValue.InBounds : ColumnValue → Prop
  | number i => IsIvalue i
  | text _ => True

theorem ColumnValue.InBounds.holds {v : ColumnValue} (h : v.InBounds) : v.Holds (some v.write) := by
  cases v with
  | number i => exact ⟨rfl, sz2longlong_longlong2string (IsIvalue.digits h)⟩
  | text s => exact rfl

theorem inBounds_featureColumns {value : EMdFValue} {t : Nat} (h : value.OfType t) :
    ∀ v ∈ featureColumns value, v.InBounds := by
  cases value with
  | int i => exact List.forall_mem_singleton.mpr h.2
  | enumeration i => exact List.forall_mem_singleton.mpr h.2
  | idD i => exact List.forall_mem_singleton.mpr h.2
  | string str => exact List.forall_mem_singleton.mpr trivial
  | listOfInteger l => exact List.forall_mem_singleton.mpr trivial
  | listOfIdD l => exact List.forall_mem_singleton.mpr trivial
  | setOfMonads som =>
    refine List.forall_mem_cons.mpr ⟨trivial, List.forall_mem_singleton.mpr ?_⟩
    change IsIvalue (if som.isEmpty then maxMonad else som.first)
    split
    · exact ⟨by decide, by decide⟩
    · exact isIvalue_first h.2

theorem inBounds_objectColumns {o : InstObject} {features : List FeatureInfo} (h : o.Fits features)
    (range : ObjectRangeType) : ∀ v ∈ objectColumns range o, v.InBounds := by
  have hvalues : ∀ v ∈ o.featureValues.flatMap featureColumns, v.InBounds := by
    intro v hv
    obtain ⟨value, hvalue, hv⟩ := List.mem_flatMap.mp hv
    obtain ⟨ci, htype⟩ := CopyText.exists_of_forall₂ h.values hvalue
    exact inBounds_featureColumns htype v hv
  have hstart : ∀ v ∈ [ColumnValue.number o.idD, .number o.monads.first], v.InBounds :=
    List.forall_mem_cons.mpr ⟨h.idD, List.forall_mem_singleton.mpr (isIvalue_first h.monads)⟩
  have hlast : ∀ v ∈ (if range ≠ .singleMonad then [ColumnValue.number o.monads.last] else []),
      v.InBounds := by
    split
    · exact List.forall_mem_singleton.mpr (isIvalue_last h.monads)
    · exact List.forall_mem_nil _
  have hcompact : ∀ v ∈ (if range = .multipleRange then
      [ColumnValue.text (compactBytes o.monads)] else []), v.InBounds := by
    split
    · exact List.forall_mem_singleton.mpr trivial
    · exact List.forall_mem_nil _
  exact List.forall_mem_append.mpr ⟨List.forall_mem_append.mpr
    ⟨List.forall_mem_append.mpr ⟨hstart, hlast⟩, hcompact⟩, hvalues⟩

/-- As many columns as are named. -/
theorem length_objectColumns {o : InstObject} {features : List FeatureInfo} (h : o.Fits features)
    (range : ObjectRangeType) :
    (objectColumns range o).length = (copyColumns range features).length := by
  have hone : ∀ {value : EMdFValue} {ci : FeatureInfo}, value.OfType ci.retrievedType →
      (featureColumns value).length = (featureColumnNames ci).length := by
    intro value ci htype
    have hnames : (featureColumnNames ci).length =
        if featureTypeKind ci.retrievedType = 5 then 2 else 1 := by
      have hiff : featureTypeIdIsSOM ci.retrievedType = true ↔ featureTypeKind ci.retrievedType = 5 :=
        beq_iff_eq
      dsimp only [featureColumnNames]
      by_cases hsom : featureTypeKind ci.retrievedType = 5
      · rw [if_pos (hiff.mpr hsom), if_pos hsom]
        rfl
      · rw [if_neg fun h => hsom (hiff.mp h), if_neg hsom]
        rfl
    rw [hnames]
    cases value with
    | int i => exact (if_neg (by rw [htype.1]; decide)).symm
    | enumeration i => exact (if_neg (by rw [htype.1]; decide)).symm
    | idD i => exact (if_neg (by rw [htype.1]; decide)).symm
    | string str => exact (if_neg (by rcases htype with h | h <;> rw [h] <;> decide)).symm
    | listOfInteger l => exact (if_neg (by rcases htype with h | h <;> rw [h] <;> decide)).symm
    | listOfIdD l => exact (if_neg (by rw [show featureTypeKind _ = 11 from htype]; decide)).symm
    | setOfMonads som => exact (if_pos htype.1).symm
  have hvalues : (o.featureValues.flatMap featureColumns).length =
      (features.flatMap featureColumnNames).length := by
    have hvalues := h.values
    clear h
    generalize o.featureValues = values at hvalues
    induction hvalues with
    | nil => rfl
    | cons htype _ ih =>
      rw [List.flatMap_cons, List.flatMap_cons, List.length_append, List.length_append, ih,
        hone htype]
  unfold objectColumns copyColumns
  simp only [List.length_append, hvalues]
  cases range <;> rfl

/-! ## 6. Lines -/

section Line

variable (setValue : FeatureInfo → List UInt8 → List UInt8)

/-- The raw columns that are written for a value. -/
def rawColumns : EMdFValue → List (List UInt8)
  | .int i => [longlong2string i]
  | .enumeration i => [longlong2string i]
  | .idD i => [longlong2string i]
  | .string str => [escapeStringForCOPY str]
  | .listOfInteger l => [escapeStringForCOPY (delimitedString (l.map longlong2string))]
  | .listOfIdD l => [escapeStringForCOPY (delimitedString (l.map longlong2string))]
  | .setOfMonads som => [escapeStringForCOPY (compactBytes som),
      longlong2string (if som.isEmpty then maxMonad else som.first)]

theorem encodes_rawColumns (value : EMdFValue) :
    List.Forall₂ Encodes (rawColumns value) ((featureColumns value).map ColumnValue.write) := by
  cases value with
  | int i => exact .cons (encodes_longlong2string i) .nil
  | enumeration i => exact .cons (encodes_longlong2string i) .nil
  | idD i => exact .cons (encodes_longlong2string i) .nil
  | string str => exact .cons (encodes_escapeStringForCOPY str) .nil
  | listOfInteger l => exact .cons (encodes_escapeStringForCOPY _) .nil
  | listOfIdD l => exact .cons (encodes_escapeStringForCOPY _) .nil
  | setOfMonads som =>
    exact .cons (encodes_escapeStringForCOPY _) (.cons (encodes_longlong2string _) .nil)

/-- Columns, each after a tab. -/
def tabbed (raws : List (List UInt8)) : List UInt8 := raws.flatMap fun raw => 9 :: raw

theorem line_cons (raw : List UInt8) (raws : List (List UInt8)) :
    CopyText.line (raw :: raws) = raw ++ tabbed raws := by
  induction raws generalizing raw with
  | nil => simp [CopyText.line, tabbed]
  | cons raw' raws ih =>
    have ih := ih raw'
    rw [CopyText.line] at ih ⊢
    rw [List.intercalate_cons_cons, List.append_assoc, ih]
    rfl

/-- What is written for a value of the feature's type. -/
theorem featureData_eq {ci : FeatureInfo} {value : EMdFValue}
    (hset : featureTypeIdIsFromSet ci.retrievedType = false) (h : value.OfType ci.retrievedType) :
    ∃ s, featureData setValue ci value = some s ∧ 9 :: s = tabbed (rawColumns value) := by
  cases value with
  | int i => exact ⟨_, by rw [featureData, h.1]; rfl, by simp [tabbed, rawColumns]⟩
  | enumeration i => exact ⟨_, by rw [featureData, h.1]; rfl, by simp [tabbed, rawColumns]⟩
  | idD i => exact ⟨_, by rw [featureData, h.1]; rfl, by simp [tabbed, rawColumns]⟩
  | string str =>
    refine ⟨escapeStringForCOPY str, ?_, by simp [tabbed, rawColumns]⟩
    rcases h with h | h <;> rw [featureData, h, hset] <;> rfl
  | listOfInteger l =>
    refine ⟨_, ?_, by simp [tabbed, rawColumns]; rfl⟩
    rcases h with h | h <;> rw [featureData, h] <;> rfl
  | listOfIdD l =>
    refine ⟨_, ?_, by simp [tabbed, rawColumns]; rfl⟩
    rw [featureData, show featureTypeKind ci.retrievedType = 11 from h]
    rfl
  | setOfMonads som =>
    refine ⟨escapeStringForCOPY (compactBytes som) ++ [9] ++
      longlong2string (if som.isEmpty then maxMonad else som.first), ?_, by simp [tabbed, rawColumns]⟩
    rw [featureData, h.1, apply_ite longlong2string]
    rfl

/-- The loop over the features, from the place on that it has come to. -/
theorem featuresData_eq {o : InstObject} {features : List FeatureInfo}
    (hset : ∀ ci ∈ features, featureTypeIdIsFromSet ci.retrievedType = false) :
    ∀ (index : Nat) (data : List UInt8), List.Forall₂
      (fun value ci => EMdFValue.OfType ci.retrievedType value) (o.featureValues.drop index)
      features → featuresData setValue o index features data =
        some (data ++ tabbed ((o.featureValues.drop index).flatMap rawColumns)) := by
  induction features with
  | nil =>
    intro index data h
    have hnil := List.forall₂_nil_right_iff.mp h
    rw [hnil, featuresData]
    simp [tabbed]
  | cons ci features ih =>
    intro index data h
    obtain ⟨value, rest, htype, hrest, hdrop⟩ := List.forall₂_cons_right_iff.mp h
    have hget : o.featureValues[index]? = some value := by
      have := congrArg List.head? hdrop
      rwa [List.head?_drop, List.head?_cons] at this
    have htail : o.featureValues.drop (index + 1) = rest := by
      rw [← List.tail_drop, hdrop, List.tail_cons]
    obtain ⟨s, hs, htab⟩ := featureData_eq setValue (hset ci List.mem_cons_self) htype
    have hnext := ih (fun ci hci => hset ci (List.mem_cons_of_mem _ hci)) (index + 1)
      (data ++ [9] ++ s) (htail ▸ hrest)
    rw [featuresData, hget, Option.bind_some, hs, Option.bind_some, hnext, htail, hdrop,
      List.flatMap_cons]
    have hsplit : tabbed (rawColumns value ++ rest.flatMap rawColumns) =
        tabbed (rawColumns value) ++ tabbed (rest.flatMap rawColumns) := List.flatMap_append
    rw [hsplit, ← htab]
    simp

/-- **The line of an object** is a row that holds its columns. -/
theorem createObjectsOTObjectsData_eq {o : InstObject} {features : List FeatureInfo}
    (hset : ∀ ci ∈ features, featureTypeIdIsFromSet ci.retrievedType = false)
    (h : o.Fits features) (range : ObjectRangeType) (data : List UInt8) :
    ∃ raws, EncodesRow raws ((objectColumns range o).map ColumnValue.write) ∧
      createObjectsOTObjectsData setValue o o.monads features range data =
        some (data ++ CopyText.line raws) := by
  have hfeatures : ∀ data, featuresData setValue o 0 features data =
      some (data ++ tabbed (o.featureValues.flatMap rawColumns)) := fun data =>
    featuresData_eq setValue hset 0 data h.values
  have hvalues : List.Forall₂ Encodes (o.featureValues.flatMap rawColumns)
      ((o.featureValues.flatMap featureColumns).map ColumnValue.write) := by
    rw [List.map_flatMap]
    generalize o.featureValues = values
    induction values with
    | nil => exact .nil
    | cons value values ih =>
      rw [List.flatMap_cons, List.flatMap_cons]
      exact List.rel_append (encodes_rawColumns value) ih
  cases range with
  | multipleRange =>
    refine ⟨longlong2string o.idD :: longlong2string o.monads.first ::
      longlong2string o.monads.last :: escapeStringForCOPY (compactBytes o.monads) ::
        o.featureValues.flatMap rawColumns, ⟨List.cons_ne_nil _ _, ?_⟩, ?_⟩
    · exact .cons (encodes_longlong2string _) (.cons (encodes_longlong2string _)
        (.cons (encodes_longlong2string _) (.cons (encodes_escapeStringForCOPY _) hvalues)))
    · rw [line_cons, createObjectsOTObjectsData, hfeatures]
      simp [tabbed]
  | singleRange =>
    refine ⟨longlong2string o.idD :: longlong2string o.monads.first ::
      longlong2string o.monads.last :: o.featureValues.flatMap rawColumns,
        ⟨List.cons_ne_nil _ _, ?_⟩, ?_⟩
    · exact .cons (encodes_longlong2string _) (.cons (encodes_longlong2string _)
        (.cons (encodes_longlong2string _) hvalues))
    · rw [line_cons, createObjectsOTObjectsData, hfeatures]
      simp [tabbed]
  | singleMonad =>
    refine ⟨longlong2string o.idD :: longlong2string o.monads.first ::
      o.featureValues.flatMap rawColumns, ⟨List.cons_ne_nil _ _, ?_⟩, ?_⟩
    · exact .cons (encodes_longlong2string _) (.cons (encodes_longlong2string _) hvalues)
    · rw [line_cons, createObjectsOTObjectsData, hfeatures]
      simp [tabbed]

end Line

/-! ## 7. Batches -/

/-- What the server reads from the commands, one after the other. -/
def serverRows : List CopyCommand → Option (List (List (Option (List UInt8))))
  | [] => some []
  | command :: commands =>
    (CopyText.rows command.data).bind fun rows =>
      (serverRows commands).map fun rest => rows ++ rest

theorem serverRows_concat {commands : List CopyCommand} {command : CopyCommand}
    {rows rows' : List (List (Option (List UInt8)))} (h : serverRows commands = some rows)
    (h' : CopyText.rows command.data = some rows') :
    serverRows (commands ++ [command]) = some (rows ++ rows') := by
  induction commands generalizing rows with
  | nil =>
    rw [serverRows, Option.some_inj] at h
    subst h
    simp [serverRows, h']
  | cons c commands ih =>
    obtain ⟨first, hfirst, h⟩ := Option.bind_eq_some_iff.mp h
    obtain ⟨rest, hrest, h⟩ := Option.map_eq_some_iff.mp h
    subst h
    rw [List.cons_append, serverRows, hfirst, Option.bind_some, ih hrest, Option.map_some,
      List.append_assoc]

/-- The row that the server should hold for an object. -/
def objectRow (range : ObjectRangeType) (o : InstObject) : List (Option (List UInt8)) :=
  (objectColumns range o).map fun v => some v.write

/-- Lines that are not sent yet: each is followed by what stands between two objects. -/
def pendingData (rawss : List (List (List UInt8))) : List UInt8 :=
  rawss.flatMap fun raws => createObjectsInBetweenData (CopyText.line raws)

/-- A batch is the text of its rows. -/
theorem pendingData_append (rawss : List (List (List UInt8))) (raws : List (List UInt8)) :
    pendingData rawss ++ CopyText.line raws ++ bytes "\n\\.\n" =
      CopyText.text ((rawss ++ [raws]).map CopyText.line) := by
  have hmarker : bytes "\n\\.\n" = [10, 92, 46, 10] := by decide
  rw [CopyText.text, hmarker]
  congr 1
  induction rawss with
  | nil => simp [pendingData]
  | cons raws' rawss ih =>
    have hne : (rawss ++ [raws]).map CopyText.line ≠ [] := by simp
    rw [List.cons_append, List.map_cons, List.intercalate_cons_of_ne_nil hne, ← ih, pendingData,
      List.flatMap_cons, createObjectsInBetweenData]
    simp [pendingData]

section Batches

variable {range : ObjectRangeType} {features : List FeatureInfo}

/-- `raws` are the columns of the object, written safely. -/
def LineOf (range : ObjectRangeType) (raws : List (List UInt8)) (o : InstObject) : Prop :=
  EncodesRow raws ((objectColumns range o).map ColumnValue.write)

/-- The server has accepted the rows of the objects, in commands that name their columns. -/
structure Sent (range : ObjectRangeType) (features : List FeatureInfo) (objectCount : Nat)
    (commands : List CopyCommand) (objects : List InstObject) : Prop where
  columns : ∀ command ∈ commands, command.columns = copyColumns range features
  rows : serverRows commands = some (objects.map (objectRow range))
  count : objectCount = objects.length

/-- What is read from a batch. -/
theorem rows_batch {rawss : List (List (List UInt8))} {objects : List InstObject}
    (hne : rawss ≠ []) (h : List.Forall₂ (LineOf range) rawss objects) :
    CopyText.rows (CopyText.text (rawss.map CopyText.line)) =
      some (objects.map (objectRow range)) := by
  have hvalues : List.Forall₂ EncodesRow rawss
      (objects.map fun o => (objectColumns range o).map ColumnValue.write) :=
    List.forall₂_map_right_iff.mpr h
  rw [CopyText.rows_of_encodes hne hvalues, List.map_map]
  congr 1
  exact List.map_congr_left fun o _ => List.map_map

/-- **The loop**, with the objects `sent` in the commands so far and `pending` in the text.  By
induction on the objects that are left; the text is empty before the first and after the last. -/
theorem createObjectsLoop_spec (accepts : List CopyCommand → CopyCommand → Bool)
    (setValue : FeatureInfo → List UInt8 → List UInt8) (otn : Name)
    (hset : ∀ ci ∈ features, featureTypeIdIsFromSet ci.retrievedType = false)
    {objectList : List InstObject} (hlist : ∀ o ∈ objectList, o.Fits features) :
    ∀ (objectCount : Nat) (commands : List CopyCommand) (sent pending : List InstObject)
      (rawss : List (List (List UInt8))), Sent range features objectCount commands sent →
        List.Forall₂ (LineOf range) rawss pending → (objectList = [] → pending = []) →
          ∃ b done, createObjectsLoop accepts setValue otn features range objectCount pending.length
              (pendingData rawss) commands objectList = some b ∧
            Sent range features b.objectCount b.commands done ∧
              done <+: sent ++ (pending ++ objectList) ∧
                (b.result = true → done = sent ++ (pending ++ objectList)) ∧
                  ((∀ cs c, accepts cs c = true) → b.result = true) := by
  induction objectList with
  | nil =>
    intro objectCount commands sent pending rawss hsent hpending hlast
    rw [hlast rfl, List.append_nil]
    exact ⟨_, sent, rfl, hsent, List.prefix_append _ _, fun _ => (List.append_nil _).symm,
      fun _ => rfl⟩
  | cons o objectList ih =>
    intro objectCount commands sent pending rawss hsent hpending hlast
    have hrest := fun o' ho' => hlist o' (List.mem_cons_of_mem o ho')
    obtain ⟨raws, hraws, hline⟩ := createObjectsOTObjectsData_eq setValue hset
      (hlist o List.mem_cons_self) range (pendingData rawss)
    have hpending' : List.Forall₂ (LineOf range) (rawss ++ [raws]) (pending ++ [o]) :=
      List.rel_append hpending (.cons hraws .nil)
    have hmove : sent ++ (pending ++ o :: objectList) =
        (sent ++ (pending ++ [o])) ++ ([] ++ objectList) := by simp
    rw [createObjectsLoop, hline, Option.bind_some]
    dsimp only
    split
    · -- the batch is sent
      have hrows := rows_batch (by simp) hpending'
      rw [← pendingData_append] at hrows
      split
      · rw [hmove]
        refine ih hrest _ _ _ [] [] ⟨?_, ?_, ?_⟩ .nil fun _ => rfl
        · exact List.forall_mem_append.mpr ⟨hsent.columns, List.forall_mem_singleton.mpr rfl⟩
        · rw [List.map_append]
          exact serverRows_concat hsent.rows hrows
        · simp [hsent.count]
      · rename_i hrefused
        exact ⟨_, sent, rfl, hsent, List.prefix_append _ _, fun h => absurd h Bool.false_ne_true,
          fun h => absurd (h _ _) hrefused⟩
    · -- the line waits for the next
      rename_i hwait
      have hdata : createObjectsInBetweenData (pendingData rawss ++ CopyText.line raws) =
          pendingData (rawss ++ [raws]) := by
        simp [pendingData, createObjectsInBetweenData]
      have hne : objectList ≠ [] := fun h => hwait (Or.inr (Or.inl h))
      obtain ⟨b, done, hb⟩ := ih hrest _ _ _ _ _ hsent hpending' fun h => absurd h hne
      rw [List.length_append, List.length_singleton] at hb
      rw [hdata]
      refine ⟨b, done, ?_⟩
      simpa using hb

/-- The row has a column for each one that is named, and in it what the object has there. -/
def IsRowOf (range : ObjectRangeType) (features : List FeatureInfo) (o : InstObject)
    (row : List (Option (List UInt8))) : Prop :=
  row.length = (copyColumns range features).length ∧
    List.Forall₂ ColumnValue.Holds (objectColumns range o) row

/-- **The server reads one row for each object, in order**, with a column for each one that the
commands name, and in it what the object has there.  If it refuses a command it has read the
objects before the refused batch, and `createObjects` says so. -/
theorem createObjects_rows (accepts : List CopyCommand → CopyCommand → Bool)
    (setValue : FeatureInfo → List UInt8 → List UInt8) (objectTypeName : Name)
    (range : ObjectRangeType) {features : List FeatureInfo} {objects : List InstObject}
    (hset : ∀ ci ∈ features, featureTypeIdIsFromSet ci.retrievedType = false)
    (hobjects : ∀ o ∈ objects, o.Fits features) :
    ∃ b done rows,
      createObjects accepts setValue objectTypeName features objects range = some b ∧
      (∀ command ∈ b.commands, command.columns = copyColumns range features) ∧
      serverRows b.commands = some rows ∧
      List.Forall₂ (IsRowOf range features) done rows ∧ b.objectCount = done.length ∧
      done <+: objects ∧ (b.result = true → done = objects) ∧
      ((∀ cs c, accepts cs c = true) → b.result = true) := by
  have hstart : Sent range features 0 [] [] := ⟨List.forall_mem_nil _, rfl, rfl⟩
  obtain ⟨b, done, hb, hsent, hfront, hall, haccepts⟩ := createObjectsLoop_spec accepts setValue
    (normalizeOTName objectTypeName) hset hobjects 0 [] [] [] [] hstart .nil fun _ => rfl
  refine ⟨b, done, _, hb, hsent.columns, hsent.rows, ?_, hsent.count, hfront, hall, haccepts⟩
  rw [List.forall₂_map_right_iff, List.forall₂_same]
  intro o ho
  have hfits := hobjects o (hfront.subset ho)
  refine ⟨?_, ?_⟩
  · rw [objectRow, List.length_map, length_objectColumns hfits]
  · rw [objectRow, List.forall₂_map_right_iff, List.forall₂_same]
    exact fun v hv => (inBounds_objectColumns hfits range v hv).holds

/-- A string and a set of monads. -/
def surfaceAndParts : List FeatureInfo :=
  [FeatureInfo.make "surface".toList [] 1 [], FeatureInfo.make "parts".toList [] 5 []]

/-- Strings with a tab, with a byte that is written in octal before a digit, and one that would be
the null value. -/
def twoWords : List InstObject :=
  [⟨7, ⟨[⟨1, 2, by decide⟩], 1, 2⟩, [.string [9, 200, 49], .setOfMonads .empty]⟩,
    ⟨8, ⟨[⟨3, 3, by decide⟩], 3, 3⟩, [.string [92, 78], .setOfMonads .empty]⟩]

theorem createObjects_rows_two :
    ∃ b done rows,
      createObjects (fun _ _ => true) (fun _ _ => []) "word".toList surfaceAndParts twoWords
        .singleRange = some b ∧
      (∀ command ∈ b.commands, command.columns = copyColumns .singleRange surfaceAndParts) ∧
      serverRows b.commands = some rows ∧
      List.Forall₂ (IsRowOf .singleRange surfaceAndParts) done rows ∧
      b.objectCount = done.length ∧ done <+: twoWords ∧ (b.result = true → done = twoWords) ∧
      ((∀ cs c, (fun (_ : List CopyCommand) (_ : CopyCommand) => true) cs c = true) →
        b.result = true) :=
  createObjects_rows (fun _ _ => true) (fun _ _ => []) "word".toList .singleRange (by decide) (by
    intro o ho
    simp only [twoWords, List.mem_cons, List.not_mem_nil, or_false] at ho
    have hvalues : ∀ str, List.Forall₂ (fun value ci => EMdFValue.OfType ci.retrievedType value)
        [.string str, .setOfMonads .empty] surfaceAndParts := fun str =>
      .cons (Or.inl rfl) (.cons ⟨rfl, SetOfMonads.repInv_empty⟩ .nil)
    rcases ho with rfl | rfl
    · exact ⟨⟨by decide, by decide⟩, by decide, hvalues _⟩
    · exact ⟨⟨by decide, by decide⟩, by decide, hvalues _⟩)

end Batches

end PgEMdFDB
end Emdros
