/-
# Comparisons in the backend (`mql_query.cpp`, `emdf_ffeatures.cpp`, `emdfdb.cpp`)

Before objects are matched, the database is asked for those that can match.  `makeConstraints`
turns a feature comparison into an `EMdFComparison`, if the backend can evaluate it, and that into
a condition in SQL about the object's row.

A row does not hold the values themselves: strings of a `FROM SET` feature are replaced by their
ids in the string set, and lists are written as text between blanks.  `agree_iff_not_misread` says
when the condition is true of the row exactly if the comparison is true of the value: not for the
order of strings of a `FROM SET` feature, where ids are compared (section 6).

The id of a string is asked of the cache of the string set before the table.  The cache outlives a
transaction that is aborted: after

    BEGIN TRANSACTION  CREATE OBJECT .. x := 'b'  ABORT TRANSACTION  CREATE OBJECT .. x := 'c'

both strings have the id that `'c'` has in the table, and `x = 'b'` asks for the objects with `'c'`.
So the cache is a part of the state (`StringSet.cached`), about which nothing is assumed, and that
it is right about the one string that is compared is a condition (`StringSet.CacheAgrees`).
-/
import Emdros.MQL.FeatureComparison
import Emdros.Monads.CompactString

namespace Emdros

/-! ## 1. SQL -/

/-- A value in a row. -/
inductive SqlColumn where
  | number (i : Int)
  | text (t : List UInt8)

/-- `t LIKE pattern`: `%` stands for any text and `_` for any character. -/
def like (same : UInt8 → UInt8 → Bool) : List UInt8 → List UInt8 → Bool
  | [], t => t.isEmpty
  | c :: pattern, t =>
    if c = 37 then t.tails.any fun s => like same pattern s
    else !t.isEmpty && (c == 95 || same c (t.headD 0)) && like same pattern t.tail

/-- Blanks, digits and minus signs. -/
def IsPlain (c : UInt8) : Prop := c = 32 ∨ 45 ≤ c.toNat ∧ c.toNat ≤ 57

/-- What is relied on of a backend: how it reads a string literal, and which characters `LIKE`
takes to be the same. -/
structure SqlBackend where
  escapeStringForSQL : List UInt8 → List UInt8
  readLiteral : List UInt8 → Option (List UInt8)
  likeChar : UInt8 → UInt8 → Bool
  read_escape : ∀ str, readLiteral (escapeStringForSQL str) = some str
  /-- What needs no escape may stand between apostrophes. -/
  read_plain : ∀ str, (∀ c ∈ str, IsPlain c ∨ c = 37) → readLiteral (39 :: (str ++ [39])) = some str
  likeChar_plain : ∀ c x, IsPlain c → (likeChar c x = true ↔ c = x)

/-- The text of a condition: a column, an operator and an operand. -/
inductive SqlOp where
  | order (op : ComparisonOp)
  | isIn
  | like
  deriving DecidableEq, Repr

structure SqlCondition where
  column : Name
  op : SqlOp
  operand : List UInt8

/-- The numbers up to the closing bracket; `digits` is what is read of the next one. -/
def readNumbers (digits : List UInt8) : List UInt8 → List Int
  | [] => []
  | c :: text =>
    if c = 44 then sz2longlong digits :: readNumbers [] text
    else if c = 41 then [sz2longlong digits]
    else readNumbers (digits ++ [c]) text

open EMdFValue in
/-- **What a condition says** of a value of its column: numbers are compared as numbers and text
byte by byte. -/
def SqlCondition.Holds (b : SqlBackend) (k : SqlCondition) (col : SqlColumn) : Prop :=
  match k.op with
  | .order op =>
    match col with
    | .number i => Ordered op i (sz2longlong k.operand)
    | .text t => ∃ str, b.readLiteral k.operand = some str ∧ Ordered op t str
  | .isIn =>
    match col with
    | .number i => i ∈ readNumbers [] (k.operand.drop 2)
    | .text _ => False
  | .like =>
    match col with
    | .number _ => False
    | .text t => ∃ pattern, b.readLiteral k.operand = some pattern ∧
        Emdros.like b.likeChar pattern t = true

/-! ## 2. The string set of a feature -/

/-- The table of the strings of a `FROM SET` feature, and what its `StringSetCache` has of them in
`m_cache_string_to_set_id`.  Nothing ties the cache to the table: it is not cleared by
`abortTransaction`, and keeps a pair whose row is gone. -/
structure StringSet where
  rows : List (Int × List UInt8)
  cached : List (List UInt8 × Int)
  ids : ∀ r ∈ rows, ∀ r' ∈ rows, r.1 = r'.1 → r = r'
  strings : ∀ r ∈ rows, ∀ r' ∈ rows, r.2 = r'.2 → r = r'
  ivalues : ∀ r ∈ rows, IsIvalue r.1
  noNil : ∀ r ∈ rows, r.1 ≠ 0
  cachedIvalues : ∀ p ∈ cached, IsIvalue p.2

/-- `findID_DInSetCacheFromString`. -/
def StringSet.inCache (set : StringSet) (str : List UInt8) : Option Int :=
  (set.cached.find? fun p => p.1 == str).map Prod.snd

/-- `getID_DFromStringSet`, without `bCreateIfNotThere`: the cache is asked before the table, and a
string that is in neither has the id `NIL`. -/
def StringSet.idOf (set : StringSet) (str : List UInt8) : Int :=
  match set.inCache str with
  | some i => i
  | none =>
    match set.rows.find? fun r => r.2 == str with
    | some r => r.1
    | none => 0

/-- What the cache has for a string is right for the table: the id of its row, and the id of no row
if it has none. -/
def StringSet.CacheAgrees (set : StringSet) (str : List UInt8) : Prop :=
  ∀ i, set.inCache str = some i → ∀ r ∈ set.rows, r.1 = i ↔ r.2 = str

/-- What is in the row for a value of a feature of type `t`. -/
def StoredAs (set : StringSet) (t : Nat) (v : EMdFValue) (col : SqlColumn) : Prop :=
  match v with
  | .int i => col = .number i
  | .idD i => col = .number i
  | .enumeration i => col = .number i
  | .string str =>
    if featureTypeIdIsFromSet t then ∃ r ∈ set.rows, r.2 = str ∧ col = .number r.1
    else col = .text str
  | .listOfInteger l =>
    (∀ i ∈ l, IsIvalue i) ∧ col = .text (delimitedString (l.map longlong2string))
  | .listOfIdD l =>
    (∀ i ∈ l, IsIvalue i) ∧ col = .text (delimitedString (l.map longlong2string))
  | .setOfMonads som => col = .text (som.toCompactString.map fun c => UInt8.ofNat c.toNat)

/-! ## 3. From the comparison to the condition -/

/-- `m_value`, `m_in_enum_list` and `m_in_integer_list` of an `EMdFComparison`. -/
inductive EMdFOperand where
  | value (v : EMdFValue)
  | enumList (infos : List EnumConstInfo)
  | integerList (l : List Int)

/-- `class EMdFComparison`. -/
structure EMdFComparison where
  featureName : Name
  parameter1 : Name
  featureTypeId : Nat
  comparisonOp : ComparisonOp
  operand : EMdFOperand

/-- `canDoComparisonOp`, with the kind of `getEVkindFromTypeID_D`. -/
def canDoComparisonOp (op : ComparisonOp) (t : Nat) : Bool :=
  match op with
  | .isIn => featureTypeIdIsENUM t || featureTypeIdIsINTEGER t || featureTypeIdIsID_D t
  | .tilde => false
  | .notTilde => false
  | .has => featureTypeIdIsListOf t
  | _ => true

/-- `FeatureComparison::makeConstraints`. -/
def FeatureComparison.makeConstraints (c : FeatureComparison) (s : ComparisonSymbols) :
    Option EMdFComparison :=
  let t := s.featureInfo.outputType
  if !sameNocase c.featureName "self".toList && s.featureInfo.isComputed then none
  else if !canDoComparisonOp c.comparisonOp t then none
  else
    match c.rhs with
    | .value (.enumConst _) =>
      some ⟨c.featureName, c.parameter1, t, c.comparisonOp,
        .value (.enumeration s.enumConstValue)⟩
    | .value (.integer i) =>
      some ⟨c.featureName, c.parameter1, t, c.comparisonOp, .value (.int i)⟩
    | .value (.string str) =>
      some ⟨c.featureName, c.parameter1, t, c.comparisonOp, .value (.string str)⟩
    | .value (.objectReferenceUsage _) => none
    | .enumList names =>
      if names.isEmpty || c.comparisonOp != .isIn then none
      else some ⟨c.featureName, c.parameter1, t, .isIn, .enumList s.infos⟩
    | .integerList l =>
      if l.isEmpty || c.comparisonOp != .isIn then none
      else some ⟨c.featureName, c.parameter1, t, .isIn, .integerList l⟩

/-- `eComparisonOp2BackendComparisonOp`. -/
def eComparisonOp2BackendComparisonOp (op : ComparisonOp) : Option SqlOp :=
  match op with
  | .tilde => none
  | .notTilde => none
  | .isIn => some .isIn
  | .has => some .like
  | op => some (.order op)

/-- `encodeFeatureNameForPrequeryString`. -/
def encodeFeatureNameForPrequeryString (featureName parameter1 : Name) (t : Nat) : Option Name :=
  match (FeatureInfo.make featureName parameter1 t []).kind with
  | .none => some ("OS.".toList
      ++ encodeFeatureName (FeatureInfo.make featureName parameter1 t []).retrievedFeatureName)
  | .self => some "OS.object_id_d".toList
  | .ofMonads => none

/-- The loop that writes numbers with commas between them. -/
def commaSeparated : List Int → List UInt8
  | [] => []
  | [i] => longlong2string i
  | i :: l => longlong2string i ++ 44 :: commaSeparated l

/-- A list of numbers in brackets. -/
def bracketed (l : List Int) : List UInt8 := [32, 40] ++ commaSeparated l ++ [41]

/-- The text of the operand. -/
def EMdFComparison.operandText (b : SqlBackend) (set : StringSet) (e : EMdFComparison) :
    Option (List UInt8) :=
  match e.operand with
  | .value v =>
    if featureTypeIdIsFromSet e.featureTypeId then
      -- FeatureInfo2SQLvalue: a string that is not in the set is not put there
      some (longlong2string (set.idOf v.toText))
    else if featureTypeIdIsASCIIorSTRING e.featureTypeId then
      some (b.escapeStringForSQL v.toText)
    else if featureTypeIdIsListOf e.featureTypeId then
      some ([39, 37, 32] ++ v.toText ++ [32, 37, 39])
    else some v.toText
  | .enumList infos =>
    if e.comparisonOp = .isIn then some (bracketed (infos.map EnumConstInfo.value)) else none
  | .integerList l => if e.comparisonOp = .isIn then some (bracketed l) else none

/-- The cache is right about the string of a comparison with a `FROM SET` feature. -/
def EMdFComparison.CacheAgrees (e : EMdFComparison) (set : StringSet) : Prop :=
  featureTypeIdIsFromSet e.featureTypeId = true → ∀ v, e.operand = .value v →
    set.CacheAgrees v.toText

/-- `EMdFComparison::makeConstraints`. -/
def EMdFComparison.makeConstraints (b : SqlBackend) (set : StringSet) (e : EMdFComparison) :
    Option SqlCondition := do
  let column ← encodeFeatureNameForPrequeryString e.featureName e.parameter1 e.featureTypeId
  let op ← eComparisonOp2BackendComparisonOp e.comparisonOp
  let operand ← e.operandText b set
  pure ⟨column, op, operand⟩

/-! ## 4. Reading the text -/

theorem like_percent {same : UInt8 → UInt8 → Bool} {pattern t : List UInt8} :
    like same (37 :: pattern) t = true ↔ ∃ s, s <:+ t ∧ like same pattern s = true := by
  rw [like, if_pos rfl, List.any_eq_true]
  simp only [List.mem_tails]

/-- A pattern that ends in `%` asks for a prefix. -/
theorem like_word {same : UInt8 → UInt8 → Bool} : ∀ {w t : List UInt8},
    (∀ c ∈ w, c ≠ 37 ∧ c ≠ 95 ∧ ∀ x, same c x = true ↔ c = x) →
      (like same (w ++ [37]) t = true ↔ w <+: t)
  | [], t, _ => by
    rw [List.nil_append, like_percent]
    exact ⟨fun _ => List.nil_prefix, fun _ => ⟨[], List.nil_suffix, rfl⟩⟩
  | c :: w, t, h => by
    obtain ⟨hpercent, hline, hsame⟩ := h c List.mem_cons_self
    rw [List.cons_append, like, if_neg hpercent]
    cases t with
    | nil => simp
    | cons x t =>
      have ih := like_word (t := t) fun d hd => h d (List.mem_cons_of_mem _ hd)
      simp [hline, hsame, ih, List.cons_prefix_cons]

/-- `LIKE '%w%'`. -/
theorem like_infix {same : UInt8 → UInt8 → Bool} {w t : List UInt8}
    (h : ∀ c ∈ w, c ≠ 37 ∧ c ≠ 95 ∧ ∀ x, same c x = true ↔ c = x) :
    like same (37 :: (w ++ [37])) t = true ↔ w <:+: t := by
  rw [like_percent, List.infix_iff_prefix_suffix]
  simp only [like_word h]
  exact exists_congr fun s => and_comm

/-- Digits are collected. -/
theorem readNumbers_append : ∀ {w digits rest : List UInt8}, (∀ c ∈ w, c ≠ 44 ∧ c ≠ 41) →
    readNumbers digits (w ++ rest) = readNumbers (digits ++ w) rest
  | [], digits, rest, _ => by rw [List.nil_append, List.append_nil]
  | c :: w, digits, rest, h => by
    obtain ⟨hcomma, hbracket⟩ := h c List.mem_cons_self
    rw [List.cons_append, readNumbers, if_neg hcomma, if_neg hbracket,
      readNumbers_append fun d hd => h d (List.mem_cons_of_mem _ hd), List.append_assoc,
      List.singleton_append]

/-- **A list in brackets is read back.** -/
theorem readNumbers_commaSeparated : ∀ {l : List Int}, l ≠ [] → (∀ i ∈ l, IsIvalue i) →
    readNumbers [] (commaSeparated l ++ [41]) = l
  | [], h, _ => absurd rfl h
  | [i], _, hl => by
    have hi := (hl i List.mem_cons_self).digits
    rw [commaSeparated, readNumbers_append fun c hc => ⟨ne_of_mem_longlong2string hi hc (by decide),
      ne_of_mem_longlong2string hi hc (by decide)⟩, List.nil_append, readNumbers,
      if_neg (by decide), if_pos rfl, sz2longlong_longlong2string hi]
  | i :: j :: l, _, hl => by
    have hi := (hl i List.mem_cons_self).digits
    rw [commaSeparated, List.append_assoc, readNumbers_append fun c hc =>
      ⟨ne_of_mem_longlong2string hi hc (by decide), ne_of_mem_longlong2string hi hc (by decide)⟩,
      List.nil_append, List.cons_append, readNumbers, if_pos rfl, sz2longlong_longlong2string hi,
      readNumbers_commaSeparated (List.cons_ne_nil _ _)
        fun k hk => hl k (List.mem_cons_of_mem _ hk)]
    intro h
    cases h

theorem isPlain_longlong2string {i : Int} (hi : IsIvalue i) {c : UInt8}
    (hc : c ∈ longlong2string i) : IsPlain c := by
  by_contra h
  exact ne_of_mem_longlong2string hi.digits hc (by simp only [IsPlain] at h; omega) rfl

/-- The strings of a table are told apart by their ids, and a string that is not there has the id
of none. -/
theorem StringSet.idOf_eq_iff_of_not_cached (set : StringSet) {str : List UInt8}
    (hnone : set.inCache str = none) {r : Int × List UInt8} (hr : r ∈ set.rows) :
    r.1 = set.idOf str ↔ r.2 = str := by
  simp only [StringSet.idOf, hnone]
  cases h : set.rows.find? fun r => r.2 == str with
  | none =>
    constructor
    · exact fun heq => absurd heq (set.noNil r hr)
    · rintro rfl
      have := List.find?_eq_none.mp h r hr
      simp at this
  | some r' =>
    have hr' := List.mem_of_find?_eq_some h
    have hstr : r'.2 = str := by simpa using List.find?_some h
    rw [← hstr]
    constructor
    · exact fun heq => by rw [set.ids r hr r' hr' heq]
    · exact fun heq => by rw [set.strings r hr r' hr' heq]

/-- **The id that is found is right for every row just if the cache is.** -/
theorem StringSet.idOf_eq_iff (set : StringSet) (str : List UInt8) :
    (∀ r ∈ set.rows, r.1 = set.idOf str ↔ r.2 = str) ↔ set.CacheAgrees str := by
  cases hcache : set.inCache str with
  | none =>
    refine iff_of_true (fun r hr => set.idOf_eq_iff_of_not_cached hcache hr) fun i hi => ?_
    rw [hcache] at hi
    cases hi
  | some i =>
    have hid : set.idOf str = i := by simp only [StringSet.idOf, hcache]
    simp only [StringSet.CacheAgrees, hid, hcache, Option.some.injEq, forall_eq']

theorem StringSet.idOf_ivalue (set : StringSet) (str : List UInt8) : IsIvalue (set.idOf str) := by
  rw [StringSet.idOf]
  split
  · rename_i i h
    obtain ⟨p, hp, rfl⟩ := Option.map_eq_some_iff.mp h
    exact set.cachedIvalues p (List.mem_of_find?_eq_some hp)
  · split
    · rename_i r h
      exact set.ivalues r (List.mem_of_find?_eq_some h)
    · exact ⟨by decide, by decide⟩

/-! ## 5. What is asked of the backend -/

section Backend

open FeatureComparison

variable {ctx : QueryContext} {c : FeatureComparison} {s : ComparisonSymbols} {e : EMdFComparison}

/-- `makeConstraints` gives a comparison only where the backend has the operator. -/
theorem makeConstraints_some (h : c.makeConstraints s = some e) :
    canDoComparisonOp c.comparisonOp s.featureInfo.outputType = true ∧
      (sameNocase c.featureName "self".toList = false → s.featureInfo.isComputed = false) ∧
      e.featureName = c.featureName ∧ e.parameter1 = c.parameter1 ∧
      e.featureTypeId = s.featureInfo.outputType ∧ e.comparisonOp = c.comparisonOp := by
  rw [FeatureComparison.makeConstraints] at h
  split at h
  · cases h
  rename_i hself
  split at h
  · cases h
  rename_i hcan
  have hcomputed : sameNocase c.featureName "self".toList = false →
      s.featureInfo.isComputed = false := by
    intro hname
    rw [hname] at hself
    simpa using hself
  have hdo : canDoComparisonOp c.comparisonOp s.featureInfo.outputType = true := by
    simpa using hcan
  refine ⟨hdo, hcomputed, ?_⟩
  split at h
  · cases h
    exact ⟨rfl, rfl, rfl, rfl⟩
  · cases h
    exact ⟨rfl, rfl, rfl, rfl⟩
  · cases h
    exact ⟨rfl, rfl, rfl, rfl⟩
  · cases h
  all_goals
    split at h
    · cases h
    rename_i hin
    simp only [Bool.or_eq_true, bne_iff_ne, ne_eq, not_or, not_not] at hin
    cases h
    exact ⟨rfl, rfl, rfl, hin.2.symm⟩

/-- The column has a name. -/
theorem encodeFeatureName_isSome (h : Accepted ctx c s) (he : c.makeConstraints s = some e) :
    (encodeFeatureNameForPrequeryString e.featureName e.parameter1 e.featureTypeId).isSome
      = true := by
  obtain ⟨-, hcomputed, hname, hparameter, htype, -⟩ := makeConstraints_some he
  obtain ⟨ft, -, hinfo⟩ := h.featureInfo_eq
  have hkind : ∀ t, (FeatureInfo.make c.featureName c.parameter1 t []).kind
      = computedFeatureKind c.featureName := by
    intro t
    rw [FeatureInfo.make]
    cases computedFeatureKind c.featureName <;> rfl
  rw [encodeFeatureNameForPrequeryString, hname, hparameter, hkind]
  cases hk : computedFeatureKind c.featureName with
  | none => rfl
  | self => rfl
  | ofMonads =>
    have hself : sameNocase c.featureName "self".toList = false := by
      rw [computedFeatureKind] at hk
      split at hk
      · cases hk
      · simpa using ‹¬ sameNocase c.featureName "self".toList = true›
    have := hcomputed hself
    rw [FeatureInfo.isComputed, hinfo, hkind, hk] at this
    cases this

/-- Where the backend has the operator, the checks forget only to refuse an integer against a set
of monads. -/
theorem not_forgotten_of_backed (h : Accepted ctx c s) (he : c.makeConstraints s = some e)
    (hsom : featureTypeKind s.featureInfo.outputType ≠ 5) :
    ¬ c.Forgotten s.featureInfo.outputType := by
  obtain ⟨hcan, -⟩ := makeConstraints_some he
  have hhas : c.comparisonOp = .has →
      featureTypeIdIsListOf s.featureInfo.outputType = true := by
    intro hop
    rwa [hop] at hcan
  rw [Forgotten]
  cases hv : c.rhs with
  | value v =>
    cases v with
    | enumConst name =>
      rintro ⟨hop, hkind⟩
      have := hhas hop
      simp [featureTypeIdIsListOf, hkind] at this
    | integer i =>
      rintro (⟨hop, hkind | hkind⟩ | hkind)
      · have := hhas hop
        simp [featureTypeIdIsListOf, hkind] at this
      · have := hhas hop
        simp [featureTypeIdIsListOf, hkind] at this
      · exact hsom hkind
    | string str => exact id
    | objectReferenceUsage u => simp [FeatureComparison.makeConstraints, hv] at he
  | enumList names =>
    have hop : c.comparisonOp = .isIn := by
      rw [FeatureComparison.makeConstraints, hv] at he
      by_contra hne
      simp [hne] at he
    rw [hop] at hcan
    intro hnot
    rcases (h.enumList hv).1 with hkind | hkind
    · exact hnot (.inl ⟨hop, hkind⟩)
    · simp [canDoComparisonOp, featureTypeIdIsENUM, featureTypeIdIsINTEGER, featureTypeIdIsID_D,
        hkind] at hcan
  | integerList l => exact id

/-- The condition is true of the row exactly if the comparison is true of the value. -/
def Agree (b : SqlBackend) (set : StringSet) (e : EMdFComparison) (ctx : QueryContext)
    (c : FeatureComparison) (s : ComparisonSymbols) (left right : EMdFValue) (col : SqlColumn) :
    Prop :=
  ∃ k r, e.makeConstraints b set = some k ∧ compare ctx c s left right = some r ∧
    (r = true ↔ k.Holds b col)

variable {b : SqlBackend} {set : StringSet} {left right : EMdFValue} {col : SqlColumn}

theorem agree_of_means (h : Accepted ctx c s) (he : c.makeConstraints s = some e) {op : SqlOp}
    {text : List UInt8} (hop : eComparisonOp2BackendComparisonOp c.comparisonOp = some op)
    (htext : e.operandText b set = some text) (hanswers : Answers ctx c s left right)
    (hmeans : ∀ column, Means ctx c s left right ↔
      SqlCondition.Holds b ⟨column, op, text⟩ col) :
    Agree b set e ctx c s left right col := by
  obtain ⟨column, hcolumn⟩ := Option.isSome_iff_exists.mp (encodeFeatureName_isSome h he)
  obtain ⟨-, -, -, -, -, hopeq⟩ := makeConstraints_some he
  obtain ⟨r, hr, hiff⟩ := hanswers
  refine ⟨⟨column, op, text⟩, r, ?_, hr, hiff.trans (hmeans column)⟩
  rw [EMdFComparison.makeConstraints, hcolumn, hopeq, hop, htext]
  rfl

theorem backendOp_of_isOrder {op : ComparisonOp} (h : isOrder op = true) :
    eComparisonOp2BackendComparisonOp op = some (.order op) ∧ op ≠ .tilde ∧ op ≠ .notTilde := by
  cases op <;> first | exact ⟨rfl, nofun, nofun⟩ | cases h

/-- A number against a number. -/
theorem agree_number (h : Accepted ctx c s) (he : c.makeConstraints s = some e)
    (hanswers : Answers ctx c s left right) (hop : isOrder c.comparisonOp = true)
    (hkind : featureTypeKind s.featureInfo.outputType = 0 ∨
      featureTypeKind s.featureInfo.outputType = 3 ∨
      featureTypeKind s.featureInfo.outputType = 4)
    (hleft : left.OfType s.featureInfo.outputType)
    (hstored : StoredAs set s.featureInfo.outputType left col) {w : EMdFValue} {j : Int}
    (hv : e.operand = .value w) (hright : c.rightValue s right = w) (hw : w.number = some j)
    (hj : IsIvalue j) (hwtext : w.toText = longlong2string j) :
    Agree b set e ctx c s left right col := by
  obtain ⟨hopeq, hp, hn⟩ := backendOp_of_isOrder hop
  obtain ⟨-, -, -, -, htype, -⟩ := makeConstraints_some he
  have htext : e.operandText b set = some (longlong2string j) := by
    rw [EMdFComparison.operandText, hv]
    rcases hkind with hkind | hkind | hkind <;>
      simp [htype, featureTypeIdIsFromSet, featureTypeIdIsASCIIorSTRING, featureTypeIdIsListOf,
        hkind, hwtext]
  refine agree_of_means h he hopeq htext hanswers fun column => ?_
  obtain ⟨i, hi, -, -⟩ := compare_number hleft hkind
  have hcol : col = .number i := by
    cases left <;> first | (cases hi; exact hstored) | cases hi
  rw [means_iff hp hn, hright, EMdFValue.relates_numbers hi hw, hcol, SqlCondition.Holds]
  simp only [sz2longlong_longlong2string hj.digits]

/-- `HAS` on a list. -/
theorem agree_has (h : Accepted ctx c s) (he : c.makeConstraints s = some e)
    (hanswers : Answers ctx c s left right) (hop : c.comparisonOp = .has)
    (hkind : featureTypeKind s.featureInfo.outputType = 8 ∨
      featureTypeKind s.featureInfo.outputType = 11 ∨
      featureTypeKind s.featureInfo.outputType = 12)
    (hleft : left.OfType s.featureInfo.outputType)
    (hstored : StoredAs set s.featureInfo.outputType left col) {w : EMdFValue} {j : Int}
    (hv : e.operand = .value w) (hright : c.rightValue s right = w) (hw : w.number = some j)
    (hj : IsIvalue j) (hwtext : w.toText = longlong2string j) :
    Agree b set e ctx c s left right col := by
  obtain ⟨-, -, -, -, htype, -⟩ := makeConstraints_some he
  have htext : e.operandText b set
      = some (39 :: ((37 :: ((32 :: (longlong2string j ++ [32])) ++ [37])) ++ [39])) := by
    rw [EMdFComparison.operandText, hv]
    rcases hkind with hkind | hkind | hkind <;>
      simp [htype, featureTypeIdIsFromSet, featureTypeIdIsASCIIorSTRING, featureTypeIdIsListOf,
        hkind, hwtext]
  have hplain : ∀ c ∈ (32 : UInt8) :: (longlong2string j ++ [32]), IsPlain c := by
    intro c hc
    rcases List.mem_cons.mp hc with rfl | hc
    · exact .inl rfl
    · rcases List.mem_append.mp hc with hc | hc
      · exact isPlain_longlong2string hj hc
      · exact .inl (List.mem_singleton.mp hc)
  have hread : b.readLiteral
      (39 :: ((37 :: ((32 :: (longlong2string j ++ [32])) ++ [37])) ++ [39]))
        = some (37 :: ((32 :: (longlong2string j ++ [32])) ++ [37])) := by
    refine b.read_plain _ fun c hc => ?_
    rcases List.mem_cons.mp hc with rfl | hc
    · exact .inr rfl
    · rcases List.mem_append.mp hc with hc | hc
      · exact .inl (hplain c hc)
      · exact .inr (List.mem_singleton.mp hc)
  have hlike : ∀ t : List UInt8,
      like b.likeChar (37 :: ((32 :: (longlong2string j ++ [32])) ++ [37])) t = true ↔
        32 :: (longlong2string j ++ [32]) <:+: t := by
    intro t
    refine like_infix fun c hc => ⟨?_, ?_, fun x => b.likeChar_plain c x (hplain c hc)⟩
    · rintro rfl
      exact absurd (hplain 37 hc) (by simp [IsPlain])
    · rintro rfl
      exact absurd (hplain 95 hc) (by simp [IsPlain])
  refine agree_of_means h he (by rw [hop]; rfl) htext hanswers fun column => ?_
  obtain ⟨l, hl, -⟩ := compare_list hleft hkind
  have hcol : (∀ i ∈ l, IsIvalue i) ∧ col = .text (delimitedString (l.map longlong2string)) := by
    cases left <;> first | (cases hl; exact hstored) | cases hl
  rw [means_iff (by rw [hop]; decide) (by rw [hop]; decide), hright, hop,
    EMdFValue.relates_has hw (EMdFValue.number_of_integerList hl), ←
    EMdFValue.contains_iff_holds hl, List.contains_iff_mem, hcol.2, SqlCondition.Holds]
  simp only [hread, Option.some.injEq, exists_eq_left', hlike]
  exact (EMdFValue.infix_delimitedString_iff hj hcol.1).symm

/-- The operators for which the ids of strings say what the strings say. -/
def IsEquality (op : ComparisonOp) : Prop := op = .equal ∨ op = .notEqual

/-- A string against a string. -/
theorem agree_string (h : Accepted ctx c s) (he : c.makeConstraints s = some e)
    (hanswers : Answers ctx c s left right) (hop : isOrder c.comparisonOp = true)
    (hkind : featureTypeKind s.featureInfo.outputType = 1 ∨
      featureTypeKind s.featureInfo.outputType = 2)
    (hset : featureTypeIdIsFromSet s.featureInfo.outputType = true → IsEquality c.comparisonOp)
    (hcache : e.CacheAgrees set) (hleft : left.OfType s.featureInfo.outputType)
    (hstored : StoredAs set s.featureInfo.outputType left col) {pattern : List UInt8}
    (hv : e.operand = .value (.string pattern))
    (hright : c.rightValue s right = .string pattern) :
    Agree b set e ctx c s left right col := by
  obtain ⟨hopeq, hp, hn⟩ := backendOp_of_isOrder hop
  obtain ⟨-, -, -, -, htype, -⟩ := makeConstraints_some he
  obtain ⟨str, rfl⟩ := eq_string hleft hkind
  rw [StoredAs] at hstored
  by_cases hfrom : featureTypeIdIsFromSet s.featureInfo.outputType = true
  · rw [if_pos hfrom] at hstored
    obtain ⟨r, hr, rfl, rfl⟩ := hstored
    have htext : e.operandText b set = some (longlong2string (set.idOf pattern)) := by
      rw [EMdFComparison.operandText, hv, htype]
      simp [hfrom, EMdFValue.toText]
    refine agree_of_means h he hopeq htext hanswers fun column => ?_
    rw [means_iff hp hn, hright, EMdFValue.relates_strings, SqlCondition.Holds]
    simp only [sz2longlong_longlong2string (set.idOf_ivalue pattern).digits]
    have hid : r.1 = set.idOf pattern ↔ r.2 = pattern := by
      rw [EMdFComparison.CacheAgrees, htype] at hcache
      exact (set.idOf_eq_iff pattern).mpr (hcache hfrom _ hv) r hr
    rcases hset hfrom with heq | hne
    · rw [heq]
      exact hid.symm
    · rw [hne]
      exact not_congr hid.symm
  · rw [if_neg hfrom] at hstored
    have htext : e.operandText b set = some (b.escapeStringForSQL pattern) := by
      rw [EMdFComparison.operandText, hv, htype]
      rcases hkind with hkind | hkind <;>
        simp [hfrom, featureTypeIdIsASCIIorSTRING, hkind, EMdFValue.toText]
    refine agree_of_means h he hopeq htext hanswers fun column => ?_
    rw [means_iff hp hn, hright, EMdFValue.relates_strings, hstored, SqlCondition.Holds]
    simp only [b.read_escape, Option.some.injEq, exists_eq_left']

/-- `IN` with a list. -/
theorem agree_isIn (h : Accepted ctx c s) (he : c.makeConstraints s = some e)
    (hanswers : Answers ctx c s left right) (hop : c.comparisonOp = .isIn)
    (hkind : featureTypeKind s.featureInfo.outputType = 0 ∨
      featureTypeKind s.featureInfo.outputType = 3 ∨
      featureTypeKind s.featureInfo.outputType = 4)
    (hleft : left.OfType s.featureInfo.outputType)
    (hstored : StoredAs set s.featureInfo.outputType left col) {l : List Int} (hne : l ≠ [])
    (hl : ∀ i ∈ l, IsIvalue i) (htext : e.operandText b set = some (bracketed l))
    (hright : c.rightValue s right = .listOfInteger l) :
    Agree b set e ctx c s left right col := by
  refine agree_of_means h he (by rw [hop]; rfl) htext hanswers fun column => ?_
  obtain ⟨i, hi, -, -⟩ := compare_number hleft hkind
  have hcol : col = .number i := by
    cases left <;> first | (cases hi; exact hstored) | cases hi
  have hread : readNumbers [] ((bracketed l).drop 2) = l := readNumbers_commaSeparated hne hl
  rw [means_iff (by rw [hop]; decide) (by rw [hop]; decide), hright, hop,
    EMdFValue.relates_isIn (w := .listOfInteger l) hi rfl, hcol, SqlCondition.Holds]
  simp only [hread]
  exact Iff.rfl

/-! ## 6. The comparisons that the backend reads in its own way -/

/-- An integer against a set of monads, and the order of strings that are in a set. -/
def Misread (c : FeatureComparison) (t : Nat) : Prop :=
  featureTypeKind t = 5 ∨ featureTypeIdIsFromSet t = true ∧ ¬ IsEquality c.comparisonOp

theorem operand_value {v : ComparedValue} (he : c.makeConstraints s = some e)
    (hv : c.rhs = .value v) (hno : ∀ u, v ≠ .objectReferenceUsage u) (right : EMdFValue) :
    e.operand = .value (c.rightValue s right) := by
  rw [FeatureComparison.makeConstraints, hv] at he
  rw [rightValue, hv]
  split at he
  · cases he
  split at he
  · cases he
  cases v with
  | objectReferenceUsage u => exact absurd rfl (hno u)
  | _ =>
    cases he
    rfl

theorem operand_enumList {names : List String} (he : c.makeConstraints s = some e)
    (hv : c.rhs = .enumList names) :
    names ≠ [] ∧ c.comparisonOp = .isIn ∧ e.operand = .enumList s.infos := by
  rw [FeatureComparison.makeConstraints, hv] at he
  split at he
  · cases he
  split at he
  · cases he
  simp only at he
  split at he
  · cases he
  rename_i h
  simp only [Bool.or_eq_true, List.isEmpty_iff, bne_iff_ne, ne_eq, not_or, not_not] at h
  cases he
  exact ⟨h.1, h.2, rfl⟩

theorem operand_integerList {l : List Int} (he : c.makeConstraints s = some e)
    (hv : c.rhs = .integerList l) :
    l ≠ [] ∧ c.comparisonOp = .isIn ∧ e.operand = .integerList l := by
  rw [FeatureComparison.makeConstraints, hv] at he
  split at he
  · cases he
  split at he
  · cases he
  simp only at he
  split at he
  · cases he
  rename_i h
  simp only [Bool.or_eq_true, List.isEmpty_iff, bne_iff_ne, ne_eq, not_or, not_not] at h
  cases he
  exact ⟨h.1, h.2, rfl⟩

/-- An operator with a value that the backend has is `HAS` on a list or names an order. -/
theorem backed_op (hb : Built c) (he : c.makeConstraints s = some e) {v : ComparedValue}
    (hv : c.rhs = .value v) (hno : ∀ u, v ≠ .objectReferenceUsage u) :
    isOrder c.comparisonOp = true ∨ c.comparisonOp = .has ∧
      featureTypeIdIsListOf s.featureInfo.outputType = true := by
  obtain ⟨hcan, -⟩ := makeConstraints_some he
  have hin : c.comparisonOp ≠ .isIn := fun hop => by
    obtain ⟨u, hu⟩ := hb.value_of_isIn hop hv
    exact hno u hu
  cases hop : c.comparisonOp with
  | isIn => exact absurd hop hin
  | has =>
    rw [hop] at hcan
    exact .inr ⟨rfl, hcan⟩
  | tilde =>
    rw [hop] at hcan
    cases hcan
  | notTilde =>
    rw [hop] at hcan
    cases hcan
  | _ => exact .inl rfl

theorem string_kind (h : Accepted ctx c s) {pattern : List UInt8}
    (hv : c.rhs = .value (.string pattern)) : featureTypeKind s.featureInfo.outputType = 1 ∨
      featureTypeKind s.featureInfo.outputType = 2 := by
  have htype := h.type
  rw [FeatureComparison.type, hv, Option.some.injEq, typeString] at htype
  simp only [featureTypeIdIsASCIIorSTRING, Bool.and_eq_true, Bool.or_eq_true, beq_iff_eq] at htype
  omega

theorem integer_kind (h : Accepted ctx c s) {i : Int} (hv : c.rhs = .value (.integer i)) :
    featureTypeKind s.featureInfo.outputType = 5 ∨
      c.comparisonOp = .has ∧ (featureTypeKind s.featureInfo.outputType = 8 ∨
        featureTypeKind s.featureInfo.outputType = 11) ∨
      (featureTypeKind s.featureInfo.outputType = 0 ∨
        featureTypeKind s.featureInfo.outputType = 3) := by
  have htype := h.type
  rw [FeatureComparison.type, hv, Option.some.injEq, typeInteger] at htype
  split at htype
  · simp only [featureTypeIdIsListOfINTEGER, featureTypeIdIsListOfID_D, Bool.and_eq_true,
      Bool.or_eq_true, beq_iff_eq] at htype
    exact .inr (.inl htype)
  · split at htype
    · rename_i hsom
      exact .inl (by simpa [featureTypeIdIsSOM] using hsom)
    · simp only [featureTypeIdIsINTEGER, featureTypeIdIsID_D, Bool.or_eq_true, beq_iff_eq] at htype
      exact .inr (.inr htype)

theorem enumConst_kind (h : Accepted ctx c s) {name : String}
    (hv : c.rhs = .value (.enumConst name)) : featureTypeKind s.featureInfo.outputType = 4 ∨
      featureTypeKind s.featureInfo.outputType = 12 ∧ c.comparisonOp = .has := by
  rcases h.kind_of_enumConst hv with hkind | hkind
  · exact .inl hkind
  · have htype := h.type
    rw [FeatureComparison.type, hv, Option.some.injEq, typeEnumConst] at htype
    simp [featureTypeIdIsListOf, featureTypeIdIsListOfENUM, hkind] at htype
    exact .inr ⟨hkind, htype.1⟩

/-- **The condition agrees with the comparison**, but for those that are misread. -/
theorem agree_of_not_misread (hb : Built c) (h : Accepted ctx c s)
    (he : c.makeConstraints s = some e) (hm : ¬ Misread c s.featureInfo.outputType)
    (hcache : e.CacheAgrees set) (hfits : Fits c s left right)
    (hstored : StoredAs set s.featureInfo.outputType left col) :
    Agree b set e ctx c s left right col := by
  obtain ⟨hsom, hset⟩ := not_or.mp hm
  have hf := not_forgotten_of_backed h he hsom
  have hanswers := answers_of_not_forgotten hb h hf hfits
  have hleft := hfits.left
  cases hv : c.rhs with
  | value v =>
    cases v with
    | enumConst name =>
      have hright : c.rightValue s right = .enumeration s.enumConstValue := by
        rw [rightValue, hv]
      have hoperand := operand_value he hv (by simp) right
      rw [hright] at hoperand
      rcases enumConst_kind h hv with hkind | ⟨hkind, hop⟩
      · rcases backed_op hb he hv (by simp) with hop | ⟨-, hlist⟩
        · exact agree_number h he hanswers hop (.inr (.inr hkind)) hleft hstored hoperand hright
            rfl (h.enumConst_ivalue hv) rfl
        · simp [featureTypeIdIsListOf, hkind] at hlist
      · exact agree_has h he hanswers hop (.inr (.inr hkind)) hleft hstored hoperand hright rfl
          (h.enumConst_ivalue hv) rfl
    | integer i =>
      have hright : c.rightValue s right = .int i := by
        rw [rightValue, hv]
      have hoperand := operand_value he hv (by simp) right
      rw [hright] at hoperand
      rcases integer_kind h hv with hkind | ⟨hop, hkind⟩ | hkind
      · exact absurd hkind hsom
      · exact agree_has h he hanswers hop (by omega) hleft hstored hoperand hright rfl
          (hb.integer_ivalue hv) rfl
      · rcases backed_op hb he hv (by simp) with hop | ⟨-, hlist⟩
        · exact agree_number h he hanswers hop (by omega) hleft hstored hoperand hright rfl
            (hb.integer_ivalue hv) rfl
        · rcases hkind with hkind | hkind <;> simp [featureTypeIdIsListOf, hkind] at hlist
    | string pattern =>
      have hright : c.rightValue s right = .string pattern := by
        rw [rightValue, hv]
      have hoperand := operand_value he hv (by simp) right
      rw [hright] at hoperand
      have hkind := string_kind h hv
      rcases backed_op hb he hv (by simp) with hop | ⟨-, hlist⟩
      · refine agree_string h he hanswers hop hkind (fun hfrom => ?_) hcache hleft hstored
          hoperand hright
        by_contra hne
        exact hset ⟨hfrom, hne⟩
      · rcases hkind with hkind | hkind <;> simp [featureTypeIdIsListOf, hkind] at hlist
    | objectReferenceUsage u => simp [FeatureComparison.makeConstraints, hv] at he
  | enumList names =>
    obtain ⟨hne, hop, hoperand⟩ := operand_enumList he hv
    obtain ⟨hcan, -, -, -, -, hopeq⟩ := makeConstraints_some he
    obtain ⟨hivalues, hinfos⟩ := h.infos_ivalues hv
    have hkind : featureTypeKind s.featureInfo.outputType = 4 := by
      rw [Forgotten, hv, not_not] at hf
      rcases hf with ⟨-, hkind⟩ | ⟨heq, -⟩
      · exact hkind
      · rw [hop] at heq
        cases heq
    refine agree_isIn h he hanswers hop (.inr (.inr hkind)) hleft hstored
      (l := s.infos.map EnumConstInfo.value) (by simpa using hinfos hne) hivalues ?_
      (by rw [rightValue, hv])
    rw [EMdFComparison.operandText, hoperand]
    simp only [hopeq, hop, if_true]
  | integerList l =>
    obtain ⟨hne, hop, hoperand⟩ := operand_integerList he hv
    obtain ⟨hcan, -, -, -, -, hopeq⟩ := makeConstraints_some he
    have hkind : featureTypeKind s.featureInfo.outputType = 0 ∨
        featureTypeKind s.featureInfo.outputType = 3 ∨
        featureTypeKind s.featureInfo.outputType = 4 := by
      rw [hop] at hcan
      simp only [canDoComparisonOp, featureTypeIdIsENUM, featureTypeIdIsINTEGER,
        featureTypeIdIsID_D, Bool.or_eq_true, beq_iff_eq] at hcan
      omega
    refine agree_isIn h he hanswers hop hkind hleft hstored hne (hb.integerList_ivalues hv) ?_
      (by rw [rightValue, hv])
    rw [EMdFComparison.operandText, hoperand]
    simp only [hopeq, hop, if_true]

/-- A set in which the ids of two strings are not in the order of the strings. -/
def swappedRows (str : List UInt8) : List (Int × List UInt8) := [(2, str), (1, str ++ [0])]

theorem ne_append_zero (str : List UInt8) : str ≠ str ++ [0] := by
  intro h
  have := congrArg List.length h
  simp at this

theorem swappedRows_ids (str : List UInt8) :
    ∀ r ∈ swappedRows str, ∀ r' ∈ swappedRows str, r.1 = r'.1 → r = r' := by
  intro r hr r' hr' h
  simp only [swappedRows, List.mem_cons, List.not_mem_nil, or_false] at hr hr'
  rcases hr with rfl | rfl <;> rcases hr' with rfl | rfl <;> first | rfl | simp at h

theorem swappedRows_strings (str : List UInt8) :
    ∀ r ∈ swappedRows str, ∀ r' ∈ swappedRows str, r.2 = r'.2 → r = r' := by
  intro r hr r' hr' h
  simp only [swappedRows, List.mem_cons, List.not_mem_nil, or_false] at hr hr'
  rcases hr with rfl | rfl <;> rcases hr' with rfl | rfl <;>
    first | rfl | exact absurd h (ne_append_zero str) | exact absurd h.symm (ne_append_zero str)

theorem swappedRows_numbers (str : List UInt8) :
    ∀ r ∈ swappedRows str, IsIvalue r.1 ∧ r.1 ≠ 0 := by
  intro r hr
  simp only [swappedRows, List.mem_cons, List.not_mem_nil, or_false] at hr
  rcases hr with rfl | rfl <;> simp [IsIvalue]

def swapped (str : List UInt8) : StringSet where
  rows := swappedRows str
  cached := []
  ids := swappedRows_ids str
  strings := swappedRows_strings str
  ivalues := fun r hr => (swappedRows_numbers str r hr).1
  noNil := fun r hr => (swappedRows_numbers str r hr).2
  cachedIvalues := fun _ hp => absurd hp List.not_mem_nil

theorem cacheAgrees_swapped (str : List UInt8) : e.CacheAgrees (swapped str) :=
  fun _ _ _ i hi => absurd hi (by simp [StringSet.inCache, swapped])

theorem idOf_swapped (str : List UInt8) : (swapped str).idOf str = 2 := by
  simp [StringSet.idOf, StringSet.inCache, swapped, swappedRows]

/-- The order of ids is not the order of strings. -/
theorem swapped_disagrees {op : ComparisonOp} (hop : isOrder op = true) (hne : ¬ IsEquality op)
    (str : List UInt8) :
    ¬ (EMdFValue.Ordered op (str ++ [0]) str ↔ EMdFValue.Ordered op (1 : Int) 2) := by
  have hlt : str < str ++ [0] := by
    have h := @List.append_left_lt _ _ str _ _ (List.nil_lt_cons (0 : UInt8) [])
    rwa [List.append_nil] at h
  have hnot : ¬ str ++ [0] < str := List.le_append_left
  have hnle : ¬ str ++ [0] ≤ str := fun h => absurd hlt h
  have hle : str ≤ str ++ [0] := hnot
  cases op with
  | equal => exact absurd (.inl rfl) hne
  | notEqual => exact absurd (.inr rfl) hne
  | lessThan => exact fun h => hnot (h.mpr (by decide : (1 : Int) < 2))
  | lessThanOrEqual => exact fun h => hnle (h.mpr (by decide : (1 : Int) ≤ 2))
  | greaterThan => exact fun h => absurd (h.mp hlt) (by decide : ¬ (1 : Int) > 2)
  | greaterThanOrEqual => exact fun h => absurd (h.mp hle) (by decide : ¬ (1 : Int) ≥ 2)
  | _ => cases hop

/-- What is compared with a string from a set is a string, by an operator of an order. -/
theorem string_of_fromSet (hb : Built c) (h : Accepted ctx c s) (he : c.makeConstraints s = some e)
    (hfrom : featureTypeIdIsFromSet s.featureInfo.outputType = true) :
    (featureTypeKind s.featureInfo.outputType = 1 ∨
      featureTypeKind s.featureInfo.outputType = 2) ∧
    isOrder c.comparisonOp = true ∧ ∃ pattern, c.rhs = .value (.string pattern) := by
  have hkind : featureTypeKind s.featureInfo.outputType = 1 ∨
      featureTypeKind s.featureInfo.outputType = 2 := by
    simp only [featureTypeIdIsFromSet, featureTypeIdIsASCIIorSTRING, Bool.and_eq_true,
      Bool.or_eq_true, beq_iff_eq] at hfrom
    omega
  obtain ⟨hcan, -⟩ := makeConstraints_some he
  refine ⟨hkind, ?_⟩
  cases hv : c.rhs with
  | value v =>
    cases v with
    | enumConst name =>
      rcases enumConst_kind h hv with hk | ⟨hk, -⟩ <;> omega
    | integer i =>
      rcases integer_kind h hv with hk | ⟨-, hk⟩ | hk <;> omega
    | objectReferenceUsage u => simp [FeatureComparison.makeConstraints, hv] at he
    | string pattern =>
      rcases backed_op hb he hv (by simp) with hop | ⟨-, hlist⟩
      · exact ⟨hop, pattern, rfl⟩
      · rcases hkind with hkind | hkind <;> simp [featureTypeIdIsListOf, hkind] at hlist
  | enumList names =>
    rcases (h.enumList hv).1 with hk | hk <;> omega
  | integerList l =>
    obtain ⟨-, hop, -⟩ := operand_integerList he hv
    rw [hop] at hcan
    simp only [canDoComparisonOp, featureTypeIdIsENUM, featureTypeIdIsINTEGER,
      featureTypeIdIsID_D, Bool.or_eq_true, beq_iff_eq] at hcan
    omega

/-- **Strings from a set are compared by their ids**: on the object of each row of the table. -/
theorem ordered_of_agree (hb : Built c) (h : Accepted ctx c s) (he : c.makeConstraints s = some e)
    (hfrom : featureTypeIdIsFromSet s.featureInfo.outputType = true) {pattern : List UInt8}
    (hv : c.rhs = .value (.string pattern)) {r : Int × List UInt8} (hr : r ∈ set.rows) :
    Fits c s (.string r.2) (.int 0) ∧
      StoredAs set s.featureInfo.outputType (.string r.2) (.number r.1) ∧
      (Agree b set e ctx c s (.string r.2) (.int 0) (.number r.1) →
        (EMdFValue.Ordered c.comparisonOp r.2 pattern ↔
          EMdFValue.Ordered c.comparisonOp r.1 (set.idOf pattern))) := by
  obtain ⟨hkind, hop, -⟩ := string_of_fromSet hb h he hfrom
  obtain ⟨-, -, -, -, htype, hopeq⟩ := makeConstraints_some he
  have hf := not_forgotten_of_backed h he (by omega)
  have hright : c.rightValue s (.int 0) = .string pattern := by
    rw [rightValue, hv]
  have hoperand := operand_value he hv (by simp) (.int 0)
  rw [hright] at hoperand
  obtain ⟨hsql, hp, hn⟩ := backendOp_of_isOrder hop
  have hfits : Fits c s (.string r.2) (.int 0) := by
    refine fits_of_no_usage hkind fun u hu => ?_
    rw [hv] at hu
    cases hu
  refine ⟨hfits, ?_, ?_⟩
  · rw [StoredAs, if_pos hfrom]
    exact ⟨r, hr, rfl, rfl⟩
  · rintro ⟨k, t, hk, ht, hiff⟩
    obtain ⟨t', ht', hmeans⟩ := answers_of_not_forgotten hb h hf hfits
    rw [ht] at ht'
    cases ht'
    rw [hmeans, means_iff hp hn, hright, EMdFValue.relates_strings] at hiff
    obtain ⟨column, hcolumn⟩ := Option.isSome_iff_exists.mp (encodeFeatureName_isSome h he)
    have htext : e.operandText b set = some (longlong2string (set.idOf pattern)) := by
      rw [EMdFComparison.operandText, hoperand, htype]
      simp [hfrom, EMdFValue.toText]
    rw [EMdFComparison.makeConstraints, hcolumn, hopeq, hsql, htext] at hk
    cases hk
    rw [SqlCondition.Holds] at hiff
    simp only [sz2longlong_longlong2string (set.idOf_ivalue pattern).digits] at hiff
    exact hiff

theorem not_agree_fromSet (hb : Built c) (h : Accepted ctx c s) (he : c.makeConstraints s = some e)
    (hfrom : featureTypeIdIsFromSet s.featureInfo.outputType = true)
    (hne : ¬ IsEquality c.comparisonOp) :
    ∃ set left right col, e.CacheAgrees set ∧ Fits c s left right ∧
      StoredAs set s.featureInfo.outputType left col ∧
      ¬ Agree b set e ctx c s left right col := by
  obtain ⟨-, hop, pattern, hv⟩ := string_of_fromSet hb h he hfrom
  have hrow : (1, pattern ++ [0]) ∈ (swapped pattern).rows := by
    simp [swapped, swappedRows]
  obtain ⟨hfits, hstored, hagree⟩ := ordered_of_agree (b := b) hb h he hfrom hv hrow
  refine ⟨swapped pattern, _, _, _, cacheAgrees_swapped pattern, hfits, hstored, fun hall => ?_⟩
  have hiff := hagree hall
  rw [idOf_swapped] at hiff
  exact swapped_disagrees hop hne pattern hiff

/-- **A cache that is wrong shows**, in the object of some row. -/
theorem cacheAgrees_of_agree (hb : Built c) (h : Accepted ctx c s)
    (he : c.makeConstraints s = some e) (hm : ¬ Misread c s.featureInfo.outputType)
    (hall : ∀ left right col, Fits c s left right →
      StoredAs set s.featureInfo.outputType left col → Agree b set e ctx c s left right col) :
    e.CacheAgrees set := by
  intro hfrom v hoperand
  obtain ⟨-, -, -, -, htype, -⟩ := makeConstraints_some he
  rw [htype] at hfrom
  obtain ⟨-, -, pattern, hv⟩ := string_of_fromSet hb h he hfrom
  have hvalue := operand_value he hv (by simp) (.int 0)
  rw [hoperand, EMdFOperand.value.injEq] at hvalue
  have hpattern : v.toText = pattern := by
    rw [hvalue, rightValue, hv]
    rfl
  rw [hpattern, ← StringSet.idOf_eq_iff]
  intro r hr
  obtain ⟨hfits, hstored, hagree⟩ := ordered_of_agree (b := b) hb h he hfrom hv hr
  have hiff := hagree (hall _ _ _ hfits hstored)
  have heq : IsEquality c.comparisonOp := by
    by_contra hne
    exact hm (.inr ⟨hfrom, hne⟩)
  rcases heq with heq | hne
  · rw [heq] at hiff
    exact hiff.symm
  · rw [hne] at hiff
    exact (not_iff_not.mp hiff).symm

theorem not_agree_setOfMonads (h : Accepted ctx c s) (he : c.makeConstraints s = some e)
    (hkind : featureTypeKind s.featureInfo.outputType = 5) :
    ∃ set left right col, e.CacheAgrees set ∧ Fits c s left right ∧
      StoredAs set s.featureInfo.outputType left col ∧
      ¬ Agree b set e ctx c s left right col := by
  obtain ⟨hcan, -⟩ := makeConstraints_some he
  cases hv : c.rhs with
  | value v =>
    cases v with
    | enumConst name =>
      rcases enumConst_kind h hv with hk | ⟨hk, -⟩ <;> omega
    | string pattern =>
      rcases string_kind h hv with hk | hk <;> omega
    | objectReferenceUsage u => simp [FeatureComparison.makeConstraints, hv] at he
    | integer i =>
      have hforgotten : c.Forgotten s.featureInfo.outputType := by
        rw [Forgotten, hv]
        exact .inr hkind
      obtain ⟨left, right, hfits, hnone⟩ := fails_integer h hv hforgotten
      obtain ⟨som, rfl⟩ := eq_setOfMonads hfits.left hkind
      refine ⟨swapped [], _, right, _, cacheAgrees_swapped [], hfits, rfl, ?_⟩
      rintro ⟨k, r, -, hr, -⟩
      rw [hnone] at hr
      cases hr
  | enumList names =>
    rcases (h.enumList hv).1 with hk | hk <;> omega
  | integerList l =>
    obtain ⟨-, hop, -⟩ := operand_integerList he hv
    rw [hop] at hcan
    simp only [canDoComparisonOp, featureTypeIdIsENUM, featureTypeIdIsINTEGER,
      featureTypeIdIsID_D, Bool.or_eq_true, beq_iff_eq] at hcan
    omega

end Backend

/-! ## 7. SQLite -/

/-- The characters of a string literal: an apostrophe is written twice. -/
def escapeApostrophes (str : List UInt8) : List UInt8 :=
  str.flatMap fun c => if c = 39 then [39, 39] else [c]

/-- `SQLite3EMdFDB::escapeStringForSQL`. -/
def escapeStringForSQLite (str : List UInt8) : List UInt8 := 39 :: (escapeApostrophes str ++ [39])

/-- The rest of a string literal, after the first apostrophe. -/
def readApostrophes : List UInt8 → Option (List UInt8)
  | [] => none
  | c :: text =>
    if c = 39 then
      match text with
      | [] => some []
      | d :: text => if d = 39 then (readApostrophes text).map fun str => 39 :: str else none
    else (readApostrophes text).map fun str => c :: str

/-- A string literal of SQLite. -/
def readLiteralSQLite (text : List UInt8) : Option (List UInt8) :=
  if text.head? = some 39 then readApostrophes text.tail else none

theorem readApostrophes_escape : ∀ str : List UInt8,
    readApostrophes (escapeApostrophes str ++ [39]) = some str
  | [] => rfl
  | c :: str => by
    have ih := readApostrophes_escape str
    rw [escapeApostrophes, List.flatMap_cons, List.append_assoc]
    by_cases hc : c = 39
    · rw [if_pos hc, hc]
      change (readApostrophes (escapeApostrophes str ++ [39])).map _ = _
      rw [ih]
      rfl
    · rw [if_neg hc, List.singleton_append, readApostrophes.eq_def]
      simp only [if_neg hc]
      change (readApostrophes (escapeApostrophes str ++ [39])).map _ = _
      rw [ih]
      rfl

theorem readLiteralSQLite_escape (str : List UInt8) :
    readLiteralSQLite (escapeStringForSQLite str) = some str :=
  readApostrophes_escape str

/-- Without an apostrophe there is nothing to escape. -/
theorem readLiteralSQLite_plain (str : List UInt8) (h : ∀ c ∈ str, IsPlain c ∨ c = 37) :
    readLiteralSQLite (39 :: (str ++ [39])) = some str := by
  have hne : ∀ c ∈ str, c ≠ 39 := by
    rintro c hc rfl
    exact absurd (h 39 hc) (by simp [IsPlain])
  have hescape : escapeApostrophes str = str := by
    rw [escapeApostrophes]
    induction str with
    | nil => rfl
    | cons c str ih =>
      rw [List.flatMap_cons, if_neg (hne c List.mem_cons_self),
        ih (fun d hd => h d (List.mem_cons_of_mem _ hd))
          fun d hd => hne d (List.mem_cons_of_mem _ hd)]
      rfl
  have hread := readApostrophes_escape str
  rw [hescape] at hread
  exact hread

/-- `LIKE` of SQLite does not tell the case of ASCII letters. -/
def sameCharSQLite (c x : UInt8) : Bool := asciiLower c == asciiLower x
where
  asciiLower (c : UInt8) : UInt8 := if 65 ≤ c ∧ c ≤ 90 then c + 32 else c

theorem sameCharSQLite_plain (c x : UInt8) (h : IsPlain c) :
    sameCharSQLite c x = true ↔ c = x := by
  have hc : c.toNat < 65 := by
    rcases h with rfl | h
    · decide
    · omega
  have hlower : sameCharSQLite.asciiLower c = c := by
    rw [sameCharSQLite.asciiLower, if_neg]
    rw [UInt8.le_iff_toNat_le]
    exact fun hle => absurd hle.1 (Nat.not_le.mpr hc)
  rw [sameCharSQLite, beq_iff_eq, hlower, sameCharSQLite.asciiLower]
  split
  · rename_i hx
    rw [UInt8.le_iff_toNat_le, UInt8.le_iff_toNat_le] at hx
    have h65 : (65 : UInt8).toNat = 65 := rfl
    have h90 : (90 : UInt8).toNat = 90 := rfl
    have h32 : (32 : UInt8).toNat = 32 := rfl
    have hsum : (x + 32).toNat = x.toNat + 32 := by
      rw [UInt8.toNat_add]
      omega
    constructor
    · intro heq
      rw [heq] at hc
      omega
    · rintro rfl
      omega
  · exact Iff.rfl

def sqlite : SqlBackend where
  escapeStringForSQL := escapeStringForSQLite
  readLiteral := readLiteralSQLite
  likeChar := sameCharSQLite
  read_escape := readLiteralSQLite_escape
  read_plain := readLiteralSQLite_plain
  likeChar_plain := sameCharSQLite_plain

open FeatureComparison

/-- The comparison `x <= 5` in the backend. -/
def comparisonX : EMdFComparison := ⟨['x'], [], 0, .lessThanOrEqual, .value (.int 5)⟩

/-- `x` is a `STRING FROM SET`. -/
theorem isFeatureType_stringFromSet : IsFeatureType 513 := .inl ⟨by decide, rfl⟩

end Emdros
