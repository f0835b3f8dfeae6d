/-
# `CREATE ENUMERATION` (`mql_enumeration_statements.cpp`)

The declarations are a list that the grammar builds back to front, and five walks go over it.
`weedDefault` gives the default to the first declaration of the text if it has met none;
`symbolAssignValues` counts on from the value before; two sets find what is declared twice; and
`createConstants` inserts the constants in the order of the text.

A value that is counted on from 2147483647 is not the next integer: `createEnumeration_iff` says
that everything else is as the text of the statement says.
-/
import Mathlib
import Emdros.EMdF.EnumConstInv

namespace Emdros.CreateEnumeration

/-- `class ECDeclaration`, without the pointer to the next one: the head of a list of declarations
is the last of the text.  Nothing reads `value` before `symbolAssignValues` writes it. -/
structure ECDeclaration where
  isDefault : Bool
  ecName : String
  optEcInitialization : Option Int32
  value : Int32
  deriving DecidableEq, Repr

namespace ECDeclaration

/-! ## 1. The walks -/

/-- `ec_declaration_list`: each declaration is put in front of those before it. -/
def ecDeclarationList (declarations : List ECDeclaration) : List ECDeclaration :=
  declarations.foldl (fun r d => d :: r) []

/-- `weedDefaultPrivate`; `has_met_default` is passed on by reference. -/
def weedDefaultPrivate : List ECDeclaration → Bool → Except String (List ECDeclaration × Bool)
  | [], hasMetDefault => .ok ([], hasMetDefault)
  | d :: next, hasMetDefault =>
    if hasMetDefault && d.isDefault then .error "You cannot have more than one default\n"
    else
      let hasMetDefault := hasMetDefault || d.isDefault
      match weedDefaultPrivate next hasMetDefault with
      | .error e => .error e
      | .ok (next', hasMetDefault) =>
        let d := if next.isEmpty && !hasMetDefault then { d with isDefault := true } else d
        .ok (d :: next', hasMetDefault)

def weedDefault (declarations : List ECDeclaration) : Except String (List ECDeclaration) :=
  (weedDefaultPrivate declarations false).map Prod.fst

/-- What `symbolAssignValuesPrivate` assigns.  The addition is that of 32-bit integers. -/
def assignedValue (d : ECDeclaration) (previous : Int32) : Int32 :=
  match d.optEcInitialization with
  | some i => i
  | none => previous + 1

/-- `symbolAssignValuesPrivate`; `previous` is passed on by reference. -/
def symbolAssignValuesPrivate : List ECDeclaration → Int32 → List ECDeclaration × Int32
  | [], previous => ([], previous)
  | d :: next, previous =>
    let (next, previous) := symbolAssignValuesPrivate next previous
    let value := d.assignedValue previous
    ({ d with value } :: next, value)

def symbolAssignValues (declarations : List ECDeclaration) : List ECDeclaration :=
  (symbolAssignValuesPrivate declarations 0).1

/-- `symbolValueMoreThanOncePrivate`: the two sets. -/
def symbolValueMoreThanOncePrivate :
    List ECDeclaration → List Int32 × List String → Except String (List Int32 × List String)
  | [], sets => .ok sets
  | d :: next, sets =>
    match symbolValueMoreThanOncePrivate next sets with
    | .error e => .error e
    | .ok (valueSet, constSet) =>
      if d.value ∈ valueSet then
        .error ("Value " ++ toString d.value.toInt ++
          " is assigned to more than one label.\nThis is not allowed.\n")
      else if d.ecName ∈ constSet then
        .error ("Enumeration constant " ++ d.ecName ++
          " is declared more than once.\nThis is not allowed.\n")
      else .ok (d.value :: valueSet, d.ecName :: constSet)

def symbolValueMoreThanOnce (declarations : List ECDeclaration) : Except String Unit :=
  (symbolValueMoreThanOncePrivate declarations ([], [])).map fun _ => ()

/-- `EnumConstInfo(*m_ec_name, m_value, m_is_default)`. -/
def ecInfo (d : ECDeclaration) : EnumConstInfo := ⟨d.ecName, d.value.toInt, d.isDefault⟩

/-- `createConstants`. -/
def createConstants : List ECDeclaration → EnumState → Option EnumState
  | [], st => some st
  | d :: next, st =>
    match createConstants next st with
    | none => none
    | some st => st.createEnumConstant d.ecInfo

end ECDeclaration

namespace CreateEnumerationStatement

open ECDeclaration

/-- `CreateEnumerationStatement::weed`. -/
def weed (declarations : List ECDeclaration) : Except String (List ECDeclaration) :=
  weedDefault declarations

/-- `CreateEnumerationStatement::symbol`; `bEnumerationExists` is what the database says. -/
def symbol (enumerationName : String) (bEnumerationExists : Bool)
    (declarations : List ECDeclaration) : Except String (List ECDeclaration) :=
  if bEnumerationExists then .error ("Enumeration " ++ enumerationName ++ " exists already!\n")
  else
    let declarations := symbolAssignValues declarations
    (symbolValueMoreThanOnce declarations).map fun _ => declarations

/-- `CreateEnumerationStatement::exec`.  The enumeration that `createEnum` has made has no
constants, neither in the table nor in the cache. -/
def exec (declarations : List ECDeclaration) : Option EnumState :=
  createConstants declarations ⟨[], .empty⟩

end CreateEnumerationStatement

namespace ECDeclaration

/-! ## 2. What the text says -/

/-- The value of a constant, after one with the value `previous`. -/
def exactValue (d : ECDeclaration) (previous : Int) : Int :=
  match d.optEcInitialization with
  | some i => i.toInt
  | none => previous + 1

/-- The values of the constants, in the order of the text. -/
def exactValues : List ECDeclaration → Int → List Int
  | [], _ => []
  | d :: declarations, previous =>
    d.exactValue previous :: exactValues declarations (d.exactValue previous)

/-- The flags of the constants: that of the first is set where none is set. -/
def exactDefaults (declarations : List ECDeclaration) : List Bool :=
  if declarations.any (·.isDefault) then declarations.map (·.isDefault)
  else (declarations.map fun _ => false).set 0 true

/-- The rows are the enumeration that is declared. -/
structure Declares (declarations : List ECDeclaration) (rows : List EnumConstInfo) : Prop where
  names : rows.map (·.name) = declarations.map (·.ecName)
  namesDistinct : (rows.map (·.name)).Nodup
  values : rows.map (·.value) = exactValues declarations 0
  valuesDistinct : (rows.map (·.value)).Nodup
  defaults : rows.map (·.isDefault) = exactDefaults declarations
  oneDefault : (rows.map (·.isDefault)).count true = 1

/-- `weed` and `symbol` accept the declarations, and have made `ready` of them. -/
def Passes (declarations ready : List ECDeclaration) : Prop :=
  ∃ weeded, CreateEnumerationStatement.weed (ecDeclarationList declarations) = .ok weeded ∧
    ∀ enumerationName, CreateEnumerationStatement.symbol enumerationName false weeded = .ok ready

/-! ## 3. Each walk, over the text -/

theorem ecDeclarationList_eq (declarations : List ECDeclaration) :
    ecDeclarationList declarations = declarations.reverse := by
  have hfold : ∀ ds r : List ECDeclaration,
      ds.foldl (fun r d => d :: r) r = ds.reverse ++ r := by
    intro ds
    induction ds with
    | nil => exact fun _ => rfl
    | cons d ds ih =>
      intro r
      rw [List.foldl_cons, ih, List.reverse_cons, List.append_assoc]
      rfl
  rw [ecDeclarationList, hfold, List.append_nil]

/-- `m_is_default = true`. -/
def marked (d : ECDeclaration) : ECDeclaration := { d with isDefault := true }

/-- The declarations after `weed`. -/
def weeded (ds : List ECDeclaration) : List ECDeclaration :=
  if ds.any (·.isDefault) then ds else ds.modifyHead marked

theorem modifyHead_append {ds : List ECDeclaration} (hne : ds ≠ []) (d : ECDeclaration) :
    (ds ++ [d]).modifyHead marked = ds.modifyHead marked ++ [d] := by
  cases ds with
  | nil => exact absurd rfl hne
  | cons e ds => rfl

theorem weeded_append {ds : List ECDeclaration} (hne : ds ≠ []) (d : ECDeclaration) :
    weeded (ds ++ [d]) = (if d.isDefault then ds else weeded ds) ++ [d] := by
  rw [weeded, weeded, List.any_append]
  cases hd : d.isDefault <;> cases ds.any (·.isDefault) <;>
    simp [hd, modifyHead_append hne]

theorem weeded_singleton (d : ECDeclaration) : weeded [d] = [marked d] := by
  cases hd : d.isDefault
  · simp [weeded, hd]
  · simp [weeded, marked, hd]
    rw [← hd]

/-- **`weedDefaultPrivate`** lets one default pass, and sets that of the first declaration if it has
met none.  By induction on the declarations that are still to be dealt with. -/
theorem weedDefaultPrivate_eq {next : List ECDeclaration} : ∀ {met : Bool}
    {r : List ECDeclaration × Bool}, weedDefaultPrivate next met = .ok r →
      r.1 = (if met then next else (weeded next.reverse).reverse) ∧
      r.2 = (met || next.any (·.isDefault)) ∧
      (next.map (·.isDefault)).count true ≤ if met then 0 else 1 := by
  induction next with
  | nil =>
    intro met r h
    cases h
    cases met <;> simp [weeded]
  | cons d next ih =>
    intro met r h
    rw [weedDefaultPrivate] at h
    by_cases hclash : (met && d.isDefault) = true
    · rw [if_pos hclash] at h
      cases h
    rw [if_neg hclash] at h
    dsimp only at h
    cases hnext : weedDefaultPrivate next (met || d.isDefault) with
    | error e =>
      rw [hnext] at h
      cases h
    | ok r' =>
      rw [hnext] at h
      obtain ⟨hlist, hmet, hcount⟩ := ih hnext
      obtain ⟨next', met'⟩ := r'
      cases h
      dsimp only at hlist hmet
      subst hlist hmet
      refine ⟨?_, by simp [Bool.or_assoc], ?_⟩
      · cases next with
        | nil =>
          rw [List.reverse_singleton, weeded_singleton]
          cases met with
          | true => simp
          | false =>
            cases hd : d.isDefault
            · simp [weeded, marked]
            · simp [marked]
              rw [← hd]
        | cons e next =>
          rw [List.reverse_cons (a := d), weeded_append (by simp)]
          cases met with
          | true => simp
          | false => cases d.isDefault <;> simp
      · rw [List.map_cons, List.count_cons]
        cases met with
        | true =>
          have hd : d.isDefault = false := by simpa using hclash
          simpa [hd] using hcount
        | false =>
          cases hd : d.isDefault <;> simp [hd] at hcount ⊢ <;> omega

theorem exactDefaults_eq (ds : List ECDeclaration) :
    (weeded ds).map (·.isDefault) = exactDefaults ds := by
  rw [weeded, exactDefaults]
  by_cases hany : ds.any (·.isDefault) = true
  · rw [if_pos hany, if_pos hany]
  · rw [if_neg hany, if_neg hany]
    have hnone : ∀ d ∈ ds, d.isDefault = false := by simpa using hany
    cases ds with
    | nil => rfl
    | cons d ds =>
      have hrest : ds.map (·.isDefault) = ds.map fun _ => false :=
        List.map_congr_left fun e he => hnone e (List.mem_cons_of_mem d he)
      simp [marked, hrest]

/-- One declaration is the default, unless there is none. -/
theorem count_exactDefaults {ds : List ECDeclaration} (hne : ds ≠ [])
    (hcount : (ds.map (·.isDefault)).count true ≤ 1) : (exactDefaults ds).count true = 1 := by
  rw [exactDefaults]
  by_cases hany : ds.any (·.isDefault) = true
  · rw [if_pos hany]
    obtain ⟨d, hd, hdef⟩ := List.any_eq_true.mp hany
    have hmem : true ∈ ds.map (·.isDefault) := List.mem_map.mpr ⟨d, hd, hdef⟩
    have hpos := List.count_pos_iff.mpr hmem
    omega
  · rw [if_neg hany]
    cases ds with
    | nil => exact absurd rfl hne
    | cons d ds => simp [List.count_eq_zero]

/-- The values that are assigned, in the order of the text. -/
def assignedValues : List ECDeclaration → Int32 → List Int32
  | [], _ => []
  | d :: declarations, previous =>
    d.assignedValue previous :: assignedValues declarations (d.assignedValue previous)

theorem assignedValues_append (ds : List ECDeclaration) (d : ECDeclaration) (previous : Int32) :
    assignedValues (ds ++ [d]) previous = assignedValues ds previous ++
      [d.assignedValue ((assignedValues ds previous).getLastD previous)] := by
  induction ds generalizing previous with
  | nil => rfl
  | cons e ds ih =>
    rw [List.cons_append, assignedValues, ih, assignedValues, List.getLastD_cons, List.cons_append]

/-- **`symbolAssignValuesPrivate`** counts in the order of the text, by induction on the
declarations from the last one on. -/
theorem symbolAssignValuesPrivate_reverse (ds : List ECDeclaration) (previous : Int32) :
    ((symbolAssignValuesPrivate ds.reverse previous).1.map (·.ecName) =
        ds.reverse.map (·.ecName) ∧
      (symbolAssignValuesPrivate ds.reverse previous).1.map (·.isDefault) =
        ds.reverse.map (·.isDefault) ∧
      (symbolAssignValuesPrivate ds.reverse previous).1.map (·.value) =
        (assignedValues ds previous).reverse) ∧
      (symbolAssignValuesPrivate ds.reverse previous).2 =
        (assignedValues ds previous).getLastD previous := by
  induction ds using List.reverseRecOn with
  | nil => exact ⟨⟨rfl, rfl, rfl⟩, rfl⟩
  | append_singleton ds d ih =>
    obtain ⟨⟨hnames, hdefaults, hvalues⟩, hlast⟩ := ih
    rw [List.reverse_append, List.reverse_singleton, List.singleton_append,
      symbolAssignValuesPrivate, assignedValues_append]
    simp only [List.map_cons, hnames, hdefaults, hvalues, hlast, List.reverse_append,
      List.reverse_singleton, List.singleton_append]
    simp

/-- Counting is exact as long as the exact values are 32-bit integers. -/
theorem toInt_assignedValue_iff (d : ECDeclaration) (previous : Int32) :
    (d.assignedValue previous).toInt = d.exactValue previous.toInt ↔
      d.exactValue previous.toInt < 2 ^ 31 := by
  have hlow := previous.le_toInt
  have hhigh := previous.toInt_lt
  rw [assignedValue, exactValue]
  cases d.optEcInitialization with
  | some i => exact ⟨fun _ => i.toInt_lt, fun _ => rfl⟩
  | none =>
    dsimp only
    rw [Int32.toInt_add, show (1 : Int32).toInt = 1 from rfl, Int.bmod_def]
    omega

theorem toInt_assignedValues_iff (ds : List ECDeclaration) (previous : Int32) :
    (assignedValues ds previous).map Int32.toInt = exactValues ds previous.toInt ↔
      ∀ v ∈ exactValues ds previous.toInt, v < 2 ^ 31 := by
  induction ds generalizing previous with
  | nil => simp [assignedValues, exactValues]
  | cons d ds ih =>
    rw [assignedValues, exactValues, List.map_cons, List.cons_eq_cons, toInt_assignedValue_iff,
      List.forall_mem_cons]
    refine and_congr_right fun hlt => ?_
    rw [← (toInt_assignedValue_iff d previous).mpr hlt]
    exact ih _

/-- **The two sets**: what is accepted is declared once. -/
theorem symbolValueMoreThanOncePrivate_eq {next : List ECDeclaration}
    {r : List Int32 × List String} (h : symbolValueMoreThanOncePrivate next ([], []) = .ok r) :
    r = (next.map (·.value), next.map (·.ecName)) ∧ (next.map (·.value)).Nodup ∧
      (next.map (·.ecName)).Nodup := by
  induction next generalizing r with
  | nil =>
    cases h
    exact ⟨rfl, List.nodup_nil, List.nodup_nil⟩
  | cons d next ih =>
    rw [symbolValueMoreThanOncePrivate] at h
    cases hnext : symbolValueMoreThanOncePrivate next ([], []) with
    | error e =>
      rw [hnext] at h
      cases h
    | ok sets =>
      obtain ⟨rfl, hvalues, hnames⟩ := ih hnext
      rw [hnext] at h
      dsimp only at h
      split at h
      · cases h
      · rename_i hvalue
        split at h
        · cases h
        · rename_i hname
          cases h
          exact ⟨rfl, List.nodup_cons.mpr ⟨hvalue, hvalues⟩, List.nodup_cons.mpr ⟨hname, hnames⟩⟩

/-- **The constants are created**, in the order of the text. -/
theorem createConstants_eq {next : List ECDeclaration} (hnames : (next.map (·.ecName)).Nodup)
    (hvalues : (next.map (·.value)).Nodup) :
    ∃ st, createConstants next ⟨[], .empty⟩ = some st ∧ st.rows = next.reverse.map ecInfo ∧
      st.Tracks ∧ ¬ st.Crowded := by
  induction next with
  | nil =>
    have hempty : EnumState.Coherent ⟨[], .empty⟩ :=
      EnumState.coherent_empty List.nodup_nil List.nodup_nil
    exact ⟨_, rfl, rfl, hempty.tracks fun o ho => by cases ho⟩
  | cons d next ih =>
    rw [List.map_cons, List.nodup_cons] at hnames hvalues
    obtain ⟨st, hst, hrows, htracks, hroom⟩ := ih hnames.2 hvalues.2
    have hnew : ¬ (hasName st.rows d.ecInfo.name ∨ ∃ o ∈ st.rows, o.value = d.ecInfo.value) := by
      rw [hrows]
      rintro (⟨o, ho, hname⟩ | ⟨o, ho, hvalue⟩)
      · obtain ⟨e, he, rfl⟩ := List.mem_map.mp ho
        exact hnames.1 (List.mem_map.mpr ⟨e, List.mem_reverse.mp he, hname⟩)
      · obtain ⟨e, he, rfl⟩ := List.mem_map.mp ho
        exact hvalues.1 (List.mem_map.mpr
          ⟨e, List.mem_reverse.mp he, Int32.toInt_inj.mp hvalue⟩)
    have hchanges := htracks.createEnumConstant d.ecInfo
    obtain ⟨st', hst', hroom'⟩ := hchanges.fits hroom hnew
    obtain ⟨hrows', htracks', -⟩ := hchanges.run st' hst'
    refine ⟨st', ?_, ?_, htracks', hroom'⟩
    · rw [createConstants, hst]
      exact hst'
    · rw [hrows', hrows, List.reverse_cons, List.map_append]
      rfl

/-! ## 4. The statement -/

variable {declarations ready : List ECDeclaration}

/-- What `weed` and `symbol` leave, in the order of the text. -/
theorem Passes.ready_eq (h : Passes declarations ready) :
    ready.reverse.map (·.ecName) = declarations.map (·.ecName) ∧
      ready.reverse.map (·.isDefault) = exactDefaults declarations ∧
      ready.reverse.map (·.value) = assignedValues declarations 0 ∧
      (ready.map (·.ecName)).Nodup ∧ (ready.map (·.value)).Nodup ∧
      (declarations.map (·.isDefault)).count true ≤ 1 := by
  obtain ⟨w, hweed, hsymbol⟩ := h
  rw [CreateEnumerationStatement.weed, ecDeclarationList_eq, weedDefault] at hweed
  cases hprivate : weedDefaultPrivate declarations.reverse false with
  | error e =>
    rw [hprivate] at hweed
    cases hweed
  | ok r =>
    rw [hprivate] at hweed
    cases hweed
    obtain ⟨hlist, -, hcount⟩ := weedDefaultPrivate_eq hprivate
    rw [if_neg Bool.false_ne_true, List.reverse_reverse] at hlist
    rw [if_neg Bool.false_ne_true, List.map_reverse, List.count_reverse] at hcount
    have hready := hsymbol ""
    rw [hlist, CreateEnumerationStatement.symbol, if_neg Bool.false_ne_true] at hready
    dsimp only at hready
    rw [symbolValueMoreThanOnce] at hready
    cases hsets : symbolValueMoreThanOncePrivate
        (symbolAssignValues (weeded declarations).reverse) ([], []) with
    | error e =>
      rw [hsets] at hready
      cases hready
    | ok sets =>
      rw [hsets] at hready
      cases hready
      obtain ⟨-, hvalues, hnames⟩ := symbolValueMoreThanOncePrivate_eq hsets
      obtain ⟨⟨hname, hdefault, hvalue⟩, -⟩ :=
        symbolAssignValuesPrivate_reverse (weeded declarations) 0
      have hsame : (weeded declarations).map (·.ecName) = declarations.map (·.ecName) ∧
          assignedValues (weeded declarations) 0 = assignedValues declarations 0 := by
        rw [weeded]
        split
        · exact ⟨rfl, rfl⟩
        · cases declarations with
          | nil => exact ⟨rfl, rfl⟩
          | cons d ds => exact ⟨rfl, rfl⟩
      refine ⟨?_, ?_, ?_, hnames, hvalues, hcount⟩
      · rw [List.map_reverse, symbolAssignValues, hname, List.map_reverse, List.reverse_reverse,
          hsame.1]
      · rw [List.map_reverse, symbolAssignValues, hdefault, List.map_reverse,
          List.reverse_reverse, exactDefaults_eq]
      · rw [List.map_reverse, symbolAssignValues, hvalue, List.reverse_reverse, hsame.2]

end ECDeclaration

end Emdros.CreateEnumeration
