/-
# `UPDATE ENUMERATION` (`mql_enumeration_statements.cpp`)

The items `ADD`, `UPDATE` and `REMOVE` of the statement form a list that the grammar builds back to
front, and each of the walks over it deals with `m_next` before the item itself: the items are
taken in the order of the text.  There are three such walks.  `symbol` looks each name up in the
enumeration as it was before; it then changes a copy of the constants and checks that no value
occurs twice; and `exec` changes the table.

`updateEnumeration_iff` says when the third walk does what the first two have led one to expect.
-/
import Emdros.EMdF.EnumConstInv

namespace Emdros

/-- `eAddUpdateRemove`. -/
inductive AddUpdateRemove where
  | kAdd
  | kUpdate
  | kRemove
  deriving DecidableEq, Repr

/-- `class ECUpdate`, without the pointer to the next item: an item list is a `List` whose head is
the last item of the text. -/
structure ECUpdate where
  isDefault : Bool
  ecName : String
  ecInitialization : Int
  kind : AddUpdateRemove
  deriving DecidableEq, Repr

namespace ECUpdate

/-! ## 1. `weed` and `symbol` -/

/-- `weedDefaultPrivate`. -/
def weedDefaultPrivate : List ECUpdate → Bool → Except String Unit
  | [], _ => .ok ()
  | u :: next, hasMetDefault =>
    if hasMetDefault && u.isDefault then .error "You cannot have more than one default\n"
    else weedDefaultPrivate next (hasMetDefault || u.isDefault)

def weedDefault (items : List ECUpdate) : Except String Unit := weedDefaultPrivate items false

/-- What `symbolExistenceOfConstants` makes of one item. -/
def checkExistence (u : ECUpdate) (bConstExists : Bool) : Except String Unit :=
  match u.kind, bConstExists with
  | .kAdd, true =>
    .error ("Enumeration constant " ++ u.ecName ++ " exists already.  Cannot add.\n")
  | .kUpdate, false =>
    .error ("Enumeration constant " ++ u.ecName ++ " does not exist.  Cannot update.\n")
  | .kRemove, false =>
    .error ("Enumeration constant " ++ u.ecName ++ " does not exist.  Cannot remove.\n")
  | _, _ => .ok ()

/-- `symbolExistenceOfConstants`. -/
def symbolExistenceOfConstants :
    List ECUpdate → EnumState → Option (Except String Unit × EnumState)
  | [], st => some (.ok (), st)
  | u :: next, st =>
    match symbolExistenceOfConstants next st with
    | some (.ok (), st) =>
      match st.enumConstExists u.ecName with
      | some (found, st) => some (u.checkExistence found.isSome, st)
      | none => none
    | r => r

/-- `symbolDefaultIsRemoved`. -/
def symbolDefaultIsRemoved : List ECUpdate → EnumState → Option (Bool × EnumState)
  | [], st => some (false, st)
  | u :: next, st =>
    match symbolDefaultIsRemoved next st with
    | some (false, st) =>
      if u.kind = .kRemove then
        match st.enumConstExists u.ecName with
        | some (found, st) => some (found.any (·.isDefault), st)
        | none => none
      else some (false, st)
    | r => r

/-- `hasDefault`. -/
def hasDefault : List ECUpdate → Bool
  | [] => false
  | u :: next => hasDefault next || u.isDefault

/-- `getDefault`; `none` is the assertion at the end of the list. -/
def getDefault : List ECUpdate → Option String
  | [] => none
  | u :: next => if u.isDefault then some u.ecName else getDefault next

/-- What `symbolDoLocalUpdatePrivate` makes of one item.  The loop of `kRemove` erases every
constant with the name. -/
def localUpdate (u : ECUpdate) (enumList : List EnumConstInfo) : List EnumConstInfo :=
  match u.kind with
  | .kAdd => enumList ++ [⟨u.ecName, u.ecInitialization, u.isDefault⟩]
  | .kUpdate => enumList.map fun o =>
      if o.name = u.ecName then { o with value := u.ecInitialization, isDefault := u.isDefault }
      else o
  | .kRemove => enumList.filter fun o => o.name ≠ u.ecName

/-- `symbolDoLocalUpdatePrivate`. -/
def symbolDoLocalUpdatePrivate : List ECUpdate → List EnumConstInfo → List EnumConstInfo
  | [], enumList => enumList
  | u :: next, enumList => u.localUpdate (symbolDoLocalUpdatePrivate next enumList)

/-- `symbolCheckNoTwoValuesSamePrivate`: the errors that it appends. -/
def symbolCheckNoTwoValuesSamePrivate : List EnumConstInfo → List Int → List String
  | [], _ => []
  | eci :: rest, valueSet =>
    if eci.value ∈ valueSet then
      ("Value " ++ toString eci.value ++ " would exist for more than one label after update.\n"
        ++ "This is not allowed.\n") :: symbolCheckNoTwoValuesSamePrivate rest valueSet
    else symbolCheckNoTwoValuesSamePrivate rest (eci.value :: valueSet)

/-- `symbolNoTwoValuesSame`. -/
def symbolNoTwoValuesSame (items : List ECUpdate) (st : EnumState) :
    Option (Except String Unit × EnumState) :=
  match st.getEnumConstants with
  | none => none
  | some (enumList, st) =>
    match symbolCheckNoTwoValuesSamePrivate (symbolDoLocalUpdatePrivate items enumList) [] with
    | [] => some (.ok (), st)
    | errors => some (.error (String.join errors), st)

/-- `UpdateEnumerationStatement::symbol`, for an enumeration that exists. -/
def symbol (items : List ECUpdate) (st : EnumState) :
    Option (Except String Unit × EnumState) :=
  match symbolExistenceOfConstants items st with
  | some (.ok (), st) =>
    match symbolDefaultIsRemoved items st with
    | some (bDefaultIsRemoved, st) =>
      if bDefaultIsRemoved && !hasDefault items then
        some (.error "Default is removed without specifying new default.\n", st)
      else symbolNoTwoValuesSame items st
    | none => none
  | r => r

/-! ## 2. `exec` -/

/-- What `execAddUpdateRemove` makes of one item. -/
def execSelf (u : ECUpdate) (st : EnumState) : Option EnumState :=
  match st.enumConstExists u.ecName with
  | none => none
  | some (found, st) =>
    match u.kind, found with
    | .kAdd, _ => st.createEnumConstant ⟨u.ecName, u.ecInitialization, u.isDefault⟩
    | .kUpdate, some eci => st.updateEnumConst u.ecName eci.value u.ecInitialization
    | .kUpdate, none => some st
    | .kRemove, some eci => st.dropEnumConst u.ecName eci.value
    | .kRemove, none => some st

/-- `execAddUpdateRemove`. -/
def execAddUpdateRemove : List ECUpdate → EnumState → Option EnumState
  | [], st => some st
  | u :: next, st =>
    match execAddUpdateRemove next st with
    | none => none
    | some st => u.execSelf st

/-- `UpdateEnumerationStatement::exec`. -/
def exec (items : List ECUpdate) (st : EnumState) : Option EnumState :=
  match execAddUpdateRemove items st with
  | none => none
  | some st =>
    if hasDefault items then
      match getDefault items with
      | none => none
      | some enumConstName => st.setDefaultEnumConst enumConstName
    else some st

/-! ## 3. The run of `exec` -/

/-- The rows after one item. -/
def apply (u : ECUpdate) (rows : List EnumConstInfo) : List EnumConstInfo :=
  match u.kind with
  | .kAdd => rows ++ [⟨u.ecName, u.ecInitialization, u.isDefault⟩]
  | .kUpdate => EnumState.setValue rows u.ecName u.ecInitialization
  | .kRemove => EnumState.removeName rows u.ecName

/-- The rows after a list of items. -/
def applyAll : List ECUpdate → List EnumConstInfo → List EnumConstInfo
  | [], rows => rows
  | u :: next, rows => u.apply (applyAll next rows)

/-- An item meets a constant that it clashes with. -/
def Clash (u : ECUpdate) (rows : List EnumConstInfo) : Prop :=
  match u.kind with
  | .kAdd => hasName rows u.ecName ∨ ∃ o ∈ rows, o.value = u.ecInitialization
  | .kUpdate => hasName rows u.ecName ∧
      ∃ o ∈ rows, o.name ≠ u.ecName ∧ o.value = u.ecInitialization
  | .kRemove => False

/-- One of the items clashes when it is reached. -/
def ClashAll : List ECUpdate → List EnumConstInfo → Prop
  | [], _ => False
  | u :: next, rows => ClashAll next rows ∨ u.Clash (applyAll next rows)

variable {st st' : EnumState}

theorem setValue_of_not_hasName {rows : List EnumConstInfo} {n : String} (h : ¬ hasName rows n)
    (v : Int) : EnumState.setValue rows n v = rows := by
  rw [EnumState.setValue]
  refine (List.map_congr_left fun o ho => ?_).trans (List.map_id rows)
  rw [if_neg fun hn => h ⟨o, ho, hn⟩, id]

theorem removeName_of_not_hasName {rows : List EnumConstInfo} {n : String}
    (h : ¬ hasName rows n) : EnumState.removeName rows n = rows := by
  rw [EnumState.removeName, List.filter_eq_self]
  intro o ho
  exact decide_eq_true fun hn => h ⟨o, ho, hn⟩

/-- An item whose constant is gone does nothing. -/
theorem changes_refl {rows : List EnumConstInfo} {clash : Prop} (h : st.Tracks)
    (hrows : rows = st.rows) (hclash : ¬ clash) : EnumState.Changes st rows clash (some st) where
  run := by
    intro st' hst
    rw [Option.some.injEq] at hst
    subst hst
    exact ⟨hrows.symm, h, fun hc => hc.resolve_right hclash⟩
  fits := fun hroom _ => ⟨st, rfl, hroom⟩

/-- **One item of the statement**, on a table and a cache that keep up with each other. -/
theorem execSelf_changes (h : st.Tracks) (u : ECUpdate) :
    EnumState.Changes st (u.apply st.rows) (u.Clash st.rows) (u.execSelf st) := by
  cases hex : st.enumConstExists u.ecName with
  | none =>
    refine ⟨fun st' hst => ?_, fun hroom _ => ?_⟩
    · rw [execSelf, hex] at hst
      cases hst
    · rw [h.enumConstExists_of_room hroom] at hex
      cases hex
  | some r =>
    obtain ⟨found, st₁⟩ := r
    obtain ⟨hfound, hst₁⟩ : found = findRow st.rows u.ecName ∧ st₁ = st := by
      rcases h.enumConstExists u.ecName with hnone | hsome
      · rw [hex] at hnone
        cases hnone
      · rw [hex] at hsome
        cases hsome
        exact ⟨rfl, rfl⟩
    rw [hst₁] at hex
    cases hk : u.kind with
    | kAdd =>
      simp only [execSelf, hex, apply, Clash, hk]
      exact h.createEnumConstant ⟨u.ecName, u.ecInitialization, u.isDefault⟩
    | kUpdate =>
      cases hf : found with
      | none =>
        have hno : ¬ hasName st.rows u.ecName :=
          EnumState.findRow_eq_none.mp (hfound.symm.trans hf)
        simp only [execSelf, hex, hf, apply, Clash, hk]
        exact changes_refl h (setValue_of_not_hasName hno _) fun hc => hno hc.1
      | some o =>
        rw [hf] at hex
        obtain ⟨ho, hn, p, hs, hc⟩ := h.pointer hex
        have hchg := h.updateEnumConst ho hs hc u.ecInitialization
        simp only [execSelf, hex, apply, Clash, hk]
        rw [← hn]
        exact ⟨fun st' hst => by
          obtain ⟨hrows, htr, hcl⟩ := hchg.run st' hst
          exact ⟨hrows, htr, fun hc => hcl (hc.imp_right And.right)⟩,
          fun hroom hcl => hchg.fits hroom fun hx => hcl ⟨⟨o, ho, rfl⟩, hx⟩⟩
    | kRemove =>
      cases hf : found with
      | none =>
        have hno : ¬ hasName st.rows u.ecName :=
          EnumState.findRow_eq_none.mp (hfound.symm.trans hf)
        simp only [execSelf, hex, hf, apply, Clash, hk]
        exact changes_refl h (removeName_of_not_hasName hno) not_false
      | some o =>
        rw [hf] at hex
        obtain ⟨ho, hn, p, hs, hc⟩ := h.pointer hex
        simp only [execSelf, hex, apply, Clash, hk]
        rw [← hn]
        exact h.dropEnumConst ho hs hc

/-- **The run over the items.**  The induction follows the walk, which deals with the rest of
the list first. -/
theorem execAddUpdateRemove_changes (h : st.Tracks) (items : List ECUpdate) :
    EnumState.Changes st (applyAll items st.rows) (ClashAll items st.rows)
      (execAddUpdateRemove items st) := by
  induction items with
  | nil => exact changes_refl h rfl not_false
  | cons u next ih =>
    refine ⟨fun st' hst => ?_, fun hroom hclash => ?_⟩
    · rw [execAddUpdateRemove] at hst
      cases hn : execAddUpdateRemove next st with
      | none =>
        rw [hn] at hst
        cases hst
      | some st₁ =>
        rw [hn] at hst
        obtain ⟨hrows₁, htr₁, hcl₁⟩ := ih.run st₁ hn
        obtain ⟨hrows, htr, hcl⟩ := (execSelf_changes htr₁ u).run st' hst
        rw [hrows₁] at hrows hcl
        refine ⟨hrows, htr, ?_⟩
        rintro (hc | hc | hc)
        · exact hcl (Or.inl (hcl₁ (Or.inl hc)))
        · exact hcl (Or.inl (hcl₁ (Or.inr hc)))
        · exact hcl (Or.inr hc)
    · obtain ⟨st₁, hn, hroom₁⟩ := ih.fits hroom fun hc => hclash (Or.inl hc)
      obtain ⟨hrows₁, htr₁, -⟩ := ih.run st₁ hn
      have hno : ¬ u.Clash st₁.rows := by
        rw [hrows₁]
        exact fun hc => hclash (Or.inr hc)
      obtain ⟨st₂, hst, hroom₂⟩ := (execSelf_changes htr₁ u).fits hroom₁ hno
      refine ⟨st₂, ?_, hroom₂⟩
      rw [execAddUpdateRemove, hn]
      exact hst

/-! ## 4. What `symbol` has checked -/

/-- The name of an item is new, or it is there, as the kind of the item requires. -/
def Admitted (rows : List EnumConstInfo) (u : ECUpdate) : Prop :=
  if u.kind = .kAdd then ¬ hasName rows u.ecName else hasName rows u.ecName

theorem checkExistence_iff {rows : List EnumConstInfo} {u : ECUpdate} :
    u.checkExistence (findRow rows u.ecName).isSome = .ok () ↔ u.Admitted rows := by
  have hsome : (findRow rows u.ecName).isSome = true ↔ hasName rows u.ecName := by
    rw [← not_iff_not, ← EnumState.findRow_eq_none]
    simp
  unfold checkExistence Admitted
  rw [← hsome]
  cases u.kind <;> cases (findRow rows u.ecName).isSome <;> simp

theorem symbolExistenceOfConstants_spec {items : List ECUpdate} (h : st.Coherent)
    (hrun : symbolExistenceOfConstants items st = some (.ok (), st')) :
    st'.rows = st.rows ∧ st'.Coherent ∧ ∀ u ∈ items, u.Admitted st.rows := by
  induction items generalizing st' with
  | nil =>
    cases hrun
    exact ⟨rfl, h, by simp⟩
  | cons u next ih =>
    rw [symbolExistenceOfConstants] at hrun
    split at hrun
    · rename_i st₁ hnext
      obtain ⟨hrows₁, hco₁, hall⟩ := ih hnext
      obtain ⟨st₂, hex, hrows₂, hco₂⟩ := hco₁.enumConstExists u.ecName
      simp only [hex, Option.some.injEq, Prod.mk.injEq] at hrun
      obtain ⟨hcheck, rfl⟩ := hrun
      refine ⟨hrows₂.trans hrows₁, hco₂, List.forall_mem_cons.mpr ⟨?_, hall⟩⟩
      rw [← hrows₁]
      exact checkExistence_iff.mp hcheck
    · rename_i hne
      exact absurd hrun (hne st')

/-- An item that removes the default of these rows. -/
def RemovesDefault (rows : List EnumConstInfo) (u : ECUpdate) : Prop :=
  u.kind = .kRemove ∧ ∃ o ∈ rows, o.name = u.ecName ∧ o.isDefault = true

theorem symbolDefaultIsRemoved_spec {items : List ECUpdate} {b : Bool} (h : st.Coherent)
    (hrun : symbolDefaultIsRemoved items st = some (b, st')) :
    st'.rows = st.rows ∧ st'.Coherent ∧ (b = false → ∀ u ∈ items, ¬ u.RemovesDefault st.rows) := by
  induction items generalizing st' b with
  | nil =>
    cases hrun
    exact ⟨rfl, h, by simp⟩
  | cons u next ih =>
    rw [symbolDefaultIsRemoved] at hrun
    split at hrun
    · rename_i st₁ hnext
      obtain ⟨hrows₁, hco₁, hall⟩ := ih hnext
      split at hrun
      · obtain ⟨st₂, hex, hrows₂, hco₂⟩ := hco₁.enumConstExists u.ecName
        simp only [hex, Option.some.injEq, Prod.mk.injEq] at hrun
        obtain ⟨hb, rfl⟩ := hrun
        refine ⟨hrows₂.trans hrows₁, hco₂, fun hfalse => ?_⟩
        refine List.forall_mem_cons.mpr ⟨?_, hall rfl⟩
        rintro ⟨-, o, ho, hn, hdef⟩
        rw [hrows₁, (EnumState.findRow_eq_some h.names).mpr ⟨ho, hn⟩, hfalse] at hb
        simp [hdef] at hb
      · rename_i hkind
        cases hrun
        refine ⟨hrows₁, hco₁, fun _ => List.forall_mem_cons.mpr ⟨?_, hall rfl⟩⟩
        exact fun hr => hkind hr.1
    · rename_i hne
      cases b with
      | false => exact absurd hrun (hne st')
      | true =>
        obtain ⟨hrows, hco, -⟩ := ih hrun
        exact ⟨hrows, hco, fun hc => absurd hc (by decide)⟩

theorem symbolCheck_spec {l : List EnumConstInfo} {valueSet : List Int}
    (h : symbolCheckNoTwoValuesSamePrivate l valueSet = []) :
    (l.map (·.value)).Nodup ∧ ∀ o ∈ l, o.value ∉ valueSet := by
  induction l generalizing valueSet with
  | nil => exact ⟨List.nodup_nil, by simp⟩
  | cons eci rest ih =>
    rw [symbolCheckNoTwoValuesSamePrivate] at h
    split at h
    · cases h
    · rename_i hnew
      obtain ⟨hnodup, hall⟩ := ih h
      refine ⟨List.nodup_cons.mpr ⟨?_, hnodup⟩, List.forall_mem_cons.mpr ⟨hnew, ?_⟩⟩
      · intro hmem
        obtain ⟨o, ho, hv⟩ := List.mem_map.mp hmem
        exact hall o ho (hv ▸ List.mem_cons_self)
      · exact fun o ho hmem => hall o ho (List.mem_cons_of_mem _ hmem)

theorem localUpdate_perm (u : ECUpdate) {l l' : List EnumConstInfo} (h : l.Perm l') :
    (u.localUpdate l).Perm (u.localUpdate l') := by
  unfold localUpdate
  cases u.kind with
  | kAdd => exact h.append_right _
  | kUpdate => exact h.map _
  | kRemove => exact h.filter _

theorem symbolDoLocalUpdatePrivate_perm (items : List ECUpdate) {l l' : List EnumConstInfo}
    (h : l.Perm l') :
    (symbolDoLocalUpdatePrivate items l).Perm (symbolDoLocalUpdatePrivate items l') := by
  induction items with
  | nil => exact h
  | cons u next ih => exact localUpdate_perm u ih

/-- What has been checked when `symbol` accepts the items. -/
structure Accepted (items : List ECUpdate) (rows : List EnumConstInfo) : Prop where
  admitted : ∀ u ∈ items, u.Admitted rows
  default : hasDefault items = false → ∀ u ∈ items, ¬ u.RemovesDefault rows
  values : ((symbolDoLocalUpdatePrivate items rows).map (·.value)).Nodup

/-- **`symbol`** accepts only such items, changes no row, and has filled the cache. -/
theorem symbol_spec {items : List ECUpdate} (h : st.Coherent)
    (hrun : symbol items st = some (.ok (), st')) :
    st'.rows = st.rows ∧ st'.Tracks ∧ ¬ st'.Crowded ∧ Accepted items st.rows := by
  rw [symbol] at hrun
  split at hrun
  · rename_i st₁ hex
    obtain ⟨hrows₁, hco₁, hadm⟩ := symbolExistenceOfConstants_spec h hex
    cases hdef : symbolDefaultIsRemoved items st₁ with
    | none =>
      simp only [hdef] at hrun
      cases hrun
    | some r =>
      obtain ⟨b, st₂⟩ := r
      obtain ⟨hrows₂, hco₂, hkept⟩ := symbolDefaultIsRemoved_spec hco₁ hdef
      simp only [hdef] at hrun
      split at hrun
      · cases hrun
      · rename_i hno
        obtain ⟨result, st₃, hget, hperm, hrows₃, htr, hroom⟩ := hco₂.getEnumConstants
        rw [symbolNoTwoValuesSame, hget] at hrun
        simp only at hrun
        split at hrun
        · rename_i hcheck
          cases hrun
          refine ⟨hrows₃.trans (hrows₂.trans hrows₁), htr, hroom, hadm, ?_, ?_⟩
          · intro hd
            rw [← hrows₁]
            refine hkept ?_
            simpa [hd] using hno
          · rw [hrows₂, hrows₁] at hperm
            exact ((symbolDoLocalUpdatePrivate_perm items hperm).map _).nodup_iff.mp
              (symbolCheck_spec hcheck).1
        · cases hrun
  · rename_i hne
    exact absurd hrun (hne st')

/-! ## 5. When no item clashes -/

/-- The value that a name stands for after the items, read off the items themselves. -/
def constantsAt (rows : List EnumConstInfo) : List ECUpdate → String → Option Int
  | [], n => (findRow rows n).map (·.value)
  | u :: next, n =>
    if u.ecName = n then
      match u.kind with
      | .kAdd => some u.ecInitialization
      | .kUpdate => (constantsAt rows next n).map fun _ => u.ecInitialization
      | .kRemove => none
    else constantsAt rows next n

/-- The names that items add. -/
def addedNames (items : List ECUpdate) : List String :=
  (items.filter fun u => u.kind = .kAdd).map (·.ecName)

/-- No other constant has the value that the item gives, when the item is reached. -/
def TakesFreeValue (rows : List EnumConstInfo) (u : ECUpdate) (next : List ECUpdate) : Prop :=
  u.kind ≠ .kRemove → (u.kind = .kUpdate → constantsAt rows next u.ecName ≠ none) →
    ∀ m, m ≠ u.ecName → constantsAt rows next m ≠ some u.ecInitialization

/-- Each item takes a value that is free by then. -/
def TakeFreeValues (rows : List EnumConstInfo) : List ECUpdate → Prop
  | [] => True
  | u :: next => TakeFreeValues rows next ∧ u.TakesFreeValue rows next

theorem mem_addedNames {items : List ECUpdate} {n : String} :
    n ∈ addedNames items ↔ ∃ u ∈ items, u.kind = .kAdd ∧ u.ecName = n := by
  simp only [addedNames, List.mem_map, List.mem_filter, decide_eq_true_eq, and_assoc]

theorem addedNames_cons (u : ECUpdate) (next : List ECUpdate) :
    addedNames (u :: next) =
      if u.kind = .kAdd then u.ecName :: addedNames next else addedNames next := by
  unfold addedNames
  rw [List.filter_cons]
  by_cases h : u.kind = .kAdd
  · rw [if_pos (decide_eq_true h), if_pos h, List.map_cons]
  · rw [if_neg (by simpa using h), if_neg h]

variable {rows : List EnumConstInfo} {n : String} {v : Int}

theorem mem_apply {u : ECUpdate} {A : List EnumConstInfo} {o : EnumConstInfo} :
    o ∈ u.apply A ↔
      (u.kind = .kAdd ∧ (o ∈ A ∨ o = ⟨u.ecName, u.ecInitialization, u.isDefault⟩)) ∨
      (u.kind = .kUpdate ∧ ((∃ x ∈ A, x.name = u.ecName ∧ o = { x with value := u.ecInitialization })
        ∨ o ∈ A ∧ o.name ≠ u.ecName)) ∨
      (u.kind = .kRemove ∧ o ∈ A ∧ o.name ≠ u.ecName) := by
  unfold apply
  cases u.kind with
  | kAdd => simp
  | kUpdate => simp [EnumState.mem_setValue]
  | kRemove => simp [EnumState.mem_removeName]

/-- A name of the rows after an item. -/
theorem hasName_apply {u : ECUpdate} {A : List EnumConstInfo} :
    hasName (u.apply A) n ↔
      (u.kind = .kAdd ∧ u.ecName = n) ∨ (hasName A n ∧ ¬ (u.kind = .kRemove ∧ u.ecName = n)) := by
  unfold apply hasName
  cases hk : u.kind with
  | kAdd =>
    simp only [List.mem_append, List.mem_singleton, or_and_right, exists_or, exists_eq_left,
      true_and, reduceCtorEq, false_and, not_false_eq_true, and_true]
    exact or_comm
  | kUpdate =>
    simp only [EnumState.mem_setValue, reduceCtorEq, false_and, not_false_eq_true, and_true,
      false_or]
    constructor
    · rintro ⟨o, ⟨x, hx, hn, rfl⟩ | ⟨ho, -⟩, rfl⟩
      · exact ⟨x, hx, rfl⟩
      · exact ⟨o, ho, rfl⟩
    · rintro ⟨o, ho, rfl⟩
      by_cases hn : o.name = u.ecName
      · exact ⟨_, Or.inl ⟨o, ho, hn, rfl⟩, rfl⟩
      · exact ⟨o, Or.inr ⟨ho, hn⟩, rfl⟩
  | kRemove =>
    simp only [EnumState.mem_removeName, reduceCtorEq, false_and, true_and, false_or]
    constructor
    · rintro ⟨o, ⟨ho, hn⟩, rfl⟩
      exact ⟨⟨o, ho, rfl⟩, fun h => hn h.symm⟩
    · rintro ⟨⟨o, ho, rfl⟩, hn⟩
      exact ⟨o, ⟨ho, fun h => hn h.symm⟩, rfl⟩

theorem hasName_applyAll_of {items : List ECUpdate} (h : hasName (applyAll items rows) n) :
    hasName rows n ∨ n ∈ addedNames items := by
  induction items with
  | nil => exact Or.inl h
  | cons u next ih =>
    rw [addedNames_cons]
    rcases hasName_apply.mp h with ⟨hk, rfl⟩ | ⟨h, -⟩
    · rw [if_pos hk]
      exact Or.inr List.mem_cons_self
    · rcases ih h with h | h
      · exact Or.inl h
      · refine Or.inr ?_
        split
        · exact List.mem_cons_of_mem _ h
        · exact h

/-- A name that no item removes stays. -/
theorem hasName_applyAll {items : List ECUpdate}
    (hkeep : ∀ u ∈ items, u.kind = .kRemove → u.ecName ≠ n)
    (h : hasName rows n ∨ n ∈ addedNames items) : hasName (applyAll items rows) n := by
  induction items with
  | nil => exact h.resolve_right (by simp [addedNames])
  | cons u next ih =>
    rw [addedNames_cons] at h
    have hih := ih (fun x hx => hkeep x (List.mem_cons_of_mem _ hx))
    have hu : ¬ (u.kind = .kRemove ∧ u.ecName = n) :=
      fun hc => hkeep u List.mem_cons_self hc.1 hc.2
    refine hasName_apply.mpr ?_
    split at h
    · rename_i hk
      rw [List.mem_cons] at h
      rcases h with h | rfl | h
      · exact Or.inr ⟨hih (Or.inl h), hu⟩
      · exact Or.inl ⟨hk, rfl⟩
      · exact Or.inr ⟨hih (Or.inr h), hu⟩
    · exact Or.inr ⟨hih h, hu⟩

/-- A name that an item removes and none adds is gone. -/
theorem not_hasName_applyAll {items : List ECUpdate} (hadd : n ∉ addedNames items)
    (hrem : ∃ u ∈ items, u.kind = .kRemove ∧ u.ecName = n) : ¬ hasName (applyAll items rows) n := by
  induction items with
  | nil =>
    obtain ⟨u, hu, -⟩ := hrem
    cases hu
  | cons u next ih =>
    rw [addedNames_cons] at hadd
    intro h
    rcases hasName_apply.mp h with ⟨hk, rfl⟩ | ⟨h, hu⟩
    · rw [if_pos hk] at hadd
      exact hadd List.mem_cons_self
    · have hadd' : n ∉ addedNames next := by
        split at hadd
        · exact fun hc => hadd (List.mem_cons_of_mem _ hc)
        · exact hadd
      obtain ⟨x, hx, hk, hn⟩ := hrem
      rcases List.mem_cons.mp hx with rfl | hx
      · exact hu ⟨hk, hn⟩
      · exact ih hadd' ⟨x, hx, hk, hn⟩ h

/-- **The rows hold what the items say.** -/
theorem holds_iff {items : List ECUpdate} (hrows : (rows.map (·.name)).Nodup)
    (hadm : ∀ u ∈ items, u.Admitted rows) (hadds : (addedNames items).Nodup) :
    ∀ {n v}, (∃ o ∈ applyAll items rows, o.name = n ∧ o.value = v) ↔
      constantsAt rows items n = some v := by
  induction items with
  | nil =>
    intro n v
    rw [constantsAt, Option.map_eq_some_iff]
    simp only [EnumState.findRow_eq_some hrows, applyAll, and_assoc]
  | cons u next ih =>
    intro n v
    rw [addedNames_cons] at hadds
    have hadm' : ∀ x ∈ next, x.Admitted rows := fun x hx => hadm x (List.mem_cons_of_mem _ hx)
    have hadds' : (addedNames next).Nodup := by
      split at hadds
      · exact (List.nodup_cons.mp hadds).2
      · exact hadds
    have hih := @ih hadm' hadds'
    simp only [constantsAt, applyAll, mem_apply]
    by_cases hn : u.ecName = n
    · rw [if_pos hn]
      cases hk : u.kind with
      | kAdd =>
        have hu := hadm u List.mem_cons_self
        rw [Admitted, if_pos hk] at hu
        rw [if_pos hk] at hadds
        have hnew : ∀ o ∈ applyAll next rows, o.name ≠ u.ecName := by
          intro o ho hon
          rcases hasName_applyAll_of ⟨o, ho, hon⟩ with h | h
          · exact hu h
          · exact (List.nodup_cons.mp hadds).1 h
        simp only [true_and, reduceCtorEq, false_and, or_false, Option.some.injEq]
        constructor
        · rintro ⟨o, ho | rfl, hon, rfl⟩
          · exact absurd (hon.trans hn.symm) (hnew o ho)
          · rfl
        · rintro rfl
          exact ⟨_, Or.inr rfl, hn, rfl⟩
      | kUpdate =>
        simp only [true_and, reduceCtorEq, false_and, or_false, false_or, Option.map_eq_some_iff]
        constructor
        · rintro ⟨o, ⟨x, hx, hxn, rfl⟩ | ⟨-, hne⟩, hon, rfl⟩
          · exact ⟨x.value, hih.mp ⟨x, hx, hon, rfl⟩, rfl⟩
          · exact absurd (hon.trans hn.symm) hne
        · rintro ⟨w, hw, rfl⟩
          obtain ⟨x, hx, hxn, -⟩ := hih.mpr hw
          exact ⟨_, Or.inl ⟨x, hx, hxn.trans hn.symm, rfl⟩, hxn, rfl⟩
      | kRemove =>
        simp only [true_and, reduceCtorEq, false_and, false_or, iff_false]
        rintro ⟨o, ⟨-, hne⟩, hon, -⟩
        exact hne (hon.trans hn.symm)
    · rw [if_neg hn, ← hih]
      constructor
      · rintro ⟨o, ⟨-, ho | rfl⟩ | ⟨-, ⟨x, hx, hxn, rfl⟩ | ⟨ho, -⟩⟩ | ⟨-, ho, -⟩, hon, hov⟩
        · exact ⟨o, ho, hon, hov⟩
        · exact absurd hon hn
        · exact absurd (hxn.symm.trans hon) hn
        · exact ⟨o, ho, hon, hov⟩
        · exact ⟨o, ho, hon, hov⟩
      · rintro ⟨o, ho, hon, hov⟩
        have hne : o.name ≠ u.ecName := fun h => hn (h.symm.trans hon)
        refine ⟨o, ?_, hon, hov⟩
        cases u.kind with
        | kAdd => exact Or.inl ⟨rfl, Or.inl ho⟩
        | kUpdate => exact Or.inr (Or.inl ⟨rfl, Or.inr ⟨ho, hne⟩⟩)
        | kRemove => exact Or.inr (Or.inr ⟨rfl, ho, hne⟩)

/-- No name is added that an item removes. -/
theorem not_removed_of_added {items : List ECUpdate} (hadm : ∀ u ∈ items, u.Admitted rows)
    (h : n ∈ addedNames items) : ∀ u ∈ items, u.kind = .kRemove → u.ecName ≠ n := by
  rintro u hu hk rfl
  obtain ⟨x, hx, hxk, hxn⟩ := mem_addedNames.mp h
  have hrem := hadm u hu
  have hadd := hadm x hx
  rw [Admitted, if_neg (by rw [hk]; decide)] at hrem
  rw [Admitted, if_pos hxk, hxn] at hadd
  exact hadd hrem

/-- **When no item clashes**, in terms of the items: no name is added twice, and each value that
an item gives is free when the item is reached. -/
theorem not_clashAll_iff {items : List ECUpdate} (hrows : (rows.map (·.name)).Nodup)
    (hadm : ∀ u ∈ items, u.Admitted rows) :
    ¬ ClashAll items rows ↔ (addedNames items).Nodup ∧ TakeFreeValues rows items := by
  induction items with
  | nil => simp [ClashAll, addedNames, TakeFreeValues]
  | cons u next ih =>
    have hadm' : ∀ x ∈ next, x.Admitted rows := fun x hx => hadm x (List.mem_cons_of_mem _ hx)
    rw [ClashAll, not_or, ih hadm', addedNames_cons, TakeFreeValues]
    have hstep : (addedNames next).Nodup → (¬ u.Clash (applyAll next rows) ↔
        (u.kind = .kAdd → u.ecName ∉ addedNames next) ∧ u.TakesFreeValue rows next) := by
      intro hadds
      have hholds := @holds_iff rows next hrows hadm' hadds
      have hnone : ∀ m, constantsAt rows next m ≠ none ↔ hasName (applyAll next rows) m := by
        intro m
        rw [Option.ne_none_iff_exists']
        constructor
        · rintro ⟨w, hw⟩
          obtain ⟨o, ho, hn, -⟩ := hholds.mpr hw
          exact ⟨o, ho, hn⟩
        · rintro ⟨o, ho, hn⟩
          exact ⟨o.value, hholds.mp ⟨o, ho, hn, rfl⟩⟩
      have hfree : (∀ m, m ≠ u.ecName → constantsAt rows next m ≠ some u.ecInitialization) ↔
          ¬ ∃ o ∈ applyAll next rows, o.name ≠ u.ecName ∧ o.value = u.ecInitialization := by
        constructor
        · rintro h ⟨o, ho, hn, hv⟩
          exact h o.name hn (hholds.mp ⟨o, ho, rfl, hv⟩)
        · intro h m hm hc
          obtain ⟨o, ho, hn, hv⟩ := hholds.mpr hc
          exact h ⟨o, ho, hn ▸ hm, hv⟩
      unfold TakesFreeValue
      rw [hfree, hnone, Clash]
      cases hk : u.kind with
      | kAdd =>
        have hu := hadm u List.mem_cons_self
        rw [Admitted, if_pos hk] at hu
        have hname : hasName (applyAll next rows) u.ecName ↔ u.ecName ∈ addedNames next := by
          constructor
          · intro h
            exact (hasName_applyAll_of h).resolve_left hu
          · intro h
            exact hasName_applyAll (not_removed_of_added hadm' h) (Or.inr h)
        simp only [ne_eq, reduceCtorEq, not_false_eq_true, true_implies, false_implies, not_or]
        rw [hname]
        constructor
        · rintro ⟨hadd, hval⟩
          exact ⟨hadd, fun ⟨o, ho, _, hv⟩ => hval ⟨o, ho, hv⟩⟩
        · rintro ⟨hadd, hval⟩
          refine ⟨hadd, ?_⟩
          rintro ⟨o, ho, hv⟩
          exact hval ⟨o, ho, fun hn => hadd (hname.mp ⟨o, ho, hn⟩), hv⟩
      | kUpdate =>
        simp only [ne_eq, reduceCtorEq, not_false_eq_true, true_implies, false_implies, true_and,
          not_and]
      | kRemove => simp
    constructor
    · rintro ⟨⟨hadds, hfree⟩, hclash⟩
      obtain ⟨hadd, hval⟩ := (hstep hadds).mp hclash
      refine ⟨?_, hfree, hval⟩
      split
      · rename_i hk
        exact List.nodup_cons.mpr ⟨hadd hk, hadds⟩
      · exact hadds
    · rintro ⟨hadds, hfree, hval⟩
      by_cases hk : u.kind = .kAdd
      · rw [if_pos hk] at hadds
        obtain ⟨hadd, hadds⟩ := List.nodup_cons.mp hadds
        exact ⟨⟨hadds, hfree⟩, (hstep hadds).mpr ⟨fun _ => hadd, hval⟩⟩
      · rw [if_neg hk] at hadds
        exact ⟨⟨hadds, hfree⟩, (hstep hadds).mpr ⟨fun h => absurd h hk, hval⟩⟩

/-! ## 6. The default -/

/-- The rows have this default and no other. -/
def DefaultIs (rows : List EnumConstInfo) (n : String) : Prop :=
  hasName rows n ∧ ∀ o ∈ rows, o.isDefault = true ↔ o.name = n

theorem exists_defaultIs (hrows : (rows.map (·.name)).Nodup) :
    (∃! o, o ∈ rows ∧ o.isDefault = true) ↔ ∃ n, DefaultIs rows n := by
  constructor
  · rintro ⟨o, ⟨ho, hd⟩, huniq⟩
    refine ⟨o.name, ⟨o, ho, rfl⟩, fun x hx => ⟨fun hxd => ?_, fun hn => ?_⟩⟩
    · rw [huniq x ⟨hx, hxd⟩]
    · rw [EnumState.eq_of_name hrows hx ho hn]
      exact hd
  · rintro ⟨n, ⟨o, ho, hn⟩, hall⟩
    refine ⟨o, ⟨ho, (hall o ho).mpr hn⟩, ?_⟩
    rintro x ⟨hx, hxd⟩
    exact EnumState.eq_of_name hrows hx ho (((hall x hx).mp hxd).trans hn.symm)

theorem hasDefault_iff {items : List ECUpdate} :
    hasDefault items = true ↔ ∃ u ∈ items, u.isDefault = true := by
  induction items with
  | nil => simp [hasDefault]
  | cons u next ih =>
    rw [hasDefault, Bool.or_eq_true, ih, List.exists_mem_cons_iff]
    exact or_comm

theorem getDefault_eq_none {items : List ECUpdate} :
    getDefault items = none ↔ hasDefault items = false := by
  induction items with
  | nil => simp [getDefault, hasDefault]
  | cons u next ih =>
    rw [getDefault, hasDefault]
    cases hu : u.isDefault with
    | true => simp
    | false => simpa using ih

theorem mem_of_getDefault {items : List ECUpdate} (h : getDefault items = some n) :
    ∃ u ∈ items, u.isDefault = true ∧ u.ecName = n := by
  induction items with
  | nil => cases h
  | cons u next ih =>
    rw [getDefault] at h
    split at h
    · rename_i hu
      cases h
      exact ⟨u, List.mem_cons_self, hu, rfl⟩
    · obtain ⟨x, hx, hd, hn⟩ := ih h
      exact ⟨x, List.mem_cons_of_mem _ hx, hd, hn⟩

/-- Without a new default the old one stays, because no item removes it. -/
theorem DefaultIs.applyAll {items : List ECUpdate} (h : DefaultIs rows n)
    (hadm : ∀ u ∈ items, u.Admitted rows) (hno : ∀ u ∈ items, u.isDefault = false)
    (hkeep : ∀ u ∈ items, u.kind = .kRemove → u.ecName ≠ n) :
    DefaultIs (applyAll items rows) n := by
  refine ⟨hasName_applyAll hkeep (Or.inl h.1), ?_⟩
  induction items with
  | nil => exact h.2
  | cons u next ih =>
    have hih := ih (fun x hx => hadm x (List.mem_cons_of_mem _ hx))
      (fun x hx => hno x (List.mem_cons_of_mem _ hx))
      (fun x hx => hkeep x (List.mem_cons_of_mem _ hx))
    intro o ho
    rw [ECUpdate.applyAll, mem_apply] at ho
    rcases ho with ⟨hk, ho | rfl⟩ | ⟨-, ⟨x, hx, -, rfl⟩ | ⟨ho, -⟩⟩ | ⟨-, ho, -⟩
    · exact hih o ho
    · have hu := hadm u List.mem_cons_self
      rw [Admitted, if_pos hk] at hu
      simp only [hno u List.mem_cons_self, Bool.false_eq_true, false_iff]
      rintro rfl
      exact hu h.1
    · exact hih x hx
    · exact hih o ho
    · exact hih o ho

theorem defaultIs_mark (h : hasName rows n) : DefaultIs (rows.map (EnumState.mark n)) n := by
  obtain ⟨o, ho, hn⟩ := h
  refine ⟨⟨_, List.mem_map_of_mem ho, hn⟩, ?_⟩
  intro x hx
  obtain ⟨y, -, rfl⟩ := List.mem_map.mp hx
  exact beq_iff_eq

/-- The name that is the default after the statement. -/
def newDefault (rows : List EnumConstInfo) (items : List ECUpdate) : Option String :=
  match getDefault items with
  | some n => some n
  | none => (rows.find? (·.isDefault)).map (·.name)

theorem DefaultIs.find (h : DefaultIs rows n) :
    (rows.find? (·.isDefault)).map (·.name) = some n := by
  obtain ⟨o, ho, rfl⟩ := h.1
  cases hf : rows.find? (·.isDefault) with
  | none => exact absurd ((h.2 o ho).mpr rfl) (List.find?_eq_none.mp hf o ho)
  | some x =>
    have hx := (h.2 x (List.mem_of_find?_eq_some hf)).mp (List.find?_some hf)
    rw [Option.map_some, hx]

/-- Whether a name is marked as the default after the items, in the local copy: the last item
that adds or updates it decides. -/
def markedAt (rows : List EnumConstInfo) : List ECUpdate → String → Bool
  | [], n => rows.any fun o => o.name = n && o.isDefault
  | u :: next, n =>
    if u.ecName = n ∧ u.kind ≠ .kRemove then u.isDefault else markedAt rows next n

/-! ## 7. The local copy and the table -/

/-- A constant without its default flag. -/
def binding (o : EnumConstInfo) : String × Int := (o.name, o.value)

theorem binding_localUpdate (u : ECUpdate) {A l : List EnumConstInfo}
    (h : A.map binding = l.map binding) :
    (u.apply A).map binding = (u.localUpdate l).map binding := by
  unfold apply localUpdate
  cases u.kind with
  | kAdd =>
    simp only [List.map_append, h]
  | kUpdate =>
    have hmap : ∀ (x : List EnumConstInfo) (f : EnumConstInfo → EnumConstInfo),
        (∀ o, binding (f o)
          = if (binding o).1 = u.ecName then ((binding o).1, u.ecInitialization) else binding o) →
        (x.map f).map binding = (x.map binding).map fun b =>
          if b.1 = u.ecName then (b.1, u.ecInitialization) else b := by
      intro x f hf
      rw [List.map_map, List.map_map]
      exact List.map_congr_left fun o _ => hf o
    simp only [EnumState.setValue]
    rw [hmap, hmap, h]
    all_goals
      intro o
      by_cases hn : o.name = u.ecName <;> simp only [binding, hn, if_true, if_false]
  | kRemove =>
    have hfilter : ∀ x : List EnumConstInfo, (x.filter fun o => o.name ≠ u.ecName).map binding
        = (x.map binding).filter fun b => b.1 ≠ u.ecName := by
      intro x
      rw [List.filter_map]
      rfl
    simp only [EnumState.removeName]
    rw [hfilter, hfilter, h]

theorem binding_applyAll (items : List ECUpdate) (rows : List EnumConstInfo) :
    (applyAll items rows).map binding = (symbolDoLocalUpdatePrivate items rows).map binding := by
  induction items with
  | nil => rfl
  | cons u next ih => exact binding_localUpdate u ih

theorem names_of_binding {l l' : List EnumConstInfo} (h : (l.map binding).Perm (l'.map binding)) :
    (l.map (·.name)).Perm (l'.map (·.name)) := by
  have hfst := h.map Prod.fst
  rw [List.map_map, List.map_map] at hfst
  exact hfst

/-- The constant of one list that has the binding of a constant of the other. -/
theorem exists_of_binding {l l' : List EnumConstInfo} (h : l.map binding = l'.map binding)
    {x : EnumConstInfo} (hx : x ∈ l') : ∃ o ∈ l, binding o = binding x := by
  rw [← List.mem_map, h]
  exact List.mem_map_of_mem hx

/-- The flags of the local copy are those of the last items. -/
theorem isDefault_local {items : List ECUpdate} (hrows : (rows.map (·.name)).Nodup)
    (hadm : ∀ u ∈ items, u.Admitted rows) (hadds : (addedNames items).Nodup) :
    ∀ o ∈ symbolDoLocalUpdatePrivate items rows, o.isDefault = markedAt rows items o.name := by
  induction items with
  | nil =>
    intro o ho
    rw [markedAt, Bool.eq_iff_iff, List.any_eq_true]
    simp only [Bool.and_eq_true, decide_eq_true_eq]
    constructor
    · exact fun hd => ⟨o, ho, rfl, hd⟩
    · rintro ⟨x, hx, hn, hd⟩
      rw [EnumState.eq_of_name hrows ho hx hn.symm]
      exact hd
  | cons u next ih =>
    rw [addedNames_cons] at hadds
    have hadm' : ∀ x ∈ next, x.Admitted rows := fun x hx => hadm x (List.mem_cons_of_mem _ hx)
    have hadds' : (addedNames next).Nodup := by
      split at hadds
      · exact (List.nodup_cons.mp hadds).2
      · exact hadds
    have hih := ih hadm' hadds'
    intro o ho
    rw [symbolDoLocalUpdatePrivate, localUpdate] at ho
    rw [markedAt]
    cases hk : u.kind with
    | kAdd =>
      simp only [hk, List.mem_append, List.mem_singleton] at ho
      rcases ho with ho | rfl
      · have hne : u.ecName ≠ o.name := by
          intro hn
          have hu := hadm u List.mem_cons_self
          rw [Admitted, if_pos hk] at hu
          rw [if_pos hk] at hadds
          obtain ⟨x, hx, hxo⟩ := exists_of_binding (binding_applyAll next rows) ho
          rcases hasName_applyAll_of ⟨x, hx, (congrArg Prod.fst hxo).trans hn.symm⟩ with h | h
          · exact hu h
          · exact (List.nodup_cons.mp hadds).1 h
        rw [if_neg fun hc => hne hc.1]
        exact hih o ho
      · rw [if_pos ⟨rfl, by decide⟩]
    | kUpdate =>
      simp only [hk, List.mem_map] at ho
      obtain ⟨x, hx, rfl⟩ := ho
      by_cases hn : x.name = u.ecName
      · rw [if_pos hn, if_pos ⟨hn.symm, by decide⟩]
      · rw [if_neg hn, if_neg fun hc => hn hc.1.symm]
        exact hih x hx
    | kRemove =>
      simp only [hk, List.mem_filter] at ho
      rw [if_neg fun hc => hc.2 rfl]
      exact hih o ho.1

/-! ## 8. When the statement keeps its promise -/

/-- **A well-formed enumeration**, as stored: distinct names, distinct values, one default, and a
cache that agrees with the table. -/
structure WellFormed (st : EnumState) : Prop where
  coherent : st.Coherent
  default : ∃! o, o ∈ st.rows ∧ o.isDefault = true

/-- The items get through `weed` and `symbol`. -/
structure Passes (items : List ECUpdate) (st st₁ : EnumState) : Prop where
  weed : weedDefault items = .ok ()
  symbol : symbol items st = some (.ok (), st₁)

/-- No name is added twice, each value is free when an item gives it to a constant, and the new
default is not removed. -/
structure Safe (items : List ECUpdate) (rows : List EnumConstInfo) : Prop where
  addsOnce : (addedNames items).Nodup
  valuesFree : TakeFreeValues rows items
  defaultStays : ∀ n, getDefault items = some n → ∀ u ∈ items, u.kind = .kRemove → u.ecName ≠ n

/-- Of the names that are left, the last item that adds or updates a name marks it as default
exactly when it is the default in the end. -/
def FlagsAgree (items : List ECUpdate) (rows : List EnumConstInfo) : Prop :=
  ∀ n, constantsAt rows items n ≠ none →
    (markedAt rows items n = true ↔ newDefault rows items = some n)

theorem exec_eq_some {items : List ECUpdate} (hrun : exec items st = some st') :
    ∃ st₂, execAddUpdateRemove items st = some st₂ ∧
      (getDefault items = none ∧ st' = st₂ ∨
        ∃ n, getDefault items = some n ∧ st₂.setDefaultEnumConst n = some st') := by
  rw [exec] at hrun
  split at hrun
  · cases hrun
  · rename_i st₂ hadd
    refine ⟨st₂, hadd, ?_⟩
    split at hrun
    · cases hg : getDefault items with
      | none =>
        rw [hg] at hrun
        cases hrun
      | some n =>
        rw [hg] at hrun
        exact Or.inr ⟨n, rfl, hrun⟩
    · rename_i hno
      cases hrun
      exact Or.inl ⟨getDefault_eq_none.mpr (by simpa using hno), rfl⟩

/-- The name of the new default is there in the end. -/
theorem hasName_default {items : List ECUpdate} (hadm : ∀ u ∈ items, u.Admitted rows)
    (hstay : ∀ u ∈ items, u.kind = .kRemove → u.ecName ≠ n) (hg : getDefault items = some n) :
    hasName (applyAll items rows) n := by
  obtain ⟨u, hu, -, rfl⟩ := mem_of_getDefault hg
  refine hasName_applyAll hstay ?_
  have huadm := hadm u hu
  rw [Admitted] at huadm
  by_cases hk : u.kind = .kAdd
  · exact Or.inr (mem_addedNames.mpr ⟨u, hu, hk, rfl⟩)
  · rw [if_neg hk] at huadm
    exact Or.inl huadm

variable {st₁ : EnumState} {items : List ECUpdate}

/-- **Safe items are carried out** as announced. -/
theorem exec_of_safe (hwf : WellFormed st) (hpass : Passes items st st₁)
    (hsafe : Safe items st.rows) :
    ∃ st', exec items st₁ = some st' ∧ st'.Coherent ∧
      st'.rows.map binding = (symbolDoLocalUpdatePrivate items st.rows).map binding ∧
      ∃ n, newDefault st.rows items = some n ∧ DefaultIs st'.rows n := by
  obtain ⟨hrows₁, htr₁, hroom₁, hacc⟩ := symbol_spec hwf.coherent hpass.symbol
  have hchg := execAddUpdateRemove_changes htr₁ items
  have hclash : ¬ ClashAll items st₁.rows := by
    rw [hrows₁]
    exact (not_clashAll_iff hwf.coherent.names hacc.admitted).mpr
      ⟨hsafe.addsOnce, hsafe.valuesFree⟩
  obtain ⟨st₂, hadd, hroom₂⟩ := hchg.fits hroom₁ hclash
  obtain ⟨hrows₂, htr₂, -⟩ := hchg.run st₂ hadd
  rw [hrows₁] at hrows₂
  cases hg : getDefault items with
  | none =>
    have hno := getDefault_eq_none.mp hg
    obtain ⟨d, hd⟩ := (exists_defaultIs hwf.coherent.names).mp hwf.default
    refine ⟨st₂, ?_, htr₂.coherent hroom₂, ?_, d, ?_, ?_⟩
    · rw [exec, hadd]
      simp only [hno, Bool.false_eq_true, if_false]
    · rw [hrows₂, binding_applyAll]
    · rw [newDefault, hg]
      exact hd.find
    · rw [hrows₂]
      refine hd.applyAll hacc.admitted (fun u hu => ?_) (fun u hu hk => ?_)
      · rw [← Bool.not_eq_true]
        intro hud
        rw [hasDefault_iff.mpr ⟨u, hu, hud⟩] at hno
        cases hno
      · rintro rfl
        obtain ⟨o, ho, hn⟩ := hd.1
        exact hacc.default hno u hu ⟨hk, o, ho, hn, (hd.2 o ho).mpr hn⟩
  | some n =>
    have hyes : hasDefault items = true := by
      rw [← Bool.not_eq_false, ← getDefault_eq_none, hg]
      simp
    obtain ⟨st₃, hset, hrows₃, hco₃⟩ := (htr₂.coherent hroom₂).setDefaultEnumConst n
    refine ⟨st₃, ?_, hco₃, ?_, n, ?_, ?_⟩
    · rw [exec, hadd]
      simp only [hyes, if_true, hg]
      exact hset
    · rw [hrows₃, hrows₂, ← binding_applyAll, List.map_map]
      rfl
    · rw [newDefault, hg]
    · rw [hrows₃, hrows₂]
      exact defaultIs_mark (hasName_default hacc.admitted (hsafe.defaultStays n hg) hg)

/-- **A run that ends well-formed had safe items.** -/
theorem safe_of_exec (hwf : WellFormed st) (hpass : Passes items st st₁)
    (hrun : exec items st₁ = some st') (hwf' : WellFormed st') : Safe items st.rows := by
  obtain ⟨hrows₁, htr₁, -, hacc⟩ := symbol_spec hwf.coherent hpass.symbol
  obtain ⟨st₂, hadd, hdef⟩ := exec_eq_some hrun
  obtain ⟨hrows₂, htr₂, hcrowd⟩ := (execAddUpdateRemove_changes htr₁ items).run st₂ hadd
  rw [hrows₁] at hrows₂ hcrowd
  have hroom' : ¬ st'.Crowded := by
    refine hwf'.coherent.not_crowded fun o ho => ?_
    rcases hdef with ⟨-, rfl⟩ | ⟨n, -, hset⟩
    · exact htr₂.cached o ho
    · obtain ⟨hrows, -, hseci⟩ := EnumState.setDefaultEnumConst_eq hset
      rw [hrows] at ho
      obtain ⟨x, hx, rfl⟩ := List.mem_map.mp ho
      rw [hseci]
      exact htr₂.cached x hx
  have hroom₂ : ¬ st₂.Crowded := by
    rcases hdef with ⟨-, rfl⟩ | ⟨n, -, hset⟩
    · exact hroom'
    · exact fun hc => hroom' (hc.setDefaultEnumConst hset)
  obtain ⟨hadds, hfree⟩ := (not_clashAll_iff hwf.coherent.names hacc.admitted).mp
    fun hc => hroom₂ (hcrowd (Or.inr hc))
  refine ⟨hadds, hfree, ?_⟩
  rintro n hg u hu hk rfl
  rcases hdef with ⟨hnone, -⟩ | ⟨m, hm, hset⟩
  · rw [hg] at hnone
    cases hnone
  · rw [hg, Option.some.injEq] at hm
    subst hm
    obtain ⟨hrows, -, -⟩ := EnumState.setDefaultEnumConst_eq hset
    obtain ⟨o, ⟨ho, hod⟩, -⟩ := hwf'.default
    rw [hrows] at ho
    obtain ⟨x, hx, rfl⟩ := List.mem_map.mp ho
    have hxn : x.name = u.ecName := beq_iff_eq.mp hod
    rw [hrows₂] at hx
    refine not_hasName_applyAll (fun hadd => ?_) ⟨u, hu, hk, rfl⟩ ⟨x, hx, hxn⟩
    exact not_removed_of_added hacc.admitted hadd u hu hk rfl

/-- One constant, the default. -/
def sampleEnum : EnumState := ⟨[⟨"a", 1, true⟩], .empty⟩

theorem wellFormed_sampleEnum : WellFormed sampleEnum where
  coherent := EnumState.coherent_empty (by decide) (by decide)
  default := ⟨⟨"a", 1, true⟩, ⟨List.mem_singleton_self _, rfl⟩,
    fun _ h => List.mem_singleton.mp h.1⟩

end ECUpdate

end Emdros
