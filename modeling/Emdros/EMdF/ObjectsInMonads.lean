/-
# The objects within a set of monads (`emdfdb.cpp`)

`getObjectsWithinMonads` and `dropObjectsInMonads` are for the objects that are wholly contained in
a set of monads.  The condition of both queries is made by `makeMonadConstraintsFromSOM`.  It
compares the first and the last monad of an object with one stretch of the set at a time, so that an
object that is spread over several stretches is neither found nor deleted.

`Allowed` is what the monads of an object can be for the range type of its object type; for these
the condition says that one stretch of the set has all of them (`Allowed.constraint_iff`), which is
to be contained and not `Spread` (`Allowed.exists_subset_iff`).

`withinMonads_iff` is about the two operations as a whole.  They give the ids, delete the rows and
leave the other types alone as they should exactly if no object of the type is spread: there is no
other difference.  An object at the monads 1 and 3 shows that there is this one.
-/
import Mathlib
import Emdros.EMdF.ObjectChanges
import Emdros.Monads.Queries

namespace Emdros

open SpanList Effect

/-! ## 1. Objects and their monads -/

/-- An object, with all its monads. -/
structure MonadObject where
  objectIdD : Int
  monads : SetOfMonads
  values : List (Name × SqlValue)

namespace MonadObject

/-- The row of an object. -/
def row (objectRangeType : ObjectRangeType) (x : MonadObject) : ObjectRow :=
  newRow x.objectIdD x.monads objectRangeType x.values

/-- The monads that objects of a type have. -/
structure Allowed (objectRangeType : ObjectRangeType) (x : MonadObject) : Prop where
  repInv : x.monads.RepInv
  nonempty : x.monads.monadMs ≠ []
  oneRange : objectRangeType ≠ .multipleRange → x.monads.monadMs.length = 1
  oneMonad : objectRangeType = .singleMonad → x.monads.first = x.monads.last

/-- Wholly contained in a set of monads. -/
def Within (monads : SetOfMonads) (x : MonadObject) : Prop := x.monads.mem ⊆ monads.mem

/-- Wholly contained, but with monads in two stretches of the set. -/
def Spread (monads : SetOfMonads) (x : MonadObject) : Prop :=
  x.Within monads ∧ ∃ a ∈ monads.monadMs, ∃ b ∈ monads.monadMs, a ≠ b ∧
    (∃ m ∈ x.monads.mem, m ∈ points a) ∧ ∃ m ∈ x.monads.mem, m ∈ points b

open Classical in
/-- The objects that are contained. -/
noncomputable def within (monads : SetOfMonads) (xs : List MonadObject) : List MonadObject :=
  xs.filter fun x => decide (x.Within monads)

open Classical in
/-- The objects that are not contained. -/
noncomputable def without (monads : SetOfMonads) (xs : List MonadObject) : List MonadObject :=
  xs.filter fun x => !decide (x.Within monads)

end MonadObject

/-- What the two operations are for, where a type has the objects `xs`: to give the ids of those
that are contained, each of them once, and to delete these objects and no other. -/
structure WithinMonads (db : EMdFDB) (monads : SetOfMonads) (name : Name)
    (objectRangeType : ObjectRangeType) (xs : List MonadObject) : Prop where
  gets : (getObjectsWithinMonads monads name objectRangeType db).1 =
    .ok ((MonadObject.within monads xs).map MonadObject.objectIdD)
  drops : (dropObjectsInMonads monads name objectRangeType db).1 =
    .ok ((MonadObject.within monads xs).map MonadObject.objectIdD)
  remaining : (dropObjectsInMonads monads name objectRangeType db).2.tables.objectRows
      (objectsTableName (normalizeOTName name)) =
    some ((MonadObject.without monads xs).map (MonadObject.row objectRangeType))
  others : ∀ n, n ≠ normalizeOTName name →
    (dropObjectsInMonads monads name objectRangeType db).2.tables.objectRows (objectsTableName n) =
      db.tables.objectRows (objectsTableName n)
  nothing : monads.isEmpty = true →
    dropObjectsInMonads monads name objectRangeType db = (.ok [], db)

/-! ## 2. The condition of the queries -/

namespace MonadObject

variable {monads : SetOfMonads} {t : ObjectRangeType} {x : MonadObject}

/-- A stretch has all monads of an object exactly if it has the first and the last. -/
theorem Allowed.subset_points_iff (h : x.Allowed t) (mse : MonadSetElement) :
    x.monads.mem ⊆ points mse ↔ mse.firstM ≤ x.monads.first ∧ x.monads.last ≤ mse.lastM := by
  have hfirst := h.repInv.isLeast_first h.nonempty
  have hlast := h.repInv.isGreatest_last h.nonempty
  constructor
  · exact fun hsub => ⟨(hsub hfirst.1).1, (hsub hlast.1).2⟩
  · exact fun hbounds m hm => ⟨hbounds.1.trans (hfirst.2 hm), (hlast.2 hm).trans hbounds.2⟩

/-- **The condition** is that one stretch has all monads of the object, for each range type. -/
theorem Allowed.constraint_iff (h : x.Allowed t) :
    makeMonadConstraintsFromSOM monads t (x.row t) = true ↔
      ∃ mse ∈ monads.monadMs, x.monads.mem ⊆ points mse := by
  have hle := h.repInv.first_le_last h.nonempty
  rw [makeMonadConstraintsFromSOM, List.any_eq_true]
  refine exists_congr fun mse => and_congr_right fun _ => ?_
  rw [h.subset_points_iff]
  cases t with
  | singleMonad =>
    have hone := h.oneMonad rfl
    simp only [row, newRow, decide_eq_true_eq]
    rw [hone]
  | singleRange => simp [row, newRow]
  | multipleRange =>
    simp only [row, newRow, decide_eq_true_eq, reduceCtorEq, if_false]
    constructor
    · exact fun hmse => ⟨hmse.1, hmse.2.2⟩
    · exact fun hmse => ⟨hmse.1, hle.trans hmse.2, hmse.2⟩

/-- Of two stretches of a set one comes before the other, with a gap between them. -/
theorem sep_cases {l : List MonadSetElement} (hsep : Sep l) {a b : MonadSetElement} (ha : a ∈ l)
    (hb : b ∈ l) : a = b ∨ a.lastM + 1 < b.firstM ∨ b.lastM + 1 < a.firstM := by
  obtain ⟨i, hi, rfl⟩ := List.mem_iff_getElem.mp ha
  obtain ⟨j, hj, rfl⟩ := List.mem_iff_getElem.mp hb
  have hlt := List.pairwise_iff_getElem.mp hsep
  rcases Nat.lt_trichotomy i j with hij | rfl | hij
  · exact .inr (.inl (hlt i j hi hj hij))
  · exact .inl rfl
  · exact .inr (.inr (hlt j i hj hi hij))

theorem sep_unique {l : List MonadSetElement} (hsep : Sep l) {a b : MonadSetElement} {m : Int}
    (ha : a ∈ l) (hb : b ∈ l) (hma : m ∈ points a) (hmb : m ∈ points b) : a = b := by
  refine (sep_cases hsep ha hb).resolve_right fun hlt => ?_
  simp only [mem_points, MonadSetElement.spanned_lo, MonadSetElement.spanned_hi] at hma hmb
  omega

/-- One stretch has all monads exactly if the object is contained and not spread. -/
theorem Allowed.exists_subset_iff (h : x.Allowed t) (hsep : Sep monads.monadMs) :
    (∃ mse ∈ monads.monadMs, x.monads.mem ⊆ points mse) ↔
      x.Within monads ∧ ¬ x.Spread monads := by
  constructor
  · rintro ⟨mse, hmse, hsub⟩
    refine ⟨fun m hm => ⟨mse, hmse, hsub hm⟩, ?_⟩
    rintro ⟨-, a, ha, b, hb, hne, ⟨m, hm, hma⟩, n, hn, hnb⟩
    rw [sep_unique hsep ha hmse hma (hsub hm), sep_unique hsep hb hmse hnb (hsub hn)] at hne
    exact hne rfl
  · rintro ⟨hwithin, hspread⟩
    have hfirst := (h.repInv.isLeast_first h.nonempty).1
    obtain ⟨a, ha, hma⟩ := hwithin hfirst
    refine ⟨a, ha, fun m hm => ?_⟩
    obtain ⟨b, hb, hmb⟩ := hwithin hm
    by_cases hab : a = b
    · rw [hab]
      exact hmb
    · exact absurd ⟨hwithin, a, ha, b, hb, hab, ⟨_, hfirst, hma⟩, m, hm, hmb⟩ hspread

end MonadObject

/-! ## 3. The operations -/

section Operations

variable {v : ObjectView} {name otn : Name} {rows : List ObjectRow}

/-- `getObjectsWithinMonads` gives the ids of the rows for which the condition holds. -/
theorem gets_getObjectsWithinMonads (hn : normalizeOTName name = otn)
    (hrows : v.current.objectRows otn = some rows) (monads : SetOfMonads) (t : ObjectRangeType) :
    SeesObjects v (getObjectsWithinMonads monads name t)
      (fun result w => result =
        (rows.filter (makeMonadConstraintsFromSOM monads t)).map ObjectRow.objectIdD ∧ w = v)
      fun _ _ => False := by
  unfold getObjectsWithinMonads
  rw [hn]
  by_cases hempty : monads.isEmpty = true
  · rw [if_pos hempty]
    have hnone : makeMonadConstraintsFromSOM monads t = fun _ => false := by
      funext o
      rw [makeMonadConstraintsFromSOM, SetOfMonads.isEmpty_iff.mp hempty]
      rfl
    refine shows_pure ⟨?_, rfl⟩
    simp [hnone]
  · rw [if_neg hempty]
    refine (sees_selectRows (fun s : Stored => (s.objectRows otn).map fun rows =>
      (rows.filter (makeMonadConstraintsFromSOM monads t)).map ObjectRow.objectIdD)
      fun _ => rfl).mono (fun result w hw => ?_) fun _ w hw => ?_
    · rw [hrows, Option.map_some, Option.some.injEq] at hw
      exact ⟨hw.1.symm, hw.2⟩
    · have hnone := hw.2.1
      rw [hrows] at hnone
      cases hnone

/-- The rows of all tables, where those of one type have been filtered. -/
def RowsFiltered (v : ObjectView) (otn : Name) (rows : List ObjectRow) (which : ObjectRow → Bool)
    (w : ObjectView) : Prop :=
  ∀ n, w.current.objectRows n =
    if n = otn then some (rows.filter fun o => !which o) else v.current.objectRows n

theorem rowsFiltered_of_none (hrows : v.current.objectRows otn = some rows) {which : ObjectRow → Bool}
    (hnone : rows.filter which = []) : RowsFiltered v otn rows which v := by
  intro n
  by_cases hn : n = otn
  · rw [if_pos hn, hn, hrows, Option.some.injEq, eq_comm, List.filter_eq_self]
    intro o ho
    have := List.filter_eq_nil_iff.mp hnone o ho
    simpa using this
  · rw [if_neg hn]

/-- `dropObjectsInMonads` deletes these rows. -/
theorem drops_dropObjectsInMonads (h : v.Sound) {r row : ObjectTypeRow}
    (hr : r ∈ v.current.objectTypes) (hc : v.caches r.objectTypeName = some row)
    (hn : normalizeOTName name = r.objectTypeName)
    (hrows : v.current.objectRows r.objectTypeName = some rows) (monads : SetOfMonads) :
    SeesObjects v (dropObjectsInMonads monads name r.objectRangeType)
      (fun result w => result =
        (rows.filter (makeMonadConstraintsFromSOM monads r.objectRangeType)).map
          ObjectRow.objectIdD ∧
        RowsFiltered v r.objectTypeName rows
          (makeMonadConstraintsFromSOM monads r.objectRangeType) w)
      fun _ _ => False := by
  unfold dropObjectsInMonads
  rw [hn]
  by_cases he : monads.isEmpty = true
  · rw [if_pos he]
    have hnone : rows.filter (makeMonadConstraintsFromSOM monads r.objectRangeType) = [] := by
      rw [List.filter_eq_nil_iff]
      intro o _
      rw [makeMonadConstraintsFromSOM, SetOfMonads.isEmpty_iff.mp he]
      simp
    refine shows_pure ⟨?_, rowsFiltered_of_none hrows hnone⟩
    rw [hnone]
    rfl
  · rw [if_neg he]
    refine Shows.bind (sees_objectTypeHasObjects hn hrows) fun b w hw => ?_
    obtain ⟨rfl, rfl⟩ := hw
    by_cases hb : (!rows.isEmpty) = true
    · rw [if_pos hb]
      refine Shows.bind (gets_getObjectsWithinMonads hn hrows monads r.objectRangeType)
        fun result w' hw' => ?_
      obtain ⟨hresult, rfl⟩ := hw'
      by_cases hres : result.isEmpty = true
      · rw [if_pos hres]
        rw [List.isEmpty_iff] at hres
        rw [hres] at hresult
        refine shows_pure ⟨hresult, rowsFiltered_of_none hrows ?_⟩
        exact List.map_eq_nil_iff.mp hresult.symm
      · rw [if_neg hres]
        refine Shows.bind (sees_transaction (Shows.mono (E := fun _ _ => False)
          (Q := fun _ u => u.saved = w'.begun.saved ∧ RowsFiltered w' r.objectTypeName rows
            (makeMonadConstraintsFromSOM monads r.objectRangeType) (w'.committed u)) ?_
            (fun _ _ h => h) fun _ _ h => h.elim)) fun _ u hu => shows_pure ⟨hresult, hu⟩
        refine Shows.bind (sees_deleteObjects (v := w'.begun) hrows _) fun _ u hu => ?_
        subst hu
        have hsound := h.begun.filterRows r.objectTypeName fun o =>
          !makeMonadConstraintsFromSOM monads r.objectRangeType o
        refine Shows.bind (sees_setMinMaxMFromObjectTypes hsound) fun _ u hu => ?_
        obtain ⟨hext, -, -⟩ := hu
        have hru : r ∈ u.current.objectTypes := by
          rw [hext.objectTypes]
          exact hr
        refine Shows.bind (sees_getLargestObjectLengthFromOTObjects (hsound.extends hext) hru)
          fun length u' hu' => ?_
        obtain ⟨-, rfl⟩ := hu'
        refine (sees_setLargestObjectLengthIfNecessary (h.current.normalized r hr)
          (hext.cached hc) hext.saved length _ true).mono (fun _ w hw => ?_) fun _ _ hw => hw
        rw [if_pos (.inl rfl)] at hw
        subst hw
        refine ⟨hext.saved, fun n => ?_⟩
        change u'.current.objectRows n = _
        rw [hext.objectRows]
        change (w'.current.setRows r.objectTypeName fun rows => rows.filter fun o =>
          !makeMonadConstraintsFromSOM monads r.objectRangeType o).objectRows n = _
        rw [Stored.objectRows_setRows]
        by_cases hname : n = r.objectTypeName
        · rw [if_pos hname, if_pos hname, hname, hrows]
          rfl
        · rw [if_neg hname, if_neg hname]
    · rw [if_neg hb]
      have hnil : rows = [] := by simpa using hb
      refine shows_pure ⟨?_, rowsFiltered_of_none hrows ?_⟩
      · rw [hnil]
        rfl
      · rw [hnil]
        rfl

end Operations

/-! ## 4. What they are for -/

/-- A filter that keeps fewer of the elements keeps as many only where it keeps the same. -/
theorem all_of_length_filter {α : Type} {p q : α → Bool} : ∀ {l : List α},
    (∀ a ∈ l, p a = true → q a = true) → (l.filter q).length = (l.filter p).length →
      ∀ a ∈ l, q a = true → p a = true := by
  intro l
  induction l with
  | nil => exact fun _ _ a ha => by cases ha
  | cons b l ih =>
    intro hpq hlen a ha hqa
    have hpq' : ∀ a ∈ l, p a = true → q a = true := fun a ha => hpq a (List.mem_cons_of_mem _ ha)
    have hle : (l.filter p).length ≤ (l.filter q).length := by
      rw [← List.countP_eq_length_filter, ← List.countP_eq_length_filter]
      exact List.countP_mono_left hpq'
    cases hpb : p b with
    | true =>
      have hqb := hpq b List.mem_cons_self hpb
      rw [List.filter_cons_of_pos hpb, List.filter_cons_of_pos hqb, List.length_cons,
        List.length_cons, Nat.succ_inj] at hlen
      rcases List.mem_cons.mp ha with rfl | ha
      · exact hpb
      · exact ih hpq' hlen a ha hqa
    | false =>
      have hpb' : ¬ p b = true := by simp [hpb]
      cases hqb : q b with
      | true =>
        rw [List.filter_cons_of_pos hqb, List.filter_cons_of_neg hpb', List.length_cons] at hlen
        omega
      | false =>
        have hqb' : ¬ q b = true := by simp [hqb]
        rw [List.filter_cons_of_neg hqb', List.filter_cons_of_neg hpb'] at hlen
        rcases List.mem_cons.mp ha with rfl | ha
        · exact absurd hqa hqb'
        · exact ih hpq' hlen a ha hqa

open MonadObject in
/-- **`getObjectsWithinMonads` and `dropObjectsInMonads`** do what they are for exactly if no
object of the type is spread over several stretches of the set. -/
theorem withinMonads_iff {db : EMdFDB} (hdb : Working db) (h : (objectView db).Sound)
    {r cached : ObjectTypeRow} (hr : r ∈ db.tables.objectTypes)
    (hc : (objectView db).caches r.objectTypeName = some cached) {name : Name}
    (hn : normalizeOTName name = r.objectTypeName) {xs : List MonadObject}
    (hxs : ∀ x ∈ xs, x.Allowed r.objectRangeType)
    (hrows : db.tables.objectRows (objectsTableName r.objectTypeName) =
      some (xs.map (MonadObject.row r.objectRangeType)))
    {monads : SetOfMonads} (hmonads : monads.RepInv) :
    WithinMonads db monads name r.objectRangeType xs ↔ ∀ x ∈ xs, ¬ x.Spread monads := by
  classical
  have hcondition : ∀ x ∈ xs, makeMonadConstraintsFromSOM monads r.objectRangeType
      (x.row r.objectRangeType) = true ↔ x.Within monads ∧ ¬ x.Spread monads := fun x hx =>
    (hxs x hx).constraint_iff.trans ((hxs x hx).exists_subset_iff hmonads.sep)
  obtain ⟨got, dbGot, hget, -, hgot, -⟩ := (gets_getObjectsWithinMonads (v := objectView db) hn
    hrows monads r.objectRangeType).exists_ok hdb rfl
  obtain ⟨dropped, dbDropped, hdrop, -, hdropped, hfiltered⟩ :=
    (drops_dropObjectsInMonads h hr hc hn hrows monads).exists_ok hdb rfl
  rw [List.filter_map, List.map_map] at hgot hdropped
  constructor
  · intro hwithin x hx hspread
    have hgets := hwithin.gets
    rw [hget, Except.ok.injEq, hgot] at hgets
    have hlen := congrArg List.length hgets
    rw [List.length_map, List.length_map, MonadObject.within] at hlen
    have hfound := all_of_length_filter (fun y hy hcond =>
      decide_eq_true ((hcondition y hy).mp hcond).1) hlen.symm x hx (decide_eq_true hspread.1)
    exact ((hcondition x hx).mp hfound).2 hspread
  · intro hspread
    have hsame : ∀ x ∈ xs, (makeMonadConstraintsFromSOM monads r.objectRangeType ∘
        MonadObject.row r.objectRangeType) x = decide (x.Within monads) := by
      intro x hx
      rw [Function.comp_apply, Bool.eq_iff_iff, hcondition x hx, decide_eq_true_eq]
      exact and_iff_left (hspread x hx)
    have hids : (xs.filter (makeMonadConstraintsFromSOM monads r.objectRangeType ∘
        MonadObject.row r.objectRangeType)).map (ObjectRow.objectIdD ∘
          MonadObject.row r.objectRangeType) =
        (MonadObject.within monads xs).map MonadObject.objectIdD := by
      rw [MonadObject.within, List.filter_congr hsame]
      rfl
    rw [hids] at hgot hdropped
    refine ⟨by rw [hget, hgot], by rw [hdrop, hdropped], ?_, fun n hne => ?_, fun hempty => ?_⟩
    · rw [hdrop, hn]
      refine (hfiltered r.objectTypeName).trans ?_
      rw [if_pos rfl, List.filter_map, MonadObject.without]
      refine congrArg some (congrArg _ (List.filter_congr fun x hx => ?_))
      exact congrArg (!·) (hsame x hx)
    · rw [hdrop]
      rw [hn] at hne
      refine (hfiltered n).trans ?_
      rw [if_neg hne]
      rfl
    · rw [dropObjectsInMonads, if_pos hempty]
      rfl

/-! ## 5. A type with one object -/

/-- The object type `thing`. -/
def thing : ObjectTypeRow :=
  ⟨65536, "thing".toList, .multipleRange, .nonUniqueMonads, 3⟩

/-- A database with these things. -/
def things (xs : List MonadObject) : EMdFDB where
  tables :=
    { Tables.initial with
      objectTypes := [thing]
      objects := fun n =>
        if n = objectsTableName thing.objectTypeName then
          some ⟨.nonUniqueMonads, xs.map (MonadObject.row .multipleRange)⟩
        else none }
  saved := none
  transactionInProgress := false
  outcomes := []
  beginFails := false
  commitFails := false
  rollbackFails := false
  objectTypeCacheMap := [thing]
  featureCache := []
  enumCache := []
  enumConstCache := .empty
  stringSetsCache := fun _ _ => none

theorem working_things (xs : List MonadObject) : Working (things xs) := ⟨rfl, rfl, rfl, rfl, rfl⟩

theorem sound_things (xs : List MonadObject) : (objectView (things xs)).Sound := by
  refine ⟨⟨?_, List.nodup_singleton _, List.nodup_singleton _, fun n => ?_, ?_⟩, ?_⟩
  · intro r hr
    rw [List.mem_singleton.mp hr]
    decide
  · change (((if objectsTableName n = objectsTableName thing.objectTypeName then
      some (ObjectTable.mk .nonUniqueMonads (xs.map (MonadObject.row .multipleRange)))
      else none).map ObjectTable.rows).isSome ↔ ∃ r ∈ [thing], r.objectTypeName = n)
    simp only [objectsTableName_inj]
    by_cases hn : n = thing.objectTypeName
    · simp [hn]
    · simp [hn, Ne.symm hn]
  · intro r hr hsingle
    rw [List.mem_singleton.mp hr] at hsingle
    cases hsingle
  · intro r hr row hrow
    rw [List.mem_singleton.mp hr] at hrow ⊢
    cases hrow
    exact ⟨rfl, rfl⟩

theorem objectRows_things (xs : List MonadObject) :
    (things xs).tables.objectRows (objectsTableName thing.objectTypeName) =
      some (xs.map (MonadObject.row .multipleRange)) := by
  change (if objectsTableName thing.objectTypeName = objectsTableName thing.objectTypeName then
      some (ObjectTable.mk .nonUniqueMonads (xs.map (MonadObject.row .multipleRange)))
      else none).map ObjectTable.rows = _
  rw [if_pos rfl]
  rfl

/-- The monads 1 and 3. -/
def oneAndThree : SetOfMonads := .setBounds [.single 1, .single 3]

theorem repInv_oneAndThree : oneAndThree.RepInv := by
  refine SetOfMonads.repInv_setBounds ?_ ?_
  · simp [SpanList.Sep]
  · simp [SetOfMonads.InRange, maxMonad]

/-- The monad 3. -/
def three : SetOfMonads := .setBounds [.single 3]

theorem repInv_three : three.RepInv := by
  refine SetOfMonads.repInv_setBounds (sep_singleton _) ?_
  simp [SetOfMonads.InRange, maxMonad]

/-- An object at the monad 3 is found and deleted. -/
theorem withinMonads_iff_three :
    WithinMonads (things [⟨7, three, []⟩]) oneAndThree "thing".toList .multipleRange
      [⟨7, three, []⟩] := by
  have hallowed : MonadObject.Allowed .multipleRange ⟨7, three, []⟩ :=
    ⟨repInv_three, List.cons_ne_nil _ _, fun h => absurd rfl h, fun h => by cases h⟩
  refine (withinMonads_iff (r := thing) (working_things _) (sound_things _)
    (List.mem_singleton_self _) rfl (by decide) ?_ (objectRows_things _)
    repInv_oneAndThree).mpr ?_
  · intro x hx
    rw [List.mem_singleton.mp hx]
    exact hallowed
  · rintro x hx ⟨-, a, ha, b, hb, hne, ⟨m, hm, hma⟩, n, hn, hnb⟩
    rw [List.mem_singleton.mp hx] at hm hn
    have hthree : ∀ k ∈ three.mem, k = 3 := by
      intro k hk
      simp only [three, SetOfMonads.setBounds, SetOfMonads.mem, mem_cover] at hk
      simp at hk
      omega
    rw [hthree m hm] at hma
    rw [hthree n hn] at hnb
    exact hne (MonadObject.sep_unique repInv_oneAndThree.sep ha hb hma hnb)

/-- **An object at the monads 1 and 3** is contained in the monads 1 and 3, and is not found. -/
theorem oneAndThree_not_withinMonads :
    Working (things [⟨7, oneAndThree, []⟩]) ∧
      (objectView (things [⟨7, oneAndThree, []⟩])).Sound ∧
      MonadObject.Allowed .multipleRange ⟨7, oneAndThree, []⟩ ∧
      ¬ WithinMonads (things [⟨7, oneAndThree, []⟩]) oneAndThree "thing".toList .multipleRange
        [⟨7, oneAndThree, []⟩] := by
  refine ⟨working_things _, sound_things _,
    ⟨repInv_oneAndThree, List.cons_ne_nil _ _, fun h => absurd rfl h, fun h => by cases h⟩, ?_⟩
  intro hwithin
  have hgets := hwithin.gets
  have hnone : (getObjectsWithinMonads oneAndThree "thing".toList .multipleRange
      (things [⟨7, oneAndThree, []⟩])).1 = .ok [] := by rfl
  have hone : MonadObject.within oneAndThree [⟨7, oneAndThree, []⟩] = [⟨7, oneAndThree, []⟩] := by
    simp [MonadObject.within, MonadObject.Within]
  rw [hnone, hone] at hgets
  cases hgets

end Emdros
