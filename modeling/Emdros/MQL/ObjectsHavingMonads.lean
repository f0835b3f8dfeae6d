/-
# The objects that have monads in a set (`emdfdb.cpp`)

`getObjectsHavingMonadsIn` finds the objects that share a monad with a set.  The short gaps of the
set are filled, and for each range of the result there is a query, which goes back by the length of
the largest object of the type.  What the queries answer is filtered again, and an object that the
inst has already is left out.

The columns `monads` and those of a feature that is a set of monads are given beside a row.  The
values of features and the tables that are joined for them are left out.
-/
import Emdros.EMdF.SkipListSearch
import Emdros.Monads.CompactString
import Emdros.Monads.FastQueries
import Emdros.Monads.FillGaps
import Emdros.MQL.DataBounds

namespace Emdros

open SpanList

/-! ## 1. Insts -/

/-- What an `InstObject` has in its union: the last monad, or the set of its monads. -/
inductive InstObjectMonads where
  | lastMonad (first last : Int)
  | som (monads : SetOfMonads)
  deriving DecidableEq

namespace InstObjectMonads

def first : InstObjectMonads → Int
  | lastMonad first _ => first
  | som monads => monads.first

def last : InstObjectMonads → Int
  | lastMonad _ last => last
  | som monads => monads.last

/-- `InstObject::getMonads`, into an empty set. -/
def getMonads : InstObjectMonads → Option SetOfMonads
  | lastMonad first last => SetOfMonads.empty.add first last
  | som monads => some monads

end InstObjectMonads

/-- `class Inst`: the skip list, what its objects have beside their ids and first monads, in the
order in which they were added, the bounds, and whether filling is done. -/
structure FilledInst where
  contents : SkipList
  objects : List (Int × InstObjectMonads)
  minMonad : Int
  maxMonad : Int
  isFrozen : Bool

namespace FilledInst

def new : FilledInst := ⟨.new, [], Emdros.maxMonad, 0, false⟩

/-- `InstContents::addObject`; nothing is added after filling is done. -/
def addObject (randomLevel : Nat → Nat) (inst : FilledInst) (idD : Int)
    (monads : InstObjectMonads) : Option FilledInst :=
  if inst.isFrozen then none
  else
    (inst.contents.insert monads.first ⟨idD, monads.first⟩ (randomLevel inst.objects.length)).map
      fun contents =>
        { contents
          objects := inst.objects ++ [(idD, monads)]
          minMonad := if inst.minMonad > monads.first then monads.first else inst.minMonad
          maxMonad := if inst.maxMonad < monads.last then monads.last else inst.maxMonad
          isFrozen := false }

def fillingIsDone (inst : FilledInst) : FilledInst := { inst with isFrozen := true }

end FilledInst

/-! ## 2. `getObjectsHavingMonadsIn` -/

/-- The columns of a monad set: the compact string, and where the set is a feature its first
monad. -/
structure MonadSetColumns where
  monads : ObjectRow → List Char
  firstMonad : ObjectRow → Int

section Retrieval

variable (randomLevel : Nat → Nat) (columns : MonadSetColumns) (bMonadSetIsFeature : Bool)
  (objectRangeType : ObjectRangeType)

/-- The monads of an object, if it has monads in the set; `none` is an exception. -/
def monadsIfOverlap (originalSom : FastSetOfMonads) (o : ObjectRow) :
    Option (Option InstObjectMonads) :=
  if bMonadSetIsFeature = true ∨ objectRangeType = .multipleRange then do
    let som ← SetOfMonads.empty.fromCompactString (columns.monads o)
    if ← FastSetOfMonads.overlap som originalSom then
      if som.hasOnlyOneMSE then some (some (.lastMonad som.first som.last))
      else some (some (.som som))
    else some none
  else if objectRangeType = .singleMonad then do
    if ← originalSom.isMemberOf o.firstMonad then
      some (some (.lastMonad o.firstMonad o.firstMonad))
    else some none
  else do
    if ← originalSom.hasMonadsInRange o.firstMonad o.lastMonad then
      some (some (.lastMonad o.firstMonad o.lastMonad))
    else some none

/-- One round of the loop of `getObjectsHavingMonadsInExec`. -/
def addIfOverlap (originalSom : FastSetOfMonads) (inst : FilledInst) (o : ObjectRow) :
    Option FilledInst := do
  match ← monadsIfOverlap columns bMonadSetIsFeature objectRangeType originalSom o with
  | none => some inst
  | some monads =>
    if ← inst.contents.hasObject monads.first o.objectIdD then some inst
    else inst.addObject randomLevel o.objectIdD monads

/-- The loop. -/
def addEachIfOverlap (originalSom : FastSetOfMonads) :
    List ObjectRow → FilledInst → Option FilledInst
  | [], inst => some inst
  | o :: os, inst =>
    (addIfOverlap randomLevel columns bMonadSetIsFeature objectRangeType originalSom inst o).bind
      (addEachIfOverlap originalSom os)

/-- `getObjectsHavingMonadsInExec`; `whereClause` is the condition of the query. -/
def getObjectsHavingMonadsInExec (otn : Name) (whereClause : ObjectRow → Bool)
    (originalSom : FastSetOfMonads) (inst : FilledInst) : DB FilledInst := do
  let accessed := if bMonadSetIsFeature = false ∧ objectRangeType = .singleRange then 3 else 2
  let rows ← selectRows accessed fun t =>
    (t.objectRows (objectsTableName otn)).map fun rows => rows.filter whereClause
  orStop (addEachIfOverlap randomLevel columns bMonadSetIsFeature objectRangeType originalSom rows
    inst)

/-- The monad constraint of one range. -/
def monadConstraint (mse : MonadSetElement) (allM1 : SetOfMonads) (largestObjectLength : Int)
    (o : ObjectRow) : Bool :=
  if bMonadSetIsFeature then decide (columns.firstMonad o ≤ mse.lastM)
  else if mse.firstM = allM1.first ∧ mse.lastM = allM1.last then true
  else
    let firstMonad := mse.firstM - largestObjectLength + 1
    let firstMonad := if firstMonad < allM1.first then allM1.first else firstMonad
    decide (o.firstMonad ≤ mse.lastM ∧ firstMonad ≤ o.firstMonad)

/-- The loop over the ranges. -/
def getObjectsInEachRange (otn : Name) (originalSom : FastSetOfMonads) (allM1 : SetOfMonads)
    (preQuery : ObjectRow → Bool) (largestObjectLength : Int) :
    List MonadSetElement → FilledInst → DB FilledInst
  | [], inst => pure inst
  | mse :: mses, inst => do
    let inst ← getObjectsHavingMonadsInExec randomLevel columns bMonadSetIsFeature objectRangeType
      otn (fun o => preQuery o && monadConstraint columns bMonadSetIsFeature mse allM1
        largestObjectLength o) originalSom inst
    getObjectsInEachRange otn originalSom allM1 preQuery largestObjectLength mses inst

/-- The loop of `getObjectsHavingMonadsInFromSingleUniqueMonadExec`, which asks nothing. -/
def addEachSingleMonad : List ObjectRow → FilledInst → Option FilledInst
  | [], inst => some inst
  | o :: os, inst =>
    (inst.addObject randomLevel o.objectIdD (.lastMonad o.firstMonad o.firstMonad)).bind
      (addEachSingleMonad os)

/-- `getObjectsHavingMonadsInFromSingleUniqueMonadOT`, but for `fillingIsDone`. -/
def getObjectsFromSingleUniqueMonadOT (otn : Name) (preQuery : ObjectRow → Bool) :
    List MonadSetElement → FilledInst → DB FilledInst
  | [], inst => pure inst
  | mse :: mses, inst => do
    let rows ← selectRows 2 fun t =>
      (t.objectRows (objectsTableName otn)).map fun rows => rows.filter fun o =>
        preQuery o && decide (mse.firstM ≤ o.firstMonad ∧ o.firstMonad ≤ mse.lastM)
    let inst ← orStop (addEachSingleMonad randomLevel rows inst)
    getObjectsFromSingleUniqueMonadOT otn preQuery mses inst

/-- `MIN_GAP`. -/
def minGapOfQueries : Int := 1600

/-- `getObjectsHavingMonadsIn`.  The monad uniqueness type of a type that is not there is not
initialised. -/
def getObjectsHavingMonadsIn (objectTypeName : Name) (monadMs allM1 : SetOfMonads)
    (preQuery : ObjectRow → Bool) (inst : FilledInst) : DB FilledInst := do
  let otn := normalizeOTName objectTypeName
  let row ← orStop (← objectTypeExists objectTypeName)
  if bMonadSetIsFeature = false ∧ objectRangeType = .singleMonad ∧
      row.monadUniquenessType = .uniqueFirstMonads then do
    let inst ← getObjectsFromSingleUniqueMonadOT randomLevel otn preQuery monadMs.monadMs inst
    pure inst.fillingIsDone
  else do
    let largestObjectLength ← if bMonadSetIsFeature then pure 1
      else getLargestObjectLength otn objectRangeType
    let minGap := if bMonadSetIsFeature then monadMs.last - monadMs.first + 1
      else if largestObjectLength > minGapOfQueries then largestObjectLength else minGapOfQueries
    let tempSom ← orStop ((FastSetOfMonads.ofSetOfMonads monadMs).fillGaps minGap)
    let inst ← getObjectsInEachRange randomLevel columns bMonadSetIsFeature objectRangeType otn
      (.ofSetOfMonads monadMs) allM1 preQuery largestObjectLength tempSom.elements inst
    pure inst.fillingIsDone

end Retrieval

/-! ## 3. What is added -/

/-- What the columns say of an object whose monad set is `som`. -/
structure Describes (columns : MonadSetColumns) (bMonadSetIsFeature : Bool)
    (objectRangeType : ObjectRangeType) (o : ObjectRow) (som : SetOfMonads) : Prop where
  repInv : som.RepInv
  positive : ∀ e ∈ som.monadMs, 1 ≤ e.firstM
  compact : bMonadSetIsFeature = true ∨ objectRangeType = .multipleRange →
    columns.monads o = som.toCompactString
  firstOfFeature : bMonadSetIsFeature = true → columns.firstMonad o = som.first
  first : bMonadSetIsFeature = false → o.firstMonad = som.first
  last : bMonadSetIsFeature = false → o.lastMonad = som.last
  oneRange : bMonadSetIsFeature = false → objectRangeType ≠ .multipleRange →
    ∃ e, som.monadMs = [e]
  oneMonad : bMonadSetIsFeature = false → objectRangeType = .singleMonad → som.first = som.last

/-- Two sets share a monad. -/
def Overlaps (a b : SetOfMonads) : Prop := (a.mem ∩ b.mem).Nonempty

theorem SetOfMonads.RepInv.add_one {s : SetOfMonads} (h : s.RepInv) {e : MonadSetElement}
    (he : s.monadMs = [e]) : SetOfMonads.empty.add s.first s.last = some s := by
  have hfirst : s.first = e.firstM := h.first_eq e (by rw [he]; rfl)
  have hlast : s.last = e.lastM := h.last_eq e (by rw [he]; rfl)
  have hfold := h.foldl_addMSE
  rw [he] at hfold
  rw [SetOfMonads.add, hfirst, hlast, MonadSetElement.range, dif_pos e.first_le_last,
    Option.map_some]
  exact congrArg some hfold

/-- A set with one stretch is all that is between its bounds. -/
theorem SetOfMonads.RepInv.mem_one {s : SetOfMonads} (h : s.RepInv) {e : MonadSetElement}
    (he : s.monadMs = [e]) : s.mem = Set.Icc s.first s.last := by
  have hfirst : s.first = e.firstM := h.first_eq e (by rw [he]; rfl)
  have hlast : s.last = e.lastM := h.last_eq e (by rw [he]; rfl)
  rw [SetOfMonads.mem, he, hfirst, hlast]
  ext x
  simp [mem_cover_cons]

/-- The monads of an object as they are added. -/
def IsMonadsOfObject (som : SetOfMonads) (ms : InstObjectMonads) : Prop :=
  ms.first = som.first ∧ ms.last = som.last ∧ ms.getMonads = some som

section Adding

variable {randomLevel : Nat → Nat} {columns : MonadSetColumns} {bMonadSetIsFeature : Bool}
  {objectRangeType : ObjectRangeType} {monads : SetOfMonads} {o : ObjectRow} {som : SetOfMonads}

/-- The filter finds what overlaps, with all its monads. -/
theorem monadsIfOverlap_spec (h : Describes columns bMonadSetIsFeature objectRangeType o som)
    (hm : monads.RepInv) :
    ∃ r, monadsIfOverlap columns bMonadSetIsFeature objectRangeType (.ofSetOfMonads monads) o =
        some r ∧
      (Overlaps som monads → ∃ ms, r = some ms ∧ IsMonadsOfObject som ms) ∧
      (¬ Overlaps som monads → r = none) := by
  unfold monadsIfOverlap
  by_cases hfull : bMonadSetIsFeature = true ∨ objectRangeType = .multipleRange
  · rw [if_pos hfull, h.compact hfull,
      SetOfMonads.fromCompactString_toCompactString h.repInv h.positive]
    obtain ⟨b, hb, hiff⟩ := FastSetOfMonads.overlap_spec hm som
    simp only [Option.bind_eq_bind, Option.bind_some, hb]
    cases b with
    | false =>
      exact ⟨none, rfl, fun ho => (by cases hiff.mpr ho), fun _ => rfl⟩
    | true =>
      by_cases hone : som.hasOnlyOneMSE = true
      · obtain ⟨e, he⟩ := List.length_eq_one_iff.mp (of_decide_eq_true hone)
        exact ⟨_, if_pos hone, fun _ => ⟨_, rfl, rfl, rfl, h.repInv.add_one he⟩,
          fun hno => absurd (hiff.mp rfl) hno⟩
      · exact ⟨_, if_neg hone, fun _ => ⟨_, rfl, rfl, rfl, rfl⟩,
          fun hno => absurd (hiff.mp rfl) hno⟩
  · rw [if_neg hfull]
    obtain ⟨hfeature, hrange⟩ := not_or.mp hfull
    rw [Bool.not_eq_true] at hfeature
    obtain ⟨e, he⟩ := h.oneRange hfeature hrange
    have hmem := h.repInv.mem_one he
    have hadd := h.repInv.add_one he
    rw [h.first hfeature, h.last hfeature]
    by_cases hsingle : objectRangeType = .singleMonad
    · rw [if_pos hsingle]
      obtain ⟨b, hb, hiff⟩ := FastSetOfMonads.isMemberOf_spec hm som.first
      have heq := h.oneMonad hfeature hsingle
      have hov : Overlaps som monads ↔ som.first ∈ monads.mem := by
        rw [Overlaps, hmem, ← heq, Set.Icc_self, Set.singleton_inter_nonempty]
      rw [hov, ← hiff]
      simp only [Option.bind_eq_bind, hb, Option.bind_some]
      cases b with
      | false => exact ⟨none, rfl, fun ho => (by cases ho), fun _ => rfl⟩
      | true =>
        refine ⟨_, rfl, fun _ => ⟨_, rfl, rfl, heq, ?_⟩, fun hno => absurd rfl hno⟩
        rw [← heq] at hadd
        exact hadd
    · rw [if_neg hsingle]
      have hle : som.first ≤ som.last := h.repInv.first_le_last (by rw [he]; simp)
      obtain ⟨b, hb, hiff⟩ := FastSetOfMonads.hasMonadsInRange_spec hm hle
      have hov : Overlaps som monads ↔ (monads.mem ∩ Set.Icc som.first som.last).Nonempty := by
        rw [Overlaps, hmem, Set.inter_comm]
      rw [hov, ← hiff]
      simp only [Option.bind_eq_bind, hb, Option.bind_some]
      cases b with
      | false => exact ⟨none, rfl, fun ho => (by cases ho), fun _ => rfl⟩
      | true =>
        exact ⟨_, rfl, fun _ => ⟨_, rfl, rfl, rfl, hadd⟩, fun hno => absurd rfl hno⟩

end Adding

/-- The inst has these objects, each with all its monads, in the order in which they were added. -/
structure FilledInst.Has (monadsOf : ObjectRow → SetOfMonads) (os : List ObjectRow)
    (inst : FilledInst) : Prop where
  contents : ∃ L val, SkipList.Inv inst.contents L val ∧
    ((L 0).map val).Perm (os.map fun o => ⟨o.objectIdD, (monadsOf o).first⟩)
  objects : inst.objects.map (fun x => (x.1, x.2.getMonads)) =
    os.map fun o => (o.objectIdD, some (monadsOf o))
  bounds : ∀ o ∈ os, inst.minMonad ≤ (monadsOf o).first ∧ (monadsOf o).last ≤ inst.maxMonad

namespace FilledInst.Has

variable {monadsOf : ObjectRow → SetOfMonads} {os : List ObjectRow} {inst : FilledInst}
  {randomLevel : Nat → Nat} {o : ObjectRow}

theorem new : Has monadsOf [] FilledInst.new where
  contents := ⟨_, _, SkipList.inv_new, .refl _⟩
  objects := rfl
  bounds := List.forall_mem_nil _

theorem hasObject (h : inst.Has monadsOf os) {key : Int} (hkey : key ≤ nilKey)
    (objectIdD : Int) :
    ∃ r, inst.contents.hasObject key objectIdD = some r ∧
      (r = true ↔ ∃ o ∈ os, (monadsOf o).first = key ∧ o.objectIdD = objectIdD) := by
  obtain ⟨L, val, hinv, hperm⟩ := h.contents
  obtain ⟨r, hr, hiff⟩ := hinv.hasObject hkey objectIdD
  refine ⟨r, hr, hiff.trans ?_⟩
  simp only [hperm.mem_iff, List.mem_map]
  constructor
  · rintro ⟨_, ⟨o, ho, rfl⟩, hfound⟩
    exact ⟨o, ho, hfound⟩
  · rintro ⟨o, ho, hfound⟩
    exact ⟨_, ⟨o, ho, rfl⟩, hfound⟩

/-- **An object more.** -/
theorem addObject (h : inst.Has monadsOf os) (hopen : inst.isFrozen = false)
    (hlevel : ∀ k, randomLevel k ≤ maxLevel) {ms : InstObjectMonads}
    (hms : IsMonadsOfObject (monadsOf o) ms) (hkey : (monadsOf o).first < nilKey) :
    ∃ inst', inst.addObject randomLevel o.objectIdD ms = some inst' ∧
      inst'.Has monadsOf (os ++ [o]) ∧ inst'.isFrozen = false := by
  obtain ⟨L, val, hinv, hperm⟩ := h.contents
  obtain ⟨hfirst, hlast, hget⟩ := hms
  have hnew : (InstObject.mk o.objectIdD (monadsOf o).first).first < nilKey := hkey
  obtain ⟨s', L', val', hs', hinv', hperm'⟩ := hinv.insert hnew (hlevel inst.objects.length)
  unfold FilledInst.addObject
  rw [hopen, hfirst, hs']
  refine ⟨_, rfl, ⟨⟨L', val', hinv', ?_⟩, ?_, ?_⟩, rfl⟩
  · rw [List.map_append]
    exact hperm'.trans ((hperm.cons _).trans (List.perm_append_singleton _ _).symm)
  · simp only [List.map_append, h.objects, List.map_cons, List.map_nil, hget]
  · intro p hp
    simp only [hlast]
    rcases List.mem_append.mp hp with hp | hp
    · obtain ⟨hmin, hmax⟩ := h.bounds p hp
      constructor <;> split <;> omega
    · rw [List.mem_singleton.mp hp]
      constructor <;> split <;> omega

end FilledInst.Has

theorem SetOfMonads.RepInv.first_lt_nilKey {s : SetOfMonads} (h : s.RepInv) :
    s.first < nilKey := by
  have hmax : maxMonad < nilKey := by decide
  by_cases hne : s.monadMs = []
  · have hfirst : s.first = maxMonad := (h.empty_eq hne).1
    rw [hfirst]
    exact hmax
  · have hin := SetOfMonads.inRange_of_mem_cover h.inRange (h.isLeast_first hne).1
    exact hin.2.trans_lt hmax

/-! ## 4. The queries -/

section Queries

variable {randomLevel : Nat → Nat} {columns : MonadSetColumns} {bMonadSetIsFeature : Bool}
  {objectRangeType : ObjectRangeType} {monads : SetOfMonads} {monadsOf : ObjectRow → SetOfMonads}
  {table : List ObjectRow} {inst : FilledInst} {P Q : ObjectRow → Prop}

/-- A table of objects whose monad sets are described by the columns; no two of them have both the
same first monad and the same id. -/
structure DescribedTable (columns : MonadSetColumns) (bMonadSetIsFeature : Bool)
    (objectRangeType : ObjectRangeType) (monadsOf : ObjectRow → SetOfMonads)
    (table : List ObjectRow) : Prop where
  describes : ∀ o ∈ table, Describes columns bMonadSetIsFeature objectRangeType o (monadsOf o)
  keys : (table.map fun o => ((monadsOf o).first, o.objectIdD)).Nodup

/-- The inst is open and has each object of the table with `P` once, and no other. -/
def HasJust (monadsOf : ObjectRow → SetOfMonads) (table : List ObjectRow) (P : ObjectRow → Prop)
    (inst : FilledInst) : Prop :=
  ∃ os, inst.Has monadsOf os ∧ inst.isFrozen = false ∧ os.Nodup ∧ ∀ o, o ∈ os ↔ o ∈ table ∧ P o

theorem HasJust.congr (h : HasJust monadsOf table P inst) (hPQ : ∀ o ∈ table, P o ↔ Q o) :
    HasJust monadsOf table Q inst := by
  obtain ⟨os, hhas, hopen, hnodup, hiff⟩ := h
  exact ⟨os, hhas, hopen, hnodup, fun o => (hiff o).trans (and_congr_right (hPQ o))⟩

theorem DescribedTable.eq_of_key
    (ht : DescribedTable columns bMonadSetIsFeature objectRangeType monadsOf table)
    {o p : ObjectRow} (ho : o ∈ table) (hp : p ∈ table)
    (hfirst : (monadsOf o).first = (monadsOf p).first) (hid : o.objectIdD = p.objectIdD) : o = p :=
  List.inj_on_of_nodup_map ht.keys ho hp (Prod.ext hfirst hid)

/-- An object that is not there is added. -/
theorem HasJust.addObject
    (ht : DescribedTable columns bMonadSetIsFeature objectRangeType monadsOf table)
    (hlevel : ∀ k, randomLevel k ≤ maxLevel) (h : HasJust monadsOf table P inst) {o : ObjectRow}
    (ho : o ∈ table) (hnew : ¬ P o) {ms : InstObjectMonads}
    (hms : IsMonadsOfObject (monadsOf o) ms) :
    ∃ inst', inst.addObject randomLevel o.objectIdD ms = some inst' ∧
      HasJust monadsOf table (fun p => P p ∨ p = o) inst' := by
  obtain ⟨os, hhas, hopen, hnodup, hiff⟩ := h
  have hnot : o ∉ os := fun hmem => hnew ((hiff o).mp hmem).2
  obtain ⟨inst', hinst', hhas', hopen'⟩ := hhas.addObject hopen hlevel hms
    (ht.describes o ho).repInv.first_lt_nilKey
  refine ⟨inst', hinst', os ++ [o], hhas', hopen', ?_, fun p => ?_⟩
  · exact List.nodup_append.mpr ⟨hnodup, List.nodup_singleton o, fun a ha b hb heq =>
      hnot (List.mem_singleton.mp hb ▸ heq ▸ ha)⟩
  · rw [List.mem_append, hiff, List.mem_singleton]
    constructor
    · rintro (⟨hp, hP⟩ | rfl)
      · exact ⟨hp, .inl hP⟩
      · exact ⟨ho, .inr rfl⟩
    · rintro ⟨hp, hP | rfl⟩
      · exact .inl ⟨hp, hP⟩
      · exact .inr rfl

/-- **One row.** -/
theorem HasJust.addIfOverlap
    (ht : DescribedTable columns bMonadSetIsFeature objectRangeType monadsOf table)
    (hlevel : ∀ k, randomLevel k ≤ maxLevel) (hm : monads.RepInv)
    (h : HasJust monadsOf table P inst) {o : ObjectRow} (ho : o ∈ table) :
    ∃ inst', addIfOverlap randomLevel columns bMonadSetIsFeature objectRangeType
        (.ofSetOfMonads monads) inst o = some inst' ∧
      HasJust monadsOf table (fun p => P p ∨ p = o ∧ Overlaps (monadsOf p) monads) inst' := by
  obtain ⟨r, hr, hyes, hno⟩ := monadsIfOverlap_spec (ht.describes o ho) hm
  unfold Emdros.addIfOverlap
  rw [hr]
  by_cases hov : Overlaps (monadsOf o) monads
  · obtain ⟨ms, rfl, hms⟩ := hyes hov
    have hcopy := h
    obtain ⟨os, hhas, -, -, hiff⟩ := hcopy
    obtain ⟨b, hb, hbiff⟩ := hhas.hasObject
      (ht.describes o ho).repInv.first_lt_nilKey.le o.objectIdD
    have hthere : b = true ↔ P o := by
      rw [hbiff]
      constructor
      · rintro ⟨p, hp, hfirst, hid⟩
        obtain ⟨hpt, hP⟩ := (hiff p).mp hp
        exact ht.eq_of_key hpt ho hfirst hid ▸ hP
      · exact fun hP => ⟨o, (hiff o).mpr ⟨ho, hP⟩, rfl, rfl⟩
    simp only [Option.bind_eq_bind, Option.bind_some, hms.1, hb]
    cases b with
    | true =>
      refine ⟨inst, rfl, h.congr fun p _ => ⟨.inl, ?_⟩⟩
      rintro (hP | ⟨rfl, -⟩)
      · exact hP
      · exact hthere.mp rfl
    | false =>
      have hnew : ¬ P o := fun hP => by cases hthere.mpr hP
      obtain ⟨inst', hinst', h'⟩ := h.addObject ht hlevel ho hnew hms
      refine ⟨inst', hinst', h'.congr fun p _ => or_congr_right ⟨?_, And.left⟩⟩
      rintro rfl
      exact ⟨rfl, hov⟩
  · rw [hno hov]
    refine ⟨inst, rfl, h.congr fun p _ => ⟨.inl, ?_⟩⟩
    rintro (hP | ⟨rfl, hp⟩)
    · exact hP
    · exact absurd hp hov

/-- **The rows of a query.** -/
theorem HasJust.addEachIfOverlap
    (ht : DescribedTable columns bMonadSetIsFeature objectRangeType monadsOf table)
    (hlevel : ∀ k, randomLevel k ≤ maxLevel) (hm : monads.RepInv) : ∀ {rows : List ObjectRow}
    {inst : FilledInst} {P : ObjectRow → Prop}, HasJust monadsOf table P inst →
    (∀ o ∈ rows, o ∈ table) →
    ∃ inst', addEachIfOverlap randomLevel columns bMonadSetIsFeature objectRangeType
        (.ofSetOfMonads monads) rows inst = some inst' ∧
      HasJust monadsOf table (fun p => P p ∨ p ∈ rows ∧ Overlaps (monadsOf p) monads) inst'
  | [], inst, P, h, _ => ⟨inst, rfl, h.congr fun p _ => by simp⟩
  | o :: rows, inst, P, h, hrows => by
    obtain ⟨ho, hrows'⟩ := List.forall_mem_cons.mp hrows
    obtain ⟨inst₁, hinst₁, h₁⟩ := h.addIfOverlap ht hlevel hm ho
    obtain ⟨inst₂, hinst₂, h₂⟩ := HasJust.addEachIfOverlap ht hlevel hm h₁ hrows'
    refine ⟨inst₂, ?_, h₂.congr fun p _ => ?_⟩
    · rw [Emdros.addEachIfOverlap, hinst₁]
      exact hinst₂
    · rw [List.mem_cons, or_and_right, or_assoc]

/-- **The rows that are added without asking.** -/
theorem HasJust.addEachSingleMonad
    (ht : DescribedTable columns false .singleMonad monadsOf table)
    (hlevel : ∀ k, randomLevel k ≤ maxLevel) : ∀ {rows : List ObjectRow} {inst : FilledInst}
    {P : ObjectRow → Prop}, HasJust monadsOf table P inst → rows.Nodup →
    (∀ o ∈ rows, o ∈ table ∧ ¬ P o) →
    ∃ inst', addEachSingleMonad randomLevel rows inst = some inst' ∧
      HasJust monadsOf table (fun p => P p ∨ p ∈ rows) inst'
  | [], inst, P, h, _, _ => ⟨inst, rfl, h.congr fun p _ => by simp⟩
  | o :: rows, inst, P, h, hnodup, hrows => by
    obtain ⟨⟨ho, hnew⟩, hrows'⟩ := List.forall_mem_cons.mp hrows
    obtain ⟨hnot, hnodup'⟩ := List.nodup_cons.mp hnodup
    have hd := ht.describes o ho
    obtain ⟨e, he⟩ := hd.oneRange rfl (by decide)
    have hone := hd.oneMonad rfl rfl
    have hms : IsMonadsOfObject (monadsOf o) (.lastMonad o.firstMonad o.firstMonad) := by
      rw [hd.first rfl]
      refine ⟨rfl, hone, ?_⟩
      have hadd := hd.repInv.add_one he
      rw [← hone] at hadd
      exact hadd
    obtain ⟨inst₁, hinst₁, h₁⟩ := h.addObject ht hlevel ho hnew hms
    obtain ⟨inst₂, hinst₂, h₂⟩ := HasJust.addEachSingleMonad ht hlevel h₁ hnodup' fun p hp =>
      ⟨(hrows' p hp).1, fun hor => hor.elim (hrows' p hp).2 fun heq => hnot (heq ▸ hp)⟩
    refine ⟨inst₂, ?_, h₂.congr fun p _ => ?_⟩
    · rw [Emdros.addEachSingleMonad, hinst₁]
      exact hinst₂
    · rw [List.mem_cons, or_assoc]

/-! ## 5. The ranges -/

variable {v : ObjectView} {otn : Name} {preQuery : ObjectRow → Bool} {allM1 : SetOfMonads}
  {largestObjectLength : Int}

theorem sees_rows (hrows : v.current.objectRows otn = some table) (columns : Nat)
    (whereClause : ObjectRow → Bool) :
    SeesObjects v (selectRows columns fun t =>
        (t.objectRows (objectsTableName otn)).map fun rows => rows.filter whereClause)
      (fun rows w => rows = table.filter whereClause ∧ w = v) fun _ _ => False := by
  refine (sees_selectRows (fun s : Stored => (s.objectRows otn).map fun rows =>
    rows.filter whereClause) fun _ => rfl).mono (fun rows w hw => ?_) fun _ w hw => ?_
  · rw [hrows, Option.map_some, Option.some.injEq] at hw
    exact ⟨hw.1.symm, hw.2⟩
  · have hnone := hw.2.1
    rw [hrows] at hnone
    cases hnone

/-- **One query** adds what it finds and what overlaps. -/
theorem sees_getObjectsHavingMonadsInExec
    (ht : DescribedTable columns bMonadSetIsFeature objectRangeType monadsOf table)
    (hlevel : ∀ k, randomLevel k ≤ maxLevel) (hm : monads.RepInv)
    (hrows : v.current.objectRows otn = some table) (whereClause : ObjectRow → Bool)
    (h : HasJust monadsOf table P inst) :
    SeesObjects v (getObjectsHavingMonadsInExec randomLevel columns bMonadSetIsFeature
        objectRangeType otn whereClause (.ofSetOfMonads monads) inst)
      (fun inst' w => HasJust monadsOf table
        (fun p => P p ∨ whereClause p = true ∧ Overlaps (monadsOf p) monads) inst' ∧ w = v)
      fun _ _ => False := by
  refine Effect.Shows.bind (sees_rows hrows _ whereClause) fun rows w hw => ?_
  obtain ⟨rfl, rfl⟩ := hw
  obtain ⟨inst', hinst', h'⟩ := h.addEachIfOverlap ht hlevel hm fun o ho =>
    List.mem_of_mem_filter ho
  rw [hinst']
  refine Effect.shows_pure ⟨h'.congr fun p hp => ?_, rfl⟩
  rw [List.mem_filter, and_iff_right hp]

/-- **Every query.** -/
theorem sees_getObjectsInEachRange
    (ht : DescribedTable columns bMonadSetIsFeature objectRangeType monadsOf table)
    (hlevel : ∀ k, randomLevel k ≤ maxLevel) (hm : monads.RepInv)
    (hrows : v.current.objectRows otn = some table) :
    ∀ (mses : List MonadSetElement) {inst : FilledInst} {P : ObjectRow → Prop},
    HasJust monadsOf table P inst →
    SeesObjects v (getObjectsInEachRange randomLevel columns bMonadSetIsFeature objectRangeType otn
        (.ofSetOfMonads monads) allM1 preQuery largestObjectLength mses inst)
      (fun inst' w => HasJust monadsOf table (fun p => P p ∨ (preQuery p = true ∧
        Overlaps (monadsOf p) monads ∧ ∃ mse ∈ mses, monadConstraint columns bMonadSetIsFeature mse
          allM1 largestObjectLength p = true)) inst' ∧ w = v)
      fun _ _ => False
  | [], inst, P, h => Effect.shows_pure ⟨h.congr fun p _ => by simp, rfl⟩
  | mse :: mses, inst, P, h => by
    refine Effect.Shows.bind (sees_getObjectsHavingMonadsInExec ht hlevel hm hrows _ h)
      fun inst₁ w hw => ?_
    obtain ⟨h₁, hwv⟩ := hw
    rw [hwv]
    refine (sees_getObjectsInEachRange ht hlevel hm hrows mses h₁).mono (fun inst₂ w' hw' => ?_)
      fun _ _ hw' => hw'
    refine ⟨hw'.1.congr fun p _ => ?_, hw'.2⟩
    simp only [Bool.and_eq_true, List.exists_mem_cons_iff]
    tauto

/-- The special path asks for each stretch of the set itself. -/
theorem sees_getObjectsFromSingleUniqueMonadOT
    (ht : DescribedTable columns false .singleMonad monadsOf table)
    (hlevel : ∀ k, randomLevel k ≤ maxLevel) (hrows : v.current.objectRows otn = some table) :
    ∀ (mses : List MonadSetElement) {inst : FilledInst} {P : ObjectRow → Prop},
    Sep mses → HasJust monadsOf table P inst →
    (∀ o, P o → ∀ mse ∈ mses, ¬ (mse.firstM ≤ o.firstMonad ∧ o.firstMonad ≤ mse.lastM)) →
    SeesObjects v (getObjectsFromSingleUniqueMonadOT randomLevel otn preQuery mses inst)
      (fun inst' w => HasJust monadsOf table (fun p => P p ∨ (preQuery p = true ∧
        ∃ mse ∈ mses, mse.firstM ≤ p.firstMonad ∧ p.firstMonad ≤ mse.lastM)) inst' ∧ w = v)
      fun _ _ => False
  | [], inst, P, _, h, _ => Effect.shows_pure ⟨h.congr fun p _ => by simp, rfl⟩
  | mse :: mses, inst, P, hsep, h, hP => by
    obtain ⟨hfar, hsep'⟩ := sep_cons.mp hsep
    refine Effect.Shows.bind (sees_rows hrows 2 _) fun rows w hw => ?_
    obtain ⟨rfl, hwv⟩ := hw
    rw [hwv]
    have hnodup : table.Nodup := List.Nodup.of_map _ ht.keys
    obtain ⟨inst₁, hinst₁, h₁⟩ := h.addEachSingleMonad ht hlevel (hnodup.filter fun o =>
      preQuery o && decide (mse.firstM ≤ o.firstMonad ∧ o.firstMonad ≤ mse.lastM)) fun o ho => by
      obtain ⟨hot, hwhere⟩ := List.mem_filter.mp ho
      rw [Bool.and_eq_true, decide_eq_true_eq] at hwhere
      exact ⟨hot, fun hPo => hP o hPo mse List.mem_cons_self hwhere.2⟩
    rw [hinst₁]
    have hP' : ∀ o, (P o ∨ o ∈ table.filter fun o =>
        preQuery o && decide (mse.firstM ≤ o.firstMonad ∧ o.firstMonad ≤ mse.lastM)) →
        ∀ e ∈ mses, ¬ (e.firstM ≤ o.firstMonad ∧ o.firstMonad ≤ e.lastM) := by
      rintro o (hPo | ho) e he
      · exact hP o hPo e (List.mem_cons_of_mem mse he)
      · have hwhere := (List.mem_filter.mp ho).2
        rw [Bool.and_eq_true, decide_eq_true_eq] at hwhere
        have := hfar e he
        simp only [MonadSetElement.spanned_lo, MonadSetElement.spanned_hi] at this
        omega
    refine Effect.Shows.bind (Effect.shows_pure (Q := fun i u => i = inst₁ ∧ u = v) ⟨rfl, rfl⟩)
      fun i u hu => ?_
    rw [hu.1, hu.2]
    refine (sees_getObjectsFromSingleUniqueMonadOT ht hlevel hrows mses hsep' h₁ hP').mono
      (fun inst₂ w' hw' => ?_) fun _ _ hw' => hw'
    refine ⟨hw'.1.congr fun p hp => ?_, hw'.2⟩
    simp only [List.mem_filter, hp, true_and, Bool.and_eq_true, decide_eq_true_eq,
      List.exists_mem_cons_iff]
    tauto

/-- An object that overlaps is found by the query for the range where it overlaps. -/
theorem exists_monadConstraint {som filled : SetOfMonads} {o : ObjectRow}
    (hd : Describes columns bMonadSetIsFeature objectRangeType o som)
    (hsub : monads.mem ⊆ filled.mem)
    (hbounds : bMonadSetIsFeature = false → allM1.first ≤ o.firstMonad ∧
      o.length ≤ largestObjectLength) (hov : Overlaps som monads) :
    ∃ mse ∈ filled.monadMs, monadConstraint columns bMonadSetIsFeature mse allM1
      largestObjectLength o = true := by
  obtain ⟨m, hmo, hmm⟩ := hov
  obtain ⟨mse, hmse, hlo, hhi⟩ := mem_cover.mp (hsub hmm)
  simp only [MonadSetElement.spanned_lo, MonadSetElement.spanned_hi] at hlo hhi
  have hne : som.monadMs ≠ [] := by
    intro hnil
    rw [SetOfMonads.mem_eq_empty.mpr hnil] at hmo
    exact hmo
  have hfirst : som.first ≤ m := (hd.repInv.isLeast_first hne).2 hmo
  have hlast : m ≤ som.last := (hd.repInv.isGreatest_last hne).2 hmo
  refine ⟨mse, hmse, ?_⟩
  unfold monadConstraint
  cases hb : bMonadSetIsFeature with
  | true =>
    rw [if_pos rfl, hd.firstOfFeature hb]
    exact decide_eq_true (hfirst.trans hhi)
  | false =>
    obtain ⟨hmin, hlength⟩ := hbounds hb
    rw [ObjectRow.length] at hlength
    have hof := hd.first hb
    have hol := hd.last hb
    rw [if_neg (by decide)]
    split
    · rfl
    · simp only [decide_eq_true_eq]
      split <;> omega

/-! ## 6. What is found -/

open Classical in
/-- The objects with the condition that share a monad with the set. -/
noncomputable def overlapping (monadsOf : ObjectRow → SetOfMonads) (monads : SetOfMonads)
    (preQuery : ObjectRow → Bool) (table : List ObjectRow) : List ObjectRow :=
  table.filter fun o => preQuery o && decide (Overlaps (monadsOf o) monads)

theorem mem_overlapping {o : ObjectRow} : o ∈ overlapping monadsOf monads preQuery table ↔
    o ∈ table ∧ preQuery o = true ∧ Overlaps (monadsOf o) monads := by
  simp [overlapping]

theorem nodup_overlapping (h : table.Nodup) :
    (overlapping monadsOf monads preQuery table).Nodup := h.filter _

/-- The inst has these objects, each of them once and with all its monads, and is ready for use. -/
structure FilledInst.Answers (monadsOf : ObjectRow → SetOfMonads) (expected : List ObjectRow)
    (inst : FilledInst) : Prop where
  visits : ∃ objs, inst.contents.begin.bind inst.contents.visit = some objs ∧
    objs.Pairwise SkipList.Ordered ∧
    objs.Perm (expected.map fun o => ⟨o.objectIdD, (monadsOf o).first⟩)
  objects : (inst.objects.map fun x => (x.1, x.2.getMonads)).Perm
    (expected.map fun o => (o.objectIdD, some (monadsOf o)))
  bounds : ∀ o ∈ expected, inst.minMonad ≤ (monadsOf o).first ∧ (monadsOf o).last ≤ inst.maxMonad
  isFrozen : inst.isFrozen = true

theorem HasJust.answers
    (ht : DescribedTable columns bMonadSetIsFeature objectRangeType monadsOf table)
    (h : HasJust monadsOf table
      (fun o => preQuery o = true ∧ Overlaps (monadsOf o) monads) inst) :
    inst.fillingIsDone.Answers monadsOf (overlapping monadsOf monads preQuery table) := by
  obtain ⟨os, hhas, -, hnodup, hiff⟩ := h
  have hperm : os.Perm (overlapping monadsOf monads preQuery table) := by
    refine (List.perm_ext_iff_of_nodup hnodup
      (nodup_overlapping (List.Nodup.of_map _ ht.keys))).mpr fun o => ?_
    rw [hiff, mem_overlapping]
  obtain ⟨L, val, hinv, hcontents⟩ := hhas.contents
  refine ⟨⟨(L 0).map val, ?_, List.pairwise_map.mpr hinv.sorted,
    hcontents.trans (hperm.map _)⟩, ?_, fun o ho => hhas.bounds o (hperm.mem_iff.mpr ho), rfl⟩
  · change inst.contents.begin.bind inst.contents.visit = _
    rw [hinv.begin, Option.bind_some]
    exact hinv.visit (List.nil_append (L 0)).symm
  · change (inst.objects.map _).Perm _
    rw [hhas.objects]
    exact hperm.map _

theorem hasJust_new : HasJust monadsOf table (fun _ => False) FilledInst.new :=
  ⟨[], .new, rfl, List.nodup_nil, fun o => by simp⟩

/-- The queries for the ranges of the set with its gaps filled. -/
theorem sees_getObjectsInFilledRanges (hbounded : v.Bounded) {r : ObjectTypeRow}
    (hr : r ∈ v.current.objectTypes)
    (ht : DescribedTable columns bMonadSetIsFeature r.objectRangeType monadsOf
      (v.current.objectsOf r.objectTypeName))
    (hlevel : ∀ k, randomLevel k ≤ maxLevel) (hm : monads.RepInv)
    (hall : allM1.first = v.current.minM) {w : ObjectView} (hw : v.Remembers w) (minGap : Int)
    {length : Int} (hlength : bMonadSetIsFeature = false → length = r.largestObjectLength) :
    SeesObjects w (do
        let tempSom ← orStop ((FastSetOfMonads.ofSetOfMonads monads).fillGaps minGap)
        let inst ← getObjectsInEachRange randomLevel columns bMonadSetIsFeature
          r.objectRangeType r.objectTypeName (.ofSetOfMonads monads) allM1 preQuery length
          tempSom.elements .new
        pure inst.fillingIsDone)
      (fun inst _ => inst.Answers monadsOf (overlapping monadsOf monads preQuery
        (v.current.objectsOf r.objectTypeName))) fun _ _ => False := by
  have hrows : w.current.objectRows r.objectTypeName =
      some (v.current.objectsOf r.objectTypeName) := by
    rw [hw.current]
    exact hbounded.sound.objectRows hr
  obtain ⟨filled, hfilled, hfilledRep, hfast⟩ := FastSetOfMonads.fillGaps_ofSetOfMonads hm minGap
  obtain ⟨filled', hfilled', -, hmem⟩ := SetOfMonads.fillGaps_spec hm minGap
  obtain rfl : filled = filled' := Option.some.inj (hfilled.symm.trans hfilled')
  rw [hfast]
  refine Effect.Shows.bind (Effect.shows_pure (Q := fun temp u =>
    temp = FastSetOfMonads.ofSetOfMonads filled ∧ u = w) ⟨rfl, rfl⟩) fun temp u hu => ?_
  obtain ⟨rfl, rfl⟩ := hu
  rw [FastSetOfMonads.elements_ofSetOfMonads hfilledRep.sep]
  refine Effect.Shows.bind (sees_getObjectsInEachRange ht hlevel hm hrows filled.monadMs
    hasJust_new) fun inst _ hinst => ?_
  refine Effect.shows_pure (HasJust.answers ht (hinst.1.congr fun p hp => ?_))
  rw [false_or]
  refine ⟨fun h => ⟨h.1, h.2.1⟩, fun h => ⟨h.1, h.2, ?_⟩⟩
  refine exists_monadConstraint (ht.describes p hp) (hmem ▸ IntGaps.subset_closeGaps)
    (fun hb => ⟨?_, ?_⟩) h.2
  · rw [hall]
    exact (hbounded.within p (View.Bounded.mem_allObjects.mpr ⟨r, hr, hp⟩)).1
  · rw [hlength hb]
    exact hbounded.lengths r hr p hp

/-- **`getObjectsHavingMonadsIn`** finds what overlaps, where the objects are within the bounds. -/
theorem sees_getObjectsHavingMonadsIn (hbounded : v.Bounded) {r : ObjectTypeRow}
    (hr : r ∈ v.current.objectTypes) {name : Name} (hn : normalizeOTName name = r.objectTypeName)
    (ht : DescribedTable columns bMonadSetIsFeature r.objectRangeType monadsOf
      (v.current.objectsOf r.objectTypeName))
    (hlevel : ∀ k, randomLevel k ≤ maxLevel) (hm : monads.RepInv)
    (hall : allM1.first = v.current.minM) :
    SeesObjects v (getObjectsHavingMonadsIn randomLevel columns bMonadSetIsFeature
        r.objectRangeType name monads allM1 preQuery .new)
      (fun inst _ => inst.Answers monadsOf (overlapping monadsOf monads preQuery
        (v.current.objectsOf r.objectTypeName)))
      fun _ _ => False := by
  unfold getObjectsHavingMonadsIn
  rw [hn]
  refine Effect.Shows.bind (sees_objectTypeExists v name) fun found u hu => ?_
  obtain ⟨rfl, rfl⟩ := hu
  rw [hn]
  have hub := hbounded.remembers (View.remembers_remember v r.objectTypeName)
  have hrows : (v.remember r.objectTypeName).current.objectRows r.objectTypeName =
      some (v.current.objectsOf r.objectTypeName) := hbounded.sound.objectRows hr
  obtain ⟨row, hlookup, -, -⟩ := hbounded.toSound.lookup hr
  have hc : (v.remember r.objectTypeName).caches r.objectTypeName = some row :=
    (View.remember_caches_self v _).trans hlookup
  obtain ⟨hrow, hname⟩ := hub.cached _ _ hc
  obtain rfl : row = r := hbounded.sound.eq_of_name hrow hr hname
  rw [hlookup]
  refine Effect.Shows.bind (Effect.shows_pure (Q := fun found u => found = row ∧
    u = v.remember row.objectTypeName) ⟨rfl, rfl⟩) fun found u hu => ?_
  obtain ⟨rfl, rfl⟩ := hu
  by_cases hspecial : bMonadSetIsFeature = false ∧ found.objectRangeType = .singleMonad ∧
      found.monadUniquenessType = .uniqueFirstMonads
  · rw [if_pos hspecial]
    obtain ⟨hb, hsingle, -⟩ := hspecial
    rw [hb, hsingle] at ht
    refine Effect.Shows.bind (sees_getObjectsFromSingleUniqueMonadOT ht hlevel hrows
      monads.monadMs hm.sep hasJust_new fun _ hfalse => hfalse.elim) fun inst w hw => ?_
    refine Effect.shows_pure (HasJust.answers ht (hw.1.congr fun p hp => ?_))
    have hd := ht.describes p hp
    obtain ⟨e, he⟩ := hd.oneRange rfl (by decide)
    have hov : Overlaps (monadsOf p) monads ↔
        ∃ mse ∈ monads.monadMs, mse.firstM ≤ p.firstMonad ∧ p.firstMonad ≤ mse.lastM := by
      rw [Overlaps, hd.repInv.mem_one he, ← hd.oneMonad rfl rfl, Set.Icc_self,
        Set.singleton_inter_nonempty, ← hd.first rfl]
      exact Iff.rfl
    rw [false_or, hov]
  · rw [if_neg hspecial]
    have hr' := View.remembers_remember v found.objectTypeName
    cases hb : bMonadSetIsFeature with
    | true =>
      rw [hb] at ht
      exact sees_getObjectsInFilledRanges hbounded hr ht hlevel hm hall hr' _ fun h => (by cases h)
    | false =>
      rw [hb] at ht
      refine Effect.Shows.bind (sees_getLargestObjectLength (hbounded.sound.normalized _ hr) hc _)
        fun length w hw => ?_
      rw [hw.2]
      exact sees_getObjectsInFilledRanges hbounded hr ht hlevel hm hall hr' _ fun _ => hw.1

end Queries

/-! ## 7. Runs -/

namespace DataStatement

/-- **After every run** in which nothing is aborted or stored in part, `getObjectsHavingMonadsIn`
finds each object that has a monad in the set, once and with all its monads, and no other. -/
theorem run_getObjectsHavingMonadsIn {statements : List DataStatement} {db : EMdFDB}
    (hadm : Machine.Admits next (fun db statement => statement.Contained db) EMdFDB.initial
      statements)
    (hrun : Machine.run next EMdFDB.initial statements = some db) {r : ObjectTypeRow}
    (hr : r ∈ db.tables.objectTypes) {name : Name} (hn : normalizeOTName name = r.objectTypeName)
    {columns : MonadSetColumns} {bMonadSetIsFeature : Bool} {monadsOf : ObjectRow → SetOfMonads}
    (ht : DescribedTable columns bMonadSetIsFeature r.objectRangeType monadsOf
      (db.tables.stored.objectsOf r.objectTypeName))
    {randomLevel : Nat → Nat} (hlevel : ∀ k, randomLevel k ≤ maxLevel) {monads : SetOfMonads}
    (hm : monads.RepInv) {allM1 : SetOfMonads} (hall : allM1.first = db.tables.minM)
    (preQuery : ObjectRow → Bool) :
    ∃ inst db', getObjectsHavingMonadsIn randomLevel columns bMonadSetIsFeature
        r.objectRangeType name monads allM1 preQuery .new db = (.ok inst, db') ∧
      inst.Answers monadsOf (overlapping monadsOf monads preQuery
        (db.tables.stored.objectsOf r.objectTypeName)) := by
  obtain ⟨db₁, hdb₁, hworking, hbounded⟩ := Machine.run_preserves (P := KeptBounds)
    (fun _ _ hdb hc => ⟨_, rfl, exec_keptBounds hdb hc⟩) statements _
    ⟨working_initial, bounded_initial⟩ hadm
  obtain rfl : db = db₁ := Option.some.inj (hrun.symm.trans hdb₁)
  obtain ⟨inst, db', hx, -, hanswers⟩ := (sees_getObjectsHavingMonadsIn (v := objectView db)
    hbounded hr hn ht hlevel hm hall).exists_ok hworking rfl
  exact ⟨inst, db', hx, hanswers⟩

/-- A word at the monads 2 and 3. -/
def oneWord : List DataStatement :=
  [.createObjectType "word".toList [] .singleRange .nonUniqueMonads false,
    .createObject "Word".toList 0 [⟨2, 3⟩] []]

theorem admits_oneWord : Machine.Admits next (fun db statement => statement.Contained db)
    EMdFDB.initial oneWord :=
  ⟨⟨fun h => (by cases h), fun _ => .inr rfl, fun _ _ h => (by cases h)⟩,
    fun _ _ => ⟨contained_of_single (by decide) rfl, fun _ _ => trivial⟩⟩

/-- The state after that. -/
def withOneWord : EMdFDB := ((Machine.run next EMdFDB.initial oneWord).getD .initial)

def wordType : ObjectTypeRow := ⟨65536, "word".toList, .singleRange, .nonUniqueMonads, 2⟩

theorem run_oneWord : Machine.run next EMdFDB.initial oneWord = some withOneWord := rfl

theorem wordType_mem : wordType ∈ withOneWord.tables.objectTypes := by decide +kernel

theorem objectsOf_withOneWord :
    withOneWord.tables.stored.objectsOf wordType.objectTypeName = [⟨1, 2, 3, []⟩] := by
  decide +kernel

def twoAndThree : SetOfMonads := .setBounds [⟨2, 3, by decide⟩]

theorem run_getObjectsHavingMonadsIn_oneWord :
    ∃ inst db', getObjectsHavingMonadsIn (fun _ => 0) ⟨fun _ => [], fun _ => 0⟩ false
        wordType.objectRangeType "WORD".toList (.setBounds [.single 3, .single 2000])
        (.setBounds [⟨2, 3, by decide⟩]) (fun _ => true) .new withOneWord = (.ok inst, db') ∧
      inst.Answers (fun _ => twoAndThree)
        (overlapping (fun _ => twoAndThree) (.setBounds [.single 3, .single 2000]) (fun _ => true)
          (withOneWord.tables.stored.objectsOf wordType.objectTypeName)) := by
  refine run_getObjectsHavingMonadsIn admits_oneWord run_oneWord wordType_mem (by decide) ?_
    (fun _ => by decide) (by decide) (by decide +kernel) (fun _ => true)
  rw [objectsOf_withOneWord]
  refine ⟨List.forall_mem_singleton.mpr ?_, by decide⟩
  exact ⟨by decide, by decide, fun h => (by simp [wordType] at h), fun h => (by cases h),
    fun _ => rfl, fun _ => rfl, fun _ _ => ⟨_, rfl⟩, fun _ h => (by cases h)⟩

end DataStatement

end Emdros
