/-
# Insts from the database

`AggregateEnv` has the objects of a block as a list, and `rInst` filters it.  The code asks
`getObjectsHavingMonadsIn`, which finds them by ranges of first monads, asks the inst whether it has
them already, and keeps them in a skip list.

The two are compared here, for a database whose bounds are those of its objects, as every run
without aborts leaves it (`DataStatement.exec_keptBounds`).  Whatever levels the skip list draws,
walking through it gives the list of `rInst`, in its order, and each object has been given all its
monads (`getObjectsHavingMonadsIn_rInst`).  What has to be said of the list is that it is the table
in the order of a skip list, and that the pre-query means the same of a row and of its object
(`AggregateEnv.ReadsTable`).
-/
import Emdros.MQL.MadeInsts
import Emdros.MQL.ObjectsHavingMonads

namespace Emdros

open SpanList IntGaps

section Retrieved

variable {C E : Type} {a : AggregateEnv C E} {info : ObjectBlockInfo C}
  {preQuery : ObjectRow → Bool} {monadsOf : ObjectRow → SetOfMonads} {table : List ObjectRow}
  {objectOf : ObjectRow → MonadedObject} {characteristicSet : SetOfMonads} {inst : FilledInst}

/-- The objects of the block are those of a table in the order of a skip list, and the pre-query
means the same of them as of their rows. -/
structure AggregateEnv.ReadsTable (a : AggregateEnv C E) (info : ObjectBlockInfo C)
    (preQuery : ObjectRow → Bool) (monadsOf : ObjectRow → SetOfMonads) (table : List ObjectRow)
    (objectOf : ObjectRow → MonadedObject) : Prop where
  idD : ∀ r ∈ table, (objectOf r).idD = r.objectIdD
  first : ∀ r ∈ table, (objectOf r).first = (monadsOf r).first
  monads : ∀ r ∈ table, (objectOf r).monads = monadsOf r
  objects : (a.objects info.obb).Perm (table.map objectOf)
  ordered : (a.objects info.obb).Pairwise fun x y =>
    SkipList.Ordered x.toInstObject y.toInstObject
  preQuery : ∀ r ∈ table, preQuery r = a.preQuery info (objectOf r)

/-- What `R_inst` is to give for a characteristic set. -/
def AggregateEnv.meeting (a : AggregateEnv C E) (info : ObjectBlockInfo C)
    (characteristicSet : SetOfMonads) : List MonadedObject :=
  (a.candidates info).filter fun o => SetOfMonads.overlap o.monads characteristicSet

open Classical in
/-- It is what overlaps in the table. -/
theorem AggregateEnv.ReadsTable.meeting_perm
    (h : a.ReadsTable info preQuery monadsOf table objectOf)
    (hrep : ∀ r ∈ table, (monadsOf r).RepInv) (hcs : characteristicSet.RepInv) :
    (a.meeting info characteristicSet).Perm
      ((overlapping monadsOf characteristicSet preQuery table).map objectOf) := by
  rw [AggregateEnv.meeting, AggregateEnv.candidates, List.filter_filter]
  refine (h.objects.filter _).trans (.of_eq ?_)
  rw [List.filter_map, overlapping]
  refine congrArg (List.map objectOf) (List.filter_congr fun r hr => ?_)
  have hoverlap : SetOfMonads.overlap (monadsOf r) characteristicSet
      = decide (Overlaps (monadsOf r) characteristicSet) := by
    rw [Bool.eq_iff_iff, decide_eq_true_eq]
    exact SetOfMonads.overlap_iff (hrep r hr) hcs
  rw [Function.comp_apply, h.monads r hr, ← h.preQuery r hr, hoverlap, Bool.and_comm]

/-- In the order of a skip list, by first monad and id, two objects are the same or one of them
comes first. -/
theorem SkipList.Ordered.antisymm {x y : InstObject} (hxy : SkipList.Ordered x y)
    (hyx : SkipList.Ordered y x) : x = y := by
  obtain ⟨idD, first⟩ := x
  obtain ⟨idD', first'⟩ := y
  simp only [SkipList.Ordered] at hxy hyx
  have hfirst : first = first' := by omega
  have hid : idD = idD' := by omega
  rw [hfirst, hid]

/-- **An inst that has what overlaps** is walked through in the order of the list. -/
theorem FilledInst.Answers.visits_meeting
    (hinst : inst.Answers monadsOf (overlapping monadsOf characteristicSet preQuery table))
    (h : a.ReadsTable info preQuery monadsOf table objectOf)
    (hrep : ∀ r ∈ table, (monadsOf r).RepInv) (hcs : characteristicSet.RepInv) :
    inst.contents.begin.bind inst.contents.visit
        = some ((a.meeting info characteristicSet).map MonadedObject.toInstObject) ∧
      (inst.objects.map fun x => (x.1, x.2.getMonads)).Perm
        ((a.meeting info characteristicSet).map fun o => (o.idD, some o.monads)) := by
  have hperm := h.meeting_perm hrep hcs
  have hmem : ∀ r ∈ overlapping monadsOf characteristicSet preQuery table, r ∈ table :=
    fun r hr => (mem_overlapping.mp hr).1
  obtain ⟨objs, hvisit, hordered, hobjs⟩ := hinst.visits
  constructor
  · rw [hvisit, Option.some.injEq]
    refine List.Perm.eq_of_pairwise (fun _ _ _ _ => SkipList.Ordered.antisymm) hordered ?_
      (hobjs.trans ?_)
    · rw [List.pairwise_map]
      exact (h.ordered.filter _).filter _
    · refine ((hperm.map MonadedObject.toInstObject).trans (.of_eq ?_)).symm
      rw [List.map_map]
      refine List.map_congr_left fun r hr => ?_
      have hid : (objectOf r).toInstObject.idD = r.objectIdD := h.idD r (hmem r hr)
      have hfirst : (objectOf r).toInstObject.first = (monadsOf r).first := h.first r (hmem r hr)
      rw [Function.comp_apply, ← hid, ← hfirst]
  · refine hinst.objects.trans ((hperm.map _).trans (.of_eq ?_)).symm
    rw [List.map_map]
    refine List.map_congr_left fun r hr => ?_
    rw [Function.comp_apply, h.idD r (hmem r hr), h.monads r (hmem r hr)]

/-- **`R_inst` on the database** gives what it gives on the list. -/
theorem getObjectsHavingMonadsIn_rInst {db : EMdFDB} (hdb : KeptBounds db) {r : ObjectTypeRow}
    (hr : r ∈ db.tables.objectTypes) {name : Name} (hn : normalizeOTName name = r.objectTypeName)
    {columns : MonadSetColumns} {bMonadSetIsFeature : Bool}
    (ht : DescribedTable columns bMonadSetIsFeature r.objectRangeType monadsOf
      (db.tables.stored.objectsOf r.objectTypeName))
    (h : a.ReadsTable info preQuery monadsOf (db.tables.stored.objectsOf r.objectTypeName)
      objectOf)
    {randomLevel : Nat → Nat} (hlevel : ∀ k, randomLevel k ≤ maxLevel)
    (hall : a.allM1.first = db.tables.minM) {Su : SetOfMonads} (hSu : Su.RepInv)
    (hne : Su.mem.Nonempty) :
    ∃ characteristicSet os inst db', a.rInst info Su = some os ∧
      characteristicSet.mem = info.reach Su ∧
      getObjectsHavingMonadsIn randomLevel columns bMonadSetIsFeature r.objectRangeType name
        characteristicSet a.allM1 preQuery .new db = (.ok inst, db') ∧
      inst.contents.begin.bind inst.contents.visit = some (os.map MonadedObject.toInstObject) ∧
      (inst.objects.map fun x => (x.1, x.2.getMonads)).Perm
        (os.map fun o => (o.idD, some o.monads)) := by
  obtain ⟨cs, hcs, hreach, hinst⟩ := rInst_spec (a := a) hSu hne info
  have hsees : SeesObjects (objectView db) (getObjectsHavingMonadsIn randomLevel columns
      bMonadSetIsFeature r.objectRangeType name cs a.allM1 preQuery .new)
      (fun inst _ => inst.Answers monadsOf (overlapping monadsOf cs preQuery
        ((objectView db).current.objectsOf r.objectTypeName))) fun _ _ => False :=
    sees_getObjectsHavingMonadsIn hdb.2 hr hn ht hlevel hcs hall
  obtain ⟨inst, db', hrun, -, hanswers⟩ := hsees.exists_ok hdb.1 rfl
  obtain ⟨hvisit, hobjects⟩ := hanswers.visits_meeting h
    (fun r hr => (ht.describes r hr).repInv) hcs
  exact ⟨cs, _, inst, db', hinst, hreach, hrun, hvisit, hobjects⟩

end Retrieved

end Emdros
