/-
# Complete statements and right postings

Indexing writes a text of MQL statements, which are to create one object for each token and
bookcase.  Two things can be asked of it: that every statement is complete, with at least one object
in it, and that the objects are the right ones.  The objects always are, for either engine; the
statements are complete only when there is something to write at the places where one is ended.

The two loops over the bookcases are stated in closed form, over the batches that `cut` makes of
them.  Engine 1 writes a statement for each batch of a hundred, and for what is left over
(`BookcaseIndexer.processBookcases_eq`).  Engine 2 prints into a cache that is emptied from time to
time, and begins a statement when the first bookcase of a batch comes; the invariant of its loop is
`Printed`, which describes this cache, and `BookcaseIndexer2.processBookcases_spec` is what comes
out.

`indexing_complete_iff` has both engines: statements are complete for engine 1 exactly when each
batch has a posting, and for engine 2 exactly when the last statement that was begun has an object.
-/
import Emdros.Harvest.IndexStatements

namespace Emdros

open SpanList (points mem_points)

/-- A value occurs among objects. -/
def OccursIn (source : IndexSource) (objects : List IndexedObject) (v : List Char) : Prop :=
  ∃ o ∈ objects, v ∈ usedValues source.filters o

/-- The objects of the created lines, in order. -/
def createdObjects (lines : List Line) : List (SetOfMonads × List Char × SetOfMonads) :=
  lines.filterMap Line.created

theorem createdObjects_terminated (stmts : List (List Line)) :
    createdObjects (terminated stmts) = createdObjects stmts.flatten := by
  induction stmts with
  | nil => rfl
  | cons s stmts ih =>
    simp only [createdObjects, terminated] at ih ⊢
    rw [List.flatMap_cons, List.filterMap_append, List.filterMap_append, ih, List.flatten_cons,
      List.filterMap_append]
    simp [Line.created]

theorem createdObjects_frame (bEmitVacuum : Bool) (stmts : List (List Line)) :
    createdObjects (terminated (frame bEmitVacuum stmts)) = createdObjects stmts.flatten := by
  rw [createdObjects_terminated, frame]
  cases bEmitVacuum <;> simp [createdObjects, Line.created, List.filterMap_cons]

/-! ## 1. Engine 1 -/

namespace BookcaseIndexer

variable {source : IndexSource}

/-- The lines of a bookcase. -/
def lines (source : IndexSource) (bookcase : ObjectMonads) : List Line :=
  (valueMap source.filters (source.indexedIn bookcase.monads)).entries.map fun p =>
    .createObject bookcase.monads p.1 p.2

theorem processBookcase_eq (bookcase : ObjectMonads) (e : Emitter) :
    processBookcase source bookcase e = ⟨e.queryCache ++ lines source bookcase, e.stream⟩ :=
  foldl_emit _ _ _

theorem created_of_mem_lines {bookcase : ObjectMonads} {line : Line}
    (h : line ∈ lines source bookcase) : line.created.isSome = true := by
  obtain ⟨p, -, rfl⟩ := List.mem_map.mp h
  rfl

/-- The statement of a batch. -/
def batchStatement (source : IndexSource) (batch : List ObjectMonads) : List Line :=
  .createObjectsWithObjectType :: batch.flatMap (lines source)

/-- **The loop.**  It ends a statement for each full batch, and leaves that of the rest. -/
theorem processBookcases_eq : ∀ (bs pre : List ObjectMonads) (count : Nat) (stream : List Line),
    count % 100 = pre.length →
      processBookcases source bs count (decide (pre ≠ [])) ⟨batchStatement source pre, stream⟩
        = (decide ((cut 100 pre bs).2 ≠ []),
          ⟨batchStatement source (cut 100 pre bs).2,
            stream ++ terminated ((cut 100 pre bs).1.map (batchStatement source))⟩)
  | [], pre, count, stream, _ => by
    rw [processBookcases, cut]
    simp [terminated]
  | b :: bs, pre, count, stream, hcount => by
    have hlines : processBookcase source b ⟨batchStatement source pre, stream⟩
        = ⟨batchStatement source (pre ++ [b]), stream⟩ := by
      rw [processBookcase_eq]
      simp [batchStatement]
    rw [processBookcases, cut]
    by_cases hfull : pre.length + 1 = 100
    · have ih := processBookcases_eq bs [] (count + 1)
        (stream ++ terminated [batchStatement source (pre ++ [b])]) (by simp; omega)
      rw [if_pos (by omega), if_pos hfull, hlines]
      have hgo : (Emitter.go ⟨batchStatement source (pre ++ [b]), stream⟩).emit
          .createObjectsWithObjectType = ⟨batchStatement source [],
            stream ++ terminated [batchStatement source (pre ++ [b])]⟩ := by
        simp [Emitter.go, Emitter.emit, batchStatement, terminated]
      rw [hgo]
      refine ih.trans ?_
      rw [List.map_cons, List.append_assoc, ← terminated_append, List.singleton_append]
    · have ih := processBookcases_eq bs (pre ++ [b]) (count + 1) stream (by simp; omega)
      rw [if_neg (by omega), if_neg hfull, hlines, ← ih]
      simp

/-- The statements of the bookcases: an empty rest leaves its header before `COMMIT`. -/
def bookcaseStatements (source : IndexSource) : List (List Line) :=
  (fullBatches 100 source.bookcases).map (batchStatement source) ++
    if lastBatch 100 source.bookcases = [] then
      [[.createObjectsWithObjectType, .commitTransaction]]
    else [batchStatement source (lastBatch 100 source.bookcases), [.commitTransaction]]

theorem process_eq (bEmitVacuum : Bool) : process source bEmitVacuum
    = terminated (frame bEmitVacuum (bookcaseStatements source)) := by
  have hloop := @processBookcases_eq source source.bookcases [] 0
    Emitter.start.stream rfl
  rw [show decide (([] : List ObjectMonads) ≠ []) = false from rfl] at hloop
  rw [process, show Emitter.start.emit .createObjectsWithObjectType
    = ⟨batchStatement source [], Emitter.start.stream⟩ from rfl, hloop]
  simp only [frame, bookcaseStatements, fullBatches, lastBatch, terminated_append]
  by_cases hlast : (cut 100 [] source.bookcases).2 = []
  · simp only [hlast, ne_eq, not_true_eq_false, decide_false, Bool.false_eq_true, if_false,
      if_true]
    rw [finish_eq, start_eq]
    cases bEmitVacuum <;> simp [batchStatement, terminated]
  · simp only [hlast, ne_eq, not_false_eq_true, decide_true, if_true, if_false]
    rw [finish_eq, start_eq]
    cases bEmitVacuum <;> simp [batchStatement, terminated, Emitter.go, Emitter.emit]

theorem mem_values_iff {bookcase : ObjectMonads} {v : List Char} :
    (∃ som, (v, som) ∈ (valueMap source.filters (source.indexedIn bookcase.monads)).entries) ↔
      OccursIn source (source.indexedIn bookcase.monads) v := by
  simp only [valueMap, OrdMap.mem_collect]
  constructor
  · rintro ⟨som, ⟨⟨v', o⟩, hp, rfl⟩, -⟩
    exact ⟨o, mem_valuePairs.mp hp⟩
  · rintro ⟨o, ho, hv⟩
    exact ⟨_, ⟨(v, o), mem_valuePairs.mpr ⟨ho, hv⟩, rfl⟩, rfl⟩

theorem lines_eq_nil_iff {bookcase : ObjectMonads} : lines source bookcase = [] ↔
    ¬ ∃ v, OccursIn source (source.indexedIn bookcase.monads) v := by
  rw [lines, List.map_eq_nil_iff, List.eq_nil_iff_forall_not_mem]
  constructor
  · rintro h ⟨v, hv⟩
    obtain ⟨som, hsom⟩ := mem_values_iff.mpr hv
    exact h _ hsom
  · rintro h ⟨v, som⟩ hmem
    exact h ⟨v, mem_values_iff.mp ⟨som, hmem⟩⟩

/-- A batch has a posting: a filtered value occurs in one of its bookcases. -/
def HasPosting (source : IndexSource) (batch : List ObjectMonads) : Prop :=
  ∃ b ∈ batch, ∃ v, OccursIn source (source.indexedIn b.monads) v

theorem completeStatement_batch_iff {batch : List ObjectMonads} :
    CompleteStatement (batchStatement source batch) ↔ HasPosting source batch := by
  rw [batchStatement, completeStatement_header_iff]
  · rw [ne_eq, List.flatMap_eq_nil_iff, HasPosting]
    simp only [lines_eq_nil_iff, not_forall, not_not, exists_prop]
  · intro line hline
    obtain ⟨b, -, hb⟩ := List.mem_flatMap.mp hline
    exact created_of_mem_lines hb

/-- The condition for engine 1: every hundred bookcases, and what is left over, contain a
posting. -/
def EachBatchPosts (source : IndexSource) : Prop :=
  (∀ batch ∈ fullBatches 100 source.bookcases, HasPosting source batch) ∧
    HasPosting source (lastBatch 100 source.bookcases)

/-- **Engine 1 emits complete statements exactly when every batch posts.** -/
theorem complete_iff (bEmitVacuum : Bool) :
    Complete (process source bEmitVacuum) ↔ EachBatchPosts source := by
  have hbatch : ∀ batch, ∀ line ∈ batchStatement source batch, line ≠ Line.go := by
    intro batch line hline
    rcases List.mem_cons.mp hline with rfl | hline
    · intro h
      cases h
    · obtain ⟨b, -, hb⟩ := List.mem_flatMap.mp hline
      exact ne_go_of_created (created_of_mem_lines hb)
  rw [process_eq, complete_frame_iff]
  · rw [bookcaseStatements, EachBatchPosts]
    by_cases hlast : lastBatch 100 source.bookcases = []
    · rw [if_pos hlast, hlast]
      constructor
      · intro h
        have hbad := h [.createObjectsWithObjectType, .commitTransaction] (by simp)
        rcases hbad with ⟨line, -, heq⟩ | ⟨objects, -, hall, heq⟩
        · simp at heq
        · have := hall .commitTransaction (by rw [← (List.cons.inj heq).2]; simp)
          cases this
      · rintro ⟨-, b, hb, -⟩
        exact (List.not_mem_nil hb).elim
    · rw [if_neg hlast]
      have hcommit : CompleteStatement [Line.commitTransaction] := Or.inl ⟨_, rfl, rfl⟩
      simp only [List.mem_append, List.mem_map, List.mem_cons, List.not_mem_nil, or_false]
      constructor
      · intro h
        refine ⟨fun batch hb => ?_, ?_⟩
        · exact completeStatement_batch_iff.mp (h _ (Or.inl ⟨batch, hb, rfl⟩))
        · exact completeStatement_batch_iff.mp (h _ (Or.inr (Or.inl rfl)))
      · rintro ⟨hfull, hrest⟩ s (⟨batch, hb, rfl⟩ | rfl | rfl)
        · exact completeStatement_batch_iff.mpr (hfull batch hb)
        · exact completeStatement_batch_iff.mpr hrest
        · exact hcommit
  · intro s hs line hline
    rw [bookcaseStatements, List.mem_append] at hs
    rcases hs with hs | hs
    · obtain ⟨batch, -, rfl⟩ := List.mem_map.mp hs
      exact hbatch batch line hline
    · split at hs
      · rw [List.mem_singleton.mp hs] at hline
        simp only [List.mem_cons, List.not_mem_nil, or_false] at hline
        rcases hline with rfl | rfl <;> intro h <;> cases h
      · simp only [List.mem_cons, List.not_mem_nil, or_false] at hs
        rcases hs with rfl | rfl
        · exact hbatch _ line hline
        · rw [List.mem_singleton.mp hline]
          intro h
          cases h

/-- What engine 1 has to emit: for each bookcase one object for each filtered value that occurs
in it, with the union of the monads of the objects that carry the value. -/
def Posts (source : IndexSource) (lines : List Line) : Prop :=
  ∃ post : ObjectMonads → List (List Char × SetOfMonads),
    createdObjects lines
      = (source.bookcases.flatMap fun b => (post b).map fun p => (b.monads, p.1, p.2)) ∧
    ∀ b ∈ source.bookcases, ((post b).map (·.1)).Nodup ∧
      (∀ v, v ∈ (post b).map (·.1) ↔ OccursIn source (source.indexedIn b.monads) v) ∧
      ∀ p ∈ post b, ∀ m, m ∈ p.2.mem ↔
        ∃ o ∈ source.indexedIn b.monads, p.1 ∈ usedValues source.filters o ∧ m ∈ o.monads.mem

theorem createdObjects_batches (l : List (List ObjectMonads)) :
    createdObjects (l.map (batchStatement source)).flatten
      = createdObjects (l.flatten.flatMap (lines source)) := by
  induction l with
  | nil => rfl
  | cons batch l ih =>
    simp only [createdObjects] at ih ⊢
    rw [List.map_cons, List.flatten_cons, List.filterMap_append, ih, List.flatten_cons,
      List.flatMap_append, List.filterMap_append, batchStatement]
    simp [Line.created, List.filterMap_cons]

theorem nodup_keys {κ ν : Type*} [LinearOrder κ] (m : OrdMap κ ν) :
    (m.entries.map (·.1)).Nodup := by
  refine (List.pairwise_map.mpr (m.sorted.imp fun {a b} hab => ?_))
  exact ne_of_lt hab

/-- **The postings of engine 1 are right for every source.** -/
theorem posts_process (bEmitVacuum : Bool) : Posts source (process source bEmitVacuum) := by
  refine ⟨fun b => (valueMap source.filters (source.indexedIn b.monads)).entries, ?_, ?_⟩
  · rw [process_eq, createdObjects_frame, bookcaseStatements]
    have hsplit := flatten_batches 100 source.bookcases
    have hlines : ∀ bs : List ObjectMonads, createdObjects (bs.flatMap (lines source))
        = bs.flatMap fun b => ((valueMap source.filters
            (source.indexedIn b.monads)).entries.map fun p => (b.monads, p.1, p.2)) := by
      intro bs
      rw [createdObjects, List.filterMap_flatMap]
      congr 1
      funext b
      rw [lines, List.filterMap_map]
      exact congrFun (List.filterMap_eq_map 
        (f := fun p : List Char × SetOfMonads => (b.monads, p.1, p.2))) _
    have hrest : createdObjects (List.flatten (if lastBatch 100 source.bookcases = [] then
          [[Line.createObjectsWithObjectType, Line.commitTransaction]]
        else [batchStatement source (lastBatch 100 source.bookcases), [.commitTransaction]]))
        = createdObjects ((lastBatch 100 source.bookcases).flatMap (lines source)) := by
      split
      · rename_i hlast
        rw [hlast]
        simp [createdObjects, Line.created, List.filterMap_cons]
      · simp [createdObjects, batchStatement, Line.created, List.filterMap_cons]
    have hall : createdObjects (source.bookcases.flatMap (lines source))
        = createdObjects (((fullBatches 100 source.bookcases).flatten
            ++ lastBatch 100 source.bookcases).flatMap (lines source)) := by
      rw [hsplit]
    rw [← hlines, hall, List.flatten_append, List.flatMap_append]
    have hfull := @createdObjects_batches source (fullBatches 100 source.bookcases)
    simp only [createdObjects, List.filterMap_append] at hrest hfull ⊢
    rw [hrest, hfull]
  · intro b _
    refine ⟨nodup_keys _, ?_, ?_⟩
    · intro v
      rw [← mem_values_iff, List.mem_map]
      constructor
      · rintro ⟨p, hp, rfl⟩
        exact ⟨p.2, hp⟩
      · rintro ⟨som, hsom⟩
        exact ⟨(v, som), hsom, rfl⟩
    · rintro ⟨v, som⟩ hp m
      rw [(OrdMap.mem_collect.mp hp).2, foldl_union_spec (g := fun p => p.2.monads.mem)
        (fun s p hs => SetOfMonads.unionWith_spec hs p.2.rep) _ SetOfMonads.repInv_empty]
      simp only [SetOfMonads.mem_empty, Set.mem_empty_iff_false, false_or, List.mem_filter,
        decide_eq_true_iff]
      constructor
      · rintro ⟨⟨v', o⟩, ⟨hvo, rfl⟩, hm⟩
        obtain ⟨ho, hv⟩ := mem_valuePairs.mp hvo
        exact ⟨o, ho, hv, hm⟩
      · rintro ⟨o, ho, hv, hm⟩
        exact ⟨(v, o), ⟨mem_valuePairs.mpr ⟨ho, hv⟩, rfl⟩, hm⟩

end BookcaseIndexer

/-! ## 2. Engine 2 -/

namespace BookcaseIndexer2

variable {source : IndexSource}

/-- A turn of the inner loops, with the bookcase it belongs to. -/
abbrev Turn := List Char × ObjectMonads × IndexedObject

/-- All turns for a list of bookcases. -/
def turns (source : IndexSource) (bs : List ObjectMonads) : List Turn :=
  bs.flatMap fun b =>
    (valuePairs source.filters (indexedInRange source b)).map fun p => (p.1, b, p.2)

def turnStep (soms : SetOfMonads × SetOfMonads) (t : Turn) : SetOfMonads × SetOfMonads :=
  addTo t.2.1 soms (t.1, t.2.2)

/-- `m_mymap` after the bookcases `bs`. -/
def mapOf (source : IndexSource) (bs : List ObjectMonads) :
    OrdMap (List Char) (SetOfMonads × SetOfMonads) :=
  OrdMap.collect (fun t => t.1) (SetOfMonads.empty, SetOfMonads.empty) turnStep (turns source bs)

/-- The objects that are created from the map. -/
def printed (source : IndexSource) (bs : List ObjectMonads) :
    List (SetOfMonads × List Char × SetOfMonads) :=
  (mapOf source bs).entries.map fun p => (p.2.1, p.1, p.2.2)

def printedLines (source : IndexSource) (bs : List ObjectMonads) : List Line :=
  (mapOf source bs).entries.map fun p => .createObject p.2.1 p.1 p.2.2

theorem createdObjects_printedLines (bs : List ObjectMonads) :
    createdObjects (printedLines source bs) = printed source bs := by
  rw [createdObjects, printedLines, List.filterMap_map]
  exact congrFun (List.filterMap_eq_map
    (f := fun p : List Char × SetOfMonads × SetOfMonads => (p.2.1, p.1, p.2.2))) _

theorem created_of_mem_printedLines {bs : List ObjectMonads} {line : Line}
    (h : line ∈ printedLines source bs) : line.created.isSome = true := by
  obtain ⟨p, -, rfl⟩ := List.mem_map.mp h
  rfl

theorem length_printedLines (bs : List ObjectMonads) :
    (printedLines source bs).length = (mapOf source bs).entries.length := List.length_map _

/-- A bookcase adds its turns to the map. -/
theorem collectBookcase_mymap {s : BookcaseIndexer2} {pre : List ObjectMonads} (b : ObjectMonads)
    (h : s.mymap = mapOf source pre) :
    (collectBookcase source b s).mymap = mapOf source (pre ++ [b]) := by
  have hturns : turns source (pre ++ [b]) = turns source pre
      ++ (valuePairs source.filters (indexedInRange source b)).map fun p => (p.1, b, p.2) := by
    simp [turns]
  rw [mapOf, hturns, OrdMap.collect, OrdMap.collectInto, List.foldl_append, List.foldl_map]
  show OrdMap.collectInto _ _ _ s.mymap _ = _
  rw [h]
  rfl

/-- The different filtered values that occur in a batch. -/
def distinctValues (source : IndexSource) (batch : List ObjectMonads) : Nat :=
  (batch.flatMap fun b => (indexedInRange source b).flatMap
    (usedValues source.filters)).dedup.length

theorem mem_keys_mapOf {bs : List ObjectMonads} {v : List Char} :
    v ∈ (mapOf source bs).entries.map (·.1) ↔
      ∃ b ∈ bs, OccursIn source (indexedInRange source b) v := by
  rw [List.mem_map]
  constructor
  · rintro ⟨⟨v', soms⟩, he, rfl⟩
    obtain ⟨t, ht, rfl⟩ := (OrdMap.mem_collect.mp he).1
    obtain ⟨b, hb, ht⟩ := List.mem_flatMap.mp ht
    obtain ⟨⟨v, o⟩, hp, rfl⟩ := List.mem_map.mp ht
    exact ⟨b, hb, o, mem_valuePairs.mp hp⟩
  · rintro ⟨b, hb, o, ho, hv⟩
    refine ⟨(v, _), OrdMap.mem_collect.mpr ⟨⟨(v, b, o), ?_, rfl⟩, rfl⟩, rfl⟩
    refine List.mem_flatMap.mpr ⟨b, hb, List.mem_map.mpr ⟨(v, o), ?_, rfl⟩⟩
    exact mem_valuePairs.mpr ⟨ho, hv⟩

/-- As many objects are created as there are different values. -/
theorem length_mapOf (bs : List ObjectMonads) :
    (mapOf source bs).entries.length = distinctValues source bs := by
  have hperm : ((mapOf source bs).entries.map (·.1)).Perm
      (bs.flatMap fun b => (indexedInRange source b).flatMap
        (usedValues source.filters)).dedup := by
    refine (List.perm_ext_iff_of_nodup (BookcaseIndexer.nodup_keys _)
      (List.nodup_dedup _)).mpr fun v => ?_
    rw [mem_keys_mapOf, List.mem_dedup]
    simp only [List.mem_flatMap, OccursIn]
  rw [distinctValues, ← hperm.length_eq, List.length_map]

/-- A batch has a posting. -/
def HasPosting (source : IndexSource) (batch : List ObjectMonads) : Prop :=
  ∃ b ∈ batch, ∃ v, OccursIn source (indexedInRange source b) v

theorem hasPosting_iff {bs : List ObjectMonads} :
    HasPosting source bs ↔ (mapOf source bs).entries ≠ [] := by
  constructor
  · rintro ⟨b, hb, v, hv⟩ hnil
    have hmem := mem_keys_mapOf.mpr ⟨b, hb, hv⟩
    rw [hnil] at hmem
    exact List.not_mem_nil hmem
  · intro hne
    obtain ⟨e, he⟩ := List.exists_mem_of_ne_nil _ hne
    obtain ⟨b, hb, hv⟩ := mem_keys_mapOf.mp (List.mem_map_of_mem (f := (·.1)) he)
    exact ⟨b, hb, e.1, hv⟩

/-- One full batch: was a `GO` emitted after it, and how many objects were created since the
last `GO`. -/
def batchStep (s : Bool × Nat) (objects : Nat) : Bool × Nat :=
  if s.2 + objects ≥ 50000 then (true, 0) else (false, s.2 + objects)

/-- The query cache in the course of the loop: the batches `done` are printed, the last `n`
objects stand in a statement that is not ended yet, which has no header when one is due. -/
structure Printed (source : IndexSource) (done : List (List ObjectMonads)) (n : Nat)
    (headerDue : Bool) (cache : List Line) : Prop where
  shape : ∃ stmts objects, cache = terminated stmts ++
      (if headerDue then [] else .createObjectsWithObjectType :: objects) ∧
    (∀ s ∈ stmts, CompleteStatement s ∧ ∀ line ∈ s, line ≠ Line.go) ∧
    (∀ line ∈ objects, line.created.isSome = true) ∧ objects.length = n
  created : createdObjects cache = done.flatMap (printed source)

theorem Printed.header {done : List (List ObjectMonads)} {n : Nat} {headerDue : Bool}
    {cache : List Line} (h : Printed source done n headerDue cache)
    (hn : headerDue = true → n = 0) :
    Printed source done n false
      (if headerDue then cache ++ [.createObjectsWithObjectType] else cache) := by
  obtain ⟨⟨stmts, objects, hcache, hstmts, hobjects, hlen⟩, hcreated⟩ := h
  cases headerDue with
  | false => exact ⟨⟨stmts, objects, by simpa using hcache, hstmts, hobjects, hlen⟩, hcreated⟩
  | true =>
    refine ⟨⟨stmts, [], ?_, hstmts, List.forall_mem_nil _, (hn rfl).symm⟩, ?_⟩
    · simpa using hcache
    · rw [if_pos rfl, ← hcreated]
      simp [createdObjects, Line.created, List.filterMap_cons]

theorem Printed.print {done : List (List ObjectMonads)} {n : Nat} {cache : List Line}
    (h : Printed source done n false cache) (batch : List ObjectMonads) :
    Printed source (done ++ [batch]) (n + distinctValues source batch) false
      (cache ++ printedLines source batch) := by
  obtain ⟨⟨stmts, objects, hcache, hstmts, hobjects, hlen⟩, hcreated⟩ := h
  refine ⟨⟨stmts, objects ++ printedLines source batch, ?_, hstmts, ?_, ?_⟩, ?_⟩
  · rw [hcache]
    simp
  · intro line hline
    rcases List.mem_append.mp hline with hline | hline
    · exact hobjects line hline
    · exact created_of_mem_printedLines hline
  · rw [List.length_append, hlen, length_printedLines, length_mapOf]
  · have hbatch := @createdObjects_printedLines source batch
    simp only [createdObjects] at hcreated hbatch ⊢
    rw [List.filterMap_append, hcreated, hbatch]
    simp

/-- A `GO` ends the statement, which is complete as it has objects. -/
theorem Printed.go {done : List (List ObjectMonads)} {n : Nat} {cache : List Line}
    (h : Printed source done n false cache) (hn : 0 < n) :
    Printed source done 0 true (cache ++ [Line.go]) := by
  obtain ⟨⟨stmts, objects, hcache, hstmts, hobjects, hlen⟩, hcreated⟩ := h
  refine ⟨⟨stmts ++ [.createObjectsWithObjectType :: objects], [], ?_, ?_,
    List.forall_mem_nil _, rfl⟩, ?_⟩
  · rw [hcache, terminated_append]
    simp [terminated]
  · intro s hs
    rcases List.mem_append.mp hs with hs | hs
    · exact hstmts s hs
    · rw [List.mem_singleton.mp hs]
      refine ⟨(completeStatement_header_iff hobjects).mpr ?_, ?_⟩
      · intro hnil
        rw [hnil, List.length_nil] at hlen
        omega
      · intro line hline
        rcases List.mem_cons.mp hline with rfl | hline
        · intro hgo
          cases hgo
        · exact ne_go_of_created (hobjects line hline)
  · rw [← hcreated]
    simp [createdObjects, Line.created, List.filterMap_cons]

theorem printMymap_emitter (s : BookcaseIndexer2) {bs : List ObjectMonads}
    (h : s.mymap = mapOf source bs) : (printMymap s).emitter
      = ⟨s.emitter.queryCache ++ printedLines source bs, s.emitter.stream⟩ := by
  rw [printMymap, h]
  exact foldl_emit _ _ _

/-- The state of the loop when `pre` is collected since the last printing, where `st` is what
the full batches left. -/
structure LoopState (source : IndexSource) (size : Nat) (done : List (List ObjectMonads))
    (st : Bool × Nat) (pre : List ObjectMonads) (headerDue : Bool) (s : BookcaseIndexer2) :
    Prop where
  cache : Printed source done st.2 headerDue s.emitter.queryCache
  mymap : s.mymap = mapOf source pre
  count : s.bookcaseCount = pre.length
  short : pre.length < size
  objects : s.objectCount = st.2
  limit : st.2 < 50000
  due : headerDue = if pre = [] then st.1 else false
  none_due : st.1 = true → st.2 = 0

/-- What `emitHeader` does. -/
theorem LoopState.header {size : Nat} {done : List (List ObjectMonads)} {st : Bool × Nat}
    {pre : List ObjectMonads} {headerDue : Bool} {s : BookcaseIndexer2}
    (h : LoopState source size done st pre headerDue s) :
    Printed source done st.2 false (emitHeader headerDue s).emitter.queryCache ∧
      (emitHeader headerDue s).emitter.stream = s.emitter.stream ∧
      (emitHeader headerDue s).mymap = mapOf source pre ∧
      (emitHeader headerDue s).bookcaseCount = pre.length ∧
      (emitHeader headerDue s).objectCount = st.2 := by
  have hst : headerDue = true → pre = [] ∧ st.1 = true := by
    intro hdue
    have hd := h.due
    rw [hdue] at hd
    split at hd
    · exact ⟨by assumption, hd.symm⟩
    · cases hd
  have hcache := h.cache.header fun hdue => h.none_due (hst hdue).2
  cases hdue : headerDue with
  | false =>
    rw [hdue] at hcache
    exact ⟨hcache, rfl, h.mymap, h.count, h.objects⟩
  | true =>
    rw [hdue] at hcache
    have hpre := (hst hdue).1
    subst hpre
    have hnil : (emit .createObjectsWithObjectType s).mymap.entries = [] := by
      show s.mymap.entries = []
      rw [h.mymap]
      rfl
    rw [emitHeader, if_pos rfl]
    refine ⟨?_, ?_, rfl, rfl, ?_⟩
    · rw [printMymap, hnil]
      exact hcache
    · rw [printMymap, hnil]
      rfl
    · rw [printMymap, hnil]
      exact h.objects

/-- **The loop.**  The batches of `maxBookcasesPerObject + 1` bookcases are printed one after
the other. -/
theorem processBookcases_spec (maxBookcases : Int) :
    ∀ (bs pre : List ObjectMonads) (done : List (List ObjectMonads)) (st : Bool × Nat)
      (headerDue : Bool) (s : BookcaseIndexer2),
      LoopState source (maxBookcases.toNat + 1) done st pre headerDue s →
        ∃ headerDue' s', processBookcases source maxBookcases bs (!headerDue) headerDue s
            = (!headerDue', headerDue', s') ∧ s'.emitter.stream = s.emitter.stream ∧
          LoopState source (maxBookcases.toNat + 1)
            (done ++ (cut (maxBookcases.toNat + 1) pre bs).1)
            (((cut (maxBookcases.toNat + 1) pre bs).1.map (distinctValues source)).foldl
              batchStep st)
            (cut (maxBookcases.toNat + 1) pre bs).2 headerDue' s'
  | [], pre, done, st, headerDue, s, h => ⟨headerDue, s, rfl, rfl, by simpa [cut] using h⟩
  | b :: bs, pre, done, st, headerDue, s, h => by
    obtain ⟨hcache, hstream, hmap, hcount, hobjects⟩ := h.header
    have hmap' := collectBookcase_mymap b hmap
    have hshort := h.short
    have hlimit := h.limit
    rw [processBookcases, cut]
    by_cases hfull : pre.length + 1 = maxBookcases.toNat + 1
    · -- the batch is full and is printed
      have hprint : processBookcase source maxBookcases b (emitHeader headerDue s)
          = printMymap (collectBookcase source b (emitHeader headerDue s)) := by
        rw [processBookcase, if_pos]
        show (emitHeader headerDue s).bookcaseCount + 1 > maxBookcases
        omega
      have hemit := printMymap_emitter _ hmap'
      have hcache' : Printed source (done ++ [pre ++ [b]])
          (st.2 + distinctValues source (pre ++ [b])) false
          (printMymap (collectBookcase source b (emitHeader headerDue s))).emitter.queryCache := by
        rw [hemit]
        exact hcache.print (pre ++ [b])
      have hobjects' : (printMymap (collectBookcase source b
          (emitHeader headerDue s))).objectCount
          = st.2 + distinctValues source (pre ++ [b]) := by
        rw [printMymap, hmap', length_mapOf, ← hobjects]
        rfl
      rw [if_pos hfull, hprint]
      simp only [hobjects']
      by_cases hgo : st.2 + distinctValues source (pre ++ [b]) ≥ 50000
      · rw [if_pos hgo]
        have hst : batchStep st (distinctValues source (pre ++ [b])) = (true, 0) := by
          rw [batchStep, if_pos hgo]
        obtain ⟨due', s', hrun, hstr, hloop⟩ := processBookcases_spec maxBookcases bs []
          (done ++ [pre ++ [b]]) (true, 0) true
          { emit .go (printMymap (collectBookcase source b (emitHeader headerDue s))) with
            objectCount := 0 }
          { cache := hcache'.go (by omega)
            mymap := rfl
            count := rfl
            short := Nat.succ_pos _
            objects := rfl
            limit := by omega
            due := rfl
            none_due := fun _ => rfl }
        refine ⟨due', s', hrun, ?_, ?_⟩
        · rw [hstr]
          show (printMymap _).emitter.stream = _
          rw [hemit, ← hstream]
          rfl
        · rw [List.append_assoc, List.singleton_append] at hloop
          rw [List.map_cons, List.foldl_cons, hst]
          exact hloop
      · rw [if_neg hgo]
        have hst : batchStep st (distinctValues source (pre ++ [b]))
            = (false, st.2 + distinctValues source (pre ++ [b])) := by
          rw [batchStep, if_neg hgo]
        obtain ⟨due', s', hrun, hstr, hloop⟩ := processBookcases_spec maxBookcases bs []
          (done ++ [pre ++ [b]]) (false, st.2 + distinctValues source (pre ++ [b])) false _
          { cache := hcache'
            mymap := rfl
            count := rfl
            short := Nat.succ_pos _
            objects := hobjects'
            limit := not_le.mp hgo
            due := rfl
            none_due := fun hc => by cases hc }
        refine ⟨due', s', hrun, ?_, ?_⟩
        · rw [hstr, hemit, ← hstream]
          rfl
        · rw [List.append_assoc, List.singleton_append] at hloop
          rw [List.map_cons, List.foldl_cons, hst]
          exact hloop
    · -- the bookcase is only collected
      have hcollect : processBookcase source maxBookcases b (emitHeader headerDue s)
          = collectBookcase source b (emitHeader headerDue s) := by
        rw [processBookcase, if_neg]
        show ¬ (emitHeader headerDue s).bookcaseCount + 1 > maxBookcases
        omega
      have hobjects' : (collectBookcase source b (emitHeader headerDue s)).objectCount
          = st.2 := hobjects
      rw [if_neg hfull, hcollect]
      simp only [hobjects']
      rw [if_neg (by omega)]
      obtain ⟨due', s', hrun, hstr, hloop⟩ := processBookcases_spec maxBookcases bs
        (pre ++ [b]) done st false (collectBookcase source b (emitHeader headerDue s))
        { cache := (hcache : Printed source done st.2 false
            (collectBookcase source b (emitHeader headerDue s)).emitter.queryCache)
          mymap := hmap'
          count := by
            show (emitHeader headerDue s).bookcaseCount + 1 = _
            simp [hcount]
          short := by
            rw [List.length_append, List.length_singleton]
            omega
          objects := hobjects'
          limit := hlimit
          due := by simp
          none_due := h.none_due }
      exact ⟨due', s', hrun, hstr.trans hstream, hloop⟩

/-- What the full batches leave: was the last thing a `GO` (or nothing at all), and how many
objects were created since. -/
def afterFullBatches (source : IndexSource) (size : Nat) : Bool × Nat :=
  ((fullBatches size source.bookcases).map (distinctValues source)).foldl batchStep (true, 0)

/-- The condition for engine 2, with batches of `size` bookcases: a statement that was begun
has an object in it. -/
def LastStatementPosts (source : IndexSource) (size : Nat) : Prop :=
  0 < (afterFullBatches source size).2 ∨
    if lastBatch size source.bookcases = [] then (afterFullBatches source size).1 = true
    else HasPosting source (lastBatch size source.bookcases)

/-- `COMMIT` right after a `GO` in the cache. -/
theorem finish_terminated (bEmitVacuum : Bool) (stmts : List (List Line)) :
    Emitter.finish bEmitVacuum ⟨terminated stmts, Emitter.start.stream⟩
      = terminated (frame bEmitVacuum (stmts ++ [[.commitTransaction]])) := by
  rw [finish_eq, start_eq]
  cases bEmitVacuum <;> simp [terminated, frame]

/-- `COMMIT` after a final `GO`. -/
theorem finish_go (bEmitVacuum : Bool) (stmts : List (List Line)) (s : List Line) :
    Emitter.finish bEmitVacuum (Emitter.go ⟨terminated stmts ++ s, Emitter.start.stream⟩)
      = terminated (frame bEmitVacuum (stmts ++ [s, [.commitTransaction]])) := by
  rw [finish_eq, start_eq]
  cases bEmitVacuum <;> simp [terminated, frame, Emitter.go, Emitter.emit]

/-- Statements that are complete, a last one with objects, and `COMMIT`. -/
theorem complete_objects_iff {bEmitVacuum : Bool} {stmts : List (List Line)}
    {objects : List Line}
    (hstmts : ∀ s ∈ stmts, CompleteStatement s ∧ ∀ line ∈ s, line ≠ Line.go)
    (hobjects : ∀ line ∈ objects, line.created.isSome = true) :
    Complete (terminated (frame bEmitVacuum (stmts ++
      [.createObjectsWithObjectType :: objects, [.commitTransaction]]))) ↔ objects ≠ [] := by
  rw [complete_frame_iff, ← completeStatement_header_iff hobjects]
  · constructor
    · intro h
      exact h _ (by simp)
    · intro h s hs
      simp only [List.mem_append, List.mem_cons, List.not_mem_nil, or_false] at hs
      rcases hs with hs | rfl | rfl
      · exact (hstmts s hs).1
      · exact h
      · exact Or.inl ⟨_, rfl, rfl⟩
  · intro s hs line hline
    simp only [List.mem_append, List.mem_cons, List.not_mem_nil, or_false] at hs
    rcases hs with hs | rfl | rfl
    · exact (hstmts s hs).2 line hline
    · rcases List.mem_cons.mp hline with rfl | hline
      · intro hgo
        cases hgo
      · exact ne_go_of_created (hobjects line hline)
    · rw [List.mem_singleton.mp hline]
      intro hgo
      cases hgo

theorem complete_commit {bEmitVacuum : Bool} {stmts : List (List Line)}
    (hstmts : ∀ s ∈ stmts, CompleteStatement s ∧ ∀ line ∈ s, line ≠ Line.go) :
    Complete (terminated (frame bEmitVacuum (stmts ++ [[.commitTransaction]]))) := by
  rw [complete_frame_iff]
  · intro s hs
    rcases List.mem_append.mp hs with hs | hs
    · exact (hstmts s hs).1
    · rw [List.mem_singleton.mp hs]
      exact Or.inl ⟨_, rfl, rfl⟩
  · intro s hs line hline
    rcases List.mem_append.mp hs with hs | hs
    · exact (hstmts s hs).2 line hline
    · rw [List.mem_singleton.mp hs, List.mem_singleton] at hline
      rw [hline]
      intro hgo
      cases hgo

theorem createdObjects_objects (bEmitVacuum : Bool) (stmts : List (List Line))
    (objects : List Line) : createdObjects (terminated (frame bEmitVacuum (stmts ++
      [.createObjectsWithObjectType :: objects, [.commitTransaction]])))
        = createdObjects (terminated stmts) ++ createdObjects objects := by
  rw [createdObjects_frame, createdObjects_terminated]
  simp [createdObjects, Line.created, List.filterMap_cons]

/-- **Engine 2 emits complete statements exactly when the last one has an object.** -/
theorem process_spec (maxBookcases : Int) (bEmitVacuum : Bool) :
    (Complete (process source maxBookcases bEmitVacuum) ↔
        LastStatementPosts source (maxBookcases.toNat + 1)) ∧
      createdObjects (process source maxBookcases bEmitVacuum)
        = (fullBatches (maxBookcases.toNat + 1) source.bookcases
            ++ [lastBatch (maxBookcases.toNat + 1) source.bookcases]).flatMap
              (printed source) := by
  obtain ⟨due, s, hrun, hstream, h⟩ := @processBookcases_spec source maxBookcases
    source.bookcases [] [] (true, 0) true (new Emitter.start)
    { cache := ⟨⟨[], [], rfl, List.forall_mem_nil _, List.forall_mem_nil _, rfl⟩, rfl⟩
      mymap := rfl
      count := rfl
      short := Nat.succ_pos _
      objects := rfl
      limit := by omega
      due := rfl
      none_due := fun _ => rfl }
  rw [List.nil_append] at h
  obtain ⟨⟨⟨stmts, objects, hcache, hstmts, hobjects, hlen⟩, hcreated⟩, hmap, -, -, -, -, hdue,
    -⟩ := h
  change due = if lastBatch (maxBookcases.toNat + 1) source.bookcases = [] then
    (afterFullBatches source (maxBookcases.toNat + 1)).1 else false at hdue
  change _ = (fullBatches (maxBookcases.toNat + 1) source.bookcases).flatMap _ at hcreated
  change _ = (afterFullBatches source (maxBookcases.toNat + 1)).2 at hlen
  rw [show (!true) = false from rfl] at hrun
  have hstart : s.emitter.stream = Emitter.start.stream := hstream
  have hemitter : s.emitter = ⟨s.emitter.queryCache, Emitter.start.stream⟩ := by
    rw [← hstart]
  rw [List.flatMap_append, List.flatMap_singleton]
  by_cases hnil : (mapOf source (lastBatch (maxBookcases.toNat + 1) source.bookcases)).entries = []
  · -- nothing is left to be printed
    have hnopost : ¬ HasPosting source (lastBatch (maxBookcases.toNat + 1) source.bookcases) :=
      fun hp => hasPosting_iff.mp hp hnil
    have hprinted : printed source (lastBatch (maxBookcases.toNat + 1) source.bookcases) = [] := by
      rw [printed, hnil]
      rfl
    have hrest : printRest (!due) due s = (!due, s.emitter) := by
      rw [printRest, if_pos]
      rw [OrdMap.isEmpty, hmap]
      exact List.isEmpty_iff.mpr hnil
    rw [hprinted, List.append_nil]
    cases due with
    | true =>
      have hprocess : process source maxBookcases bEmitVacuum
          = terminated (frame bEmitVacuum (stmts ++ [[.commitTransaction]])) := by
        rw [if_pos rfl, List.append_nil] at hcache
        rw [process]
        simp only [hrun, hrest]
        rw [← finish_terminated, ← hcache, ← hemitter]
        rfl
      rw [hprocess]
      refine ⟨⟨fun _ => ?_, fun _ => complete_commit hstmts⟩, ?_⟩
      · right
        split at hdue
        · rename_i hlast
          rw [if_pos hlast]
          exact hdue.symm
        · cases hdue
      · rw [if_pos rfl, List.append_nil] at hcache
        rw [hcache] at hcreated
        rw [← hcreated, createdObjects_frame, createdObjects_terminated]
        simp [createdObjects, Line.created, List.filterMap_cons]
    | false =>
      have hprocess : process source maxBookcases bEmitVacuum
          = terminated (frame bEmitVacuum (stmts ++
            [.createObjectsWithObjectType :: objects, [.commitTransaction]])) := by
        rw [process]
        simp only [hrun, hrest]
        rw [← finish_go, hemitter, hcache]
        rfl
      rw [hprocess, complete_objects_iff hstmts hobjects]
      constructor
      · have hpos : objects ≠ [] ↔ 0 < (afterFullBatches source (maxBookcases.toNat + 1)).2 := by
          rw [← List.length_pos_iff, hlen]
        rw [hpos, LastStatementPosts]
        refine ⟨Or.inl, ?_⟩
        rintro (hn | hlast)
        · exact hn
        · exfalso
          split at hlast
          · rename_i hlast'
            rw [if_pos hlast', hlast] at hdue
            cases hdue
          · exact hnopost hlast
      · rw [createdObjects_objects]
        rw [hcache] at hcreated
        refine Eq.trans ?_ hcreated
        simp [createdObjects, Line.created, List.filterMap_cons]
  · -- the rest is printed under the header that stands
    have hpost : HasPosting source (lastBatch (maxBookcases.toNat + 1) source.bookcases) :=
      hasPosting_iff.mpr hnil
    have hlast : lastBatch (maxBookcases.toNat + 1) source.bookcases ≠ [] := by
      intro hl
      rw [hl] at hnil
      exact hnil rfl
    have hfalse : due = false := by
      rw [hdue, if_neg]
      exact hlast
    subst hfalse
    have hrest : printRest (!false) false s = (true, (printMymap s).emitter) := by
      rw [printRest, if_neg]
      · rfl
      · rw [OrdMap.isEmpty, hmap, List.isEmpty_iff]
        exact hnil
    have hprocess : process source maxBookcases bEmitVacuum
        = terminated (frame bEmitVacuum (stmts ++
          [.createObjectsWithObjectType :: (objects ++ printedLines source
            (lastBatch (maxBookcases.toNat + 1) source.bookcases)), [.commitTransaction]])) := by
      rw [process]
      simp only [hrun, hrest]
      rw [← finish_go, printMymap_emitter s hmap, hstart, hcache]
      simp [lastBatch]
    have hobjects' : ∀ line ∈ objects ++ printedLines source
        (lastBatch (maxBookcases.toNat + 1) source.bookcases), line.created.isSome = true := by
      intro line hline
      rcases List.mem_append.mp hline with hline | hline
      · exact hobjects line hline
      · exact created_of_mem_printedLines hline
    have hne : objects ++ printedLines source
        (lastBatch (maxBookcases.toNat + 1) source.bookcases) ≠ [] := by
      intro hnil'
      have hnil'' := (List.append_eq_nil_iff.mp hnil').2
      rw [printedLines, List.map_eq_nil_iff] at hnil''
      exact hnil hnil''
    rw [hprocess, complete_objects_iff hstmts hobjects']
    refine ⟨⟨fun _ => ?_, fun _ => hne⟩, ?_⟩
    · right
      rw [if_neg hlast]
      exact hpost
    · rw [createdObjects_objects]
      rw [hcache] at hcreated
      have hlastObjects := @createdObjects_printedLines source
        (lastBatch (maxBookcases.toNat + 1) source.bookcases)
      have hfull : createdObjects (terminated stmts) ++ createdObjects objects
          = (fullBatches (maxBookcases.toNat + 1) source.bookcases).flatMap (printed source) := by
        refine Eq.trans ?_ hcreated
        simp [createdObjects, Line.created, List.filterMap_cons]
      simp only [createdObjects, List.filterMap_append] at hlastObjects hfull ⊢
      rw [hlastObjects, ← hfull, List.append_assoc]

/-- What engine 2 has to emit: over the objects created for a value, the object monads make up
the ranges of the bookcases in which the value occurs, and the sets of monads the first monads
of the objects in them that carry it. -/
def Posts (source : IndexSource) (lines : List Line) : Prop :=
  ∀ v : List Char, ∀ m : Int,
    ((∃ c ∈ createdObjects lines, c.2.1 = v ∧ m ∈ c.1.mem) ↔
      ∃ b ∈ source.bookcases, OccursIn source (indexedInRange source b) v ∧
        m ∈ points b.range) ∧
    ((∃ c ∈ createdObjects lines, c.2.1 = v ∧ m ∈ c.2.2.mem) ↔
      ∃ b ∈ source.bookcases, ∃ o ∈ indexedInRange source b,
        v ∈ usedValues source.filters o ∧ m = o.monads.first)

theorem foldl_turnStep : ∀ (l : List Turn) (a b : SetOfMonads),
    l.foldl turnStep (a, b)
      = (l.foldl (fun s t => s.addMSE t.2.1.range) a,
        l.foldl (fun s t => s.addMSE (MonadSetElement.single t.2.2.monads.first)) b)
  | [], _, _ => rfl
  | _ :: l, _, _ => foldl_turnStep l _ _

theorem mem_turns {bs : List ObjectMonads} {v : List Char} {b : ObjectMonads}
    {o : IndexedObject} : (v, b, o) ∈ turns source bs ↔
      b ∈ bs ∧ o ∈ indexedInRange source b ∧ v ∈ usedValues source.filters o := by
  rw [turns, List.mem_flatMap]
  constructor
  · rintro ⟨b', hb', hp⟩
    obtain ⟨⟨v', o'⟩, hp', heq⟩ := List.mem_map.mp hp
    simp only [Prod.mk.injEq] at heq
    obtain ⟨rfl, rfl, rfl⟩ := heq
    exact ⟨hb', mem_valuePairs.mp hp'⟩
  · rintro ⟨hb, ho⟩
    exact ⟨b, hb, List.mem_map.mpr ⟨(v, o), mem_valuePairs.mpr ho, rfl⟩⟩

theorem inRange_bounds (o : ObjectMonads) :
    SetOfMonads.InRange o.range ∧
      SetOfMonads.InRange (MonadSetElement.single o.monads.first) := by
  have hne := o.nonempty
  obtain ⟨front, rest, hl⟩ := List.exists_cons_of_ne_nil hne
  have hf := o.rep.first_eq front (by rw [hl]; rfl)
  obtain ⟨init, back, hb⟩ := (List.eq_nil_or_concat o.monads.monadMs).resolve_left hne
  rw [List.concat_eq_append] at hb
  have hl' := o.rep.last_eq back (by rw [hb]; simp)
  have h₁ := (o.rep.inRange front (by rw [hl]; simp)).1
  have h₂ := (o.rep.inRange back (by rw [hb]; simp)).2
  have h₃ := o.first_le_last
  have hfirst : o.monads.first = front.firstM := hf
  have hlast : o.monads.last = back.lastM := hl'
  refine ⟨⟨?_, ?_⟩, ?_, ?_⟩
  · show 0 ≤ o.monads.first
    omega
  · show o.monads.last ≤ maxMonad
    omega
  · show 0 ≤ o.monads.first
    omega
  · show o.monads.first ≤ maxMonad
    omega

/-- The sets under a value in the map. -/
theorem mem_printed {bs : List ObjectMonads} {v : List Char} {m : Int} :
    ((∃ c ∈ printed source bs, c.2.1 = v ∧ m ∈ c.1.mem) ↔
      ∃ b ∈ bs, OccursIn source (indexedInRange source b) v ∧ m ∈ points b.range) ∧
    ((∃ c ∈ printed source bs, c.2.1 = v ∧ m ∈ c.2.2.mem) ↔
      ∃ b ∈ bs, ∃ o ∈ indexedInRange source b,
        v ∈ usedValues source.filters o ∧ m = o.monads.first) := by
  have hentry : ∀ som₀ som₁ : SetOfMonads, (v, som₀, som₁) ∈ (mapOf source bs).entries →
      (m ∈ som₀.mem ↔ ∃ b ∈ bs, OccursIn source (indexedInRange source b) v ∧
        m ∈ points b.range) ∧
      (m ∈ som₁.mem ↔ ∃ b ∈ bs, ∃ o ∈ indexedInRange source b,
        v ∈ usedValues source.filters o ∧ m = o.monads.first) := by
    intro som₀ som₁ hmem
    have hval := (OrdMap.mem_collect.mp hmem).2
    rw [foldl_turnStep, Prod.mk.injEq] at hval
    obtain ⟨rfl, rfl⟩ := hval
    constructor
    · rw [foldl_union_spec (g := fun t : Turn => points t.2.1.range)
        (fun s t hs => SetOfMonads.addMSE_spec hs (inRange_bounds t.2.1).1) _
        SetOfMonads.repInv_empty]
      simp only [SetOfMonads.mem_empty, Set.mem_empty_iff_false, false_or, List.mem_filter,
        decide_eq_true_iff]
      constructor
      · rintro ⟨⟨v', b, o⟩, ⟨ht, rfl⟩, hm⟩
        obtain ⟨hb, ho, hv⟩ := mem_turns.mp ht
        exact ⟨b, hb, ⟨o, ho, hv⟩, hm⟩
      · rintro ⟨b, hb, ⟨o, ho, hv⟩, hm⟩
        exact ⟨(v, b, o), ⟨mem_turns.mpr ⟨hb, ho, hv⟩, rfl⟩, hm⟩
    · rw [foldl_union_spec
        (g := fun t : Turn => points (MonadSetElement.single t.2.2.monads.first))
        (fun s t hs => SetOfMonads.addMSE_spec hs (inRange_bounds t.2.2.toObjectMonads).2) _
        SetOfMonads.repInv_empty]
      simp only [SetOfMonads.mem_empty, Set.mem_empty_iff_false, false_or, List.mem_filter,
        decide_eq_true_iff, mem_points, MonadSetElement.spanned_lo, MonadSetElement.spanned_hi,
        MonadSetElement.single_firstM, MonadSetElement.single_lastM]
      constructor
      · rintro ⟨⟨v', b, o⟩, ⟨ht, rfl⟩, hm⟩
        obtain ⟨hb, ho, hv⟩ := mem_turns.mp ht
        exact ⟨b, hb, o, ho, hv, le_antisymm hm.2 hm.1⟩
      · rintro ⟨b, hb, o, ho, hv, hm⟩
        exact ⟨(v, b, o), ⟨mem_turns.mpr ⟨hb, ho, hv⟩, rfl⟩, hm.ge, hm.le⟩
  have hkey : ∀ b ∈ bs, OccursIn source (indexedInRange source b) v →
      ∃ som₀ som₁, (v, som₀, som₁) ∈ (mapOf source bs).entries := by
    intro b hb hv
    obtain ⟨e, he, hev⟩ := List.mem_map.mp (mem_keys_mapOf.mpr ⟨b, hb, hv⟩)
    refine ⟨e.2.1, e.2.2, ?_⟩
    rw [← hev]
    exact he
  constructor
  · constructor
    · rintro ⟨c, hc, rfl, hm⟩
      obtain ⟨⟨v, som₀, som₁⟩, he, rfl⟩ := List.mem_map.mp hc
      exact (hentry som₀ som₁ he).1.mp hm
    · rintro ⟨b, hb, hv, hm⟩
      obtain ⟨som₀, som₁, he⟩ := hkey b hb hv
      exact ⟨(som₀, v, som₁), List.mem_map.mpr ⟨_, he, rfl⟩, rfl,
        (hentry som₀ som₁ he).1.mpr ⟨b, hb, hv, hm⟩⟩
  · constructor
    · rintro ⟨c, hc, rfl, hm⟩
      obtain ⟨⟨v, som₀, som₁⟩, he, rfl⟩ := List.mem_map.mp hc
      exact (hentry som₀ som₁ he).2.mp hm
    · rintro ⟨b, hb, o, ho, hv, hm⟩
      obtain ⟨som₀, som₁, he⟩ := hkey b hb ⟨o, ho, hv⟩
      exact ⟨(som₀, v, som₁), List.mem_map.mpr ⟨_, he, rfl⟩, rfl,
        (hentry som₀ som₁ he).2.mpr ⟨b, hb, o, ho, hv, hm⟩⟩

/-- **The postings of engine 2 are right for every source.** -/
theorem posts_process (maxBookcases : Int) (bEmitVacuum : Bool) :
    Posts source (process source maxBookcases bEmitVacuum) := by
  intro v m
  have hsplit := flatten_batches (maxBookcases.toNat + 1) source.bookcases
  have hmem : ∀ b, b ∈ source.bookcases ↔ ∃ batch ∈
      fullBatches (maxBookcases.toNat + 1) source.bookcases
        ++ [lastBatch (maxBookcases.toNat + 1) source.bookcases], b ∈ batch := by
    intro b
    nth_rewrite 1 [← hsplit]
    simp only [List.mem_append, List.mem_flatten, List.mem_singleton]
    constructor
    · rintro (⟨batch, hbatch, hb⟩ | hb)
      · exact ⟨batch, Or.inl hbatch, hb⟩
      · exact ⟨_, Or.inr rfl, hb⟩
    · rintro ⟨batch, hbatch | rfl, hb⟩
      · exact Or.inl ⟨batch, hbatch, hb⟩
      · exact Or.inr hb
  rw [(process_spec maxBookcases bEmitVacuum).2]
  constructor
  · constructor
    · rintro ⟨c, hc, hv, hm⟩
      obtain ⟨batch, hbatch, hc⟩ := List.mem_flatMap.mp hc
      obtain ⟨b, hb, hrest⟩ := mem_printed.1.mp ⟨c, hc, hv, hm⟩
      exact ⟨b, (hmem b).mpr ⟨batch, hbatch, hb⟩, hrest⟩
    · rintro ⟨b, hb, hrest⟩
      obtain ⟨batch, hbatch, hb⟩ := (hmem b).mp hb
      obtain ⟨c, hc, hv, hm⟩ := mem_printed.1.mpr ⟨b, hb, hrest⟩
      exact ⟨c, List.mem_flatMap.mpr ⟨batch, hbatch, hc⟩, hv, hm⟩
  · constructor
    · rintro ⟨c, hc, hv, hm⟩
      obtain ⟨batch, hbatch, hc⟩ := List.mem_flatMap.mp hc
      obtain ⟨b, hb, hrest⟩ := mem_printed.2.mp ⟨c, hc, hv, hm⟩
      exact ⟨b, (hmem b).mpr ⟨batch, hbatch, hb⟩, hrest⟩
    · rintro ⟨b, hb, hrest⟩
      obtain ⟨batch, hbatch, hb⟩ := (hmem b).mp hb
      obtain ⟨c, hc, hv, hm⟩ := mem_printed.2.mpr ⟨b, hb, hrest⟩
      exact ⟨c, List.mem_flatMap.mpr ⟨batch, hbatch, hc⟩, hv, hm⟩

end BookcaseIndexer2

/-! ## 3. Both engines -/

/-- **When indexing emits every posting in complete statements.**  The postings of both engines
are right in any case; the statements of engine 1 are complete exactly when every hundred
bookcases, and what is left over, contain a posting, those of engine 2 exactly when the last
statement that was begun has an object. -/
theorem indexing_complete_iff (source : IndexSource) (maxBookcasesPerObject : Int)
    (bEmitVacuum : Bool) :
    ((Complete (BookcaseIndexer.process source bEmitVacuum) ∧
        BookcaseIndexer.Posts source (BookcaseIndexer.process source bEmitVacuum)) ↔
      BookcaseIndexer.EachBatchPosts source) ∧
    ((Complete (BookcaseIndexer2.process source maxBookcasesPerObject bEmitVacuum) ∧
        BookcaseIndexer2.Posts source
          (BookcaseIndexer2.process source maxBookcasesPerObject bEmitVacuum)) ↔
      BookcaseIndexer2.LastStatementPosts source (maxBookcasesPerObject.toNat + 1)) := by
  constructor
  · rw [and_iff_left (BookcaseIndexer.posts_process bEmitVacuum)]
    exact BookcaseIndexer.complete_iff bEmitVacuum
  · rw [and_iff_left (BookcaseIndexer2.posts_process maxBookcasesPerObject bEmitVacuum)]
    exact (BookcaseIndexer2.process_spec maxBookcasesPerObject bEmitVacuum).1

/-- A source without bookcases. -/
def noBookcases : IndexSource := ⟨[], fun _ => [], []⟩

/-- Without bookcases engine 1 ends with a header right before `COMMIT`. -/
theorem indexing_incomplete : ¬ Complete (BookcaseIndexer.process noBookcases false) := by
  rw [BookcaseIndexer.complete_iff]
  rintro ⟨-, b, hb, -⟩
  exact List.not_mem_nil hb

end Emdros
