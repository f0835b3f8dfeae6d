/-
# What the indexers emit

A statement is what stands between two `GO` lines.  It is complete when it is one of the
single-line statements, or a `CREATE OBJECTS WITH OBJECT TYPE` header with at least one
`CREATE OBJECT` under it.

Both engines deal with the bookcases batch by batch (`cut`).  Engine 1 emits the header of the
next batch of a hundred at once when it ends one, so a batch without a posting, and an empty
last batch, leave a header without objects.  Engine 2 emits the header late, but it ends the
last statement whether objects stand in it or not.  `indexing_complete_iff` says for which
sources the statements are complete; the postings are right for every source.
-/
import Emdros.Harvest.Indexing

namespace Emdros

open SpanList (points mem_points)

/-! ## 1. Statements -/

/-- The statements, and what stands after the last `GO`; `cur` is what was read of the current
statement. -/
def splitGo : List Line → List Line → List (List Line) × List Line
  | cur, [] => ([], cur)
  | cur, .go :: rest => (cur :: (splitGo [] rest).1, (splitGo [] rest).2)
  | cur, line :: rest => splitGo (cur ++ [line]) rest

namespace Line

/-- Is this a statement of its own? -/
def isSingle : Line → Bool
  | dropObjectType | createObjectType | dropIndexes | beginTransaction | commitTransaction
  | createIndexes | vacuumDatabaseAnalyze => true
  | createObjectsWithObjectType | createObject _ _ _ | go => false

/-- `CREATE OBJECT`, with its monads, its value and its `monad_set`. -/
def created : Line → Option (SetOfMonads × List Char × SetOfMonads)
  | createObject monads featureValue monadSet => some (monads, featureValue, monadSet)
  | _ => none

end Line

/-- A syntactically complete statement. -/
def CompleteStatement (s : List Line) : Prop :=
  (∃ line : Line, line.isSingle = true ∧ s = [line]) ∨
    ∃ objects : List Line, objects ≠ [] ∧ (∀ line ∈ objects, line.created.isSome = true) ∧
      s = .createObjectsWithObjectType :: objects

/-- All statements are complete, and nothing stands after the last `GO`. -/
def Complete (lines : List Line) : Prop :=
  (splitGo [] lines).2 = [] ∧ ∀ s ∈ (splitGo [] lines).1, CompleteStatement s

/-- Statements, each ended by `GO`. -/
def terminated (stmts : List (List Line)) : List Line := stmts.flatMap fun s => s ++ [Line.go]

theorem splitGo_append : ∀ (s cur rest : List Line), (∀ line ∈ s, line ≠ .go) →
    splitGo cur (s ++ rest) = splitGo (cur ++ s) rest
  | [], cur, rest, _ => by simp
  | line :: s, cur, rest, h => by
    have hline := h line List.mem_cons_self
    have ih := splitGo_append s (cur ++ [line]) rest fun l hl => h l (List.mem_cons_of_mem _ hl)
    rw [List.append_assoc, List.singleton_append] at ih
    rw [← ih]
    cases line <;> first | rfl | exact (hline rfl).elim

theorem splitGo_terminated : ∀ {stmts : List (List Line)},
    (∀ s ∈ stmts, ∀ line ∈ s, line ≠ Line.go) → splitGo [] (terminated stmts) = (stmts, [])
  | [], _ => rfl
  | s :: stmts, h => by
    have ih := splitGo_terminated fun t ht => h t (List.mem_cons_of_mem _ ht)
    rw [terminated, List.flatMap_cons, List.append_assoc, splitGo_append _ _ _ (h s
      List.mem_cons_self), List.nil_append, List.singleton_append, splitGo]
    rw [terminated] at ih
    rw [ih]

theorem complete_terminated_iff {stmts : List (List Line)}
    (h : ∀ s ∈ stmts, ∀ line ∈ s, line ≠ Line.go) :
    Complete (terminated stmts) ↔ ∀ s ∈ stmts, CompleteStatement s := by
  rw [Complete, splitGo_terminated h]
  simp

theorem terminated_append (a b : List (List Line)) :
    terminated (a ++ b) = terminated a ++ terminated b := List.flatMap_append

/-- A statement of the form that the engines emit: a header and objects. -/
theorem completeStatement_header_iff {objects : List Line}
    (h : ∀ line ∈ objects, line.created.isSome = true) :
    CompleteStatement (.createObjectsWithObjectType :: objects) ↔ objects ≠ [] := by
  constructor
  · rintro (⟨line, hsingle, heq⟩ | ⟨objects', hne, -, heq⟩)
    · rw [← (List.cons.inj heq).1] at hsingle
      cases hsingle
    · rw [(List.cons.inj heq).2]
      exact hne
  · intro hne
    exact Or.inr ⟨objects, hne, h, rfl⟩

theorem ne_go_of_created {line : Line} (h : line.created.isSome = true) : line ≠ .go := by
  rintro rfl
  cases h

/-! ## 2. Batches -/

/-- Cut into full batches of `size` and a shorter rest; `pre` is what was read of the current
batch. -/
def cut {α : Type*} (size : Nat) : List α → List α → List (List α) × List α
  | pre, [] => ([], pre)
  | pre, b :: bs =>
    if pre.length + 1 = size then
      ((pre ++ [b]) :: (cut size [] bs).1, (cut size [] bs).2)
    else cut size (pre ++ [b]) bs

/-- The full batches. -/
def fullBatches {α : Type*} (size : Nat) (bs : List α) : List (List α) := (cut size [] bs).1

/-- What is left over, shorter than a batch. -/
def lastBatch {α : Type*} (size : Nat) (bs : List α) : List α := (cut size [] bs).2

theorem cut_flatten {α : Type*} (size : Nat) : ∀ (bs pre : List α),
    (cut size pre bs).1.flatten ++ (cut size pre bs).2 = pre ++ bs
  | [], pre => by simp [cut]
  | b :: bs, pre => by
    rw [cut]
    split
    · rw [List.flatten_cons, List.append_assoc, cut_flatten size bs []]
      simp
    · rw [cut_flatten size bs (pre ++ [b])]
      simp

theorem flatten_batches {α : Type*} (size : Nat) (bs : List α) :
    (fullBatches size bs).flatten ++ lastBatch size bs = bs := cut_flatten size bs []

/-! ## 3. Values and objects -/

/-- The filtered values of an object. -/
def usedValues (filters : List (StringFilter Char)) (o : IndexedObject) : List (List Char) :=
  o.features.filterMap fun s =>
    if (filterProcess filters s).2 then some (filterProcess filters s).1 else none

theorem foldl_featureValueSet {filters : List (StringFilter Char)} {v : List Char} :
    ∀ {features : List (List Char)} {set : OrdMap (List Char) Unit},
      (∃ u, (v, u) ∈ (features.foldl (fun set featureValue =>
        if (filterProcess filters featureValue).2
        then set.insert (filterProcess filters featureValue).1 () else set) set).entries) ↔
        (∃ u, (v, u) ∈ set.entries) ∨ v ∈ features.filterMap fun s =>
          if (filterProcess filters s).2 then some (filterProcess filters s).1 else none
  | [], set => by simp
  | s :: features, set => by
    rw [List.foldl_cons, foldl_featureValueSet, List.filterMap_cons]
    by_cases hs : (filterProcess filters s).2 = true
    · rw [if_pos hs]
      simp only [hs, if_true, List.mem_cons, OrdMap.mem_entries_iff, OrdMap.value_insert]
      by_cases hv : (filterProcess filters s).1 = v
      · simp [hv]
      · have hv' : ¬ v = (filterProcess filters s).1 := fun h => hv h.symm
        simp [hv, hv']
    · rw [if_neg hs]
      simp [hs]

theorem mem_featureValueSet {filters : List (StringFilter Char)} {o : IndexedObject}
    {v : List Char} :
    (∃ u, (v, u) ∈ (featureValueSet filters o).entries) ↔ v ∈ usedValues filters o := by
  rw [featureValueSet, foldl_featureValueSet]
  simp [OrdMap.empty, usedValues]

/-- The pairs of the inner loops: each object with each of its values. -/
theorem mem_valuePairs {filters : List (StringFilter Char)} {objects : List IndexedObject}
    {v : List Char} {o : IndexedObject} :
    (v, o) ∈ valuePairs filters objects ↔ o ∈ objects ∧ v ∈ usedValues filters o := by
  rw [valuePairs, List.mem_flatMap]
  constructor
  · rintro ⟨o', ho', hp⟩
    obtain ⟨e, he, heq⟩ := List.mem_map.mp hp
    obtain ⟨rfl, rfl⟩ := Prod.mk.inj heq
    exact ⟨ho', mem_featureValueSet.mp ⟨e.2, he⟩⟩
  · rintro ⟨ho, hv⟩
    obtain ⟨u, hu⟩ := mem_featureValueSet.mpr hv
    exact ⟨o, ho, List.mem_map.mpr ⟨(v, u), hu, rfl⟩⟩

/-- Unions and additions along a list. -/
theorem foldl_union_spec {β : Type*} {f : SetOfMonads → β → SetOfMonads} {g : β → Set Int}
    (hf : ∀ s b, s.RepInv → (f s b).RepInv ∧ (f s b).mem = s.mem ∪ g b) :
    ∀ (l : List β) {s : SetOfMonads}, s.RepInv →
      ∀ m, m ∈ (l.foldl f s).mem ↔ m ∈ s.mem ∨ ∃ b ∈ l, m ∈ g b
  | [], s, _, m => by simp
  | b :: l, s, h, m => by
    obtain ⟨hrep, hmem⟩ := hf s b h
    rw [List.foldl_cons, foldl_union_spec hf l hrep, hmem]
    simp only [Set.mem_union, List.mem_cons, or_assoc]
    constructor
    · rintro (h | h | ⟨c, hc, hm⟩)
      · exact Or.inl h
      · exact Or.inr ⟨b, Or.inl rfl, h⟩
      · exact Or.inr ⟨c, Or.inr hc, hm⟩
    · rintro (h | ⟨c, rfl | hc, hm⟩)
      · exact Or.inl h
      · exact Or.inr (Or.inl hm)
      · exact Or.inr (Or.inr ⟨c, hc, hm⟩)

/-- Emitting lines one after the other. -/
theorem foldl_emit {β : Type*} (f : β → Line) : ∀ (l : List β) (e : Emitter),
    l.foldl (fun e p => e.emit (f p)) e = ⟨e.queryCache ++ l.map f, e.stream⟩
  | [], e => by simp
  | p :: l, e => by
    rw [List.foldl_cons, foldl_emit f l]
    simp [Emitter.emit]

/-- What is on the stream when `finish` is done. -/
theorem finish_eq (bEmitVacuum : Bool) (e : Emitter) :
    e.finish bEmitVacuum = e.stream ++ terminated ((e.queryCache ++ [.commitTransaction]) ::
      [.createIndexes] :: if bEmitVacuum then [[.vacuumDatabaseAnalyze]] else []) := by
  cases bEmitVacuum <;>
    simp [Emitter.finish, Emitter.emitGo, Emitter.go, Emitter.emit, terminated]

theorem start_eq : Emitter.start = ⟨[], terminated [[.dropObjectType], [.createObjectType],
    [.dropIndexes], [.beginTransaction]]⟩ := rfl

/-- The statements around those of the bookcases. -/
def frame (bEmitVacuum : Bool) (stmts : List (List Line)) : List (List Line) :=
  [[.dropObjectType], [.createObjectType], [.dropIndexes], [.beginTransaction]] ++ stmts ++
    ([.createIndexes] :: if bEmitVacuum then [[.vacuumDatabaseAnalyze]] else [])

/-- Only the statements in the frame decide. -/
theorem complete_frame_iff {bEmitVacuum : Bool} {stmts : List (List Line)}
    (h : ∀ s ∈ stmts, ∀ line ∈ s, line ≠ Line.go) :
    Complete (terminated (frame bEmitVacuum stmts)) ↔ ∀ s ∈ stmts, CompleteStatement s := by
  have hsingle : ∀ line : Line, line.isSingle = true → CompleteStatement [line] :=
    fun line hline => Or.inl ⟨line, hline, rfl⟩
  have hframe : ∀ s ∈ frame bEmitVacuum stmts, s ∈ stmts ∨
      ∃ line : Line, line.isSingle = true ∧ s = [line] := by
    intro s hs
    simp only [frame, List.mem_append, List.mem_cons, List.not_mem_nil, or_false] at hs
    rcases hs with ((rfl | rfl | rfl | rfl) | hs) | rfl | hs
    · exact Or.inr ⟨.dropObjectType, rfl, rfl⟩
    · exact Or.inr ⟨.createObjectType, rfl, rfl⟩
    · exact Or.inr ⟨.dropIndexes, rfl, rfl⟩
    · exact Or.inr ⟨.beginTransaction, rfl, rfl⟩
    · exact Or.inl hs
    · exact Or.inr ⟨.createIndexes, rfl, rfl⟩
    · cases bEmitVacuum with
      | false => exact (List.not_mem_nil hs).elim
      | true => exact Or.inr ⟨.vacuumDatabaseAnalyze, rfl, List.mem_singleton.mp hs⟩
  rw [complete_terminated_iff]
  · constructor
    · intro hall s hs
      refine hall s ?_
      simp [frame, hs]
    · intro hall s hs
      rcases hframe s hs with hs | ⟨line, hline, rfl⟩
      · exact hall s hs
      · exact hsingle line hline
  · intro s hs line hline
    rcases hframe s hs with hs | ⟨line', hline', rfl⟩
    · exact h s hs line hline
    · rw [List.mem_singleton.mp hline]
      rintro rfl
      cases hline'

end Emdros
