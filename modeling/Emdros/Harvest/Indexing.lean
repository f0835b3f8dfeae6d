/-
# Full-text indexing (`harvest_fts.cpp`, `harvest_fts2.cpp`)

An indexer goes through the bookcases of a substrate, asks for the indexed objects in each, and
emits MQL that creates objects of an index object type.  What is emitted collects in a query
cache, which `go` ends with a line `GO` and flushes.  Engine 1 (`BookcaseIndexer`) emits one
`CREATE OBJECT` for each bookcase and filtered value; engine 2 (`BookcaseIndexer2`) collects
values over several bookcases in `m_mymap` and prints that map from time to time.

The queue is a list of lines, one for each call of `emit`; only what a line is made of is kept,
not its text.  The answers of the source database are parameters: the bookcases, in the order
of the sheaf, whose straws hold one object each because the query has one block, and the
indexed objects that a set of monads contains.  The target is a stream, so `go` cannot fail,
and nothing throws.
-/
import Emdros.Base.Grouping
import Emdros.Monads.SetAlgebra

namespace Emdros

/-! ## 1. Objects of the source database -/

/-- The monads of an object. -/
structure ObjectMonads where
  monads : SetOfMonads
  rep : monads.RepInv
  nonempty : monads.monadMs ≠ []

namespace ObjectMonads

theorem first_le_last (o : ObjectMonads) : o.monads.first ≤ o.monads.last :=
  (o.rep.isLeast_first o.nonempty).2 (o.rep.isGreatest_last o.nonempty).1

/-- The stretch from the first monad to the last one. -/
def range (o : ObjectMonads) : MonadSetElement := ⟨o.monads.first, o.monads.last, o.first_le_last⟩

end ObjectMonads

/-- An object of the indexed type, with the indexed features as strings. -/
structure IndexedObject extends ObjectMonads where
  features : List (List Char)

/-- `EmdrosFTSStringFilter`: what comes out of a string, and `bUseThisValue`.  The indexers have
strings of characters here, and the search has the bytes that are typed in. -/
abbrev StringFilter (α : Type) := List α → List α × Bool

/-- `EmdrosFTSStringFilter::process` along the chain of `m_pNext`; without a filter the value
is used as it is. -/
def filterProcess : List (StringFilter Char) → List Char → List Char × Bool
  | [], s => (s, true)
  | f :: next, s => if (f s).2 then filterProcess next (f s).1 else ((f s).1, false)

/-- What an indexer reads. -/
structure IndexSource where
  /-- The objects of the bookcase type in the substrate. -/
  bookcases : List ObjectMonads
  /-- The objects of the indexed type in a set of monads. -/
  indexedIn : SetOfMonads → List IndexedObject
  /-- `m_pStringFilter`. -/
  filters : List (StringFilter Char)

/-- `feature_value_set`: a `std::set`, so a map to nothing. -/
def featureValueSet (filters : List (StringFilter Char)) (o : IndexedObject) :
    OrdMap (List Char) Unit :=
  o.features.foldl
    (fun set featureValue =>
      if (filterProcess filters featureValue).2
      then set.insert (filterProcess filters featureValue).1 () else set)
    OrdMap.empty

/-- The pairs that the two inner loops go through: the objects, and the values of each. -/
def valuePairs (filters : List (StringFilter Char)) (objects : List IndexedObject) :
    List (List Char × IndexedObject) :=
  objects.flatMap fun o => (featureValueSet filters o).entries.map fun e => (e.1, o)

/-! ## 2. Emitting -/

/-- A line that is emitted. -/
inductive Line where
  | dropObjectType
  | createObjectType
  | dropIndexes
  | beginTransaction
  | createObjectsWithObjectType
  | createObject (monads : SetOfMonads) (featureValue : List Char) (monadSet : SetOfMonads)
  | commitTransaction
  | createIndexes
  | vacuumDatabaseAnalyze
  | go
  deriving DecidableEq, Repr

/-- `m_query_cache`, and what is on the stream. -/
structure Emitter where
  queryCache : List Line
  stream : List Line

namespace Emitter

def new : Emitter := ⟨[], []⟩

def emit (line : Line) (e : Emitter) : Emitter := { e with queryCache := e.queryCache ++ [line] }

/-- `go`: emit `GO`, put everything on the stream and clear the cache. -/
def go (e : Emitter) : Emitter := ⟨[], e.stream ++ (e.emit .go).queryCache⟩

/-- A statement on its own. -/
def emitGo (line : Line) (e : Emitter) : Emitter := (e.emit line).go

/-- What both engines do before the bookcases. -/
def start : Emitter :=
  emitGo .beginTransaction (emitGo .dropIndexes (emitGo .createObjectType
    (emitGo .dropObjectType new)))

/-- What both engines do after the bookcases. -/
def finish (bEmitVacuum : Bool) (e : Emitter) : List Line :=
  let e := emitGo .createIndexes (emitGo .commitTransaction e)
  (if bEmitVacuum then emitGo .vacuumDatabaseAnalyze e else e).stream

end Emitter

/-! ## 3. Engine 1 -/

namespace BookcaseIndexer

/-- `mymap`: for each value the union of the monads of the objects that carry it. -/
def valueMap (filters : List (StringFilter Char)) (objects : List IndexedObject) :
    OrdMap (List Char) SetOfMonads :=
  OrdMap.collect (fun p => p.1) SetOfMonads.empty (fun som p => som.unionWith p.2.monads)
    (valuePairs filters objects)

/-- `process_bookcase`. -/
def processBookcase (source : IndexSource) (bookcase : ObjectMonads) (e : Emitter) : Emitter :=
  (valueMap source.filters (source.indexedIn bookcase.monads)).entries.foldl
    (fun e p => e.emit (.createObject bookcase.monads p.1 p.2)) e

/-- The loop over the bookcases, with `count` and `bEmitFinalGO`. -/
def processBookcases (source : IndexSource) :
    List ObjectMonads → Nat → Bool → Emitter → Bool × Emitter
  | [], _, bEmitFinalGO, e => (bEmitFinalGO, e)
  | bookcase :: rest, count, _, e =>
    if (count + 1) % 100 = 0 then
      processBookcases source rest (count + 1) false
        ((processBookcase source bookcase e).go.emit .createObjectsWithObjectType)
    else processBookcases source rest (count + 1) true (processBookcase source bookcase e)

/-- `process`. -/
def process (source : IndexSource) (bEmitVacuum : Bool) : List Line :=
  let r := processBookcases source source.bookcases 0 false
    (Emitter.start.emit .createObjectsWithObjectType)
  Emitter.finish bEmitVacuum (if r.1 then r.2.go else r.2)

end BookcaseIndexer

/-! ## 4. Engine 2 -/

/-- The data members of `BookcaseIndexer2`. -/
structure BookcaseIndexer2 where
  emitter : Emitter
  mymap : OrdMap (List Char) (SetOfMonads × SetOfMonads)
  bookcaseCount : Int
  objectCount : Nat

namespace BookcaseIndexer2

def new (emitter : Emitter) : BookcaseIndexer2 := ⟨emitter, OrdMap.empty, 0, 0⟩

/-- The sets of a value grow by an object that carries it in a bookcase. -/
def addTo (bookcase : ObjectMonads) (soms : SetOfMonads × SetOfMonads)
    (p : List Char × IndexedObject) : SetOfMonads × SetOfMonads :=
  (soms.1.addMSE bookcase.range, soms.2.addMSE (MonadSetElement.single p.2.monads.first))

/-- `print_mymap`. -/
def printMymap (s : BookcaseIndexer2) : BookcaseIndexer2 where
  emitter := s.mymap.entries.foldl (fun e p => e.emit (.createObject p.2.1 p.1 p.2.2)) s.emitter
  mymap := OrdMap.empty
  bookcaseCount := 0
  objectCount := s.objectCount + s.mymap.entries.length

/-- The objects that the query of `process_bookcase` returns. -/
def indexedInRange (source : IndexSource) (bookcase : ObjectMonads) : List IndexedObject :=
  source.indexedIn (SetOfMonads.empty.addMSE bookcase.range)

/-- `process_bookcase` up to the decision on printing. -/
def collectBookcase (source : IndexSource) (bookcase : ObjectMonads) (s : BookcaseIndexer2) :
    BookcaseIndexer2 :=
  { s with
    bookcaseCount := s.bookcaseCount + 1
    mymap := OrdMap.collectInto (fun p => p.1) (SetOfMonads.empty, SetOfMonads.empty)
      (addTo bookcase) s.mymap (valuePairs source.filters (indexedInRange source bookcase)) }

/-- `process_bookcase`. -/
def processBookcase (source : IndexSource) (maxBookcasesPerObject : Int)
    (bookcase : ObjectMonads) (s : BookcaseIndexer2) : BookcaseIndexer2 :=
  if (collectBookcase source bookcase s).bookcaseCount > maxBookcasesPerObject then
    printMymap (collectBookcase source bookcase s)
  else collectBookcase source bookcase s

def emit (line : Line) (s : BookcaseIndexer2) : BookcaseIndexer2 :=
  { s with emitter := s.emitter.emit line }

/-- The start of a straw: the header, if it is due. -/
def emitHeader (bEmitCreateObjects : Bool) (s : BookcaseIndexer2) : BookcaseIndexer2 :=
  if bEmitCreateObjects then printMymap (emit .createObjectsWithObjectType s) else s

/-- The loop over the bookcases, with `bEmitFinalGO` and `bEmitCreateObjectsWithObjectType`.
The `GO` after 50000 objects only goes to the cache. -/
def processBookcases (source : IndexSource) (maxBookcasesPerObject : Int) :
    List ObjectMonads → Bool → Bool → BookcaseIndexer2 → Bool × Bool × BookcaseIndexer2
  | [], bEmitFinalGO, bEmitCreateObjects, s => (bEmitFinalGO, bEmitCreateObjects, s)
  | bookcase :: rest, _, bEmitCreateObjects, s =>
    let s := processBookcase source maxBookcasesPerObject bookcase
      (emitHeader bEmitCreateObjects s)
    if s.objectCount ≥ 50000 then
      processBookcases source maxBookcasesPerObject rest false true
        { emit .go s with objectCount := 0 }
    else processBookcases source maxBookcasesPerObject rest true false s

/-- What is done with the map after the loop: the emitter, and `bEmitFinalGO`. -/
def printRest (bEmitFinalGO bEmitCreateObjects : Bool) (s : BookcaseIndexer2) : Bool × Emitter :=
  if s.mymap.isEmpty then (bEmitFinalGO, s.emitter)
  else (true, (printMymap (if bEmitCreateObjects then emit .createObjectsWithObjectType s
    else s)).emitter)

/-- `process`. -/
def process (source : IndexSource) (maxBookcasesPerObject : Int) (bEmitVacuum : Bool) :
    List Line :=
  let r := processBookcases source maxBookcasesPerObject source.bookcases false true
    (new Emitter.start)
  let r' := printRest r.1 r.2.1 r.2.2
  Emitter.finish bEmitVacuum (if r'.1 then r'.2.go else r'.2)

end BookcaseIndexer2

end Emdros
