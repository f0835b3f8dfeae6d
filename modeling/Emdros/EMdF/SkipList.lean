/-
# Skip lists (`SkipList`, `SkipListConstIterator` in `inst.h`, `inst.cpp`)

A `SkipList` stores the objects of an inst by their first monad.  Its nodes live in an arena;
addresses are natural numbers, and the model's memory maps one to the node allocated there.  A node has as many forward
pointers as it was allocated with, and reading or writing past them, following a pointer to no
node and reading the payload of the head are `none`.

`randomLevel()` is an argument of `insert`: nothing but its range `0 .. MAX_LEVEL` is known of
it.  Loops that follow pointers take the arena's size as fuel, which the proofs show to be
enough.
-/
import Mathlib.Data.Option.Basic
import Mathlib.Data.List.Basic
import Mathlib.Logic.Function.Basic
import Emdros.Base.Run

namespace Emdros

/-! ## 1. Memory -/

/-- `InstObject`: the fields that the skip list reads. -/
structure InstObject where
  idD : Int
  first : Int
  deriving DecidableEq, Repr

/-- `SkipListNode`: payload and forward array. -/
structure SkipListNode where
  pValue : Option InstObject
  forward : List Nat

/-- The null pointer. -/
def nullPtr : Nat := 0

/-- `m_NIL`, the node behind the last one. -/
def nilPtr : Nat := 1

/-- `m_head`. -/
def headPtr : Nat := 2

/-- `0x7fffffff`, the first monad of the object in `m_NIL` and the greatest `monad_m`. -/
def nilKey : Int := 0x7fffffff

/-- `MAX_LEVEL`. -/
def maxLevel : Nat := 17

/-- `class SkipList`: the current level, the arena, and the next address it gives out. -/
structure SkipList where
  level : Nat
  mem : Nat → Option SkipListNode
  free : Nat

namespace SkipList

/-- The constructor: `m_NIL` with one forward pointer, and the head with one for each level. -/
def new : SkipList where
  level := 0
  mem := fun p =>
    if p = nilPtr then some ⟨some ⟨0, nilKey⟩, [nullPtr]⟩
    else if p = headPtr then some ⟨none, List.replicate (maxLevel + 1) nilPtr⟩
    else none
  free := 3

/-- `p->m_forward[k]`. -/
def forwardOf (s : SkipList) (k : Nat) (p : Nat) : Option Nat :=
  (s.mem p).bind fun node => node.forward[k]?

/-- `p->m_pValue`, dereferenced. -/
def valueOf (s : SkipList) (p : Nat) : Option InstObject := (s.mem p).bind fun node => node.pValue

/-- `p->m_forward[k] = v`. -/
def setForward (s : SkipList) (p : Nat) (k : Nat) (v : Nat) : Option SkipList :=
  (s.mem p).bind fun node =>
    if k < node.forward.length then
      let node := { node with forward := node.forward.set k v }
      some { s with mem := Function.update s.mem p (some node) }
    else none

/-! ## 2. `insert` -/

/-- `cmp_SkipListNode(key, pValue, q)`, with `q` given by its payload. -/
def cmpSkipListNode (key : Int) (pValue q : InstObject) : Bool :=
  if q.first < key then true
  else if q.first > key then false
  else q.idD < pValue.idD

/-- The inner loop of `insert` and `search`: move `p` along level `k` while the node after it
passes the test; `p` and the node after it. -/
def scan (s : SkipList) (test : InstObject → Bool) (k : Nat) : Nat → Nat → Option (Nat × Nat)
  | 0, _ => none
  | fuel + 1, p =>
    (s.forwardOf k p).bind fun q =>
      (s.valueOf q).bind fun value =>
        if test value then scan s test k fuel q else some (p, q)

/-- The outer loop of `insert`, from level `k` and node `p` down: `update[0]` to `update[k]`. -/
def updates (s : SkipList) (test : InstObject → Bool) : Nat → Nat → Option (List Nat)
  | 0, p => (s.scan test 0 s.free p).map fun r => [r.1]
  | k + 1, p =>
    (s.scan test (k + 1) s.free p).bind fun r =>
      (updates s test k r.1).map fun update => update ++ [r.1]

/-- One round of the second loop of `insert`: link `q` in after `update[k]`. -/
def linkAt (s : SkipList) (q : Nat) (update : List Nat) (k : Nat) : Option SkipList :=
  update[k]?.bind fun p =>
    (s.forwardOf k p).bind fun next =>
      (s.setForward q k next).bind fun s => s.setForward p k q

/-- The second loop of `insert`, from level `k` down. -/
def link (q : Nat) (update : List Nat) : Nat → SkipList → Option SkipList
  | 0, s => s.linkAt q update 0
  | k + 1, s => (s.linkAt q update (k + 1)).bind fun s => link q update k s

/-- `NEW_CSKIPLISTNODE(k)` with its payload set. -/
def allocate (s : SkipList) (pValue : InstObject) (k : Nat) : SkipList where
  level := s.level
  mem := Function.update s.mem s.free (some ⟨some pValue, List.replicate (k + 1) nullPtr⟩)
  free := s.free + 1

/-- `insert(key, pValue)`, with the value of `randomLevel()`. -/
def insert (s : SkipList) (key : Int) (pValue : InstObject) (randomLevel : Nat) :
    Option SkipList :=
  (s.updates (cmpSkipListNode key pValue) s.level headPtr).bind fun update =>
    if randomLevel > s.level then
      let k := s.level + 1
      link s.free (update ++ [headPtr]) k ({ s with level := k }.allocate pValue k)
    else link s.free update randomLevel (s.allocate pValue randomLevel)

/-! ## 3. Iterators -/

/-- The loop of `search`, from level `k` and node `p` down. -/
def searchFrom (s : SkipList) (key : Int) : Nat → Nat → Option Nat
  | 0, p => (s.scan (fun q => q.first < key) 0 s.free p).map fun r => r.2
  | k + 1, p =>
    (s.scan (fun q => q.first < key) (k + 1) s.free p).bind fun r => searchFrom s key k r.1

def search (s : SkipList) (key : Int) : Option Nat := s.searchFrom key s.level headPtr

/-- `begin()`: the node after the head. -/
def begin (s : SkipList) : Option Nat := s.forwardOf 0 headPtr

/-- `end()`. -/
def end_ (_s : SkipList) : Nat := nilPtr

/-- `hasNext()`. -/
def hasNext (_s : SkipList) (it : Nat) : Bool := it ≠ nilPtr

/-- `next()`: the object at the iterator, and the iterator moved on. -/
def next (s : SkipList) (it : Nat) : Option (InstObject × Nat) :=
  if s.hasNext it then
    (s.valueOf it).bind fun value => (s.forwardOf 0 it).map fun it' => (value, it')
  else none

/-- `currentKey()`. -/
def currentKey (s : SkipList) (it : Nat) : Option Int := (s.valueOf it).map fun v => v.first

/-- The loop of `advanceToNextKey`: the first monad arrived at, or `0` at the end, and the
iterator. -/
def advanceLoop (s : SkipList) (currentMonad : Int) : Nat → Nat → Option (Int × Nat)
  | 0, _ => none
  | fuel + 1, it =>
    (s.forwardOf 0 it).bind fun it =>
      if s.hasNext it then
        (s.currentKey it).bind fun first =>
          if first > currentMonad then some (first, it) else advanceLoop s currentMonad fuel it
      else some (0, it)

/-- `advanceToNextKey()`, which asserts that the iterator is not at the end. -/
def advanceToNextKey (s : SkipList) (it : Nat) : Option (Int × Nat) :=
  if s.hasNext it then
    (s.currentKey it).bind fun currentMonad => s.advanceLoop currentMonad s.free it
  else none

/-- The loop of `equal_range` that finds the end. -/
def equalRangeLoop (s : SkipList) (key : Int) : Nat → Nat → Option Nat
  | 0, _ => none
  | fuel + 1, ciend =>
    if s.hasNext ciend then
      (s.currentKey ciend).bind fun first =>
        if first = key then (s.next ciend).bind fun r => equalRangeLoop s key fuel r.2
        else some ciend
    else some ciend

/-- `equal_range(key, cibegin, ciend)`: the returned value and the two iterators. -/
def equalRange (s : SkipList) (key : Int) : Option (Bool × Nat × Nat) :=
  (s.search key).bind fun cibegin =>
    if s.hasNext cibegin then
      (s.currentKey cibegin).bind fun first =>
        if first ≠ key then some (false, s.end_, s.end_)
        else (s.equalRangeLoop key s.free cibegin).map fun ciend => (true, cibegin, ciend)
    else some (false, cibegin, s.end_)

/-- The loop of `hasObject`. -/
def hasObjectLoop (s : SkipList) (key objectIdD : Int) : Nat → Nat → Option Bool
  | 0, _ => none
  | fuel + 1, it =>
    if s.hasNext it then
      (s.currentKey it).bind fun first =>
        if first = key then
          (s.next it).bind fun r =>
            if r.1.idD = objectIdD then some true else hasObjectLoop s key objectIdD fuel r.2
        else some false
    else some false

def hasObject (s : SkipList) (key objectIdD : Int) : Option Bool :=
  (s.search key).bind fun cibegin =>
    if s.hasNext cibegin then
      (s.currentKey cibegin).bind fun first =>
        if first ≠ key then some false else s.hasObjectLoop key objectIdD s.free cibegin
    else some false

/-! ## 4. What the iterators visit -/

/-- The objects that `next()` returns from `it` on, up to the end. -/
def visitLoop (s : SkipList) : Nat → Nat → Option (List InstObject)
  | 0, _ => none
  | fuel + 1, it =>
    if s.hasNext it then
      (s.next it).bind fun r => (visitLoop s fuel r.2).map fun rest => r.1 :: rest
    else some []

def visit (s : SkipList) (it : Nat) : Option (List InstObject) := s.visitLoop s.free it

/-- The nodes of level `k` after `p`, up to `m_NIL`. -/
def followLoop (s : SkipList) (k : Nat) : Nat → Nat → Option (List Nat)
  | 0, _ => none
  | fuel + 1, p =>
    (s.forwardOf k p).bind fun q =>
      if s.hasNext q then (followLoop s k fuel q).map fun rest => q :: rest else some []

/-- The nodes of level `k`. -/
def nodesAt (s : SkipList) (k : Nat) : Option (List Nat) := s.followLoop k s.free headPtr

/-- The keys that `advanceToNextKey` arrives at, from `it`, which stands at `key`. -/
def keysLoop (s : SkipList) : Nat → Nat → Int → Option (List Int)
  | 0, _, _ => none
  | fuel + 1, it, key =>
    (s.advanceToNextKey it).bind fun r =>
      if s.hasNext r.2 then (keysLoop s fuel r.2 r.1).map fun rest => key :: rest
      else some [key]

/-- The keys visited by iterating `advanceToNextKey` from `begin()`. -/
def keys (s : SkipList) : Option (List Int) :=
  s.begin.bind fun it =>
    if s.hasNext it then (s.currentKey it).bind fun key => s.keysLoop s.free it key
    else some []

/-- Insert objects one after the other, each under its first monad; `ins` pairs each with the
value that `randomLevel()` returns. -/
def insertAll (ins : List (InstObject × Nat)) : Option SkipList :=
  Machine.run (fun s (i : InstObject × Nat) => s.insert i.1.first i.1 i.2) new ins

end SkipList

end Emdros
