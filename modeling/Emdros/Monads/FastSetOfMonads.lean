/-
# Fast sets of monads (`FastSetOfMonads` in `monads.h`, `monads.cpp`)

`FastSetOfMonads` keeps its elements in a `std::map` from an element's first monad to the
element, together with the same two cached bounds as `SetOfMonads`.  This module translates
the class; what the operations do is proved in `FastAlgebra.lean` and `FastQueries.lean`.

An iterator into the map is the key it stands at, or `none` for `end()` (`Base/OrdMap.lean`).
An operation is `none` where the source throws (an `ASSERT_THROW`, a range that is the wrong
way round) or goes through an iterator that stands at no element.  The two loops that move an
iterator while they erase are given fuel, which `FastAlgebra.lean` proves to be enough.

The loops of `intersect` and `fillGaps` are word for word those of `SetOfMonads`, so the
stretches they add to their result are the ones defined there.
-/
import Emdros.Base.OrdMap
import Emdros.Monads.SetOfMonads

namespace Emdros

/-- `class FastSetOfMonads`. -/
@[ext]
structure FastSetOfMonads where
  monadMs : OrdMap Int MonadSetElement
  mFirst : Int
  mLast : Int

namespace FastSetOfMonads

open MonadSetElement (range single)

/-! ## 1. Construction and conversion -/

/-- The default constructor. -/
def empty : FastSetOfMonads := ⟨OrdMap.empty, maxMonad, 0⟩

def isEmpty (f : FastSetOfMonads) : Bool := f.monadMs.isEmpty

def first (f : FastSetOfMonads) : Int := f.mFirst

def last (f : FastSetOfMonads) : Int := f.mLast

/-- What a `FastSOMConstIterator` visits, in order. -/
def elements (f : FastSetOfMonads) : List MonadSetElement := f.monadMs.entries.map (·.2)

/-- Exactly one element, found by advancing an iterator twice. -/
def hasOnlyOneMSE (f : FastSetOfMonads) : Bool :=
  match f.elements with
  | [] => false
  | [_] => true
  | _ :: _ :: _ => false

/-- `FastSetOfMonads(const SetOfMonads&)`: insert every element, take over the bounds. -/
def ofSetOfMonads (other : SetOfMonads) : FastSetOfMonads where
  monadMs := other.monadMs.foldl (fun m mse => m.insert mse.firstM mse) OrdMap.empty
  mFirst := other.mFirst
  mLast := other.mLast

/-- `SetOfMonads(const FastSetOfMonads&)`: add every element to a new set. -/
def toSetOfMonads (f : FastSetOfMonads) : SetOfMonads :=
  f.elements.foldl SetOfMonads.addMSE SetOfMonads.empty

/-! ## 2. Updates -/

/-- The assertion "First and last not set correctly". -/
def checkBounds (f : FastSetOfMonads) : Option FastSetOfMonads :=
  if f.monadMs.front.map (·.firstM) = some f.mFirst ∧
      f.monadMs.back.map (·.lastM) = some f.mLast then some f
  else none

/-- The merge loop of `addMSE`, from the iterator `cur` on: the map it leaves, and the element
that is then inserted. -/
def addMSELoop : Nat → OrdMap Int MonadSetElement → Option Int → MonadSetElement →
    Option (OrdMap Int MonadSetElement × MonadSetElement)
  | 0, _, _, _ => none
  | _ + 1, m, none, current => some (m, current)
  | fuel + 1, m, some cur, current =>
    (m.value (some cur)).bind fun itmse =>
      if current.overlap itmse || current.adjacent itmse then
        addMSELoop fuel (m.erase cur) (m.next cur) (current.subsume itmse)
      else if itmse.past current then some (m, current)
      else addMSELoop fuel m (m.next cur) current

/-- `upper_bound(key)`, moved one back if that is not `begin()`. -/
def upperBoundBack (m : OrdMap Int MonadSetElement) (key : Int) : Option Int :=
  let it := m.upperBound key
  if it ≠ m.begin then m.prev it else it

/-- The map after `addMSE`. -/
def addMSEMap (f : FastSetOfMonads) (mse : MonadSetElement) :
    Option (OrdMap Int MonadSetElement) :=
  match f.monadMs.back, f.monadMs.front with
  | some back, some front =>
    if mse.firstM > f.mLast + 1 then some (f.monadMs.insert mse.firstM mse)
    else if mse.firstM ≥ back.firstM then
      (f.monadMs.prev none).map fun it =>
        (f.monadMs.erase it).insert (back.subsume mse).firstM (back.subsume mse)
    else if mse.lastM = f.mFirst - 1 then
      f.monadMs.begin.map fun it =>
        (f.monadMs.erase it).insert (front.subsume mse).firstM (front.subsume mse)
    else if mse.lastM < f.mFirst - 1 then some (f.monadMs.insert mse.firstM mse)
    else
      (addMSELoop (f.monadMs.size + 1) f.monadMs
        (upperBoundBack f.monadMs (mse.firstM - 1)) mse).map fun r =>
          r.1.insert r.2.firstM r.2
  | _, _ => some (f.monadMs.insert mse.firstM mse)

def addMSE (f : FastSetOfMonads) (mse : MonadSetElement) : Option FastSetOfMonads :=
  (f.addMSEMap mse).bind fun m =>
    checkBounds
      { monadMs := m
        mFirst := if mse.firstM < f.mFirst then mse.firstM else f.mFirst
        mLast := if mse.lastM > f.mLast then mse.lastM else f.mLast }

/-- `add(first, last)`. -/
def add (f : FastSetOfMonads) (first last : Int) : Option FastSetOfMonads :=
  (range first last).bind f.addMSE

/-- `add(monad)`. -/
def addMonad (f : FastSetOfMonads) (monad : Int) : Option FastSetOfMonads := f.add monad monad

/-- `clear()` leaves the state of a new set, whatever was there. -/
def clear (_f : FastSetOfMonads) : FastSetOfMonads := empty

/-- Add elements one after the other. -/
def addAll (f : FastSetOfMonads) (l : List MonadSetElement) : Option FastSetOfMonads :=
  l.foldlM addMSE f

/-- `unionWith(const SetOfMonads&)`. -/
def unionWithSetOfMonads (f : FastSetOfMonads) (other : SetOfMonads) :
    Option FastSetOfMonads := f.addAll other.monadMs

/-- `unionWith(const FastSetOfMonads&)`. -/
def unionWith (f other : FastSetOfMonads) : Option FastSetOfMonads := f.addAll other.elements

def intersect (aset bset : FastSetOfMonads) : Option FastSetOfMonads :=
  if aset.isEmpty || bset.isEmpty then some empty
  else empty.addAll (SetOfMonads.intersectPieces aset.elements bset.elements)

def fillGaps (f : FastSetOfMonads) (minGap : Int) : Option FastSetOfMonads :=
  match f.elements with
  | [] => some empty
  | cur :: rest =>
    (SetOfMonads.fillGapsPieces minGap cur.lastM rest).bind fun pieces =>
      (empty.addMSE cur).bind fun result => result.addAll pieces

/-- The loop of `removeMSE`, from the iterator `A` on.  The cases are numbered as in the
comment above the source function; case 3 starts over from `B_first`. -/
def removeMSELoop (bFirst bLast : Int) : Nat → OrdMap Int MonadSetElement → Option Int →
    Option (OrdMap Int MonadSetElement)
  | 0, _, _ => none
  | _ + 1, m, none => some m
  | fuel + 1, m, some it =>
    (m.value (some it)).bind fun a =>
      if a.lastM < bFirst then removeMSELoop bFirst bLast fuel m (m.next it)        -- 1
      else if a.firstM > bLast then some m                                          -- 5
      else if a.firstM ≥ bFirst ∧ a.lastM ≤ bLast then                              -- 3
        let m' := m.erase it
        removeMSELoop bFirst bLast fuel m' (upperBoundBack m' bFirst)
      else if h : a.firstM < bFirst ∧ a.lastM > bLast then                          -- 6
        let newMse := a.truncate bFirst bLast
        let newMse2 : MonadSetElement := ⟨bLast + 1, a.lastM, MonadSetElement.rest_le h⟩
        some (((m.erase it).insert newMse.firstM newMse).insert newMse2.firstM newMse2)
      else                                                                          -- 2, 4
        let newMse := a.truncate bFirst bLast
        removeMSELoop bFirst bLast fuel ((m.erase it).insert newMse.firstM newMse) (m.next it)

/-- Set the cached bounds from the map, as `removeMSE` does at its end. -/
def setBounds (m : OrdMap Int MonadSetElement) : FastSetOfMonads where
  monadMs := m
  mFirst := match m.front with
    | none => maxMonad
    | some front => front.firstM
  mLast := match m.back with
    | none => 0
    | some back => back.lastM

def removeMSE (f : FastSetOfMonads) (b : MonadSetElement) : Option FastSetOfMonads :=
  if f.isEmpty then some f
  else
    (removeMSELoop b.firstM b.lastM (2 * f.monadMs.size + 1) f.monadMs
      (upperBoundBack f.monadMs b.firstM)).map setBounds

def difference (f other : FastSetOfMonads) : Option FastSetOfMonads :=
  other.elements.foldlM removeMSE f

/-- `offset` rebuilds the set from its moved elements. -/
def offset (f : FastSetOfMonads) (m : Int) : Option FastSetOfMonads :=
  empty.addAll (f.elements.map fun mse => mse.offset m)

theorem le_lastM_of_not_lt {mse : MonadSetElement} {monad : Int} (h : ¬ mse.lastM < monad) :
    monad ≤ mse.lastM :=
  Int.not_lt.mp h

/-- The end of `removeMonadsBefore` when `monad` lies inside the element at `it`: the element's
`first_m` becomes `monad`, its key in the map stays, and what is before it is erased. -/
def cutAt (f : FastSetOfMonads) (monad it : Int) (mse : MonadSetElement)
    (h : monad ≤ mse.lastM) : Option FastSetOfMonads :=
  checkBounds
    { monadMs := (f.monadMs.modify it fun _ => ⟨monad, mse.lastM, h⟩).eraseBefore (some it)
      mFirst := monad
      mLast := f.mLast }

/-- The set equal to `f` except with all monads before `monad` removed. -/
def removeMonadsBefore (f : FastSetOfMonads) (monad : Int) : Option FastSetOfMonads :=
  if f.isEmpty ∨ f.mLast < monad then some empty
  else if f.mFirst ≤ monad - 1 then
    match f.monadMs.upperBound (monad - 1) with
    | none =>
      f.monadMs.back.bind fun back =>
        (empty.add monad back.lastM).bind fun result =>
          checkBounds { result with mFirst := monad, mLast := back.lastM }
    | some it =>
      (f.monadMs.value (some it)).bind fun mse =>
        if mse.firstM > monad then
          (f.monadMs.prev (some it)).bind fun it' =>
            (f.monadMs.value (some it')).bind fun mse' =>
              if mse'.firstM > monad then none          -- ASSERT_THROW(false, ..)
              else if h : mse'.lastM < monad then
                checkBounds (setBounds (f.monadMs.eraseBefore (f.monadMs.next it')))
              else f.cutAt monad it' mse' (le_lastM_of_not_lt h)
        else if h : mse.lastM < monad then
          let m := f.monadMs.eraseBefore (some it)
          m.front.bind fun front => checkBounds ⟨m, front.firstM, f.mLast⟩
        else f.cutAt monad it mse (le_lastM_of_not_lt h)
  else checkBounds f

/-! ## 3. Queries -/

/-- `isMemberOf`, which looks up the first element that starts at `m` or later. -/
def isMemberOf (f : FastSetOfMonads) (m : Int) : Option Bool :=
  if f.isEmpty then some false
  else match f.monadMs.upperBound (m - 1) with
    | none => f.monadMs.back.map fun back => back.overlap (single m)
    | some it =>
      (f.monadMs.value (some it)).bind fun mse =>
        if mse.firstM > m then
          if some it = f.monadMs.begin then some false
          else (f.monadMs.value (f.monadMs.prev (some it))).map fun mse' =>
            decide (mse'.firstM ≤ m ∧ m ≤ mse'.lastM)
        else if mse.lastM < m then some false
        else some true

def hasMonadsInRange (f : FastSetOfMonads) (firstM lastM : Int) : Option Bool :=
  if f.isEmpty then some false
  else if f.mFirst > lastM then some false
  else if f.mLast < firstM then some false
  else
    (range firstM lastM).bind fun other =>
      match f.monadMs.upperBound (firstM - 1) with
      | none => f.monadMs.back.map fun back => back.overlap other
      | some it =>
        (f.monadMs.value (some it)).bind fun curmse =>
          if curmse.firstM > lastM then
            (f.monadMs.value (f.monadMs.prev (some it))).map fun mse => mse.overlap other
          else if curmse.firstM ≤ firstM then some (curmse.overlap other)
          else some true

/-- Is `range` inside one of the elements? -/
def subsumesRange (f : FastSetOfMonads) (range : MonadSetElement) : Option Bool :=
  if f.isEmpty then some false
  else if f.mFirst ≤ range.firstM ∧ range.lastM ≤ f.mLast ∧ f.hasOnlyOneMSE then some true
  else if ¬ (f.mFirst ≤ range.firstM ∧ range.lastM ≤ f.mLast) ∧ f.mFirst > range.lastM then
    some false
  else if ¬ (f.mFirst ≤ range.firstM ∧ range.lastM ≤ f.mLast) ∧ f.mLast < range.firstM then
    some false
  else match f.monadMs.upperBound (range.firstM - 1) with
    | none => f.monadMs.back.map fun back => back.subsumes range
    | some it =>
      (f.monadMs.value (some it)).bind fun curmse =>
        if curmse.firstM > range.lastM then
          (f.monadMs.value (f.monadMs.prev (some it))).map fun mse => mse.subsumes range
        else some (curmse.subsumes range)

/-- `gapExists`: `some (some m)` when a gap that ends at `m` starts at `sm`, `some none` when
none does. -/
def gapExists (f : FastSetOfMonads) (sm : Int) : Option (Option Int) :=
  if sm < f.mFirst ∨ sm > f.mLast then some none
  else if f.hasOnlyOneMSE then some none
  else match f.monadMs.upperBound sm with
    | none => some none
    | some it =>
      (f.monadMs.value (some it)).bind fun curmse =>
        if curmse.firstM > sm then
          (f.monadMs.value (f.monadMs.prev (some it))).map fun mse =>
            if mse.lastM + 1 = sm then some (curmse.firstM - 1) else none
        else if curmse.firstM = sm then some none
        else if curmse.lastM ≥ sm then some none
        else if curmse.lastM + 1 = sm then
          match f.monadMs.next it with
          | none => some none
          | some it' => (f.monadMs.value (some it')).map fun mse => some (mse.firstM - 1)
        else some none

def getCardinality (f : FastSetOfMonads) : Int :=
  f.elements.foldl (fun cardinality mse => cardinality + (1 + mse.lastM - mse.firstM)) 0

/-- The loop of `overlap`: does some element of the first set have monads in the second? -/
def overlapLoop (bset : FastSetOfMonads) : List MonadSetElement → Option Bool
  | [] => some false
  | a :: as =>
    (bset.hasMonadsInRange a.firstM a.lastM).bind fun found =>
      if found then some true else overlapLoop bset as

/-- `overlap(const SetOfMonads&, const FastSetOfMonads&)`. -/
def overlap (aset : SetOfMonads) (bset : FastSetOfMonads) : Option Bool :=
  if aset.isEmpty || bset.isEmpty then some false else overlapLoop bset aset.monadMs

/-- The loop of `part_of`: is every element inside one of `other`'s? -/
def subsumesAll (other : FastSetOfMonads) : List MonadSetElement → Option Bool
  | [] => some true
  | a :: as =>
    (other.subsumesRange a).bind fun inside =>
      if inside then subsumesAll other as else some false

end FastSetOfMonads

/-- `SetOfMonads::part_of(const FastSetOfMonads&)`. -/
def SetOfMonads.partOfFast (s : SetOfMonads) (other : FastSetOfMonads) : Option Bool :=
  if s.mFirst ≥ other.mFirst ∧ s.mLast ≤ other.mLast then
    if other.hasOnlyOneMSE then some true else other.subsumesAll s.monadMs
  else some false

end Emdros
