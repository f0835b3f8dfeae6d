/-
# Sets of monads (`monads.h`, `monads.cpp`)

A monad is an integer position in the text.  `MonadSetElement` is a maximal stretch of
monads, and `SetOfMonads` keeps an ascending list of them together with two cached bounds,
`m_first` and `m_last`.  This module translates both classes; what the operations mean is
proved in `SetAlgebra.lean` and `Queries.lean`.

`monad_m` is a 32-bit `int`.  Monads lie in `0 .. MAX_MONAD`, well inside that range, so the
arithmetic here is on `Int`; the two decoders of compact strings, where overflow is a question
of its own, use checked arithmetic (`CompactString.lean`).

An `LVlist` is a `List`, and an iterator over it is the suffix that is still to be visited.
Reading `current()` of an exhausted iterator dereferences a null pointer in the source; the
functions that could do so return an `Option`, with `none` for that access and for a
`BadMonadsException`.
-/
import Emdros.Base.Run
import Emdros.Base.SpanList

namespace Emdros

/-- `MAX_MONAD` of `emdf.h`. -/
def maxMonad : Int := 2100000000

theorem maxMonad_pos : 0 < maxMonad := by decide

/-! ## 1. Monad set elements -/

/-- A stretch of monads, from `firstM` to `lastM`.  The constructor of the class throws
`BadMonadsException` when `first > last`, so the bound is part of the type. -/
structure MonadSetElement where
  firstM : Int
  lastM : Int
  first_le_last : firstM ≤ lastM
  deriving DecidableEq, Repr

namespace MonadSetElement

instance : Spanned MonadSetElement where
  lo := firstM
  hi := lastM
  lo_le_hi := first_le_last

@[simp] theorem spanned_lo (e : MonadSetElement) : Spanned.lo e = e.firstM := rfl

@[simp] theorem spanned_hi (e : MonadSetElement) : Spanned.hi e = e.lastM := rfl

/-- The range constructor, which throws when `first > last`. -/
def range (first last : Int) : Option MonadSetElement :=
  if h : first ≤ last then some ⟨first, last, h⟩ else none

/-- The singleton constructor. -/
def single (monad : Int) : MonadSetElement := ⟨monad, monad, le_refl _⟩

/-- Is `other` contained within our borders? -/
def subsumes (self other : MonadSetElement) : Bool :=
  self.firstM ≤ other.firstM && other.lastM ≤ self.lastM

/-- Widen our borders to those of `other`. -/
def subsume (self other : MonadSetElement) : MonadSetElement where
  firstM := if self.firstM > other.firstM then other.firstM else self.firstM
  lastM := if self.lastM < other.lastM then other.lastM else self.lastM
  first_le_last := by
    have := self.first_le_last
    split <;> split <;> omega

/-- Cut away the stretch from `otherFirst` to `otherLast`, at one end. -/
def truncate (self : MonadSetElement) (otherFirst otherLast : Int) : MonadSetElement :=
  if h : self.firstM < otherFirst then ⟨self.firstM, otherFirst - 1, by omega⟩
  else if h' : self.lastM > otherLast then ⟨otherLast + 1, self.lastM, by omega⟩
  else self

/-- The piece that is left over after `B_last`. -/
theorem rest_le {a : MonadSetElement} {bFirst bLast : Int}
    (h : a.firstM < bFirst ∧ a.lastM > bLast) : bLast + 1 ≤ a.lastM :=
  Int.add_one_le_of_lt h.2

def adjacent (self b : MonadSetElement) : Bool :=
  self.lastM + 1 = b.firstM || b.lastM + 1 = self.firstM

def overlap (self b : MonadSetElement) : Bool :=
  self.lastM ≥ b.firstM && self.firstM ≤ b.lastM

/-- Is `self.first() > b.last() + 1`? -/
def past (self b : MonadSetElement) : Bool := self.firstM > b.lastM + 1

def offset (self : MonadSetElement) (m : Int) : MonadSetElement where
  firstM := self.firstM + m
  lastM := self.lastM + m
  first_le_last := by
    have := self.first_le_last
    omega

@[simp] theorem range_of_le {first last : Int} (h : first ≤ last) :
    range first last = some ⟨first, last, h⟩ := dif_pos h

@[simp] theorem single_firstM (m : Int) : (single m).firstM = m := rfl

@[simp] theorem single_lastM (m : Int) : (single m).lastM = m := rfl

@[simp] theorem offset_firstM (e : MonadSetElement) (m : Int) :
    (e.offset m).firstM = e.firstM + m := rfl

@[simp] theorem offset_lastM (e : MonadSetElement) (m : Int) :
    (e.offset m).lastM = e.lastM + m := rfl

theorem subsumes_iff {a b : MonadSetElement} :
    a.subsumes b = true ↔ a.firstM ≤ b.firstM ∧ b.lastM ≤ a.lastM := by
  simp [subsumes]

theorem overlap_iff {a b : MonadSetElement} :
    a.overlap b = true ↔ a.lastM ≥ b.firstM ∧ a.firstM ≤ b.lastM := by
  simp [overlap]

theorem adjacent_iff {a b : MonadSetElement} :
    a.adjacent b = true ↔ a.lastM + 1 = b.firstM ∨ b.lastM + 1 = a.firstM := by
  simp [adjacent]

theorem past_iff {a b : MonadSetElement} : a.past b = true ↔ a.firstM > b.lastM + 1 := by
  simp [past]

theorem subsume_firstM (a b : MonadSetElement) :
    (a.subsume b).firstM = min a.firstM b.firstM := by
  simp only [subsume]
  split <;> omega

theorem subsume_lastM (a b : MonadSetElement) :
    (a.subsume b).lastM = max a.lastM b.lastM := by
  simp only [subsume]
  split <;> omega

/-- Two elements with the same borders are the same element. -/
theorem ext_bounds {a b : MonadSetElement} (h₁ : a.firstM = b.firstM)
    (h₂ : a.lastM = b.lastM) : a = b := by
  cases a; cases b
  simp_all

theorem bounds_injective : Function.Injective (SpanList.bounds (ρ := MonadSetElement)) := by
  intro a b h
  simp only [SpanList.bounds, spanned_lo, spanned_hi, Prod.mk.injEq] at h
  exact ext_bounds h.1 h.2

end MonadSetElement

open MonadSetElement (range single)

/-! ## 2. The set -/

/-- `class SetOfMonads`: the list of stretches and the two cached bounds. -/
structure SetOfMonads where
  monadMs : List MonadSetElement
  mFirst : Int
  mLast : Int
  deriving DecidableEq, Repr

namespace SetOfMonads

/-- The default constructor, and the state after `clear()`. -/
def empty : SetOfMonads := ⟨[], maxMonad, 0⟩

def isEmpty (s : SetOfMonads) : Bool := s.monadMs.isEmpty

def first (s : SetOfMonads) : Int := s.mFirst

def last (s : SetOfMonads) : Int := s.mLast

/-- `LVlist::lengthIs1`: exactly one element. -/
def hasOnlyOneMSE (s : SetOfMonads) : Bool := s.monadMs.length = 1

/-- The merge loop of `addMSE`: what the loop and the insertion that follows it leave of the
part of the list from the cursor on.  `current` grows by every element it touches, the
elements before it are kept, and it is inserted where the loop stops. -/
def addMSELoop (current : MonadSetElement) : List MonadSetElement → List MonadSetElement
  | [] => [current]
  | itmse :: rest =>
    if current.overlap itmse || current.adjacent itmse then
      addMSELoop (current.subsume itmse) rest
    else if itmse.past current then current :: itmse :: rest
    else itmse :: addMSELoop current rest

/-- The list after `addMSE`. -/
def addMSEList (s : SetOfMonads) (mse : MonadSetElement) : List MonadSetElement :=
  match s.monadMs.getLast? with
  | none => s.monadMs ++ [mse]
  | some back =>
    if mse.firstM > s.mLast + 1 then s.monadMs ++ [mse]
    else if mse.firstM ≥ back.firstM then s.monadMs.dropLast ++ [back.subsume mse]
    else if mse.lastM = s.mFirst - 1 then s.monadMs.modifyHead fun front => front.subsume mse
    else addMSELoop mse s.monadMs

def addMSE (s : SetOfMonads) (mse : MonadSetElement) : SetOfMonads where
  monadMs := s.addMSEList mse
  mFirst := if mse.firstM < s.mFirst then mse.firstM else s.mFirst
  mLast := if mse.lastM > s.mLast then mse.lastM else s.mLast

/-- `add(monad)`. -/
def addMonad (s : SetOfMonads) (monad : Int) : SetOfMonads := s.addMSE (single monad)

/-- `add(first, last)`, which throws when `first > last`. -/
def add (s : SetOfMonads) (first last : Int) : Option SetOfMonads :=
  (range first last).map s.addMSE

def unionWith (s other : SetOfMonads) : SetOfMonads := other.monadMs.foldl addMSE s

/-- The loop of `removeMSE`, on the part of the list from the cursor on.  The cases are
numbered as in the comment above the source function. -/
def removeMSELoop (bFirst bLast : Int) : List MonadSetElement → List MonadSetElement
  | [] => []
  | a :: rest =>
    if a.lastM < bFirst then a :: removeMSELoop bFirst bLast rest               -- 1
    else if a.firstM > bLast then a :: rest                                     -- 5
    else if a.firstM ≥ bFirst ∧ a.lastM ≤ bLast then removeMSELoop bFirst bLast rest  -- 3
    else if h : a.firstM < bFirst ∧ a.lastM > bLast then                        -- 6
      a.truncate bFirst bLast :: ⟨bLast + 1, a.lastM, MonadSetElement.rest_le h⟩ :: rest
    else if a.firstM < bFirst then
      a.truncate bFirst bLast :: removeMSELoop bFirst bLast rest                -- 2
    else a.truncate bFirst bLast :: removeMSELoop bFirst bLast rest             -- 4

/-- Set the cached bounds from the list, as `removeMSE` does at its end. -/
def setBounds (l : List MonadSetElement) : SetOfMonads where
  monadMs := l
  mFirst := match l.head? with
    | none => maxMonad
    | some front => front.firstM
  mLast := match l.getLast? with
    | none => 0
    | some back => back.lastM

/-- `removeMSE(B_first, B_last)`. -/
def removeRange (s : SetOfMonads) (bFirst bLast : Int) : SetOfMonads :=
  if s.isEmpty then s else setBounds (removeMSELoop bFirst bLast s.monadMs)

/-- `removeMSE(B)`. -/
def removeMSE (s : SetOfMonads) (b : MonadSetElement) : SetOfMonads :=
  s.removeRange b.firstM b.lastM

def difference (s other : SetOfMonads) : SetOfMonads := other.monadMs.foldl removeMSE s

/-- The stretches that the loop of `intersect` adds to its result, in the order in which it
adds them; the loop never reads the result.  The cases are numbered as in the source. -/
def intersectPieces : List MonadSetElement → List MonadSetElement → List MonadSetElement
  | a :: as, b :: bs =>
    if h₁ : a.lastM < b.firstM then intersectPieces as (b :: bs)                 -- 1
    else if h₅ : a.firstM > b.lastM then intersectPieces (a :: as) bs            -- 5
    else if a.firstM ≥ b.firstM ∧ a.lastM ≤ b.lastM then
      a :: intersectPieces as (b :: bs)                                          -- 3
    else if a.firstM < b.firstM ∧ a.lastM > b.lastM then
      b :: intersectPieces (a :: as) bs                                          -- 6
    else if a.firstM < b.firstM then
      ⟨b.firstM, a.lastM, by omega⟩ :: intersectPieces as (b :: bs)              -- 2
    else ⟨a.firstM, b.lastM, by omega⟩ :: intersectPieces (a :: as) bs           -- 4
  | _, _ => []
termination_by as bs => as.length + bs.length

def intersect (aset bset : SetOfMonads) : SetOfMonads :=
  if aset.isEmpty || bset.isEmpty then empty
  else (intersectPieces aset.monadMs bset.monadMs).foldl addMSE empty

/-- The loop of `operator==`. -/
def equalLoop : List MonadSetElement → List MonadSetElement → Bool
  | a :: us, b :: them => if a = b then equalLoop us them else false
  | [], [] => true
  | _, _ => false

/-- `operator==`. -/
def equal (s other : SetOfMonads) : Bool :=
  if s.isEmpty then other.isEmpty
  else if s.mFirst ≠ other.mFirst ∨ s.mLast ≠ other.mLast then false
  else equalLoop s.monadMs other.monadMs

def offset (s : SetOfMonads) (m : Int) : SetOfMonads where
  monadMs := s.monadMs.map fun e => e.offset m
  mFirst := s.mFirst + m
  mLast := s.mLast + m

/-- `clear()` leaves the state of a new set, whatever was there. -/
def clear (_s : SetOfMonads) : SetOfMonads := empty

/-- `copyOther`: append the elements of `other` to ours and take its bounds. -/
def copyOther (s other : SetOfMonads) : SetOfMonads where
  monadMs := s.monadMs ++ other.monadMs
  mFirst := other.mFirst
  mLast := other.mLast

/-! ## 3. Queries -/

def isMemberOfLoop (m : Int) : List MonadSetElement → Bool
  | [] => false
  | cur :: rest =>
    if m ≥ cur.firstM ∧ m ≤ cur.lastM then true
    else if m < cur.firstM then false
    else isMemberOfLoop m rest

def isMemberOf (s : SetOfMonads) (m : Int) : Bool := isMemberOfLoop m s.monadMs

/-- `isMemberOf(m, hint_it)`: the answer and the iterator, as the elements from it on; `none`
when `current()` is read past the end. -/
def isMemberOfHint (s : SetOfMonads) (m : Int) (hintIt : List MonadSetElement) :
    Option (Bool × List MonadSetElement) :=
  if m > s.last then some (false, [])
  else
    match hintIt with
    | [] => none
    | current :: _ =>
      let hintIt := if current.firstM > m then s.monadMs else hintIt
      match hintIt.dropWhile fun e => e.lastM < m with
      | [] => some (false, [])
      | current :: rest => some (decide (current.firstM ≤ m), current :: rest)

/-- The loop of `part_of`, over the unvisited parts of the two lists. -/
def partOfLoop : List MonadSetElement → List MonadSetElement → Bool
  | [], _ => true
  | _ :: _, [] => false
  | a :: as, b :: bs =>
    if a.lastM < b.firstM then false                                             -- 1
    else if a.firstM > b.lastM then partOfLoop (a :: as) bs                      -- 5
    else if a.firstM ≥ b.firstM ∧ a.lastM ≤ b.lastM then partOfLoop as (b :: bs) -- 3
    else false                                                                   -- 6, 2, 4
termination_by as bs => as.length + bs.length

/-- `part_of(const SetOfMonads&)`.  Past the shortcut on the bounds the source reads
`current()` of both iterators before it asks either whether there is anything to read. -/
def partOf (s other : SetOfMonads) : Option Bool :=
  if s.mFirst ≥ other.mFirst ∧ s.mLast ≤ other.mLast then
    if other.hasOnlyOneMSE then some true
    else match s.monadMs, other.monadMs with
      | a :: as, b :: bs => some (partOfLoop (a :: as) (b :: bs))
      | _, _ => none
  else some false

def startsIn (s other : SetOfMonads) : Bool := other.isMemberOf s.mFirst

/-- The loop of `overlap`, over the unvisited parts of the two lists. -/
def overlapLoop : List MonadSetElement → List MonadSetElement → Bool
  | a :: as, b :: bs =>
    if a.lastM < b.firstM then overlapLoop as (b :: bs)                          -- 1
    else if a.firstM > b.lastM then overlapLoop (a :: as) bs                     -- 5
    else true                                                                    -- 3, 6, 2, 4
  | _, _ => false
termination_by as bs => as.length + bs.length

def overlap (aset bset : SetOfMonads) : Bool :=
  if aset.isEmpty || bset.isEmpty then false
  else overlapLoop aset.monadMs bset.monadMs

def hasMonadsInRangeLoop (other : MonadSetElement) : List MonadSetElement → Bool
  | [] => false
  | cur :: rest =>
    if cur.overlap other then true
    else if other.lastM < cur.firstM then false
    else hasMonadsInRangeLoop other rest

/-- `hasMonadsInRange`, which builds an element from its arguments and so throws when the
range is empty. -/
def hasMonadsInRange (s : SetOfMonads) (firstM lastM : Int) : Option Bool :=
  (range firstM lastM).map fun other => hasMonadsInRangeLoop other s.monadMs

/-- The loop of `gapExists`: `some (some m)` when a gap that ends at `m` starts at `sm`,
`some none` when none does, and `none` when `current()` is read past the end. -/
def gapExistsLoop (sm : Int) : List MonadSetElement → Option (Option Int)
  | [] => some none
  | cur :: rest =>
    if sm = cur.lastM + 1 then
      match rest with
      | next :: _ => some (some (next.firstM - 1))
      | [] => none
    else if sm < cur.lastM then some none
    else gapExistsLoop sm rest

def gapExists (s : SetOfMonads) (sm : Int) : Option (Option Int) :=
  if sm < s.mFirst ∨ sm > s.mLast then some none else gapExistsLoop sm s.monadMs

def getCardinality (s : SetOfMonads) : Int :=
  s.monadMs.foldl (fun cardinality mse => cardinality + (1 + mse.lastM - mse.firstM)) 0

/-- The stretches that the loop of `fillGaps` adds to its result after the first one; `none`
when `add(prev_last, curmse.last_m)` throws. -/
def fillGapsPieces (minGap prevLast : Int) : List MonadSetElement →
    Option (List MonadSetElement)
  | [] => some []
  | cur :: rest =>
    if cur.firstM - prevLast - 1 ≥ minGap then
      (fillGapsPieces minGap cur.lastM rest).map (cur :: ·)
    else
      (range prevLast cur.lastM).bind fun piece =>
        (fillGapsPieces minGap cur.lastM rest).map (piece :: ·)

def fillGaps (s : SetOfMonads) (minGap : Int) : Option SetOfMonads :=
  match s.monadMs with
  | [] => some empty
  | cur :: rest =>
    (fillGapsPieces minGap cur.lastM rest).map fun pieces =>
      pieces.foldl addMSE (empty.addMSE cur)

/-- The loop of `getGaps`. -/
def getGapsLoop : Int → SetOfMonads → List MonadSetElement → Option SetOfMonads
  | _, resultSOM, [] => some resultSOM
  | prevLast, resultSOM, curmse :: rest =>
    (resultSOM.add (prevLast + 1) (curmse.firstM - 1)).bind fun resultSOM =>
      getGapsLoop curmse.lastM resultSOM rest

/-- `getGaps()`. -/
def getGaps (s : SetOfMonads) : Option SetOfMonads :=
  match s.monadMs with
  | [] => some empty
  | mse :: rest => getGapsLoop mse.lastM empty rest

/-! ## 4. The canonical string form -/

/-- `eFSState` of `fromString`. -/
inductive FSState where
  | kNone
  | kFirst
  | kLast
  | kFinished
  deriving DecidableEq, Repr

/-- The local variables of `fromString`, and the set being built. -/
structure FromString where
  state : FSState
  first : Int
  last : Int
  som : SetOfMonads
  deriving DecidableEq, Repr

/-- What `,` and `}` do before they change the state: add what was read. -/
def FromString.flush (v : FromString) : Option SetOfMonads :=
  match v.state with
  | .kLast => if v.first ≠ -1 ∧ v.last ≠ -1 then v.som.add v.first v.last else some v.som
  | .kFirst => if v.first ≠ -1 then some (v.som.addMonad v.first) else some v.som
  | _ => some v.som

/-- One more decimal digit of a number that is `-1` when nothing was read yet. -/
def FromString.digit (number : Int) (c : Char) : Int :=
  if number = -1 then c.toNat - '0'.toNat else number * 10 + (c.toNat - '0'.toNat)

/-- The body of the loop of `fromString`. -/
def FromString.step (v : FromString) (c : Char) : Option FromString :=
  if c = '{' then some { v with state := .kFirst }
  else if c = '-' then some { v with state := .kLast }
  else if c = ',' then
    v.flush.map fun som => { state := .kFirst, first := -1, last := -1, som := som }
  else if c = '}' then
    v.flush.map fun som => { v with state := .kFinished, som := som }
  else if c.isDigit then
    match v.state with
    | .kFirst => some { v with first := digit v.first c }
    | .kLast => some { v with last := digit v.last c }
    | _ => some v
  else some v

/-- The local variables before the loop, after `clear()`. -/
def FromString.start : FromString := { state := .kNone, first := -1, last := -1, som := empty }

/-- `fromString`: clear the set, then read the string.  `none` is the exception of
`add(first, last)` on a range that is the wrong way round. -/
def fromString (_s : SetOfMonads) (instr : List Char) : Option SetOfMonads :=
  (Machine.run FromString.step FromString.start instr).map (·.som)

end SetOfMonads

end Emdros
