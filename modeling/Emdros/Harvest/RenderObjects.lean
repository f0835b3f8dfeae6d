/-
# Rendering objects as a document (`renderobjects.h`, `renderobjects.cpp`)

`RenderObjects` loads objects from the database, enters each maximal range of each object in
two maps, `m_fms` by its first monad and `m_lms` by its last, and then goes over the monads
that occur in either: at each it starts the ranges that begin there and ends those that end
there.  `startElements` and `endElements` put these in an order of their own.

A call of `startElement` or `endElement` is a tag (`Base/Brackets.lean`).  The source passes
the object only; here the tag keeps the pair of range and object it was called for, so that
the calls for the ranges of one object can be told apart.  What the templates print is left
out: only whether an object type has a start or an end template decides on the calls.

`m_OTNPs` numbers the object types of the stylesheet, and this number is the surrogate.  The
result of the query that `loadObjectsFromMonads` runs for an object type is a parameter.
-/
import Emdros.Base.Grouping
import Emdros.Base.Brackets
import Emdros.Monads.FastSetOfMonads
import Emdros.Monads.SetAlgebra

namespace Emdros

open Brackets (Tag)

/-! ## 1. The stylesheet -/

/-- A member of the stylesheet's `"object_types"`: its key, and its templates, which are empty
when they are absent. -/
structure ObjectTypeStyle where
  OTN : List Char
  startText : List Char
  endText : List Char
  deriving DecidableEq, Repr

/-- The stylesheet.  The keys of a JSON object are distinct; `priorityList` is `none` when the
document index features are used instead. -/
structure Stylesheet where
  objectTypes : List ObjectTypeStyle
  priorityList : Option (List (List Char))
  keys_nodup : (objectTypes.map ObjectTypeStyle.OTN).Nodup

namespace Stylesheet

/-- `m_bUseDocumentIndexFeatureInsteadOfPriorityList`. -/
def useDocumentIndex (sheet : Stylesheet) : Bool := sheet.priorityList.isNone

/-- `m_OTN2Surrogate[OTN]`, which is `0` for an unknown name. -/
def surrogate (sheet : Stylesheet) (OTN : List Char) : Nat :=
  (sheet.objectTypes.findIdx? fun t => decide (t.OTN = OTN)).getD 0

/-- `m_startTemplates[OTN_surrogate] != 0`. -/
def hasStart (sheet : Stylesheet) (surrogate : Nat) : Bool :=
  sheet.objectTypes[surrogate]?.any fun t => !t.startText.isEmpty

/-- `m_endTemplates[OTN_surrogate] != 0`. -/
def hasEnd (sheet : Stylesheet) (surrogate : Nat) : Bool :=
  sheet.objectTypes[surrogate]?.any fun t => !t.endText.isEmpty

end Stylesheet

/-- `m_startPriority` and `m_endPriority`. -/
structure Priorities where
  startPriority : OrdMap Nat Int
  endPriority : OrdMap Nat Int

/-- The loop of `calculatePriorities`; `insert` leaves the priority of a type that is there
already. -/
def calculatePrioritiesLoop (sheet : Stylesheet) (length : Int) :
    List (List Char) → Int → Priorities → Priorities
  | [], _, p => p
  | OTN :: rest, startIndex, p =>
    calculatePrioritiesLoop sheet length rest (startIndex + 1)
      { startPriority := p.startPriority.insert (sheet.surrogate OTN) startIndex
        endPriority := p.endPriority.insert (sheet.surrogate OTN) (length - startIndex) }

def calculatePriorities (sheet : Stylesheet) : Priorities :=
  match sheet.priorityList with
  | none => ⟨OrdMap.empty, OrdMap.empty⟩
  | some names => calculatePrioritiesLoop sheet names.length names 0 ⟨OrdMap.empty, OrdMap.empty⟩

/-! ## 2. Objects -/

/-- The value of an integer feature. -/
def IsInt32 (i : Int) : Prop := -2147483648 ≤ i ∧ i ≤ 2147483647

instance (i : Int) : Decidable (IsInt32 i) := inferInstanceAs (Decidable (_ ∧ _))

/-- An object as the query returns it, with the value of its document index feature, which is
an `emdf_ivalue`. -/
structure FetchedObject where
  idD : Int
  monads : SetOfMonads
  documentIndex : Int
  rep : monads.RepInv
  nonempty : monads.monadMs ≠ []
  int32 : IsInt32 documentIndex

/-- `class MemObject`.  `address` is its place in `m_obj_arena`, which is what a pointer to it
says. -/
structure MemObject where
  address : Nat
  OTNSurrogate : Nat
  idD : Int
  specialLong : Int
  deriving DecidableEq, Repr

/-- `class MSEPObjectPair`. -/
structure MSEPObjectPair where
  mseFirst : Int
  mseLast : Int
  pObj : MemObject
  deriving DecidableEq, Repr

namespace MSEPObjectPair

def surrogate (p : MSEPObjectPair) : Nat := p.pObj.OTNSurrogate

end MSEPObjectPair

/-- `m_obj_arena`, of which only the number of objects matters, `m_fms` and `m_lms`. -/
structure RenderObjects where
  arena : Nat
  fms : OrdMap Int (List MSEPObjectPair)
  lms : OrdMap Int (List MSEPObjectPair)

namespace RenderObjects

def new : RenderObjects := ⟨0, OrdMap.empty, OrdMap.empty⟩

/-- `list->push_back(pMPObj)` on the list under a monad, which is made when it is not there. -/
def push (monad : Int) (p : MSEPObjectPair) (m : OrdMap Int (List MSEPObjectPair)) :
    OrdMap Int (List MSEPObjectPair) :=
  m.assign monad [] fun l => l ++ [p]

/-- `addToFMSandLMS`. -/
def addToFMSandLMS (sheet : Stylesheet) (p : MSEPObjectPair) (r : RenderObjects) :
    RenderObjects where
  arena := r.arena
  fms := if sheet.hasStart p.surrogate then push p.mseFirst p r.fms else r.fms
  lms := if sheet.hasEnd p.surrogate then push p.mseLast p r.lms else r.lms

/-- The object that is made of a fetched one. -/
def memObject (sheet : Stylesheet) (address surrogate : Nat) (o : FetchedObject) : MemObject where
  address := address
  OTNSurrogate := surrogate
  idD := o.idD
  specialLong := if sheet.useDocumentIndex then o.documentIndex else 0

/-- The ranges of an object, paired with it. -/
def pairsOf (pObj : MemObject) (o : FetchedObject) : List MSEPObjectPair :=
  if o.monads.hasOnlyOneMSE then [⟨o.monads.first, o.monads.last, pObj⟩]
  else o.monads.monadMs.map fun mse => ⟨mse.firstM, mse.lastM, pObj⟩

/-- The body of the loop of `loadObjectsFromMonads`. -/
def loadObject (sheet : Stylesheet) (r : RenderObjects) (so : Nat × FetchedObject) :
    RenderObjects :=
  (pairsOf (memObject sheet r.arena so.1 so.2) so.2).foldl
    (fun r p => addToFMSandLMS sheet p r) { r with arena := r.arena + 1 }

/-- All objects in the order in which `readObjects` loads them: type by type. -/
def objectsToLoad (sheet : Stylesheet) (fetched : Nat → List FetchedObject) :
    List (Nat × FetchedObject) :=
  (List.range sheet.objectTypes.length).flatMap fun surrogate =>
    (fetched surrogate).map fun o => (surrogate, o)

def readObjects (sheet : Stylesheet) (fetched : Nat → List FetchedObject) : RenderObjects :=
  (objectsToLoad sheet fetched).foldl (loadObject sheet) new

/-! ## 3. Starting and ending elements -/

/-- `startElement`. -/
def startElement (sheet : Stylesheet) (p : MSEPObjectPair) : List (Tag MSEPObjectPair) :=
  if sheet.hasStart p.surrogate then [Tag.opens p] else []

/-- `endElement`. -/
def endElement (sheet : Stylesheet) (p : MSEPObjectPair) : List (Tag MSEPObjectPair) :=
  if sheet.hasEnd p.surrogate then [Tag.closes p] else []

/-- The conversion of a `long` to the `int` that keys a `Priority2ObjectMap`. -/
def toInt (i : Int) : Int := i.bmod 4294967296

/-- `priorityMap[priority].push_back(pObj)` for each pair. -/
def priorityMap (priority : MSEPObjectPair → Int) (l : List MSEPObjectPair) :
    OrdMap Int (List MSEPObjectPair) := OrdMap.group priority l

/-- `dict[monad][priority].push_back(pObj)` for each pair: a `Monad2priority2objectMapMap`. -/
def monadMap (monad priority : MSEPObjectPair → Int) (l : List MSEPObjectPair) :
    OrdMap Int (OrdMap Int (List MSEPObjectPair)) :=
  OrdMap.collect monad OrdMap.empty
    (fun m p => m.assign (priority p) [] fun l => l ++ [p]) l

/-- The walk over a `Priority2ObjectMap`. -/
def walkPriorities (m : OrdMap Int (List MSEPObjectPair)) : List MSEPObjectPair :=
  m.walk id

/-- The order of `startElements` and of `endElements`: a single pair as it is; several by the
document index, or from the greatest `monad` down and then by priority. -/
def elementOrder (sheet : Stylesheet) (index monad priority : MSEPObjectPair → Int) :
    List MSEPObjectPair → List MSEPObjectPair
  | [] => []
  | [p] => [p]
  | p :: q :: rest =>
    if sheet.useDocumentIndex then walkPriorities (priorityMap index (p :: q :: rest))
    else (monadMap monad priority (p :: q :: rest)).walkDown walkPriorities

/-- `priority = pObj->getSpecialLong()`. -/
def startIndex (p : MSEPObjectPair) : Int := toInt p.pObj.specialLong

/-- `priority = MAX_MONAD - pObj->getSpecialLong()`. -/
def endIndex (p : MSEPObjectPair) : Int := toInt (maxMonad - p.pObj.specialLong)

/-- `m_startPriority[OTN_surrogate]`. -/
def startPriority (sheet : Stylesheet) (p : MSEPObjectPair) : Int :=
  ((calculatePriorities sheet).startPriority.value (some p.surrogate)).getD 0

/-- `m_endPriority[OTN_surrogate]`. -/
def endPriority (sheet : Stylesheet) (p : MSEPObjectPair) : Int :=
  ((calculatePriorities sheet).endPriority.value (some p.surrogate)).getD 0

def startOrder (sheet : Stylesheet) : List MSEPObjectPair → List MSEPObjectPair :=
  elementOrder sheet startIndex MSEPObjectPair.mseLast (startPriority sheet)

def endOrder (sheet : Stylesheet) : List MSEPObjectPair → List MSEPObjectPair :=
  elementOrder sheet endIndex MSEPObjectPair.mseFirst (endPriority sheet)

def startElements (sheet : Stylesheet) (l : List MSEPObjectPair) : List (Tag MSEPObjectPair) :=
  (startOrder sheet l).flatMap (startElement sheet)

def endElements (sheet : Stylesheet) (l : List MSEPObjectPair) : List (Tag MSEPObjectPair) :=
  (endOrder sheet l).flatMap (endElement sheet)

/-! ## 4. The document -/

/-- The set of the monads that occur as keys. -/
def boundaryMonads (r : RenderObjects) : Option FastSetOfMonads :=
  (r.fms.entries.map (·.1) ++ r.lms.entries.map (·.1)).foldlM
    (fun som monad => som.addMonad monad) FastSetOfMonads.empty

/-- `for (monad = mse.first(); monad <= mse_last_monad; ++monad)`. -/
def monadsOf (mse : MonadSetElement) : List Int :=
  (List.range (mse.lastM - mse.firstM + 1).toNat).map fun i : Nat =>
    mse.firstM + (i : Int)

/-- What is done at a monad. -/
def atMonad (sheet : Stylesheet) (r : RenderObjects) (monad : Int) : List (Tag MSEPObjectPair) :=
  startElements sheet ((r.fms.value (some monad)).getD []) ++
    endElements sheet ((r.lms.value (some monad)).getD [])

/-- `objects2Document`; `none` where building the set of monads throws. -/
def objects2Document (sheet : Stylesheet) (r : RenderObjects) :
    Option (List (Tag MSEPObjectPair)) :=
  r.boundaryMonads.map fun som => (som.elements.flatMap monadsOf).flatMap (atMonad sheet r)

/-- `process`. -/
def process (sheet : Stylesheet) (fetched : Nat → List FetchedObject) :
    Option (List (Tag MSEPObjectPair)) :=
  objects2Document sheet (readObjects sheet fetched)

end RenderObjects

end Emdros
