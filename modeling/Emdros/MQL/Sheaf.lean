/-
# Sheaves (`mql_sheaf.h`, `mql_sheaf.cpp`)

The answer to a query.  A sheaf is a list of straws, or failed; a straw is a string of matched
objects; a matched object stands for an object, a gap or nothing, and has an inner sheaf.

A `MatchedObject` keeps its kind in `m_id_d`: an object's id_d from `0` up, `-1` for an
`EMPTY_mo`, `-2`, `-3` and `-4` for a gap that is not retrieved, retrieved and in focus.  Left out
are the values of `GET` features, which no function of the model reads.
-/
import Emdros.Monads.SetOfMonads

namespace Emdros

/-- `eRetrieval`. -/
inductive ERetrieval where
  | kRetrieve
  | kNoRetrieve
  | kRetrieveFocus
  deriving DecidableEq, Repr

/-- `ObjectBlockBase`: the block from which a matched object came. -/
structure ObjectBlockBase where
  nodeNumber : Nat
  retrieval : ERetrieval
  deriving DecidableEq, Repr

namespace ObjectBlockBase

def isFocus (obb : ObjectBlockBase) : Bool := obb.retrieval = .kRetrieveFocus

def isToBeRetrieved (obb : ObjectBlockBase) : Bool := obb.retrieval ≠ .kNoRetrieve

end ObjectBlockBase

mutual

/-- `m_id_d`, the monad set, and the pointers to the block and to the inner sheaf. -/
inductive MatchedObject : Type where
  | mk (idD : Int) (monads : SetOfMonads) (pObjectBlock : Option ObjectBlockBase)
      (sheaf : Option Sheaf)

/-- `m_last` and `m_list`. -/
inductive Straw : Type where
  | mk (last : Int) (list : List MatchedObject)

/-- `m_plist`, which is null in a failed sheaf. -/
inductive Sheaf : Type where
  | fail
  | plist (straws : List Straw)

end

/-! ## 1. Matched objects -/

namespace MatchedObject

def idD : MatchedObject → Int
  | mk idD _ _ _ => idD

def getMonads : MatchedObject → SetOfMonads
  | mk _ monads _ _ => monads

def getObjectBlockBase : MatchedObject → Option ObjectBlockBase
  | mk _ _ obb _ => obb

def getSheaf : MatchedObject → Option Sheaf
  | mk _ _ _ sheaf => sheaf

def getLast (mo : MatchedObject) : Int := mo.getMonads.last

/-- `MatchedObject(SmMinus1)`, an `EMPTY_mo`. -/
def ofEmpty (smMinus1 : Int) : MatchedObject :=
  mk (-1) (SetOfMonads.empty.addMonad smMinus1) none none

/-- `MatchedObject(id_d, monads, sheaf, pObjectBlock)`, an `ID_D`. -/
def ofObject (idD : Int) (monads : SetOfMonads) (sheaf : Option Sheaf)
    (pObjectBlock : ObjectBlockBase) : MatchedObject :=
  mk idD monads (some pObjectBlock) sheaf

/-- `MatchedObject(monads, pOBB, bRetrieve, bFocus, sheaf)`, an `ID_M`. -/
def ofGap (monads : SetOfMonads) (pOBB : ObjectBlockBase) (bRetrieve bFocus : Bool)
    (sheaf : Option Sheaf) : MatchedObject :=
  mk (if bFocus then -4 else if bRetrieve then -3 else -2) monads (some pOBB) sheaf

def isIDD (mo : MatchedObject) : Bool := mo.idD ≥ 0 ∨ mo.idD ≤ -5

def isEMPTYmo (mo : MatchedObject) : Bool := mo.idD = -1

/-- `getRetrieve()`; the block pointer of an `ID_D` is not null. -/
def getRetrieve (mo : MatchedObject) : Bool :=
  if mo.isIDD then
    match mo.getObjectBlockBase with
    | some obb => obb.isToBeRetrieved
    | none => false
  else mo.idD ≤ -3

/-- `copyMO`: an `EMPTY_mo` gets a null block pointer.  A copied sheaf is equal to the
original. -/
def copyMO : MatchedObject → MatchedObject
  | mk idD monads obb sheaf =>
    mk idD monads (if idD ≥ 0 ∨ idD ≤ -2 then obb else none) sheaf

@[simp] theorem copyMO_getSheaf (mo : MatchedObject) : mo.copyMO.getSheaf = mo.getSheaf := by
  cases mo
  rfl

@[simp] theorem copyMO_idD (mo : MatchedObject) : mo.copyMO.idD = mo.idD := by
  cases mo
  rfl

/-- A copy is to be retrieved when the original is. -/
@[simp] theorem copyMO_getRetrieve (mo : MatchedObject) :
    mo.copyMO.getRetrieve = mo.getRetrieve := by
  obtain ⟨idD, monads, obb, sheaf⟩ := mo
  unfold getRetrieve isIDD
  rw [copyMO_idD]
  change (if decide (idD ≥ 0 ∨ idD ≤ -5) then _ else _) =
    if decide (idD ≥ 0 ∨ idD ≤ -5) then _ else _
  by_cases h : idD ≥ 0 ∨ idD ≤ -5
  · have h' : idD ≥ 0 ∨ idD ≤ -2 := by omega
    rw [if_pos (decide_eq_true h), if_pos (decide_eq_true h)]
    change (match if idD ≥ 0 ∨ idD ≤ -2 then obb else none with
      | some obb => obb.isToBeRetrieved
      | none => false) = _
    rw [if_pos h']
    rfl
  · rw [if_neg (by simpa using h), if_neg (by simpa using h)]

@[simp] theorem ofEmpty_getSheaf (m : Int) : (ofEmpty m).getSheaf = none := rfl

/-- An object is to be retrieved when its block is. -/
theorem ofObject_getRetrieve {idD : Int} (h : 0 ≤ idD) (monads : SetOfMonads)
    (sheaf : Option Sheaf) (obb : ObjectBlockBase) :
    (ofObject idD monads sheaf obb).getRetrieve = obb.isToBeRetrieved :=
  if_pos (decide_eq_true (Or.inl h))

end MatchedObject

/-! ## 2. Straws -/

namespace Straw

/-- `Straw()`. -/
def new : Straw := mk 0 []

def last : Straw → Int
  | mk last _ => last

def list : Straw → List MatchedObject
  | mk _ list => list

def isEmpty (s : Straw) : Bool := s.list.isEmpty

/-- `append(mo)`, which updates `m_last`. -/
def append (s : Straw) (mo : MatchedObject) : Straw :=
  mk (if mo.getLast > s.last then mo.getLast else s.last) (s.list ++ [mo])

/-- `prepend(other)`: copies of the matched objects of `other` in front; `m_last` stays. -/
def prepend (s other : Straw) : Straw := mk s.last (other.list.map MatchedObject.copyMO ++ s.list)

/-- The copy constructor. -/
def copy (s : Straw) : Straw := mk s.last (s.list.map MatchedObject.copyMO)

/-- The straw that `appendAndSubsumeWhileFiltering` makes of a straw. -/
def filterRetrieve (s : Straw) : Straw :=
  (s.list.filter MatchedObject.getRetrieve).foldl (fun s mo => s.append mo.copyMO) new

@[simp] theorem new_list : new.list = [] := rfl

@[simp] theorem append_list (s : Straw) (mo : MatchedObject) : (s.append mo).list = s.list ++ [mo] :=
  rfl

@[simp] theorem prepend_list (s other : Straw) :
    (s.prepend other).list = other.list.map MatchedObject.copyMO ++ s.list := rfl

theorem foldl_append_list : ∀ (mos : List MatchedObject) (s : Straw),
    (mos.foldl (fun s mo => s.append mo.copyMO) s).list
      = s.list ++ mos.map MatchedObject.copyMO
  | [], s => by simp
  | mo :: mos, s => by
    rw [List.foldl_cons, foldl_append_list mos, append_list, List.map_cons, List.append_assoc]
    rfl

/-- The copies of the matched objects that are to be retrieved. -/
@[simp] theorem filterRetrieve_list (s : Straw) :
    s.filterRetrieve.list
      = (s.list.filter MatchedObject.getRetrieve).map MatchedObject.copyMO := by
  rw [filterRetrieve, foldl_append_list, new_list, List.nil_append]

end Straw

/-! ## 3. Lists of straws

`ListOfStraws` is a list of straws.  What follows is the contents of the list after an
operation; which lists an operation deletes matters only where the model says so. -/

namespace ListOfStraws

/-- What `appendAndSubsumeWhileFiltering(pOther)` appends. -/
def filtered (other : List Straw) : List Straw :=
  (other.map Straw.filterRetrieve).filter fun s => !s.isEmpty

/-- The loop of `appendAndSubsumeWhileCounting(pOther, start_index, count)`: what it appends,
from `straw_count` and `straw_index` on. -/
def counted (startIndex count : Int) : Int → Int → List Straw → List Straw
  | _, _, [] => []
  | strawCount, strawIndex, straw :: other =>
    let bAppend := strawIndex ≥ startIndex ∧ strawCount ≤ count
    let rest :=
      if strawIndex + 1 > startIndex + count then []
      else counted startIndex count (if bAppend then strawCount + 1 else strawCount)
        (strawIndex + 1) other
    if bAppend then straw.copy :: rest else rest

/-- `appendACopy(pOther)`. -/
def appendACopy (los other : List Straw) : List Straw := los ++ other.map Straw.copy

/-- `join(mys)`. -/
def join (los : List Straw) (mys : Straw) : List Straw :=
  if los.isEmpty then [mys.copy] else los.map fun straw => straw.prepend mys

end ListOfStraws

/-! ## 4. Sheaves -/

namespace Sheaf

def isFail : Sheaf → Bool
  | fail => true
  | plist _ => false

/-- What `const_iterator()` goes through. -/
def straws : Sheaf → List Straw
  | fail => []
  | plist straws => straws

end Sheaf

end Emdros
