/-
# Copies of JSON values (`JSONValue::copyOther`)

The copy constructor and `operator=` share `copyOther`.  Its loop over an object copies the value
behind each pointer; its loop over a list passes the pointer itself, which of all constructors only
`JSONValue(bool)` takes.  So a copy is equal to its original exactly when every element of every
list is `true` (`copy_iff`).

Where a value is assigned to itself, the list or object that is read is the new, empty one, and
`assignSelf_iff` says which values that leaves as they were.

`copyOther_iff` and `copyMembers_iff` are one induction on the value: a list ends it, since nothing
behind its pointers is looked at, and an object passes it on to its members.  A list inside a list
is therefore lost as a whole, and a list inside an object is not worse off than one that stands by
itself.
-/
import Mathlib
import Emdros.EMdF.JsonClasses

namespace Emdros

namespace JSONValue

/-! ## 1. The functions -/

/-- `new JSONValue(*ci)` for an element of a list, which is a `JSONValue*` that is not null:
`JSONValue(bool)` takes it by a standard conversion, the copy constructor would need one more
object, and no other constructor takes it. -/
def ofPointer (_ : JSONValue) : JSONValue := boolean true

mutual

/-- `copyOther`, for another object. -/
def copyOther : JSONValue → JSONValue
  | null => null
  | boolean b => boolean b
  | integer i => integer i
  | string s => string s
  | list l => list (l.map ofPointer)
  | object o => object (copyMembers o)

/-- The pairs of a map that are inserted into the new one.  They come in the order of their keys,
so that each goes behind the ones before it. -/
def copyMembers : List (List UInt8 × JSONValue) → List (List UInt8 × JSONValue)
  | [] => []
  | (k, v) :: o => (k, copyOther v) :: copyMembers o

end

/-- `JSONValue(const JSONValue& other)`. -/
def copyConstructor (other : JSONValue) : JSONValue := copyOther other

/-- `operator=`; what the object held is given up. -/
def assign (_ other : JSONValue) : JSONValue := copyOther other

/-- `operator=` from the object itself, whose list or map is the new, empty one before it is
read. -/
def assignSelf : JSONValue → JSONValue
  | null => null
  | boolean b => boolean b
  | integer i => integer i
  | string s => string s
  | list _ => list []
  | object _ => object []

/-! ## 2. When a copy is equal -/

mutual

/-- Every element of every list is `true`. -/
def ListsTrue : JSONValue → Prop
  | list l => ∀ v ∈ l, v = boolean true
  | object o => MembersListsTrue o
  | _ => True

def MembersListsTrue : List (List UInt8 × JSONValue) → Prop
  | [] => True
  | (_, v) :: o => ListsTrue v ∧ MembersListsTrue o

end

theorem map_ofPointer_iff {l : List JSONValue} :
    l.map ofPointer = l ↔ ∀ v ∈ l, v = boolean true := by
  induction l with
  | nil => exact iff_of_true rfl fun v hv => absurd hv List.not_mem_nil
  | cons v l ih =>
    rw [List.map_cons, List.cons.injEq, ih, List.forall_mem_cons, ofPointer]
    exact and_congr_left fun _ => eq_comm

mutual

/-- By induction on the tree. -/
theorem copyOther_iff : ∀ v : JSONValue, copyOther v = v ↔ ListsTrue v
  | null => iff_of_true rfl trivial
  | boolean _ => iff_of_true rfl trivial
  | integer _ => iff_of_true rfl trivial
  | string _ => iff_of_true rfl trivial
  | list l => by
    rw [copyOther, ListsTrue, list.injEq]
    exact map_ofPointer_iff
  | object o => by
    rw [copyOther, ListsTrue, object.injEq]
    exact copyMembers_iff o

theorem copyMembers_iff : ∀ o : List (List UInt8 × JSONValue),
    copyMembers o = o ↔ MembersListsTrue o
  | [] => iff_of_true rfl trivial
  | (k, v) :: o => by
    rw [copyMembers, MembersListsTrue, List.cons.injEq, Prod.mk.injEq, ← copyOther_iff v,
      ← copyMembers_iff o]
    exact and_congr_left fun _ => and_iff_right rfl

end

/-- The value has no elements and no members. -/
def IsLeaf : JSONValue → Prop
  | list l => l = []
  | object o => o = []
  | _ => True

theorem assignSelf_iff (v : JSONValue) : assignSelf v = v ↔ IsLeaf v := by
  cases v with
  | list l => rw [assignSelf, IsLeaf, list.injEq, eq_comm]
  | object o => rw [assignSelf, IsLeaf, object.injEq, eq_comm]
  | _ => exact iff_of_true rfl trivial

/-- **A copy is equal to its original** exactly when every element of every list is `true`; an
object keeps its value through an assignment from itself exactly when it holds no other. -/
theorem copy_iff (old v : JSONValue) :
    (copyConstructor v = v ∧ assign old v = v ∧
      printCompact (copyConstructor v) = printCompact v ∧
      printCompact (assign old v) = printCompact v ↔ ListsTrue v) ∧
    (assignSelf v = v ∧ printCompact (assignSelf v) = printCompact v ↔ IsLeaf v) := by
  rw [← copyOther_iff v, ← assignSelf_iff v, copyConstructor, assign]
  constructor
  · constructor
    · rintro ⟨h, -⟩
      exact h
    · intro h
      rw [h]
      exact ⟨rfl, rfl, rfl, rfl⟩
  · constructor
    · rintro ⟨h, -⟩
      exact h
    · intro h
      rw [h]
      exact ⟨rfl, rfl⟩

/-- The copy of `[1]` is printed as `[true]`. -/
theorem not_copy_list :
    printCompact (copyConstructor (list [integer 1])) ≠ printCompact (list [integer 1]) := by
  decide

end JSONValue

end Emdros
