/-
# Doubly linked lists

Nodes in a heap, each with the addresses of the node after it and the node before it.
`Segment cell prev ns next` says that the nodes `ns`, given with their addresses, are linked one
after the other in both directions, between `prev` and `next`; `segment_append` takes a segment
apart where a list is changed, and `Segment.congr` carries it over where it is not.
-/
import Mathlib.Data.List.Basic
import Mathlib.Data.List.Perm.Subperm
import Emdros.Base.Heap

universe u

namespace Doubly

/-- A node of a doubly linked list. -/
structure Node (α : Type u) where
  value : α
  next : Option Nat
  prev : Option Nat

variable {α : Type u}

/-- The address of the first node, or what follows where there is none. -/
def first : List (Nat × α) → Option Nat → Option Nat
  | [], next => next
  | n :: _, _ => some n.1

/-- The address of the last node, or what comes before where there is none. -/
def last : List (Nat × α) → Option Nat → Option Nat
  | [], prev => prev
  | n :: ns, _ => last ns (some n.1)

/-- The addresses of the nodes. -/
def addresses (ns : List (Nat × α)) : List Nat := ns.map Prod.fst

def values (ns : List (Nat × α)) : List α := ns.map Prod.snd

@[simp] theorem first_nil (next : Option Nat) : first ([] : List (Nat × α)) next = next := rfl

@[simp] theorem first_cons (n : Nat × α) (ns : List (Nat × α)) (next : Option Nat) :
    first (n :: ns) next = some n.1 := rfl

@[simp] theorem last_nil (prev : Option Nat) : last ([] : List (Nat × α)) prev = prev := rfl

@[simp] theorem last_cons (n : Nat × α) (ns : List (Nat × α)) (prev : Option Nat) :
    last (n :: ns) prev = last ns (some n.1) := rfl

@[simp] theorem addresses_cons (n : Nat × α) (ns : List (Nat × α)) :
    addresses (n :: ns) = n.1 :: addresses ns := rfl

@[simp] theorem addresses_append (xs ys : List (Nat × α)) :
    addresses (xs ++ ys) = addresses xs ++ addresses ys := List.map_append

@[simp] theorem values_append (xs ys : List (Nat × α)) :
    values (xs ++ ys) = values xs ++ values ys := List.map_append

theorem last_append (xs ys : List (Nat × α)) (prev : Option Nat) :
    last (xs ++ ys) prev = last ys (last xs prev) := by
  induction xs generalizing prev with
  | nil => rfl
  | cons x xs ih => exact ih (some x.1)

theorem last_eq_some {ns : List (Nat × α)} {prev : Option Nat} {p : Nat}
    (h : last ns prev = some p) : p ∈ addresses ns ∨ ns = [] ∧ prev = some p := by
  induction ns generalizing prev with
  | nil => exact .inr ⟨rfl, h⟩
  | cons n ns ih =>
    rcases ih h with hp | ⟨-, hp⟩
    · exact .inl (List.mem_cons_of_mem _ hp)
    · cases hp
      exact .inl List.mem_cons_self

/-- The nodes are linked in both directions, between `prev` and `next`. -/
def Segment (cell : Nat → Option (Node α)) :
    Option Nat → List (Nat × α) → Option Nat → Prop
  | _, [], _ => True
  | prev, n :: ns, next =>
    cell n.1 = some ⟨n.2, first ns next, prev⟩ ∧ Segment cell (some n.1) ns next

section Segments

variable {cell cell' : Nat → Option (Node α)} {prev next : Option Nat} {xs ys ns : List (Nat × α)}

@[simp] theorem segment_nil : Segment cell prev [] next := trivial

@[simp] theorem segment_cons {n : Nat × α} : Segment cell prev (n :: ns) next ↔
    cell n.1 = some ⟨n.2, first ns next, prev⟩ ∧ Segment cell (some n.1) ns next := Iff.rfl

theorem first_append (xs ys : List (Nat × α)) (next : Option Nat) :
    first (xs ++ ys) next = first xs (first ys next) := by
  cases xs <;> rfl

/-- **A segment of two parts**: each part ends where the other begins. -/
theorem segment_append : Segment cell prev (xs ++ ys) next ↔
    Segment cell prev xs (first ys next) ∧ Segment cell (last xs prev) ys next := by
  induction xs generalizing prev with
  | nil => simp
  | cons x xs ih =>
    rw [List.cons_append, segment_cons, segment_cons, ih, first_append, last_cons, and_assoc]

/-- A segment reads the cells of its nodes. -/
theorem Segment.congr (h : Segment cell prev ns next)
    (heq : ∀ p ∈ addresses ns, cell' p = cell p) : Segment cell' prev ns next := by
  induction ns generalizing prev with
  | nil => trivial
  | cons n ns ih =>
    refine ⟨?_, ih h.2 fun p hp => heq p (List.mem_cons_of_mem _ hp)⟩
    rw [heq n.1 List.mem_cons_self]
    exact h.1

/-- The nodes of a segment are alive. -/
theorem Segment.alive (h : Segment cell prev ns next) {p : Nat} (hp : p ∈ addresses ns) :
    ∃ n, cell p = some n := by
  induction ns generalizing prev with
  | nil => cases hp
  | cons n ns ih =>
    rcases List.mem_cons.mp hp with rfl | hp
    · exact ⟨_, h.1⟩
    · exact ih h.2 hp

end Segments

/-- Nodes at different addresses are no more than the addresses. -/
theorem length_le_of_lt {ns : List (Nat × α)} {n : Nat} (hnodup : (addresses ns).Nodup)
    (hlt : ∀ p ∈ addresses ns, p < n) : ns.length ≤ n := by
  have hsub : addresses ns ⊆ List.range n := fun p hp => List.mem_range.mpr (hlt p hp)
  have hlen := (hnodup.subperm hsub).length_le
  rwa [addresses, List.length_map, List.length_range] at hlen

end Doubly
