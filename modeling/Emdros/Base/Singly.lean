/-
# Singly linked lists

Nodes in a heap, each with the address of the node after it.  `Segment cell ns next` says that the
nodes `ns`, given with their addresses, are linked one after the other, and the last of them to
`next`.

A list changes where one node gets another successor: `Segment.relink` says which list it is then,
and `Segment.splice` what becomes of a list of which a part is exchanged.
-/
import Emdros.Base.Doubly

universe u

namespace Singly

open Doubly (first last addresses first_append last_append)

/-- A node of a singly linked list. -/
structure Node (α : Type u) where
  value : α
  next : Option Nat

variable {α : Type u}

/-- The nodes are linked, and the last one to `next`. -/
def Segment (cell : Nat → Option (Node α)) : List (Nat × α) → Option Nat → Prop
  | [], _ => True
  | n :: ns, next => cell n.1 = some ⟨n.2, first ns next⟩ ∧ Segment cell ns next

variable {cell cell' : Nat → Option (Node α)} {next : Option Nat} {xs ys zs ns : List (Nat × α)}
  {t : Nat × α}

@[simp] theorem segment_nil : Segment cell [] next := trivial

@[simp] theorem segment_cons {n : Nat × α} : Segment cell (n :: ns) next ↔
    cell n.1 = some ⟨n.2, first ns next⟩ ∧ Segment cell ns next := Iff.rfl

/-- **A segment of two parts**: the first ends where the second begins. -/
theorem segment_append : Segment cell (xs ++ ys) next ↔
    Segment cell xs (first ys next) ∧ Segment cell ys next := by
  induction xs with
  | nil => simp
  | cons x xs ih => rw [List.cons_append, segment_cons, segment_cons, ih, first_append, and_assoc]

/-- A segment reads the cells of its nodes. -/
theorem Segment.congr (h : Segment cell ns next) (heq : ∀ p ∈ addresses ns, cell' p = cell p) :
    Segment cell' ns next := by
  induction ns with
  | nil => trivial
  | cons n ns ih =>
    refine ⟨?_, ih h.2 fun p hp => heq p (List.mem_cons_of_mem _ hp)⟩
    rw [heq n.1 List.mem_cons_self]
    exact h.1

/-- The nodes of a segment are alive. -/
theorem Segment.alive (h : Segment cell ns next) {p : Nat} (hp : p ∈ addresses ns) :
    ∃ n, cell p = some n := by
  induction ns with
  | nil => cases hp
  | cons n ns ih =>
    rcases List.mem_cons.mp hp with rfl | hp
    · exact ⟨_, h.1⟩
    · exact ih h.2 hp

/-- **Another successor.**  The node `t` is linked to other nodes than before, and so the list goes
on with these. -/
theorem Segment.relink (h : Segment cell (xs ++ t :: ys) next)
    (heq : ∀ p ∈ addresses xs, cell' p = cell p)
    (ht : cell' t.1 = some ⟨t.2, first zs next⟩) (hz : Segment cell' zs next) :
    Segment cell' (xs ++ t :: zs) next := by
  rw [segment_append] at h ⊢
  exact ⟨h.1.congr heq, ht, hz⟩

/-- **Another part.**  The node before the nodes `old` is linked to the nodes `mid`, and the last of
them to what came after `old`. -/
theorem Segment.splice {old : List (Nat × α)} (h : Segment cell (xs ++ (old ++ ys)) next)
    (mid : List (Nat × α)) (hnodup : (addresses xs).Nodup)
    (hlast : ∀ a n, last xs none = some a → cell a = some n →
      cell' a = some { n with next := first (mid ++ ys) next })
    (hxs : ∀ p ∈ addresses xs, last xs none ≠ some p → cell' p = cell p)
    (hmid : Segment cell' mid (first ys next)) (hys : ∀ p ∈ addresses ys, cell' p = cell p) :
    Segment cell' (xs ++ (mid ++ ys)) next := by
  have hrest : Segment cell' (mid ++ ys) next :=
    segment_append.mpr ⟨hmid, (segment_append.mp (segment_append.mp h).2).2.congr hys⟩
  rcases List.eq_nil_or_concat xs with rfl | ⟨xs, t, rfl⟩
  · exact hrest
  · have htail : last (xs ++ [t]) none = some t.1 := last_append xs [t] none
    rw [List.concat_eq_append] at h hnodup hlast hxs ⊢
    rw [List.append_assoc, List.singleton_append] at h ⊢
    refine h.relink (fun p hp => hxs p ?_ ?_) ?_ hrest
    · rw [Doubly.addresses_append]
      exact List.mem_append_left _ hp
    · rw [htail]
      rintro heq
      rw [Doubly.addresses_append] at hnodup
      exact (List.nodup_append.mp hnodup).2.2 p hp t.1 List.mem_cons_self (Option.some.inj heq).symm
    · exact hlast t.1 _ htail (segment_append.mp h).2.1

end Singly
