/-
# A heap of cells that can be freed

A heap maps addresses to the values of one type that are alive there.  Reading, writing or freeing a
cell that is not alive (never allocated, or freed before) fails, so a computation that succeeds
has used no dangling pointer.  Addresses are given out in order and never again.

The `run_` lemmas say what each operation does to a heap; `cell_` lemmas, what it leaves alone.
-/
import Mathlib.Logic.Function.Basic
import Emdros.Base.Partial

universe u

/-- Live cells, and the next address to be given out; no cell from there on is alive. -/
structure Heap (α : Type u) where
  cell : Nat → Option α
  next : Nat
  fresh : ∀ p, next ≤ p → cell p = none

/-- A computation over a heap. -/
abbrev HeapM (α : Type u) (β : Type u) := StateT (Heap α) Option β

namespace Heap

variable {α : Type u} {h : Heap α} {p q : Nat} {a : α}

def empty : Heap α where
  cell := fun _ => none
  next := 0
  fresh := fun _ _ => rfl

theorem lt_next (hp : h.cell p = some a) : p < h.next := by
  by_contra hge
  rw [h.fresh p (Nat.le_of_not_lt hge)] at hp
  cases hp

/-! ## 1. Changing a heap -/

/-- The heap after an allocation, at `h.next`. -/
def alloc (h : Heap α) (a : α) : Heap α where
  cell := Function.update h.cell h.next (some a)
  next := h.next + 1
  fresh := by
    intro p hp
    have hne : p ≠ h.next := by omega
    rw [Function.update_of_ne hne]
    exact h.fresh p (Nat.le_of_succ_le hp)

/-- The heap after the live cell `p` gets another value, or none. -/
def set (h : Heap α) (p : Nat) (v : Option α) (hp : p < h.next) : Heap α where
  cell := Function.update h.cell p v
  next := h.next
  fresh := by
    intro q hq
    have hne : q ≠ p := by omega
    rw [Function.update_of_ne hne]
    exact h.fresh q hq

@[simp] theorem cell_alloc_self (h : Heap α) (a : α) : (h.alloc a).cell h.next = some a :=
  Function.update_self ..

theorem cell_alloc_of_lt (hp : p < h.next) (b : α) : (h.alloc b).cell p = h.cell p :=
  Function.update_of_ne (Nat.ne_of_lt hp) ..

theorem cell_alloc (hp : h.cell p = some a) (b : α) : (h.alloc b).cell p = some a :=
  (cell_alloc_of_lt (lt_next hp) b).trans hp

@[simp] theorem cell_set_self (h : Heap α) (v : Option α) (hp : p < h.next) :
    (h.set p v hp).cell p = v :=
  Function.update_self ..

theorem cell_set (h : Heap α) (v : Option α) (hp : p < h.next) (hq : q ≠ p) :
    (h.set p v hp).cell q = h.cell q :=
  Function.update_of_ne hq ..

/-! ## 2. Operations -/

def new {α : Type} (a : α) : HeapM α Nat := fun h => some (h.next, h.alloc a)

def read (p : Nat) : HeapM α α := fun h => (h.cell p).map fun a => (a, h)

/-- Write to a live cell, or free it. -/
def assign {α : Type} (p : Nat) (v : Option α) : HeapM α Unit := fun h =>
  match hp : h.cell p with
  | none => none
  | some _ => some ((), h.set p v (lt_next hp))

def write {α : Type} (p : Nat) (a : α) : HeapM α Unit := assign p (some a)

def delete {α : Type} (p : Nat) : HeapM α Unit := assign p none

section Run

variable {α : Type} {h : Heap α} {p : Nat} {a : α}

theorem run_new (h : Heap α) (a : α) : (new a).run h = some (h.next, h.alloc a) := rfl

theorem run_read (hp : h.cell p = some a) : (read p).run h = some (a, h) := by
  change (h.cell p).map _ = _
  rw [hp]
  rfl

theorem run_read_none (hp : h.cell p = none) : (read p).run h = none := by
  change (h.cell p).map _ = _
  rw [hp]
  rfl

theorem run_assign (hp : h.cell p = some a) (v : Option α) :
    (assign p v).run h = some ((), h.set p v (lt_next hp)) := by
  change assign p v h = _
  unfold assign
  split
  · next hnone => exact absurd (hp.symm.trans hnone) (Option.some_ne_none a)
  · rfl

theorem run_assign_none (hp : h.cell p = none) (v : Option α) : (assign p v).run h = none := by
  change assign p v h = _
  unfold assign
  split
  · rfl
  · next hsome => exact absurd (hp.symm.trans hsome) (Option.some_ne_none _).symm

theorem read_eq_some {h' : Heap α} (hr : (read p).run h = some (a, h')) :
    h.cell p = some a ∧ h' = h := by
  obtain ⟨b, hb, hr⟩ := Option.map_eq_some_iff.mp hr
  cases hr
  exact ⟨hb, rfl⟩

theorem assign_eq_some {v : Option α} {u : Unit} {h' : Heap α}
    (hr : (assign p v).run h = some (u, h')) :
    (∃ a, h.cell p = some a) ∧ h'.cell = Function.update h.cell p v := by
  cases hp : h.cell p with
  | none =>
    rw [run_assign_none hp] at hr
    cases hr
  | some a =>
    rw [run_assign hp] at hr
    cases hr
    exact ⟨⟨a, rfl⟩, rfl⟩

end Run

end Heap
