/-
# Linked lists as paths of a successor function

A linked list in memory is a successor function `next : α → Option α` on addresses, `none`
where there is no such field.  `Path next a xs b` says that from `a` one visits exactly `xs`
and then arrives at `b`.  The file has the two facts that pointer programs live on:

* `Path.congr`: a path does not change with fields that are not on it;
* `Path.insert`: redirecting the last node before a position to a fresh node, which points
  where that node pointed, inserts the fresh node there.

The last section is about the list a search visits: where the nodes are sorted, a test that
holds up to some node splits the list in two.
-/
import Mathlib.Data.List.Basic
import Mathlib.Data.List.Pairwise

namespace Linked

variable {α : Type*}

/-! ## 1. Paths -/

/-- From `a` the successors are `xs` and then `b`. -/
def Path (next : α → Option α) : α → List α → α → Prop
  | a, [], b => next a = some b
  | a, x :: xs, b => next a = some x ∧ Path next x xs b

section Paths

variable {next next' : α → Option α} {a b q x : α} {xs ys : List α}

@[simp] theorem path_nil : Path next a [] b ↔ next a = some b := Iff.rfl

@[simp] theorem path_cons : Path next a (x :: xs) b ↔ next a = some x ∧ Path next x xs b :=
  Iff.rfl

/-- The first step. -/
theorem Path.next_eq (h : Path next a xs b) : next a = some (xs.headD b) := by
  cases xs with
  | nil => exact h
  | cons x xs => exact h.1

/-- A path through `x` is a path to `x` and one from it. -/
theorem path_append_cons : Path next a (xs ++ x :: ys) b ↔
    Path next a xs x ∧ Path next x ys b := by
  induction xs generalizing a with
  | nil => rfl
  | cons y xs ih =>
    rw [List.cons_append, path_cons, path_cons, ih, and_assoc]

/-- A path reads the fields of its start and of the nodes it visits. -/
theorem Path.congr (h : Path next a xs b) (heq : ∀ y ∈ a :: xs, next' y = next y) :
    Path next' a xs b := by
  induction xs generalizing a with
  | nil =>
    rw [path_nil, heq a List.mem_cons_self]
    exact h
  | cons y xs ih =>
    refine ⟨?_, ih h.2 fun z hz => heq z (List.mem_cons_of_mem a hz)⟩
    rw [heq a List.mem_cons_self]
    exact h.1

/-- From the last node of the first part on. -/
theorem Path.from_last (h : Path next a (xs ++ ys) b) : Path next (xs.getLastD a) ys b := by
  induction xs generalizing a with
  | nil => exact h
  | cons y xs ih =>
    rw [List.getLastD_cons]
    exact ih h.2

/-- **Insertion.**  `q` is new, takes over the successor of the last node of `xs`, and becomes
that node's successor; nothing else on the path changes. -/
theorem Path.insert (h : Path next a (xs ++ ys) b) (hnodup : (a :: (xs ++ ys)).Nodup)
    (hq : q ∉ a :: (xs ++ ys)) (hnew : next' q = next (xs.getLastD a))
    (hlast : next' (xs.getLastD a) = some q)
    (hrest : ∀ y, y ≠ q → y ≠ xs.getLastD a → next' y = next y) :
    Path next' a (xs ++ q :: ys) b := by
  induction xs generalizing a with
  | nil =>
    refine ⟨hlast, ?_⟩
    rw [List.getLastD_nil] at hnew hrest
    have hstep := h.next_eq
    cases ys with
    | nil =>
      rw [path_nil, hnew]
      exact h
    | cons y ys =>
      refine ⟨hnew.trans h.1, h.2.congr ?_⟩
      intro z hz
      refine hrest z ?_ ?_
      · rintro rfl
        exact hq (List.mem_cons_of_mem a hz)
      · rintro rfl
        exact (List.nodup_cons.mp hnodup).1 hz
  | cons y xs ih =>
    rw [List.getLastD_cons] at hnew hlast hrest
    have hmem : xs.getLastD y ∈ y :: xs := by
      rw [List.getLastD_eq_getLast?]
      cases hx : xs.getLast? with
      | none => exact List.mem_cons_self
      | some z => exact List.mem_cons_of_mem y (List.mem_of_getLast? hx)
    have hne : a ≠ xs.getLastD y := by
      rintro rfl
      exact (List.nodup_cons.mp hnodup).1 (List.mem_append_left ys hmem)
    have haq : a ≠ q := by
      rintro rfl
      exact hq List.mem_cons_self
    refine ⟨(hrest a haq hne).trans h.1, ?_⟩
    exact ih h.2 (List.nodup_cons.mp hnodup).2 (fun hz => hq (List.mem_cons_of_mem a hz)) hnew
      hlast hrest

end Paths

/-! ## 2. Sorted lists split by a test -/

section Split

variable {R : α → α → Prop} {test : α → Bool}

/-- A test that passes from later elements to earlier ones holds on a first part of the list
and fails on the rest. -/
theorem filter_append_filter_not (hdown : ∀ a b, R a b → test b = true → test a = true) :
    ∀ {l : List α}, l.Pairwise R → l = l.filter test ++ l.filter fun a => !test a
  | [], _ => rfl
  | a :: l, h => by
    obtain ⟨ha, hl⟩ := List.pairwise_cons.mp h
    have ih := filter_append_filter_not hdown hl
    by_cases htest : test a = true
    · rw [List.filter_cons_of_pos htest, List.filter_cons_of_neg (by simpa using htest),
        List.cons_append, ← ih]
    · have hnone : l.filter test = [] := by
        rw [List.filter_eq_nil_iff]
        exact fun b hb hbt => htest (hdown a b (ha b hb) hbt)
      have hall : (l.filter fun a => !test a) = l := by
        rw [hnone, List.nil_append] at ih
        exact ih.symm
      rw [List.filter_cons_of_neg htest, List.filter_cons_of_pos (by simpa using htest), hnone,
        hall, List.nil_append]

/-- Then dropping while the test holds is keeping those on which it fails. -/
theorem dropWhile_eq_filter_not (hdown : ∀ a b, R a b → test b = true → test a = true) :
    ∀ {l : List α}, l.Pairwise R → l.dropWhile test = l.filter fun a => !test a
  | [], _ => rfl
  | a :: l, h => by
    obtain ⟨ha, hl⟩ := List.pairwise_cons.mp h
    by_cases htest : test a = true
    · rw [List.dropWhile_cons_of_pos htest, List.filter_cons_of_neg (by simpa using htest)]
      exact dropWhile_eq_filter_not hdown hl
    · rw [List.dropWhile_cons_of_neg htest, List.filter_eq_self.mpr]
      intro b hb
      rcases List.mem_cons.mp hb with rfl | hb
      · simpa using htest
      · have : ¬ test b = true := fun hbt => htest (hdown a b (ha b hb) hbt)
        simpa using this

/-- ...and taking while it holds is keeping those on which it holds. -/
theorem takeWhile_eq_filter (hdown : ∀ a b, R a b → test b = true → test a = true)
    {l : List α} (h : l.Pairwise R) : l.takeWhile test = l.filter test := by
  have hsplit := List.takeWhile_append_dropWhile (p := test) (l := l)
  rw [dropWhile_eq_filter_not hdown h] at hsplit
  exact List.append_cancel_right (hsplit.trans (filter_append_filter_not hdown h))

end Split

end Linked
