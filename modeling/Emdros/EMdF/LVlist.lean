/-
# Lists of values (`LVlist` in `llist.h`)

The elements of a monad set are in an `LVlist`: a singly linked list with pointers to its first and
its last node.  An iterator is a pointer to a node, and a null pointer past the end.

`Lists` is what several such lists are for: sequences, with a name for every element that stays when
others come and go.  `Op.apply` is what an operation does to the sequences, `Op.run` what the code
does to the nodes; `run_refines` says that they agree in every sequence of operations whose
iterators are valid.
-/
import Emdros.Base.Singly

namespace Emdros

open Doubly (first last addresses values)

/-! ## 1. The functions -/

/-- `LVnode`. -/
abbrev LVnode (α : Type) := Singly.Node α

/-- `LVlist`, with the addresses `m_pRoot` and `m_pTail`. -/
structure LVlist where
  root : Option Nat
  tail : Option Nat

namespace LVlist

/-- The nodes, and the list objects. -/
structure Memory (α : Type) where
  nodes : Heap (LVnode α)
  lists : Nat → LVlist

/-- A computation; reading behind a null pointer or in a node that was freed fails. -/
abbrev ListM (α β : Type) := StateT (Memory α) Option β

variable {α : Type}

/-- `LVlist()`, everywhere. -/
def Memory.empty : Memory α where
  nodes := Heap.empty
  lists := fun _ => ⟨none, none⟩

def Memory.newNode (m : Memory α) (p : α) : Memory α :=
  { m with nodes := m.nodes.alloc ⟨p, none⟩ }

/-- `new LVnode<T>(p, 0)`. -/
def newNode (p : α) : ListM α Nat := fun m => some (m.nodes.next, m.newNode p)

def getNext (p : Option Nat) : ListM α (Option Nat) := fun m => do
  let node ← p.bind m.nodes.cell
  return (node.next, m)

/-- A node gets another value, or is freed. -/
def assign (p : Nat) (v : Option (LVnode α)) : ListM α Unit := fun m => do
  let (_, nodes) ← (Heap.assign p v).run m.nodes
  return ((), { m with nodes })

def setNext (p next : Option Nat) : ListM α Unit := do
  let p ← Partial.ofOption p
  let node ← fun m => (m.nodes.cell p).map fun node => (node, m)
  assign p (some { node with next })

def getList (this : Nat) : ListM α LVlist := fun m => some (m.lists this, m)

def setList (this : Nat) (l : LVlist) : ListM α Unit := fun m =>
  some ((), { m with lists := Function.update m.lists this l })

def lengthIs1 (this : Nat) : ListM α Bool := do
  let l ← getList this
  if l.root = none then return false
  else return (← getNext l.root) = none

def pushBack (this : Nat) (p : α) : ListM α Unit := do
  let newcomer ← newNode p
  let l ← getList this
  if l.root = none then setList this ⟨some newcomer, some newcomer⟩
  else
    setNext l.tail (some newcomer)
    setList this { l with tail := some newcomer }

/-- The two lists may be one; then `m_pRoot` of the one is that of the other. -/
def prependWithMe (this pOther : Nat) : ListM α Unit := do
  let me ← getList this
  if me.root ≠ none then
    let other ← getList pOther
    if other.root = none then setList pOther me
    else
      setNext me.tail other.root
      setList pOther { other with root := me.root }
    setList this ⟨none, none⟩

def extendWithMe (this pOther : Nat) : ListM α Unit := do
  let me ← getList this
  if me.root ≠ none then
    let other ← getList pOther
    if other.root = none then setList pOther me
    else
      setNext other.tail me.root
      setList pOther { other with tail := me.tail }
    setList this ⟨none, none⟩

def prepend (this : Nat) (p : α) : ListM α Unit := do
  let newcomer ← newNode p
  let l ← getList this
  if l.root = none then setList this ⟨some newcomer, some newcomer⟩
  else
    setNext (some newcomer) l.root
    setList this { l with root := some newcomer }

/-- `while (pIterator != node)`, with the node before `pIterator`; the first argument bounds the
number of rounds. -/
def findBefore (node : Option Nat) : Nat → Option Nat → Option Nat → ListM α (Option Nat)
  | 0, _, _ => failure
  | fuel + 1, pIterator, pIteratorMinus1 =>
    if pIterator = node then return pIteratorMinus1
    else do
      let next ← getNext pIterator
      findBefore node fuel next pIterator

/-- More rounds than there are nodes. -/
def rounds : ListM α Nat := fun m => some (m.nodes.next + 1, m)

def insertBefore (this : Nat) (iterator : Option Nat) (p : α) : ListM α (Option Nat) := do
  let newcomer ← newNode p
  setNext (some newcomer) iterator
  let l ← getList this
  if iterator = none then
    if l.root = none then setList this ⟨some newcomer, some newcomer⟩
    else
      setNext l.tail (some newcomer)
      setList this { l with tail := some newcomer }
  else if iterator = l.root then setList this { l with root := some newcomer }
  else
    let pIteratorMinus1 ← findBefore iterator (← rounds) l.root none
    setNext pIteratorMinus1 (some newcomer)
  return some newcomer

/-- Where there is nothing to remove an exception is thrown. -/
def erase (this : Nat) (toRemove : Option Nat) : ListM α (Option Nat) := do
  let l ← getList this
  if l.root = none then failure
  let pNodeToRemove ← Partial.ofOption toRemove
  let pNodeAfterRemoved ← getNext toRemove
  if toRemove = l.root then
    if ← lengthIs1 this then setList this ⟨none, none⟩
    else setList this { l with root := pNodeAfterRemoved }
    assign pNodeToRemove none
  else
    let pIteratorMinus1 ← findBefore toRemove (← rounds) l.root none
    setNext pIteratorMinus1 pNodeAfterRemoved
    if l.tail = toRemove then setList this { l with tail := pIteratorMinus1 }
    assign pNodeToRemove none
  return pNodeAfterRemoved

def insertAfter (this : Nat) (iterator : Option Nat) (p : α) : ListM α (Option Nat) := do
  let newcomer ← newNode p
  let next ← getNext iterator
  setNext (some newcomer) next
  setNext iterator (some newcomer)
  let l ← getList this
  if iterator = l.tail then setList this { l with tail := some newcomer }
  return some newcomer

/-- `while (current != 0)`. -/
def clearLoop : Nat → Option Nat → ListM α Unit
  | 0, _ => failure
  | _ + 1, none => return ()
  | fuel + 1, some current => do
    let next ← getNext (some current)
    assign current none
    clearLoop fuel next

def clear (this : Nat) : ListM α Unit := do
  let l ← getList this
  clearLoop (← rounds) l.root
  setList this ⟨none, none⟩

/-! ## 2. Sequences -/

/-- A new element before the one with the name, or at the end. -/
def insertedBefore (name : Option Nat) (new : Nat × α) : List (Nat × α) → List (Nat × α)
  | [] => [new]
  | n :: ns => if some n.1 = name then new :: n :: ns else n :: insertedBefore name new ns

def insertedAfter (name : Option Nat) (new : Nat × α) : List (Nat × α) → List (Nat × α)
  | [] => []
  | n :: ns => if some n.1 = name then n :: new :: ns else n :: insertedAfter name new ns

def erased (name : Option Nat) : List (Nat × α) → List (Nat × α)
  | [] => []
  | n :: ns => if some n.1 = name then ns else n :: erased name ns

/-- The name after another one; past the end there is none. -/
def nameAfter (name : Option Nat) : List (Nat × α) → Option Nat
  | [] => none
  | n :: ns => if some n.1 = name then first ns none else nameAfter name ns

/-- Sequences of elements with names, and the next name. -/
structure Lists (α : Type) where
  seq : Nat → List (Nat × α)
  fresh : Nat

def Lists.empty : Lists α := ⟨fun _ => [], 0⟩

/-- An operation; iterators are names of elements. -/
inductive Op (α : Type) where
  | pushBack (this : Nat) (p : α)
  | prepend (this : Nat) (p : α)
  | insertBefore (this : Nat) (iterator : Option Nat) (p : α)
  | insertAfter (this : Nat) (iterator : Option Nat) (p : α)
  | erase (this : Nat) (iterator : Option Nat)
  | prependWithMe (this other : Nat)
  | extendWithMe (this other : Nat)
  | clear (this : Nat)

namespace Op

/-- The iterator that is returned, and the memory. -/
def run : Op α → ListM α (Option Nat)
  | pushBack this p => do
    LVlist.pushBack this p
    return none
  | prepend this p => do
    LVlist.prepend this p
    return none
  | insertBefore this iterator p => LVlist.insertBefore this iterator p
  | insertAfter this iterator p => LVlist.insertAfter this iterator p
  | erase this iterator => LVlist.erase this iterator
  | prependWithMe this other => do
    LVlist.prependWithMe this other
    return none
  | extendWithMe this other => do
    LVlist.extendWithMe this other
    return none
  | clear this => do
    LVlist.clear this
    return none

/-- What an operation should do, with the name of the iterator that is returned. -/
def apply (s : Lists α) : Op α → Option Nat × Lists α
  | pushBack this p =>
    (none, ⟨Function.update s.seq this (s.seq this ++ [(s.fresh, p)]), s.fresh + 1⟩)
  | prepend this p =>
    (none, ⟨Function.update s.seq this ((s.fresh, p) :: s.seq this), s.fresh + 1⟩)
  | insertBefore this iterator p =>
    (some s.fresh,
      ⟨Function.update s.seq this (insertedBefore iterator (s.fresh, p) (s.seq this)), s.fresh + 1⟩)
  | insertAfter this iterator p =>
    (some s.fresh,
      ⟨Function.update s.seq this (insertedAfter iterator (s.fresh, p) (s.seq this)), s.fresh + 1⟩)
  | erase this iterator =>
    (nameAfter iterator (s.seq this),
      ⟨Function.update s.seq this (erased iterator (s.seq this)), s.fresh⟩)
  | prependWithMe this other =>
    (none, ⟨Function.update (Function.update s.seq other (s.seq this ++ s.seq other)) this [],
      s.fresh⟩)
  | extendWithMe this other =>
    (none, ⟨Function.update (Function.update s.seq other (s.seq other ++ s.seq this)) this [],
      s.fresh⟩)
  | clear this => (none, ⟨Function.update s.seq this [], s.fresh⟩)

/-- Iterators belong to the list: there is an element after which to insert, or to erase; before the
end one may insert as well. -/
def Valid (s : Lists α) : Op α → Prop
  | insertBefore this iterator _ => ∀ p, iterator = some p → p ∈ addresses (s.seq this)
  | insertAfter this iterator _ | erase this iterator =>
    ∃ p, iterator = some p ∧ p ∈ addresses (s.seq this)
  | _ => True

end Op

/-- Some operations; the iterators that are returned are collected. -/
def run : List (Op α) → ListM α (List (Option Nat))
  | [] => return []
  | op :: ops => do
    let iterator ← op.run
    let iterators ← run ops
    return iterator :: iterators

def apply (s : Lists α) : List (Op α) → List (Option Nat) × Lists α
  | [] => ([], s)
  | op :: ops =>
    let (iterator, s) := op.apply s
    let (iterators, s) := apply s ops
    (iterator :: iterators, s)

def Valid (s : Lists α) : List (Op α) → Prop
  | [] => True
  | op :: ops => op.Valid s ∧ Valid (op.apply s).2 ops

/-! ## 3. What a memory holds -/

/-- The list object `this` holds the nodes `ns`. -/
structure Stored (m : Memory α) (this : Nat) (ns : List (Nat × α)) : Prop where
  root : (m.lists this).root = first ns none
  tail : (m.lists this).tail = last ns none
  segment : Singly.Segment m.nodes.cell ns none
  nodup : (addresses ns).Nodup

/-- Every list object holds its sequence, and no node is in two of them. -/
structure Holds (m : Memory α) (s : Lists α) : Prop where
  fresh : m.nodes.next = s.fresh
  stored : ∀ i, Stored m i (s.seq i)
  apart : ∀ i j, ∀ p ∈ addresses (s.seq i), p ∈ addresses (s.seq j) → i = j

theorem Memory.empty_holds : Holds (Memory.empty : Memory α) .empty :=
  ⟨rfl, fun _ => ⟨rfl, rfl, trivial, List.nodup_nil⟩, fun _ _ _ hp => by cases hp⟩

section Holding

variable {m m' : Memory α} {s s' : Lists α} {this p : Nat} {ns ns' : List (Nat × α)}

theorem Stored.lt_next (h : Stored m this ns) (hp : p ∈ addresses ns) : p < m.nodes.next := by
  obtain ⟨n, hn⟩ := h.segment.alive hp
  exact Heap.lt_next hn

theorem Stored.length_le (h : Stored m this ns) : ns.length ≤ m.nodes.next :=
  Doubly.length_le_of_lt h.nodup fun _ => h.lt_next

theorem Stored.root_eq_none (h : Stored m this ns) : (m.lists this).root = none ↔ ns = [] := by
  rw [h.root]
  cases ns <;> simp

/-- **Some list objects change.**  The cells of the other lists stay, and nodes are moved among
those that change only, or new. -/
theorem Holds.change (h : Holds m s) (A : Nat → Prop) (hfresh : m'.nodes.next = s'.fresh)
    (hother : ∀ j, ¬A j → s'.seq j = s.seq j ∧ m'.lists j = m.lists j)
    (hcell : ∀ p, p < m.nodes.next → (∀ i, A i → p ∉ addresses (s.seq i)) →
      m'.nodes.cell p = m.nodes.cell p)
    (hstored : ∀ i, A i → Stored m' i (s'.seq i))
    (hsub : ∀ i, A i → ∀ p ∈ addresses (s'.seq i),
      (∃ j, A j ∧ p ∈ addresses (s.seq j)) ∨ m.nodes.next ≤ p)
    (hapart : ∀ i j, A i → A j → ∀ p ∈ addresses (s'.seq i), p ∈ addresses (s'.seq j) → i = j) :
    Holds m' s' where
  fresh := hfresh
  stored := by
    intro j
    by_cases hj : A j
    · exact hstored j hj
    · obtain ⟨hseq, hlists⟩ := hother j hj
      have hold := h.stored j
      rw [hseq]
      refine ⟨by rw [hlists, hold.root], by rw [hlists, hold.tail], ?_, hold.nodup⟩
      refine hold.segment.congr fun p hp => hcell p (hold.lt_next hp) fun i hi hpi => ?_
      exact hj (h.apart j i p hp hpi ▸ hi)
  apart := by
    have hnew : ∀ i j, A i → ¬A j → ∀ p ∈ addresses (s'.seq i), p ∉ addresses (s'.seq j) := by
      intro i j hi hj p hp hpj
      rw [(hother j hj).1] at hpj
      rcases hsub i hi p hp with ⟨k, hk, hpk⟩ | hge
      · exact hj (h.apart j k p hpj hpk ▸ hk)
      · exact absurd ((h.stored j).lt_next hpj) (Nat.not_lt.mpr hge)
    intro i j p hi hj
    by_cases hAi : A i
    · by_cases hAj : A j
      · exact hapart i j hAi hAj p hi hj
      · exact absurd hj (hnew i j hAi hAj p hi)
    · by_cases hAj : A j
      · exact absurd hi (hnew j i hAj hAi p hj)
      · rw [(hother i hAi).1] at hi
        rw [(hother j hAj).1] at hj
        exact h.apart i j p hi hj

/-- The node `a`, if there is one, gets another successor. -/
def link (cell : Nat → Option (LVnode α)) (a next : Option Nat) : Nat → Option (LVnode α) :=
  match a with
  | none => cell
  | some a => Function.update cell a ((cell a).map fun n => { n with next })

theorem link_self {cell : Nat → Option (LVnode α)} {a : Nat} {n : LVnode α} (h : cell a = some n)
    (next : Option Nat) : link cell (some a) next a = some { n with next } := by
  rw [link, Function.update_self, h, Option.map_some]

theorem link_of_ne {cell : Nat → Option (LVnode α)} {a : Option Nat} (h : a ≠ some p)
    (next : Option Nat) : link cell a next p = cell p := by
  cases a with
  | none => rfl
  | some a => exact Function.update_of_ne (fun heq => h (congrArg some heq.symm)) ..

/-- From `m` to `m'` one list object got other nodes; only its cells changed, and those of nodes
that are in no list. -/
structure Changes (m m' : Memory α) (this : Nat) (ns ns' : List (Nat × α)) : Prop where
  lists : ∀ j, j ≠ this → m'.lists j = m.lists j
  cell : ∀ p, p < m.nodes.next → p ∉ addresses ns → m'.nodes.cell p = m.nodes.cell p
  stored : Stored m' this ns'

/-- **One list object changes.** -/
theorem Holds.update (h : Holds m s) (hc : Changes m m' this (s.seq this) ns')
    {fresh : Nat} (hfresh : m'.nodes.next = fresh)
    (hsub : ∀ p ∈ addresses ns', p ∈ addresses (s.seq this) ∨ m.nodes.next ≤ p) :
    Holds m' ⟨Function.update s.seq this ns', fresh⟩ := by
  refine h.change (· = this) hfresh (fun j hj => ?_) (fun p hp hthis => ?_) ?_ ?_ ?_
  · exact ⟨Function.update_of_ne hj .., hc.lists j hj⟩
  · exact hc.cell p hp (hthis this rfl)
  · rintro i rfl
    simpa using hc.stored
  · rintro i rfl p hp
    simp only [Function.update_self] at hp
    exact (hsub p hp).imp (fun hp' => ⟨i, rfl, hp'⟩) id
  · rintro i j rfl hj
    exact fun _ _ _ => hj.symm

variable {xs ys : List (Nat × α)} {t : Nat × α}

theorem mem_of_last (h : last ns none = some p) : p ∈ addresses ns := by
  rcases Doubly.last_eq_some h with hp | ⟨-, hp⟩
  · exact hp
  · cases hp

/-- The list object, with the pointers for some nodes. -/
def pointers (ns : List (Nat × α)) : LVlist := ⟨first ns none, last ns none⟩

theorem pointers_root_eq_none : (pointers ns).root = none ↔ ns = [] := by
  cases ns <;> simp [pointers]

theorem eq_root_iff (h : t.1 ∉ addresses xs) :
    some t.1 = (pointers (xs ++ t :: ys)).root ↔ xs = [] := by
  cases xs with
  | nil => simp [pointers]
  | cons x xs => simpa [pointers] using (not_or.mp (List.mem_cons.not.mp h)).1

theorem exists_last (h : ns ≠ []) (prev : Option Nat) : ∃ a, last ns prev = some a := by
  induction ns generalizing prev with
  | nil => exact absurd rfl h
  | cons n ns ih =>
    by_cases hns : ns = []
    · exact ⟨n.1, by rw [hns]; rfl⟩
    · exact ih hns (some n.1)

theorem last_of_ne_nil (h : ns ≠ []) (prev prev' : Option Nat) : last ns prev = last ns prev' := by
  cases ns with
  | nil => exact absurd rfl h
  | cons n ns => rfl

theorem eq_tail_iff (h : t.1 ∉ addresses ys) :
    some t.1 = (pointers (xs ++ t :: ys)).tail ↔ ys = [] := by
  rw [pointers, Doubly.last_append, Doubly.last_cons]
  by_cases hys : ys = []
  · simp [hys]
  · obtain ⟨a, ha⟩ := exists_last hys none
    have hlast : last ys (some t.1) = some a := (last_of_ne_nil hys _ _).trans ha
    simp only [hlast, hys, iff_false, Option.some.injEq]
    rintro rfl
    exact h (mem_of_last ha)

theorem root_append (h : xs ≠ []) : (pointers (xs ++ ys)).root = first xs none := by
  cases xs with
  | nil => exact absurd rfl h
  | cons x xs => rfl

theorem pointers_cons (h : ns ≠ []) (new : Nat × α) :
    pointers (new :: ns) = { pointers ns with root := some new.1 } := by
  cases ns with
  | nil => exact absurd rfl h
  | cons n ns => rfl

theorem pointers_concat (h : ns ≠ []) (new : Nat × α) :
    pointers (ns ++ [new]) = { pointers ns with tail := some new.1 } := by
  rw [pointers, Doubly.last_append]
  cases ns with
  | nil => exact absurd rfl h
  | cons n ns => rfl

/-- Nothing changes where nodes come or go in the middle. -/
theorem pointers_mid (hxs : xs ≠ []) (hys : ys ≠ []) (mid : List (Nat × α)) :
    pointers (xs ++ (mid ++ ys)) = pointers (xs ++ ys) := by
  rw [pointers, pointers, Doubly.last_append, Doubly.last_append, Doubly.last_append]
  cases ys with
  | nil => exact absurd rfl hys
  | cons y ys =>
    cases xs with
    | nil => exact absurd rfl hxs
    | cons x xs => rfl

theorem Stored.lists_eq (h : Stored m this ns) : m.lists this = pointers ns := by
  rw [pointers, ← h.root, ← h.tail]

/-- Between the nodes `xs` and `ys` a new one was put. -/
structure Inserted (m m' : Memory α) (this : Nat) (xs : List (Nat × α)) (v : α)
    (ys : List (Nat × α)) : Prop where
  next : m'.nodes.next = m.nodes.next + 1
  lists : m'.lists = Function.update m.lists this (pointers (xs ++ (m.nodes.next, v) :: ys))
  cell : m'.nodes.cell =
    link (Function.update m.nodes.cell m.nodes.next (some ⟨v, first ys none⟩)) (last xs none)
      (some m.nodes.next)

/-- **A new node.**  The list has it between its nodes, and its pointers are right. -/
theorem Holds.inserted (h : Holds m s) {v : α} (hs : s.seq this = xs ++ ys)
    (hi : Inserted m m' this xs v ys) :
    Holds m' ⟨Function.update s.seq this (xs ++ (s.fresh, v) :: ys), s.fresh + 1⟩ := by
  have hold := h.stored this
  rw [hs] at hold
  have hlt : ∀ p, p ∈ addresses (xs ++ ys) → p ≠ m.nodes.next :=
    fun p hp => Nat.ne_of_lt (hold.lt_next hp)
  have hnodup : (addresses xs ++ addresses ys).Nodup := by
    simpa using hold.nodup
  have hcell : ∀ p, p ≠ m.nodes.next → last xs none ≠ some p →
      m'.nodes.cell p = m.nodes.cell p := by
    intro p hp hlast
    rw [hi.cell, link_of_ne hlast, Function.update_of_ne hp]
  rw [← h.fresh]
  refine h.update ⟨?_, ?_, ?_, ?_, ?_, ?_⟩ hi.next ?_
  · exact fun j hj => by rw [hi.lists, Function.update_of_ne hj]
  · intro p hp hnot
    rw [hs, Doubly.addresses_append] at hnot
    exact hcell p (Nat.ne_of_lt hp) fun hlast =>
      hnot (List.mem_append_left _ (mem_of_last hlast))
  · rw [hi.lists, Function.update_self, pointers]
  · rw [hi.lists, Function.update_self, pointers]
  · have hseg : Singly.Segment m.nodes.cell (xs ++ ([] ++ ys)) none := hold.segment
    refine hseg.splice [(m.nodes.next, v)] (List.nodup_append.mp hnodup).1 ?_ ?_ ?_ ?_
    · intro a n hlast ha
      rw [hi.cell, hlast]
      refine link_self ?_ _
      rw [Function.update_of_ne (Nat.ne_of_lt (Heap.lt_next ha))]
      exact ha
    · exact fun p hp hlast => hcell p (hlt p (by simp [hp])) hlast
    · refine ⟨?_, trivial⟩
      rw [hi.cell, link_of_ne, Function.update_self]
      · rfl
      · intro hlast
        exact hlt _ (by simp [mem_of_last hlast]) rfl
    · intro p hp
      refine hcell p (hlt p (by simp [hp])) fun hlast => ?_
      exact (List.nodup_append.mp hnodup).2.2 p (mem_of_last hlast) p hp rfl
  · have hnew : m.nodes.next ∉ addresses xs ++ addresses ys := by
      intro hmem
      exact hlt _ (by simpa using hmem) rfl
    simpa using (List.perm_middle.nodup_iff).mpr (List.nodup_cons.mpr ⟨hnew, hnodup⟩)
  · intro p hp
    rw [hs]
    simp only [Doubly.addresses_append, Doubly.addresses_cons, List.mem_append,
      List.mem_cons] at hp ⊢
    rcases hp with hp | rfl | hp
    · exact .inl (.inl hp)
    · exact .inr (Nat.le_refl _)
    · exact .inl (.inr hp)

/-- The node between `xs` and `ys` was taken out, and freed. -/
structure Erased (m m' : Memory α) (this : Nat) (xs : List (Nat × α)) (t : Nat × α)
    (ys : List (Nat × α)) : Prop where
  next : m'.nodes.next = m.nodes.next
  lists : m'.lists = Function.update m.lists this (pointers (xs ++ ys))
  cell : m'.nodes.cell =
    Function.update (link m.nodes.cell (last xs none) (first ys none)) t.1 none

/-- **A node less.** -/
theorem Holds.erased (h : Holds m s) (hs : s.seq this = xs ++ t :: ys)
    (he : Erased m m' this xs t ys) :
    Holds m' ⟨Function.update s.seq this (xs ++ ys), s.fresh⟩ := by
  have hold := h.stored this
  rw [hs] at hold
  have hnodup : (t.1 :: (addresses xs ++ addresses ys)).Nodup := by
    simpa using (List.perm_middle.nodup_iff).mp (by simpa using hold.nodup)
  obtain ⟨ht, hrest⟩ := List.nodup_cons.mp hnodup
  have hcell : ∀ p, p ≠ t.1 → last xs none ≠ some p → m'.nodes.cell p = m.nodes.cell p := by
    intro p hp hlast
    rw [he.cell, Function.update_of_ne hp, link_of_ne hlast]
  have hne : ∀ p ∈ addresses xs ++ addresses ys, p ≠ t.1 := fun p hp heq => ht (heq ▸ hp)
  refine h.update ⟨?_, ?_, ?_, ?_, ?_, ?_⟩ (he.next.trans h.fresh) ?_
  · exact fun j hj => by rw [he.lists, Function.update_of_ne hj]
  · intro p hp hnot
    rw [hs] at hnot
    simp only [Doubly.addresses_append, Doubly.addresses_cons, List.mem_append, List.mem_cons,
      not_or] at hnot
    exact hcell p hnot.2.1 fun hlast => hnot.1 (mem_of_last hlast)
  · rw [he.lists, Function.update_self, pointers]
  · rw [he.lists, Function.update_self, pointers]
  · have hseg : Singly.Segment m.nodes.cell (xs ++ ([t] ++ ys)) none := hold.segment
    refine hseg.splice [] (List.nodup_append.mp hrest).1 ?_ ?_ trivial ?_
    · intro a n hlast ha
      rw [he.cell, hlast, Function.update_of_ne (hne a (by simp [mem_of_last hlast]))]
      exact link_self ha _
    · exact fun p hp hlast => hcell p (hne p (by simp [hp])) hlast
    · intro p hp
      refine hcell p (hne p (by simp [hp])) fun hlast => ?_
      exact (List.nodup_append.mp hrest).2.2 p (mem_of_last hlast) p hp rfl
  · simpa using hrest
  · intro p hp
    rw [hs]
    simp only [Doubly.addresses_append, Doubly.addresses_cons, List.mem_append,
      List.mem_cons] at hp ⊢
    exact .inl (hp.imp_right .inr)

end Holding

/-! ## 4. Steps -/

section Steps

@[simp] theorem Memory.lists_newNode (m : Memory α) (p : α) : (m.newNode p).lists = m.lists := rfl

variable {m : Memory α} {this a q : Nat} {n : LVnode α} {t : Nat × α} {xs ys ns : List (Nat × α)}

theorem run_newNode (m : Memory α) (p : α) :
    (newNode p).run m = some (m.nodes.next, m.newNode p) := rfl

theorem run_getList (m : Memory α) (this : Nat) : (getList this).run m = some (m.lists this, m) :=
  rfl

theorem run_setList (m : Memory α) (this : Nat) (l : LVlist) : (setList this l).run m =
    some ((), { m with lists := Function.update m.lists this l }) := rfl

theorem run_rounds (m : Memory α) : (rounds : ListM α Nat).run m = some (m.nodes.next + 1, m) := rfl

theorem run_getNext (ha : m.nodes.cell a = some n) :
    (getNext (some a)).run m = some (n.next, m) := by
  change ((m.nodes.cell a).bind fun node => some (node.next, m)) = _
  rw [ha]
  rfl

theorem run_assign (ha : m.nodes.cell a = some n) (v : Option (LVnode α)) :
    ∃ m', (assign a v).run m = some ((), m') ∧ m'.lists = m.lists ∧
      m'.nodes.next = m.nodes.next ∧ m'.nodes.cell = Function.update m.nodes.cell a v := by
  refine ⟨{ m with nodes := m.nodes.set a v (Heap.lt_next ha) }, ?_, rfl, rfl, rfl⟩
  change (((Heap.assign a v).run m.nodes).bind fun r => some ((), { m with nodes := r.2 })) = _
  rw [Heap.run_assign ha]
  rfl

theorem run_setNext (ha : m.nodes.cell a = some n) (next : Option Nat) :
    ∃ m', (setNext (some a) next).run m = some ((), m') ∧ m'.lists = m.lists ∧
      m'.nodes.next = m.nodes.next ∧ m'.nodes.cell = link m.nodes.cell (some a) next := by
  obtain ⟨m', hrun, hlists, hnext, hcell⟩ := run_assign ha (some { n with next })
  refine ⟨m', ?_, hlists, hnext, by rw [hcell, link, ha, Option.map_some]⟩
  have hread : StateT.run (fun m : Memory α => (m.nodes.cell a).map fun node => (node, m)) m =
      some (n, m) := by
    change (m.nodes.cell a).map _ = _
    rw [ha]
    rfl
  rw [setNext, Partial.run_bind_of_some (Partial.run_ofOption_some rfl m),
    Partial.run_bind_of_some hread]
  exact hrun

/-- The loop finds the node before another one, by induction on the nodes that are passed. -/
theorem run_findBefore (hseg : Singly.Segment m.nodes.cell (xs ++ t :: ys) none)
    (hnodup : (addresses (xs ++ t :: ys)).Nodup) (prev : Option Nat) {fuel : Nat}
    (hfuel : xs.length < fuel) :
    (findBefore (some t.1) fuel (first (xs ++ t :: ys) none) prev).run m =
      some (last xs prev, m) := by
  induction xs generalizing prev fuel with
  | nil =>
    obtain ⟨fuel, rfl⟩ := Nat.exists_eq_add_one.mpr hfuel
    rw [findBefore, List.nil_append, Doubly.first_cons, if_pos rfl]
    rfl
  | cons x xs ih =>
    obtain ⟨fuel, rfl⟩ := Nat.exists_eq_add_one.mpr (Nat.zero_lt_of_lt hfuel)
    have hne : x.1 ≠ t.1 := by
      intro heq
      refine (List.nodup_cons.mp hnodup).1 ?_
      rw [heq]
      simp
    rw [List.cons_append] at hseg hnodup
    rw [findBefore, List.cons_append, Doubly.first_cons, if_neg (by simpa using hne),
      Partial.run_bind_of_some (run_getNext hseg.1)]
    exact ih hseg.2 (List.nodup_cons.mp hnodup).2 (some x.1) (Nat.lt_of_succ_lt_succ hfuel)

end Steps

/-! ## 5. Operations -/

section Splits

variable {ns xs ys : List (Nat × α)} {t new : Nat × α}

theorem insertedBefore_none : insertedBefore none new ns = ns ++ [new] := by
  induction ns with
  | nil => rfl
  | cons n ns ih => rw [insertedBefore, if_neg (Option.some_ne_none _), ih, List.cons_append]

theorem insertedBefore_split (h : t.1 ∉ addresses xs) :
    insertedBefore (some t.1) new (xs ++ t :: ys) = xs ++ new :: t :: ys := by
  induction xs with
  | nil => exact if_pos rfl
  | cons x xs ih =>
    obtain ⟨hx, hxs⟩ := not_or.mp (List.mem_cons.not.mp h)
    rw [List.cons_append, insertedBefore, if_neg (by simpa using Ne.symm hx), ih hxs]
    rfl

theorem insertedAfter_split (h : t.1 ∉ addresses xs) :
    insertedAfter (some t.1) new (xs ++ t :: ys) = (xs ++ [t]) ++ new :: ys := by
  induction xs with
  | nil => exact if_pos rfl
  | cons x xs ih =>
    obtain ⟨hx, hxs⟩ := not_or.mp (List.mem_cons.not.mp h)
    rw [List.cons_append, insertedAfter, if_neg (by simpa using Ne.symm hx), ih hxs]
    rfl

theorem erased_split (h : t.1 ∉ addresses xs) :
    erased (some t.1) (xs ++ t :: ys) = xs ++ ys := by
  induction xs with
  | nil => exact if_pos rfl
  | cons x xs ih =>
    obtain ⟨hx, hxs⟩ := not_or.mp (List.mem_cons.not.mp h)
    rw [List.cons_append, erased, if_neg (by simpa using Ne.symm hx), ih hxs]
    rfl

theorem nameAfter_split (h : t.1 ∉ addresses xs) :
    nameAfter (some t.1) (xs ++ t :: ys) = first ys none := by
  induction xs with
  | nil => exact if_pos rfl
  | cons x xs ih =>
    obtain ⟨hx, hxs⟩ := not_or.mp (List.mem_cons.not.mp h)
    rw [List.cons_append, nameAfter, if_neg (by simpa using Ne.symm hx), ih hxs]

/-- A node with this name, and those before and after it. -/
theorem exists_split {p : Nat} (hnodup : (addresses ns).Nodup) (hp : p ∈ addresses ns) :
    ∃ xs t ys, ns = xs ++ t :: ys ∧ t.1 = p ∧ t.1 ∉ addresses xs ∧ t.1 ∉ addresses ys := by
  obtain ⟨t, ht, rfl⟩ := List.mem_map.mp hp
  obtain ⟨xs, ys, rfl⟩ := List.append_of_mem ht
  rw [Doubly.addresses_append, Doubly.addresses_cons] at hnodup
  obtain ⟨-, hys, hapart⟩ := List.nodup_append.mp hnodup
  refine ⟨xs, t, ys, rfl, rfl, fun hmem => ?_, (List.nodup_cons.mp hys).1⟩
  exact hapart t.1 hmem t.1 List.mem_cons_self rfl

end Splits

section Operations

variable {m : Memory α} {s : Lists α}

theorem run_setNext_newNode (m : Memory α) (p : α) (next : Option Nat) :
    ∃ m', (setNext (some m.nodes.next) next).run (m.newNode p) = some ((), m') ∧
      m'.lists = m.lists ∧ m'.nodes.next = m.nodes.next + 1 ∧
      m'.nodes.cell = Function.update m.nodes.cell m.nodes.next (some ⟨p, next⟩) := by
  have hnew : (m.newNode p).nodes.cell m.nodes.next = some ⟨p, none⟩ := Heap.cell_alloc_self ..
  obtain ⟨m', hrun, hlists, hnext, hcell⟩ := run_setNext hnew next
  refine ⟨m', hrun, hlists, hnext, ?_⟩
  rw [hcell, link, hnew]
  exact Function.update_idem ..

theorem run_pushBack (h : Holds m s) (this : Nat) (p : α) :
    ∃ m', (pushBack this p).run m = some ((), m') ∧ Inserted m m' this (s.seq this) p [] := by
  have hold := h.stored this
  rw [pushBack, Partial.run_bind_of_some (run_newNode m p),
    Partial.run_bind_of_some (run_getList _ this), Memory.lists_newNode, hold.lists_eq]
  by_cases hnil : s.seq this = []
  · rw [if_pos (pointers_root_eq_none.mpr hnil), hnil]
    exact ⟨_, run_setList .., rfl, rfl, rfl⟩
  · obtain ⟨a, hlast⟩ := exists_last hnil none
    obtain ⟨n, hn⟩ := hold.segment.alive (mem_of_last hlast)
    obtain ⟨m', hrun, hlists, hnext, hcell⟩ :=
      run_setNext (m := m.newNode p) (Heap.cell_alloc hn _) (some m.nodes.next)
    have htail : (pointers (s.seq this)).tail = some a := hlast
    rw [if_neg (pointers_root_eq_none.not.mpr hnil), htail, Partial.run_bind_of_some hrun]
    refine ⟨_, run_setList .., hnext, ?_, ?_⟩
    · rw [pointers_concat hnil]
      exact congrArg (Function.update · this _) hlists
    · rw [hlast]
      exact hcell

theorem run_prepend (h : Holds m s) (this : Nat) (p : α) :
    ∃ m', (prepend this p).run m = some ((), m') ∧ Inserted m m' this [] p (s.seq this) := by
  have hold := h.stored this
  rw [prepend, Partial.run_bind_of_some (run_newNode m p),
    Partial.run_bind_of_some (run_getList _ this), Memory.lists_newNode, hold.lists_eq]
  by_cases hnil : s.seq this = []
  · rw [if_pos (pointers_root_eq_none.mpr hnil), hnil]
    exact ⟨_, run_setList .., rfl, rfl, rfl⟩
  · obtain ⟨m', hrun, hlists, hnext, hcell⟩ := run_setNext_newNode m p (first (s.seq this) none)
    have hroot : (pointers (s.seq this)).root = first (s.seq this) none := rfl
    rw [if_neg (pointers_root_eq_none.not.mpr hnil), hroot, Partial.run_bind_of_some hrun]
    refine ⟨_, run_setList .., hnext, ?_, hcell⟩
    rw [List.nil_append, pointers_cons hnil]
    exact congrArg (Function.update · this _) hlists

/-- A memory with a node more, in no list yet, holds the same lists. -/
theorem Stored.newcomer {m' : Memory α} {this : Nat} {ns : List (Nat × α)} {v : LVnode α}
    (h : Stored m this ns) (hlists : m'.lists = m.lists)
    (hcell : m'.nodes.cell = Function.update m.nodes.cell m.nodes.next (some v)) :
    Stored m' this ns := by
  refine ⟨by rw [hlists, h.root], by rw [hlists, h.tail], ?_, h.nodup⟩
  refine h.segment.congr fun p hp => ?_
  rw [hcell, Function.update_of_ne (Nat.ne_of_lt (h.lt_next hp))]

/-- Three places: past the end, before the root, and elsewhere. -/
theorem run_insertBefore (h : Holds m s) (this : Nat) (iterator : Option Nat) (p : α)
    (hvalid : ∀ a, iterator = some a → a ∈ addresses (s.seq this)) :
    ∃ m' xs ys, (insertBefore this iterator p).run m = some (some m.nodes.next, m') ∧
      s.seq this = xs ++ ys ∧ Inserted m m' this xs p ys ∧
      insertedBefore iterator (m.nodes.next, p) (s.seq this) =
        xs ++ (m.nodes.next, p) :: ys := by
  have hold := h.stored this
  obtain ⟨m₁, hrun, hlists, hnext, hcell⟩ := run_setNext_newNode m p iterator
  have hold₁ : Stored m₁ this (s.seq this) := hold.newcomer hlists hcell
  rw [insertBefore, Partial.run_bind_of_some (run_newNode m p), Partial.run_bind_of_some hrun,
    Partial.run_bind_of_some (run_getList _ this), hold₁.lists_eq]
  dsimp only
  cases hit : iterator with
  | none =>
    rw [hit] at hcell
    rw [if_pos rfl]
    by_cases hnil : s.seq this = []
    · rw [if_pos (pointers_root_eq_none.mpr hnil), hnil]
      refine ⟨_, [], [], Partial.run_bind_of_some (run_setList ..), rfl, ⟨hnext, ?_, hcell⟩, rfl⟩
      exact congrArg (Function.update · this _) hlists
    · obtain ⟨a, hlast⟩ := exists_last hnil none
      obtain ⟨n, hn⟩ := hold₁.segment.alive (mem_of_last hlast)
      obtain ⟨m₂, hrun₂, hlists₂, hnext₂, hcell₂⟩ := run_setNext hn (some m.nodes.next)
      have htail : (pointers (s.seq this)).tail = some a := hlast
      rw [if_neg (pointers_root_eq_none.not.mpr hnil), htail, Partial.run_bind_of_some hrun₂]
      refine ⟨_, s.seq this, [], Partial.run_bind_of_some (run_setList ..),
        (List.append_nil _).symm, ⟨hnext₂.trans hnext, ?_, ?_⟩, insertedBefore_none⟩
      · rw [pointers_concat hnil]
        exact congrArg (Function.update · this _) (hlists₂.trans hlists)
      · rw [hlast, Doubly.first_nil, ← hcell]
        exact hcell₂
  | some a =>
    rw [hit] at hcell
    obtain ⟨xs, t, ys, hns, rfl, hnot, -⟩ := exists_split hold.nodup (hvalid a hit)
    rw [if_neg (Option.some_ne_none _), hns, insertedBefore_split hnot]
    by_cases hxs : xs = []
    · rw [if_pos ((eq_root_iff hnot).mpr hxs)]
      subst hxs
      refine ⟨_, [], t :: ys, Partial.run_bind_of_some (run_setList ..), rfl,
        ⟨hnext, ?_, hcell⟩, rfl⟩
      exact congrArg (Function.update · this _) hlists
    · rw [hns] at hold₁
      obtain ⟨b, hlast⟩ := exists_last hxs none
      obtain ⟨n, hn⟩ := hold₁.segment.alive (p := b) (by simp [mem_of_last hlast])
      obtain ⟨m₂, hrun₂, hlists₂, hnext₂, hcell₂⟩ := run_setNext hn (some m.nodes.next)
      have hfind := run_findBefore hold₁.segment hold₁.nodup none
        (Nat.lt_succ_of_le (Nat.le_trans (by simp) hold₁.length_le))
      rw [if_neg ((eq_root_iff hnot).not.mpr hxs), Partial.run_bind_of_some (run_rounds m₁),
        pointers, Partial.run_bind_of_some hfind, hlast, Partial.run_bind_of_some hrun₂]
      refine ⟨m₂, xs, t :: ys, rfl, rfl, ⟨hnext₂.trans hnext, ?_, ?_⟩, rfl⟩
      · rw [← List.singleton_append, pointers_mid hxs (List.cons_ne_nil t ys), ← hns,
          ← hold.lists_eq, Function.update_eq_self, hlists₂, hlists]
      · rw [hcell₂, hcell, hlast]
        rfl

theorem run_insertAfter (h : Holds m s) {this a : Nat} (p : α)
    (hvalid : a ∈ addresses (s.seq this)) :
    ∃ m' xs ys, (insertAfter this (some a) p).run m = some (some m.nodes.next, m') ∧
      s.seq this = xs ++ ys ∧ Inserted m m' this xs p ys ∧
      insertedAfter (some a) (m.nodes.next, p) (s.seq this) = xs ++ (m.nodes.next, p) :: ys := by
  have hold := h.stored this
  obtain ⟨xs, t, ys, hns, rfl, hxs, hys⟩ := exists_split hold.nodup hvalid
  have ht : m.nodes.cell t.1 = some ⟨t.2, first ys none⟩ := by
    have hseg := hold.segment
    rw [hns] at hseg
    exact (Singly.segment_append.mp hseg).2.1
  obtain ⟨m₁, hrun, hlists, hnext, hcell⟩ := run_setNext_newNode m p (first ys none)
  have ht₁ : m₁.nodes.cell t.1 = some ⟨t.2, first ys none⟩ := by
    rw [hcell, Function.update_of_ne (Nat.ne_of_lt (Heap.lt_next ht)), ht]
  obtain ⟨m₂, hrun₂, hlists₂, hnext₂, hcell₂⟩ := run_setNext ht₁ (some m.nodes.next)
  have hlast : last (xs ++ [t]) none = some t.1 := Doubly.last_append xs [t] none
  have hget : (getList this).run m₂ = some (pointers (xs ++ t :: ys), m₂) := by
    rw [run_getList, hlists₂, hlists, hold.lists_eq, hns]
  rw [insertAfter, Partial.run_bind_of_some (run_newNode m p),
    Partial.run_bind_of_some (run_getNext (Heap.cell_alloc ht _)), Partial.run_bind_of_some hrun,
    Partial.run_bind_of_some hrun₂, Partial.run_bind_of_some hget]
  rw [hns, insertedAfter_split hxs]
  have hcell' : m₂.nodes.cell = link (Function.update m.nodes.cell m.nodes.next
      (some ⟨p, first ys none⟩)) (last (xs ++ [t]) none) (some m.nodes.next) := by
    rw [hcell₂, hcell, hlast]
  have hne : xs ++ [t] ≠ [] := by simp
  by_cases hnil : ys = []
  · rw [if_pos ((eq_tail_iff hys).mpr hnil)]
    subst hnil
    refine ⟨_, xs ++ [t], [], Partial.run_bind_of_some (run_setList ..), by simp,
      ⟨hnext₂.trans hnext, ?_, hcell'⟩, rfl⟩
    rw [pointers_concat hne]
    exact congrArg (Function.update · this _) (hlists₂.trans hlists)
  · rw [if_neg ((eq_tail_iff hys).not.mpr hnil)]
    refine ⟨m₂, xs ++ [t], ys, rfl, by simp, ⟨hnext₂.trans hnext, ?_, hcell'⟩, rfl⟩
    have hmid := pointers_mid hne hnil [(m.nodes.next, p)]
    rw [List.singleton_append] at hmid
    rw [hmid, List.append_assoc, List.singleton_append, ← hns, ← hold.lists_eq,
      Function.update_eq_self, hlists₂, hlists]

theorem run_lengthIs1 {this : Nat} {t : Nat × α} {ys : List (Nat × α)}
    (h : Stored m this (t :: ys)) :
    (lengthIs1 this).run m = some (decide (ys = []), m) := by
  rw [lengthIs1, Partial.run_bind_of_some (run_getList m this), h.lists_eq,
    if_neg (pointers_root_eq_none.not.mpr (List.cons_ne_nil t ys))]
  have hroot : (pointers (t :: ys)).root = some t.1 := rfl
  rw [hroot, Partial.run_bind_of_some (run_getNext h.segment.1)]
  cases ys <;> rfl

theorem run_erase (h : Holds m s) {this a : Nat} (hvalid : a ∈ addresses (s.seq this)) :
    ∃ m' xs t ys, (erase this (some a)).run m = some (nameAfter (some a) (s.seq this), m') ∧
      s.seq this = xs ++ t :: ys ∧ Erased m m' this xs t ys ∧
      erased (some a) (s.seq this) = xs ++ ys := by
  have hold := h.stored this
  obtain ⟨xs, t, ys, hns, rfl, hxs, hys⟩ := exists_split hold.nodup hvalid
  have ht : m.nodes.cell t.1 = some ⟨t.2, first ys none⟩ := by
    have hseg := hold.segment
    rw [hns] at hseg
    exact (Singly.segment_append.mp hseg).2.1
  have hroot : (pointers (xs ++ t :: ys)).root ≠ none := pointers_root_eq_none.not.mpr (by simp)
  rw [erase, Partial.run_bind_of_some (run_getList _ this), hold.lists_eq, hns, if_neg hroot,
    nameAfter_split hxs, erased_split hxs]
  rw [hns] at hold
  dsimp only
  rw [Partial.run_bind_of_some (Partial.run_ofOption_some rfl m),
    Partial.run_bind_of_some (run_getNext ht)]
  by_cases hnil : xs = []
  · rw [if_pos ((eq_root_iff hxs).mpr hnil)]
    subst hnil
    rw [Partial.run_bind_of_some (run_lengthIs1 hold)]
    by_cases hone : ys = []
    · obtain ⟨m', hrun, hlists, hnext, hcell⟩ :=
        run_assign (m := { m with lists := Function.update m.lists this ⟨none, none⟩ }) ht none
      rw [if_pos (by simpa using hone), Partial.run_bind_of_some (run_setList ..),
        Partial.run_bind_of_some hrun]
      exact ⟨m', [], t, ys, rfl, rfl, ⟨hnext, by rw [hlists, hone]; rfl, hcell⟩, rfl⟩
    · obtain ⟨m', hrun, hlists, hnext, hcell⟩ := run_assign
        (m := { m with lists := Function.update m.lists this (pointers ys) }) ht none
      have htail : (pointers ([] ++ t :: ys)).tail = last ys none := last_of_ne_nil hone _ _
      rw [if_neg (by simpa using hone), htail, Partial.run_bind_of_some (run_setList ..)]
      refine ⟨m', [], t, ys, Partial.run_bind_of_some hrun, rfl, ⟨hnext, hlists, hcell⟩, rfl⟩
  · obtain ⟨b, hlast⟩ := exists_last hnil none
    have hb : b ∈ addresses xs := mem_of_last hlast
    obtain ⟨n, hn⟩ := hold.segment.alive (p := b) (by simp [hb])
    have hfind := run_findBefore hold.segment hold.nodup none
      (Nat.lt_succ_of_le (Nat.le_trans (by simp) hold.length_le))
    obtain ⟨m₁, hrun₁, hlists₁, hnext₁, hcell₁⟩ := run_setNext hn (first ys none)
    have ht₁ : m₁.nodes.cell t.1 = some ⟨t.2, first ys none⟩ := by
      rw [hcell₁, link_of_ne, ht]
      intro heq
      exact hxs (Option.some.inj heq ▸ hb)
    rw [if_neg ((eq_root_iff hxs).not.mpr hnil), Partial.run_bind_of_some (run_rounds m), pointers,
      Partial.run_bind_of_some hfind, hlast, Partial.run_bind_of_some hrun₁, ← pointers]
    by_cases hend : ys = []
    · obtain ⟨m', hrun, hlists, hnext, hcell⟩ := run_assign
        (m := { m₁ with lists := Function.update m₁.lists this (pointers xs) }) ht₁ none
      have hset : (setList this ⟨(pointers (xs ++ t :: ys)).root, some b⟩).run m₁ =
          some ((), { m₁ with lists := Function.update m₁.lists this (pointers xs) }) := by
        rw [run_setList, ← hlast, root_append hnil, pointers]
      rw [if_pos ((eq_tail_iff hys).mpr hend).symm, Partial.run_bind_of_some hset]
      refine ⟨m', xs, t, ys, Partial.run_bind_of_some hrun, rfl, ⟨hnext.trans hnext₁, ?_, ?_⟩, rfl⟩
      · rw [hlists, hlists₁, hend, List.append_nil]
      · rw [hcell, hlast]
        exact congrArg (Function.update · t.1 none) hcell₁
    · obtain ⟨m', hrun, hlists, hnext, hcell⟩ := run_assign ht₁ none
      rw [if_neg fun heq => hend ((eq_tail_iff hys).mp heq.symm)]
      refine ⟨m', xs, t, ys, Partial.run_bind_of_some hrun, rfl, ⟨hnext.trans hnext₁, ?_, ?_⟩, rfl⟩
      · rw [← pointers_mid hnil hend [t], List.singleton_append, ← hold.lists_eq,
          Function.update_eq_self, hlists, hlists₁]
      · rw [hcell, hcell₁, hlast]

/-- The loop frees the nodes and touches no other, by induction on them. -/
theorem run_clearLoop {ns : List (Nat × α)} {fuel : Nat}
    (hseg : Singly.Segment m.nodes.cell ns none) (hnodup : (addresses ns).Nodup)
    (hfuel : ns.length < fuel) :
    ∃ m', (clearLoop fuel (first ns none)).run m = some ((), m') ∧ m'.lists = m.lists ∧
      m'.nodes.next = m.nodes.next ∧
      ∀ p, p ∉ addresses ns → m'.nodes.cell p = m.nodes.cell p := by
  induction ns generalizing m fuel with
  | nil =>
    obtain ⟨fuel, rfl⟩ := Nat.exists_eq_add_one.mpr hfuel
    exact ⟨m, rfl, rfl, rfl, fun _ _ => rfl⟩
  | cons n ns ih =>
    obtain ⟨fuel, rfl⟩ := Nat.exists_eq_add_one.mpr (Nat.zero_lt_of_lt hfuel)
    obtain ⟨hn, hnodup'⟩ := List.nodup_cons.mp hnodup
    obtain ⟨m₁, hrun₁, hlists₁, hnext₁, hcell₁⟩ := run_assign hseg.1 none
    have hseg₁ : Singly.Segment m₁.nodes.cell ns none := by
      refine hseg.2.congr fun p hp => ?_
      rw [hcell₁]
      refine Function.update_of_ne ?_ ..
      rintro rfl
      exact hn hp
    obtain ⟨m₂, hrun₂, hlists₂, hnext₂, hcell₂⟩ :=
      ih hseg₁ hnodup' (Nat.lt_of_succ_lt_succ hfuel)
    refine ⟨m₂, ?_, hlists₂.trans hlists₁, hnext₂.trans hnext₁, fun p hp => ?_⟩
    · rw [Doubly.first_cons, clearLoop, Partial.run_bind_of_some (run_getNext hseg.1),
        Partial.run_bind_of_some hrun₁, hrun₂]
    · obtain ⟨hpn, hpns⟩ := not_or.mp (List.mem_cons.not.mp hp)
      rw [hcell₂ p hpns, hcell₁, Function.update_of_ne hpn]

/-- **A list that ends empty**: the nodes it had may be anything then. -/
theorem Holds.emptied {m' : Memory α} {this : Nat} (h : Holds m s)
    (hnext : m'.nodes.next = m.nodes.next)
    (hlists : m'.lists = Function.update m.lists this ⟨none, none⟩)
    (hcell : ∀ p, p ∉ addresses (s.seq this) → m'.nodes.cell p = m.nodes.cell p) :
    Holds m' ⟨Function.update s.seq this [], s.fresh⟩ := by
  refine h.update ⟨fun j hj => ?_, fun p _ hp => hcell p hp, ?_⟩ (hnext.trans h.fresh) ?_
  · rw [hlists, Function.update_of_ne hj]
  · exact ⟨by rw [hlists]; simp, by rw [hlists]; simp, trivial, List.nodup_nil⟩
  · exact fun p hp => by cases hp

theorem run_clear (h : Holds m s) (this : Nat) :
    ∃ m', (clear this).run m = some ((), m') ∧
      Holds m' ⟨Function.update s.seq this [], s.fresh⟩ := by
  have hold := h.stored this
  obtain ⟨m₁, hrun, hlists, hnext, hcell⟩ := run_clearLoop hold.segment hold.nodup
    (Nat.lt_succ_of_le hold.length_le)
  refine ⟨{ m₁ with lists := Function.update m₁.lists this ⟨none, none⟩ }, ?_, ?_⟩
  · rw [clear, Partial.run_bind_of_some (run_getList m this), hold.root,
      Partial.run_bind_of_some (run_rounds m), Partial.run_bind_of_some hrun]
    rfl
  · exact h.emptied hnext (congrArg (Function.update · this _) hlists) hcell

/-- The nodes of one list were put behind those of another; the list object `this`, which is one of
the two, is empty then. -/
structure Moved (m m' : Memory α) (this other : Nat) (xs ys : List (Nat × α)) : Prop where
  next : m'.nodes.next = m.nodes.next
  lists : m'.lists =
    Function.update (Function.update m.lists other (pointers (xs ++ ys))) this ⟨none, none⟩
  link : ∀ a n, last xs none = some a → m.nodes.cell a = some n →
    m'.nodes.cell a = some { n with next := first ys none }
  cell : ∀ p, last xs none ≠ some p → m'.nodes.cell p = m.nodes.cell p

theorem Holds.moved {m' : Memory α} {this other i j : Nat} (h : Holds m s) (hne : this ≠ other)
    (hij : i = this ∧ j = other ∨ i = other ∧ j = this)
    (hm : Moved m m' this other (s.seq i) (s.seq j)) :
    Holds m' ⟨Function.update (Function.update s.seq other (s.seq i ++ s.seq j)) this [],
      s.fresh⟩ := by
  have hij' : i ≠ j := by
    rcases hij with ⟨rfl, rfl⟩ | ⟨rfl, rfl⟩
    · exact hne
    · exact hne.symm
  have hapart : ∀ p ∈ addresses (s.seq i), p ∉ addresses (s.seq j) :=
    fun p hi hj => hij' (h.apart i j p hi hj)
  have hsub : ∀ p, p ∈ addresses (s.seq i ++ s.seq j) →
      ∃ k, (k = this ∨ k = other) ∧ p ∈ addresses (s.seq k) := by
    intro p hp
    rw [Doubly.addresses_append] at hp
    rcases List.mem_append.mp hp with hp | hp
    · exact ⟨i, by omega, hp⟩
    · exact ⟨j, by omega, hp⟩
  refine h.change (fun k => k = this ∨ k = other) (hm.next.trans h.fresh) ?_ ?_ ?_ ?_ ?_
  · intro k hk
    obtain ⟨hthis, hother⟩ := not_or.mp hk
    refine ⟨?_, ?_⟩
    · simp [Function.update_of_ne hthis, Function.update_of_ne hother]
    · rw [hm.lists, Function.update_of_ne hthis, Function.update_of_ne hother]
  · intro p _ hp
    refine hm.cell p fun hlast => hp i (by omega) (mem_of_last hlast)
  · intro k hk
    by_cases hthis : k = this
    · subst hthis
      simp only [Function.update_self]
      exact ⟨by rw [hm.lists]; simp, by rw [hm.lists]; simp, trivial, List.nodup_nil⟩
    · obtain rfl : k = other := hk.resolve_left hthis
      simp only [Function.update_of_ne hthis, Function.update_self]
      have hobj : m'.lists k = pointers (s.seq i ++ s.seq j) := by
        rw [hm.lists, Function.update_of_ne hthis, Function.update_self]
      refine ⟨by rw [hobj, pointers], by rw [hobj, pointers], ?_, ?_⟩
      · have hseg : Singly.Segment m.nodes.cell (s.seq i ++ ([] ++ [])) none := by
          simpa using (h.stored i).segment
        have hys : Singly.Segment m'.nodes.cell (s.seq j) none :=
          (h.stored j).segment.congr fun p hp => hm.cell p fun hlast =>
            hapart p (mem_of_last hlast) hp
        have hnew := hseg.splice (s.seq j) (h.stored i).nodup
          (by simpa using hm.link) (fun p _ => hm.cell p) hys (fun p hp => by cases hp)
        simpa using hnew
      · rw [Doubly.addresses_append]
        refine List.nodup_append.mpr ⟨(h.stored i).nodup, (h.stored j).nodup, ?_⟩
        rintro p hi q hj rfl
        exact hapart p hi hj
  · intro k hk p hp
    refine .inl (hsub p ?_)
    by_cases hthis : k = this
    · subst hthis
      simp only [Function.update_self] at hp
      cases hp
    · obtain rfl : k = other := hk.resolve_left hthis
      simpa only [Function.update_of_ne hthis, Function.update_self] using hp
  · intro k l hk hl p hpk hpl
    have hother : ∀ k, (k = this ∨ k = other) → p ∈ addresses (Function.update
        (Function.update s.seq other (s.seq i ++ s.seq j)) this [] k) → k = other := by
      intro k hk hp
      refine hk.resolve_left ?_
      rintro rfl
      rw [Function.update_self] at hp
      cases hp
    rw [hother k hk hpk, hother l hl hpl]

/-- An empty list is not moved. -/
theorem update_eq_self {this other : Nat} {ns : List (Nat × α)} (hthis : s.seq this = [])
    (hns : ns = s.seq other) :
    (⟨Function.update (Function.update s.seq other ns) this [], s.fresh⟩ : Lists α) = s := by
  rw [hns, Function.update_eq_self, ← hthis, Function.update_eq_self]

/-- The end of a list that was moved to the end of another. -/
theorem link_end {this a : Nat} {n : LVnode α} {ns : List (Nat × α)} (h : Stored m this ns)
    (hlast : last ns none = some a) (hn : m.nodes.cell a = some n) :
    n = { n with next := none } := by
  obtain ⟨xs, t, rfl⟩ : ∃ xs t, ns = xs ++ [t] := by
    rcases List.eq_nil_or_concat ns with rfl | ⟨xs, t, hns⟩
    · cases hlast
    · exact ⟨xs, t, by rw [hns, List.concat_eq_append]⟩
  rw [Doubly.last_append] at hlast
  have ht : m.nodes.cell t.1 = some ⟨t.2, none⟩ := (Singly.segment_append.mp h.segment).2.1
  obtain rfl : t.1 = a := Option.some.inj hlast
  obtain rfl := Option.some.inj (ht.symm.trans hn)
  rfl

theorem pointers_append {xs ys : List (Nat × α)} (hxs : xs ≠ []) (hys : ys ≠ []) :
    pointers (xs ++ ys) = ⟨(pointers xs).root, (pointers ys).tail⟩ := by
  have hroot : first (xs ++ ys) none = first xs none := root_append hxs
  rw [pointers, hroot, Doubly.last_append, last_of_ne_nil hys _ none]
  rfl

/-- Two lists that are not empty were linked. They may be one: then there is a cycle, but the list
object is empty. -/
theorem Holds.linked {m' : Memory α} {this other i j a : Nat} (h : Holds m s)
    (hij : i = this ∧ j = other ∨ i = other ∧ j = this)
    (hlast : last (s.seq i) none = some a) (hnext : m'.nodes.next = m.nodes.next)
    (hlists : m'.lists = Function.update (Function.update m.lists other
      (pointers (s.seq i ++ s.seq j))) this ⟨none, none⟩)
    (hcell : m'.nodes.cell = link m.nodes.cell (some a) (first (s.seq j) none)) :
    Holds m' ⟨Function.update (Function.update s.seq other (s.seq i ++ s.seq j)) this [],
      s.fresh⟩ := by
  by_cases hne : this = other
  · subst hne
    obtain rfl : i = this := by omega
    rw [Function.update_idem] at hlists ⊢
    refine h.emptied hnext hlists fun p hp => ?_
    rw [hcell, link_of_ne]
    intro heq
    exact hp (Option.some.inj heq ▸ mem_of_last hlast)
  · refine h.moved hne hij ⟨hnext, hlists, ?_, ?_⟩
    · intro b n hb hn
      obtain rfl : a = b := Option.some.inj (hlast.symm.trans hb)
      rw [hcell]
      exact link_self hn _
    · intro p hp
      rw [hcell, link_of_ne (hlast ▸ hp)]

/-- A list takes over the nodes of another one where it had none. -/
theorem Holds.takenOver {m' : Memory α} {this other : Nat} (h : Holds m s) (hne : this ≠ other)
    (hempty : s.seq other = []) (hnodes : m'.nodes = m.nodes)
    (hlists : m'.lists = Function.update (Function.update m.lists other
      (pointers (s.seq this))) this ⟨none, none⟩) :
    Holds m' ⟨Function.update (Function.update s.seq other (s.seq this)) this [], s.fresh⟩ := by
  have hseq : s.seq this ++ s.seq other = s.seq this := by rw [hempty, List.append_nil]
  have hm : Moved m m' this other (s.seq this) (s.seq other) := by
    refine ⟨by rw [hnodes], by rw [hseq, hlists], ?_, fun _ _ => by rw [hnodes]⟩
    intro b n hb hn
    rw [hempty, Doubly.first_nil, ← link_end (h.stored this) hb hn, hnodes]
    exact hn
  simpa only [hseq] using h.moved hne (.inl ⟨rfl, rfl⟩) hm

theorem run_prependWithMe (h : Holds m s) (this other : Nat) :
    ∃ m', (prependWithMe this other).run m = some ((), m') ∧
      Holds m' ⟨Function.update (Function.update s.seq other (s.seq this ++ s.seq other)) this [],
        s.fresh⟩ := by
  have hold := h.stored this
  rw [prependWithMe, Partial.run_bind_of_some (run_getList m this), hold.lists_eq]
  dsimp only
  by_cases hnil : s.seq this = []
  · rw [update_eq_self hnil (by rw [hnil, List.nil_append]),
      if_neg (not_not.mpr (pointers_root_eq_none.mpr hnil))]
    exact ⟨m, rfl, h⟩
  · rw [if_pos (pointers_root_eq_none.not.mpr hnil),
      Partial.run_bind_of_some (run_getList m other), (h.stored other).lists_eq]
    by_cases hempty : s.seq other = []
    · have hne : this ≠ other := fun heq => hnil (heq ▸ hempty)
      rw [if_pos (pointers_root_eq_none.mpr hempty), Partial.run_bind_of_some (run_setList ..),
        hempty, List.append_nil]
      exact ⟨_, run_setList .., h.takenOver hne hempty rfl rfl⟩
    · obtain ⟨a, hlast⟩ := exists_last hnil none
      obtain ⟨n, hn⟩ := hold.segment.alive (mem_of_last hlast)
      obtain ⟨m₁, hrun, hlists, hnext, hcell⟩ := run_setNext hn (first (s.seq other) none)
      have htail : (pointers (s.seq this)).tail = some a := hlast
      have hroot : (pointers (s.seq other)).root = first (s.seq other) none := rfl
      rw [if_neg (pointers_root_eq_none.not.mpr hempty), htail, hroot,
        Partial.run_bind_of_some hrun, Partial.run_bind_of_some (run_setList ..)]
      refine ⟨_, run_setList .., h.linked (.inl ⟨rfl, rfl⟩) hlast hnext ?_ hcell⟩
      rw [pointers_append hnil hempty, ← hlists]

theorem run_extendWithMe (h : Holds m s) (this other : Nat) :
    ∃ m', (extendWithMe this other).run m = some ((), m') ∧
      Holds m' ⟨Function.update (Function.update s.seq other (s.seq other ++ s.seq this)) this [],
        s.fresh⟩ := by
  have hother := h.stored other
  rw [extendWithMe, Partial.run_bind_of_some (run_getList m this), (h.stored this).lists_eq]
  dsimp only
  by_cases hnil : s.seq this = []
  · rw [update_eq_self hnil (by rw [hnil, List.append_nil]),
      if_neg (not_not.mpr (pointers_root_eq_none.mpr hnil))]
    exact ⟨m, rfl, h⟩
  · rw [if_pos (pointers_root_eq_none.not.mpr hnil),
      Partial.run_bind_of_some (run_getList m other), hother.lists_eq]
    by_cases hempty : s.seq other = []
    · have hne : this ≠ other := fun heq => hnil (heq ▸ hempty)
      rw [if_pos (pointers_root_eq_none.mpr hempty), Partial.run_bind_of_some (run_setList ..),
        hempty, List.nil_append]
      exact ⟨_, run_setList .., h.takenOver hne hempty rfl rfl⟩
    · obtain ⟨a, hlast⟩ := exists_last hempty none
      obtain ⟨n, hn⟩ := hother.segment.alive (mem_of_last hlast)
      obtain ⟨m₁, hrun, hlists, hnext, hcell⟩ := run_setNext hn (first (s.seq this) none)
      have htail : (pointers (s.seq other)).tail = some a := hlast
      have hroot : (pointers (s.seq this)).root = first (s.seq this) none := rfl
      rw [if_neg (pointers_root_eq_none.not.mpr hempty), htail, hroot,
        Partial.run_bind_of_some hrun, Partial.run_bind_of_some (run_setList ..)]
      refine ⟨_, run_setList .., h.linked (.inr ⟨rfl, rfl⟩) hlast hnext ?_ hcell⟩
      rw [pointers_append hempty hnil, ← hlists]

/-- **A step.**  What the code does to the nodes is what the operation does to the sequences, and
the iterators that are returned are the same. -/
theorem Op.run_holds (h : Holds m s) {op : Op α} (hvalid : op.Valid s) :
    ∃ m', op.run.run m = some ((op.apply s).1, m') ∧ Holds m' (op.apply s).2 := by
  cases op with
  | pushBack this p =>
    obtain ⟨m', hrun, hi⟩ := run_pushBack h this p
    exact ⟨m', Partial.run_bind_of_some hrun, h.inserted (List.append_nil _).symm hi⟩
  | prepend this p =>
    obtain ⟨m', hrun, hi⟩ := run_prepend h this p
    exact ⟨m', Partial.run_bind_of_some hrun, h.inserted (List.nil_append _).symm hi⟩
  | insertBefore this iterator p =>
    obtain ⟨m', xs, ys, hrun, hs, hi, happly⟩ := run_insertBefore h this iterator p hvalid
    rw [h.fresh] at hrun happly
    refine ⟨m', hrun, ?_⟩
    rw [Op.apply, happly]
    exact h.inserted hs hi
  | insertAfter this iterator p =>
    obtain ⟨a, rfl, ha⟩ := hvalid
    obtain ⟨m', xs, ys, hrun, hs, hi, happly⟩ := run_insertAfter h p ha
    rw [h.fresh] at hrun happly
    refine ⟨m', hrun, ?_⟩
    rw [Op.apply, happly]
    exact h.inserted hs hi
  | erase this iterator =>
    obtain ⟨a, rfl, ha⟩ := hvalid
    obtain ⟨m', xs, t, ys, hrun, hs, he, happly⟩ := run_erase h ha
    refine ⟨m', hrun, ?_⟩
    rw [Op.apply, happly]
    exact h.erased hs he
  | prependWithMe this other =>
    obtain ⟨m', hrun, hm'⟩ := run_prependWithMe h this other
    exact ⟨m', Partial.run_bind_of_some hrun, hm'⟩
  | extendWithMe this other =>
    obtain ⟨m', hrun, hm'⟩ := run_extendWithMe h this other
    exact ⟨m', Partial.run_bind_of_some hrun, hm'⟩
  | clear this =>
    obtain ⟨m', hrun, hm'⟩ := run_clear h this
    exact ⟨m', Partial.run_bind_of_some hrun, hm'⟩

end Operations

/-! ## 6. Runs -/

/-- The nodes that are reached from `m_pRoot` are `ns`, and the last of them is `m_pTail`. -/
structure Represents (m : Memory α) (this : Nat) (ns : List (Nat × α)) : Prop where
  root : (m.lists this).root = first ns none
  chain : Singly.Segment m.nodes.cell ns none
  acyclic : (addresses ns).Nodup
  tail : (m.lists this).tail = last ns none
  root_eq_none : (m.lists this).root = none ↔ ns = []
  tail_eq_none : (m.lists this).tail = none ↔ ns = []

theorem Stored.represents {m : Memory α} {this : Nat} {ns : List (Nat × α)}
    (h : Stored m this ns) : Represents m this ns where
  root := h.root
  chain := h.segment
  acyclic := h.nodup
  tail := h.tail
  root_eq_none := h.root_eq_none
  tail_eq_none := by
    rw [h.tail]
    constructor
    · intro hlast
      by_contra hne
      obtain ⟨a, ha⟩ := exists_last hne none
      rw [ha] at hlast
      cases hlast
    · rintro rfl
      rfl

/-- A whole run, by induction on the operations; `Holds` is the invariant. -/
theorem run_holds {ops : List (Op α)} {m : Memory α} {s : Lists α} (h : Holds m s)
    (hvalid : Valid s ops) :
    ∃ m', (run ops).run m = some ((apply s ops).1, m') ∧ Holds m' (apply s ops).2 := by
  induction ops generalizing m s with
  | nil => exact ⟨m, rfl, h⟩
  | cons op ops ih =>
    obtain ⟨m₁, hrun₁, h₁⟩ := op.run_holds h hvalid.1
    obtain ⟨m₂, hrun₂, h₂⟩ := ih h₁ hvalid.2
    refine ⟨m₂, ?_, h₂⟩
    rw [run, Partial.run_bind_of_some hrun₁, Partial.run_bind_of_some hrun₂]
    rfl

/-- **Lists are sequences.**  Any operations, with iterators that are valid where they are used,
succeed; they return the iterators to the elements that the sequences prescribe, and every list
object has the nodes of its sequence. -/
theorem run_refines (ops : List (Op α)) (hvalid : Valid Lists.empty ops) :
    ∃ m, (run ops).run Memory.empty = some ((apply Lists.empty ops).1, m) ∧
      ∀ i, Represents m i ((apply Lists.empty ops).2.seq i) := by
  obtain ⟨m, hrun, hm⟩ := run_holds Memory.empty_holds hvalid
  exact ⟨m, hrun, fun i => (hm.stored i).represents⟩

/-- An element is put before another one, that one is erased, and another list takes the rest. -/
theorem run_refines_move :
    let ops : List (Op Nat) := [.pushBack 0 10, .pushBack 0 20, .insertBefore 0 (some 1) 15,
      .erase 0 (some 1), .insertAfter 0 (some 2) 30, .extendWithMe 0 1]
    ∃ m, (run ops).run Memory.empty = some ([none, none, some 2, none, some 3, none], m) ∧
      ∀ i, Represents m i ((apply Lists.empty ops).2.seq i) :=
  run_refines [.pushBack 0 10, .pushBack 0 20, .insertBefore 0 (some 1) 15, .erase 0 (some 1),
    .insertAfter 0 (some 2) 30, .extendWithMe 0 1]
    (by simp [Valid, Op.Valid, Op.apply, Lists.empty, insertedBefore, erased, addresses])

end LVlist

end Emdros
