/-
# Lists of parsed values (`string_list.h`)

A `ParserList` is a doubly linked list in memory; `StringList` and `IntegerList` are such lists.
`Sound` says of a memory which sequences its list objects hold, and that no two of them share a
node.  Values added at either end, copying and assignment do what they say to these sequences
(`Op.run_sound`), and iterators read them in both directions.

Two operations fail.  `getLength` does not advance its iterator, so that it returns on the empty
list alone; and `assignOther` frees the nodes before it copies, so that a list that is assigned to
itself is empty afterwards.
-/
import Mathlib
import Emdros.Base.Doubly
import Emdros.EMdF.DecimalConversion

namespace Emdros

open Doubly

/-! ## 1. The functions -/

/-- `ParserListNode`, with the addresses `m_next` and `m_prev`. -/
abbrev ParserListNode (α : Type) := Doubly.Node α

/-- `ParserList`. -/
structure ParserList where
  tail : Option Nat
  head : Option Nat

namespace ParserList

/-- The nodes, and the list objects. -/
structure Memory (α : Type) where
  nodes : Heap (ParserListNode α)
  lists : Nat → ParserList

/-- `ParserListConstIterator`; the list that it belongs to is given by its object. -/
structure ConstIterator where
  current : Option Nat
  mother : Nat

variable {α : Type}

/-- `ParserList()`, everywhere. -/
def Memory.empty : Memory α where
  nodes := Heap.empty
  lists := fun _ => ⟨none, none⟩

/-- A node behind a pointer, which is not null and not freed. -/
def Memory.node (m : Memory α) (p : Option Nat) : Option (ParserListNode α) :=
  p.bind m.nodes.cell

/-- A change to a node behind a pointer. -/
def Memory.change (m : Memory α) (p : Option Nat) (f : ParserListNode α → ParserListNode α) :
    Option (Memory α) := do
  let p ← p
  let n ← m.nodes.cell p
  let (_, nodes) ← (Heap.write p (f n)).run m.nodes
  some { m with nodes }

def Memory.setNext (m : Memory α) (p next : Option Nat) : Option (Memory α) :=
  m.change p fun n => { n with next }

def Memory.setPrev (m : Memory α) (p prev : Option Nat) : Option (Memory α) :=
  m.change p fun n => { n with prev }

/-- `new ParserListNode(myval, 0)`. -/
def Memory.newNode (m : Memory α) (myval : α) : Option Nat × Memory α :=
  (some m.nodes.next, { m with nodes := m.nodes.alloc ⟨myval, none, none⟩ })

def Memory.setList (m : Memory α) (this : Nat) (l : ParserList) : Memory α :=
  { m with lists := Function.update m.lists this l }

/-- `addValueFront`. -/
def addValueFront (this : Nat) (myval : α) (m : Memory α) : Option (Memory α) := do
  let (pNew, m) := m.newNode myval
  let l := m.lists this
  if l.head.isNone then
    some (m.setList this ⟨pNew, pNew⟩)
  else
    let m ← m.setPrev l.head pNew
    let m ← m.setNext pNew l.head
    some (m.setList this { l with head := pNew })

/-- `addValueBack`. -/
def addValueBack (this : Nat) (myval : α) (m : Memory α) : Option (Memory α) := do
  let (pNew, m) := m.newNode myval
  let l := m.lists this
  if l.head.isNone then
    some (m.setList this ⟨pNew, pNew⟩)
  else
    let m ← m.setNext l.tail pNew
    let m ← m.setPrev pNew l.tail
    some (m.setList this { l with tail := pNew })

/-- `const_iterator`. -/
def constIterator (this : Nat) (m : Memory α) : ConstIterator := ⟨(m.lists this).head, this⟩

namespace ConstIterator

def hasNext (ci : ConstIterator) : Bool := ci.current.isSome

def next (m : Memory α) (ci : ConstIterator) : Option (α × ConstIterator) := do
  let n ← m.node ci.current
  some (n.value, { ci with current := n.next })

def getCurrent (m : Memory α) (ci : ConstIterator) : Option α := do
  let n ← m.node ci.current
  some n.value

def previous (m : Memory α) (ci : ConstIterator) : Option (α × ConstIterator) := do
  let ci ← match ci.current with
    | none => some { ci with current := (m.lists ci.mother).tail }
    | some p => (m.node (some p)).map fun n => { ci with current := n.prev }
  let value ← ci.getCurrent m
  some (value, ci)

end ConstIterator

/-- A loop that takes a value at each step; it has no result within the rounds allowed, or none
because a step fails. -/
def collect (more : ConstIterator → Bool) (step : ConstIterator → Option (α × ConstIterator)) :
    Nat → ConstIterator → Option (List α × ConstIterator)
  | 0, _ => none
  | fuel + 1, ci =>
    if more ci then do
      let (value, ci) ← step ci
      let (values, ci) ← collect more step fuel ci
      some (value :: values, ci)
    else
      some ([], ci)

/-- A list has no more nodes than were ever allocated. -/
def rounds (m : Memory α) : Nat := m.nodes.next + 1

/-- `getAsVector`. -/
def getAsVector (this : Nat) (m : Memory α) : Option (List α) :=
  (collect ConstIterator.hasNext (ConstIterator.next m) (rounds m) (constIterator this m)).map
    Prod.fst

/-- The loop of `copyOther`. -/
def copyLoop (this : Nat) : Nat → ConstIterator → Memory α → Option (Memory α)
  | 0, _, _ => none
  | fuel + 1, ci, m =>
    if ci.hasNext then do
      let (myval, ci) ← ci.next m
      let m ← addValueBack this myval m
      copyLoop this fuel ci m
    else
      some m

/-- `copyOther`. -/
def copyOther (this other : Nat) (m : Memory α) : Option (Memory α) :=
  copyLoop this (rounds m) (constIterator other m) m

/-- `ParserList(other)`. -/
def copyConstruct (this other : Nat) (m : Memory α) : Option (Memory α) :=
  copyOther this other (m.setList this ⟨none, none⟩)

/-- `~ParserListNode`, for a node and those before it; the values own nothing. -/
def deleteNode : Nat → Option Nat → Memory α → Option (Memory α)
  | _, none, m => some m
  | 0, some _, _ => none
  | fuel + 1, some p, m => do
    let n ← m.nodes.cell p
    let m ← deleteNode fuel n.prev m
    let (_, nodes) ← (Heap.delete p).run m.nodes
    some { m with nodes }

/-- `assignOther`. -/
def assignOther (this other : Nat) (m : Memory α) : Option (Memory α) := do
  let m ← deleteNode (rounds m) (m.lists this).tail m
  copyOther this other (m.setList this ⟨none, none⟩)

/-- The loop of `getLength`. -/
def lengthLoop : Nat → ConstIterator → Int → Option Int
  | 0, _, _ => none
  | fuel + 1, ci, result => if ci.hasNext then lengthLoop fuel ci (result + 1) else some result

/-- `getLength`, within a number of rounds. -/
def getLength (this : Nat) (fuel : Nat) (m : Memory α) : Option Int :=
  lengthLoop fuel (constIterator this m) 0

/-- `getDelimitedString`; `write` is what `operator<<` writes for a value. -/
def getDelimitedString (write : α → List UInt8) (this : Nat) (delimiter : List UInt8)
    (m : Memory α) : Option (List UInt8) := do
  if (constIterator this m).hasNext then
    let values ← getAsVector this m
    some (values.flatMap (fun value => delimiter ++ write value) ++ delimiter)
  else
    some []

/-! ## 2. What a memory holds -/

/-- The list object `this` holds the nodes `ns`. -/
structure Stored (m : Memory α) (this : Nat) (ns : List (Nat × α)) : Prop where
  head : (m.lists this).head = first ns none
  tail : (m.lists this).tail = last ns none
  segment : Segment m.nodes.cell none ns none
  nodup : (addresses ns).Nodup

/-- Every list object holds its nodes, which are nodes of no other. -/
structure Holds (m : Memory α) (c : Nat → List (Nat × α)) : Prop where
  stored : ∀ i, Stored m i (c i)
  apart : ∀ i j, ∀ p ∈ addresses (c i), p ∈ addresses (c j) → i = j

/-- The list objects hold the sequences `s`. -/
def Sound (m : Memory α) (s : Nat → List α) : Prop :=
  ∃ c, Holds m c ∧ ∀ i, values (c i) = s i

theorem Memory.empty_sound : Sound (Memory.empty : Memory α) fun _ => [] :=
  ⟨fun _ => [], ⟨fun _ => ⟨rfl, rfl, trivial, List.nodup_nil⟩, fun _ _ _ hp => by cases hp⟩,
    fun _ => rfl⟩

section Changes

variable {m m' : Memory α} {c : Nat → List (Nat × α)} {this p : Nat} {ns : List (Nat × α)}
  {n : ParserListNode α}

theorem Stored.lt_next (h : Stored m this ns) (hp : p ∈ addresses ns) : p < m.nodes.next := by
  obtain ⟨n, hn⟩ := h.segment.alive hp
  exact Heap.lt_next hn

theorem Stored.length_lt_rounds (h : Stored m this ns) : ns.length < rounds m :=
  Nat.lt_succ_of_le (length_le_of_lt h.nodup fun _ => h.lt_next)

/-- **One list object changes.**  The cells of other lists stay, and the nodes that are new were
not alive. -/
theorem Holds.update (h : Holds m c) (hlists : ∀ j, j ≠ this → m'.lists j = m.lists j)
    (hcell : ∀ p, p < m.nodes.next → p ∉ addresses (c this) → m'.nodes.cell p = m.nodes.cell p)
    (hstored : Stored m' this ns)
    (hns : ∀ p ∈ addresses ns, p ∈ addresses (c this) ∨ m.nodes.next ≤ p) :
    Holds m' (Function.update c this ns) where
  stored := by
    intro j
    by_cases hj : j = this
    · rw [hj, Function.update_self]
      exact hstored
    · rw [Function.update_of_ne hj]
      have hold := h.stored j
      refine ⟨?_, ?_, hold.segment.congr fun p hp => ?_, hold.nodup⟩
      · rw [hlists j hj]
        exact hold.head
      · rw [hlists j hj]
        exact hold.tail
      · exact hcell p (hold.lt_next hp) fun hthis => hj (h.apart j this p hp hthis)
  apart := by
    have hnew : ∀ j, j ≠ this → ∀ p ∈ addresses ns, p ∉ addresses (c j) := by
      intro j hj p hp hpj
      rcases hns p hp with hthis | hge
      · exact hj (h.apart j this p hpj hthis)
      · exact absurd ((h.stored j).lt_next hpj) (Nat.not_lt.mpr hge)
    intro i j p hi hj
    by_cases hthis : i = this
    · by_cases hjthis : j = this
      · rw [hthis, hjthis]
      · rw [hthis, Function.update_self] at hi
        rw [Function.update_of_ne hjthis] at hj
        exact absurd hj (hnew j hjthis p hi)
    · rw [Function.update_of_ne hthis] at hi
      by_cases hjthis : j = this
      · rw [hjthis, Function.update_self] at hj
        exact absurd hi (hnew i hthis p hj)
      · rw [Function.update_of_ne hjthis] at hj
        exact h.apart i j p hi hj

@[simp] theorem Memory.nodes_setList (m : Memory α) (this : Nat) (l : ParserList) :
    (m.setList this l).nodes = m.nodes := rfl

@[simp] theorem Memory.lists_setList_self (m : Memory α) (this : Nat) (l : ParserList) :
    (m.setList this l).lists this = l := Function.update_self ..

theorem Memory.lists_setList_of_ne {j : Nat} (hj : j ≠ this) (m : Memory α) (l : ParserList) :
    (m.setList this l).lists j = m.lists j := Function.update_of_ne hj ..

theorem Memory.change_eq (hp : m.nodes.cell p = some n)
    (f : ParserListNode α → ParserListNode α) :
    ∃ m', m.change (some p) f = some m' ∧ m'.lists = m.lists ∧ m'.nodes.next = m.nodes.next ∧
      m'.nodes.cell = Function.update m.nodes.cell p (some (f n)) := by
  have hwrite := Heap.run_assign hp (some (f n))
  refine ⟨{ m with nodes := m.nodes.set p (some (f n)) (Heap.lt_next hp) }, ?_, rfl, rfl, rfl⟩
  simp [Memory.change, hp, Heap.write, hwrite]

end Changes

/-! ## 3. Values at either end -/

section Adding

variable {m : Memory α} {c : Nat → List (Nat × α)} {this : Nat}

/-- The first value. -/
theorem holds_first (h : Holds m c) (v : α) :
    Holds ((m.newNode v).2.setList this ⟨some m.nodes.next, some m.nodes.next⟩)
      (Function.update c this [(m.nodes.next, v)]) := by
  refine h.update (fun j hj => Memory.lists_setList_of_ne hj _ _)
    (fun p hp _ => Heap.cell_alloc_of_lt hp _) ⟨?_, ?_, ?_, ?_⟩ ?_
  · simp
  · simp
  · simp [Memory.newNode]
  · simp [addresses]
  · intro p hp
    simp only [addresses, List.map_cons, List.map_nil, List.mem_singleton] at hp
    exact .inr (Nat.le_of_eq hp.symm)

/-- A new node and an old one are linked: nothing else changes. -/
theorem link_newNode {t : Nat} {n : ParserListNode α} (ht : m.nodes.cell t = some n) (v : α)
    (f g : ParserListNode α → ParserListNode α) :
    ∃ m₁ m₂, (m.newNode v).2.change (some t) f = some m₁ ∧
      m₁.change (some m.nodes.next) g = some m₂ ∧ m₂.lists = m.lists ∧
      m₂.nodes.cell t = some (f n) ∧ m₂.nodes.cell m.nodes.next = some (g ⟨v, none, none⟩) ∧
      ∀ p, p < m.nodes.next → p ≠ t → m₂.nodes.cell p = m.nodes.cell p := by
  have hne : t ≠ m.nodes.next := Nat.ne_of_lt (Heap.lt_next ht)
  have halloc : (m.newNode v).2.nodes.cell t = some n := Heap.cell_alloc ht _
  obtain ⟨m₁, hm₁, hlists₁, -, hcell₁⟩ := Memory.change_eq halloc f
  have hnew : m₁.nodes.cell m.nodes.next = some ⟨v, none, none⟩ := by
    rw [hcell₁, Function.update_of_ne hne.symm]
    exact Heap.cell_alloc_self _ _
  obtain ⟨m₂, hm₂, hlists₂, -, hcell₂⟩ := Memory.change_eq hnew g
  refine ⟨m₁, m₂, hm₁, hm₂, hlists₂.trans hlists₁, ?_, ?_, fun p hp hpt => ?_⟩
  · rw [hcell₂, Function.update_of_ne hne, hcell₁, Function.update_self]
  · rw [hcell₂, Function.update_self]
  · rw [hcell₂, Function.update_of_ne (Nat.ne_of_lt hp), hcell₁, Function.update_of_ne hpt]
    exact Heap.cell_alloc_of_lt hp _

/-- **`addValueBack`** appends the value. -/
theorem addValueBack_holds (this : Nat) (h : Holds m c) (v : α) :
    ∃ m', addValueBack this v m = some m' ∧
      Holds m' (Function.update c this (c this ++ [(m.nodes.next, v)])) := by
  have hthis := h.stored this
  rcases List.eq_nil_or_concat (c this) with hnil | ⟨xs, t, hxs⟩
  · have hhead : (m.lists this).head = none := by rw [hthis.head, hnil, first_nil]
    refine ⟨(m.newNode v).2.setList this ⟨some m.nodes.next, some m.nodes.next⟩, ?_, ?_⟩
    · simp [addValueBack, Memory.newNode, hhead]
    · rw [hnil]
      exact holds_first h v
  · rw [List.concat_eq_append] at hxs
    have hmem : ∀ p ∈ addresses xs, p ∈ addresses (c this) := by
      intro p hp
      rw [hxs, addresses_append]
      exact List.mem_append_left _ hp
    have htail : (m.lists this).tail = some t.1 := by
      rw [hthis.tail, hxs, last_append]
      rfl
    have hseg := hthis.segment
    have hnodup := hthis.nodup
    rw [hxs, segment_append] at hseg
    rw [hxs, addresses_append, List.nodup_append] at hnodup
    obtain ⟨hsegxs, hcell, -⟩ := hseg
    obtain ⟨m₁, m₂, hm₁, hm₂, hlists, hcellt, hcellq, hother⟩ := link_newNode hcell v
      (fun n => { n with next := some m.nodes.next }) fun n => { n with prev := some t.1 }
    refine ⟨m₂.setList this ⟨some m.nodes.next, (m.lists this).head⟩, ?_, ?_⟩
    · have hhead : (m.lists this).head.isNone = false := by
        rw [hthis.head, hxs, first_append]
        cases xs <;> rfl
      rw [addValueBack]
      change (if (m.lists this).head.isNone then _ else
        ((m.newNode v).2.change (m.lists this).tail _).bind _) = _
      rw [hhead, htail]
      change ((m.newNode v).2.change (some t.1) _).bind _ = _
      rw [hm₁]
      change (m₁.change (some m.nodes.next) _).bind _ = _
      rw [hm₂]
      rfl
    · refine h.update (fun j hj => ?_) (fun p hp hpt => hother p hp ?_) ⟨?_, ?_, ?_, ?_⟩ ?_
      · rw [Memory.lists_setList_of_ne hj, hlists]
      · rintro rfl
        exact hpt (by rw [hxs]; simp [addresses])
      · rw [Memory.lists_setList_self, hthis.head, hxs]
        simp only [first_append]
        cases xs <;> rfl
      · rw [Memory.lists_setList_self, last_append]
        rfl
      · rw [hxs, List.append_assoc, segment_append]
        refine ⟨hsegxs.congr fun p hp => ?_, hcellt, hcellq, trivial⟩
        exact hother p (hthis.lt_next (hmem p hp)) (hnodup.2.2 p hp t.1 List.mem_cons_self)
      · rw [addresses_append, List.nodup_append]
        refine ⟨hthis.nodup, List.nodup_singleton _, ?_⟩
        intro p hp q hq
        rw [List.mem_singleton.mp hq]
        exact Nat.ne_of_lt (hthis.lt_next hp)
      · intro p hp
        rw [addresses_append, List.mem_append] at hp
        rcases hp with hp | hp
        · exact .inl hp
        · exact .inr (Nat.le_of_eq (List.mem_singleton.mp hp).symm)

/-- **`addValueFront`** puts the value in front. -/
theorem addValueFront_holds (this : Nat) (h : Holds m c) (v : α) :
    ∃ m', addValueFront this v m = some m' ∧
      Holds m' (Function.update c this ((m.nodes.next, v) :: c this)) := by
  have hthis := h.stored this
  cases hc : c this with
  | nil =>
    have hhead : (m.lists this).head = none := by rw [hthis.head, hc, first_nil]
    refine ⟨_, ?_, holds_first h v⟩
    simp [addValueFront, Memory.newNode, hhead]
  | cons t xs =>
    have hmem : ∀ p ∈ addresses xs, p ∈ addresses (c this) := fun p hp =>
      hc ▸ List.mem_cons_of_mem _ hp
    have hhead : (m.lists this).head = some t.1 := by rw [hthis.head, hc, first_cons]
    have hseg := hthis.segment
    have hnodup := hthis.nodup
    rw [hc] at hseg hnodup
    obtain ⟨hcell, hsegxs⟩ := hseg
    obtain ⟨m₁, m₂, hm₁, hm₂, hlists, hcellt, hcellq, hother⟩ := link_newNode hcell v
      (fun n => { n with prev := some m.nodes.next }) fun n => { n with next := some t.1 }
    refine ⟨m₂.setList this ⟨(m.lists this).tail, some m.nodes.next⟩, ?_, ?_⟩
    · rw [addValueFront]
      change (if (m.lists this).head.isNone then _ else
        ((m.newNode v).2.change (m.lists this).head _).bind _) = _
      rw [hhead]
      change ((m.newNode v).2.change (some t.1) _).bind _ = _
      rw [hm₁]
      change (m₁.change (some m.nodes.next) _).bind _ = _
      rw [hm₂]
      rfl
    · refine h.update (fun j hj => ?_) (fun p hp hpt => hother p hp ?_) ⟨?_, ?_, ?_, ?_⟩ ?_
      · rw [Memory.lists_setList_of_ne hj, hlists]
      · rintro rfl
        exact hpt (hc ▸ List.mem_cons_self)
      · rw [Memory.lists_setList_self]
        rfl
      · rw [Memory.lists_setList_self, hthis.tail, hc]
        rfl
      · refine ⟨hcellq, hcellt, hsegxs.congr fun p hp => ?_⟩
        refine hother p (hthis.lt_next (hmem p hp)) ?_
        rintro rfl
        exact (List.nodup_cons.mp hnodup).1 hp
      · refine List.nodup_cons.mpr ⟨fun hq => ?_, hnodup⟩
        rw [← hc] at hq
        exact Nat.lt_irrefl _ (hthis.lt_next hq)
      · intro p hp
        rcases List.mem_cons.mp hp with rfl | hp
        · exact .inr (Nat.le_refl _)
        · exact .inl (hc ▸ hp)

end Adding

/-! ## 4. Iterators -/

/-- A number of steps of an iterator. -/
def times (step : ConstIterator → Option (α × ConstIterator)) :
    Nat → ConstIterator → Option (List α × ConstIterator)
  | 0, ci => some ([], ci)
  | n + 1, ci => do
    let (value, ci) ← step ci
    let (values, ci) ← times step n ci
    some (value :: values, ci)

section Iterators

variable {m : Memory α} {this : Nat} {ns xs ys : List (Nat × α)}

theorem next_eq {ci : ConstIterator} {n : Nat × α} {prev next : Option Nat}
    (hci : ci.current = some n.1) (hcell : m.nodes.cell n.1 = some ⟨n.2, next, prev⟩) :
    ci.next m = some (n.2, { ci with current := next }) := by
  simp [ConstIterator.next, Memory.node, hci, hcell]

/-- Forwards, to the end, by induction on the nodes that are still to come. -/
theorem times_next {prev : Option Nat} (hseg : Segment m.nodes.cell prev ns none) :
    ∀ ci : ConstIterator, ci.current = first ns none →
      times (ConstIterator.next m) ns.length ci =
        some (values ns, { ci with current := none }) := by
  induction ns generalizing prev with
  | nil =>
    intro ci hci
    obtain ⟨current, mother⟩ := ci
    cases hci
    rfl
  | cons n ns ih =>
    intro ci hci
    have hstep := next_eq hci hseg.1
    have hrest := ih hseg.2 { ci with current := first ns none } rfl
    simp [times, hstep, hrest, values]

theorem collect_next {prev : Option Nat} (hseg : Segment m.nodes.cell prev ns none) :
    ∀ (ci : ConstIterator) {fuel : Nat}, ci.current = first ns none → ns.length < fuel →
      collect ConstIterator.hasNext (ConstIterator.next m) fuel ci =
        some (values ns, { ci with current := none }) := by
  induction ns generalizing prev with
  | nil =>
    intro ci fuel hci hfuel
    obtain ⟨current, mother⟩ := ci
    cases hci
    cases fuel with
    | zero => cases hfuel
    | succ fuel => rfl
  | cons n ns ih =>
    intro ci fuel hci hfuel
    cases fuel with
    | zero => cases hfuel
    | succ fuel =>
      have hhas : ci.hasNext = true := by simp [ConstIterator.hasNext, hci]
      have hstep := next_eq hci hseg.1
      have hrest := ih hseg.2 { ci with current := first ns none } rfl
        (Nat.lt_of_succ_lt_succ hfuel)
      simp [collect, hhas, hstep, hrest, values]

theorem Stored.getAsVector (h : Stored m this ns) : getAsVector this m = some (values ns) := by
  have hall := collect_next h.segment (constIterator this m) h.head h.length_lt_rounds
  rw [ParserList.getAsVector, hall]
  rfl

/-- One step backwards arrives at the last of the nodes before. -/
theorem previous_eq {ci : ConstIterator} {n : Nat × α}
    (h : Segment m.nodes.cell none (xs ++ n :: ys) none)
    (htail : (m.lists ci.mother).tail = last (xs ++ n :: ys) none)
    (hci : ci.current = first ys none) :
    ci.previous m = some (n.2, { ci with current := some n.1 }) := by
  rw [segment_append] at h
  obtain ⟨hcell, hys⟩ := h.2
  have hvalue : ∀ mother, ConstIterator.getCurrent m ⟨some n.1, mother⟩ = some n.2 := by
    intro mother
    simp [ConstIterator.getCurrent, Memory.node, hcell]
  cases ys with
  | nil =>
    rw [first_nil] at hci
    rw [last_append] at htail
    simp [ConstIterator.previous, hci, htail, hvalue]
  | cons y ys =>
    rw [first_cons] at hci
    have hnode : m.node (some y.1) = some ⟨y.2, first ys none, some n.1⟩ := hys.1
    simp [ConstIterator.previous, hci, hnode, hvalue]

/-- Backwards, from any place, by induction on the nodes before it. -/
theorem times_previous (hseg : Segment m.nodes.cell none ns none) (ci : ConstIterator)
    (htail : (m.lists ci.mother).tail = last ns none) (hns : ns = xs ++ ys)
    (hci : ci.current = first ys none) :
    ∃ ci', times (ConstIterator.previous m) xs.length ci = some ((values xs).reverse, ci') := by
  induction xs using List.reverseRecOn generalizing ys ci with
  | nil => exact ⟨ci, rfl⟩
  | append_singleton xs n ih =>
    rw [List.append_assoc, List.singleton_append] at hns
    have hstep := previous_eq (hns ▸ hseg) (hns ▸ htail) hci
    obtain ⟨ci', hrest⟩ := ih { ci with current := some n.1 } htail hns rfl
    refine ⟨ci', ?_⟩
    rw [List.length_append, List.length_singleton, times, hstep]
    change (times (ConstIterator.previous m) xs.length _).bind _ = _
    rw [hrest]
    simp [values]

/-- `getLength` asks the same question again and again. -/
theorem lengthLoop_of_hasNext {ci : ConstIterator} (h : ci.hasNext = true) (fuel : Nat) :
    ∀ result, lengthLoop fuel ci result = none := by
  induction fuel with
  | zero => exact fun _ => rfl
  | succ fuel ih =>
    intro result
    rw [lengthLoop, if_pos h, ih]

end Iterators

/-! ## 5. Freeing and copying -/

section Copying

variable {m : Memory α} {c : Nat → List (Nat × α)} {this other : Nat} {ns : List (Nat × α)}

/-- The destructor frees the nodes, from the last one on, by induction on them. -/
theorem deleteNode_eq {next : Option Nat} (hseg : Segment m.nodes.cell none ns next)
    (hnodup : (addresses ns).Nodup) {fuel : Nat} (hfuel : ns.length ≤ fuel) :
    ∃ m', deleteNode fuel (last ns none) m = some m' ∧ m'.lists = m.lists ∧
      ∀ p, p ∉ addresses ns → m'.nodes.cell p = m.nodes.cell p := by
  induction ns using List.reverseRecOn generalizing next fuel with
  | nil =>
    refine ⟨m, ?_, rfl, fun _ _ => rfl⟩
    cases fuel <;> rfl
  | append_singleton ns n ih =>
    rw [segment_append] at hseg
    obtain ⟨hns, hcell, -⟩ := hseg
    rw [addresses_append, List.nodup_append] at hnodup
    rw [List.length_append, List.length_singleton] at hfuel
    cases fuel with
    | zero => omega
    | succ fuel =>
      obtain ⟨m₁, hm₁, hlists, hrest⟩ := ih hns hnodup.1 (Nat.le_of_succ_le_succ hfuel)
      have hout : n.1 ∉ addresses ns := fun hmem =>
        hnodup.2.2 n.1 hmem n.1 List.mem_cons_self rfl
      have halive : m₁.nodes.cell n.1 = some ⟨n.2, next, last ns none⟩ := (hrest n.1 hout).trans hcell
      have hdelete := Heap.run_assign halive none
      refine ⟨{ m₁ with nodes := m₁.nodes.set n.1 none (Heap.lt_next halive) }, ?_, hlists, ?_⟩
      · rw [last_append, last_cons, last_nil, deleteNode, hcell]
        change (deleteNode fuel (last ns none) m).bind _ = _
        rw [hm₁]
        change ((Heap.delete n.1).run m₁.nodes).bind _ = _
        rw [Heap.delete, hdelete]
        rfl
      · intro p hp
        rw [addresses_append, List.mem_append, not_or] at hp
        have hne : p ≠ n.1 := fun h => hp.2 (h ▸ List.mem_cons_self)
        exact (Heap.cell_set m₁.nodes none (Heap.lt_next halive) hne).trans (hrest p hp.1)

/-- A list object that holds nothing, whatever becomes of its nodes. -/
theorem Holds.clear {m' : Memory α} (h : Holds m c) (hlists : m'.lists = m.lists)
    (hcell : ∀ p, p ∉ addresses (c this) → m'.nodes.cell p = m.nodes.cell p) :
    Holds (m'.setList this ⟨none, none⟩) (Function.update c this []) := by
  refine h.update (fun j hj => ?_) (fun p _ hp => hcell p hp) ⟨?_, ?_, trivial, List.nodup_nil⟩
    fun p hp => by cases hp
  · rw [Memory.lists_setList_of_ne hj, hlists]
  · rw [Memory.lists_setList_self]
    rfl
  · rw [Memory.lists_setList_self]
    rfl

/-- **The loop of `copyOther`**, by induction on the nodes that are still to be copied. -/
theorem copyLoop_holds (hne : this ≠ other) : ∀ {ys : List (Nat × α)} (xs : List (Nat × α))
    (ci : ConstIterator) {m : Memory α} {c : Nat → List (Nat × α)} {fuel : Nat}, Holds m c →
      c other = xs ++ ys → ci.current = first ys none → ys.length < fuel →
      ∃ m' c', copyLoop this fuel ci m = some m' ∧ Holds m' c' ∧ (∀ j, j ≠ this → c' j = c j) ∧
        values (c' this) = values (c this) ++ values ys := by
  intro ys
  induction ys with
  | nil =>
    intro xs ci m c fuel h _ hci hfuel
    cases fuel with
    | zero => cases hfuel
    | succ fuel =>
      refine ⟨m, c, ?_, h, fun _ _ => rfl, (List.append_nil _).symm⟩
      rw [copyLoop, if_neg]
      simp [ConstIterator.hasNext, hci]
  | cons n ys ih =>
    intro xs ci m c fuel h hother hci hfuel
    cases fuel with
    | zero => cases hfuel
    | succ fuel =>
      have hseg := (h.stored other).segment
      rw [hother, segment_append] at hseg
      have hstep := next_eq hci hseg.2.1
      obtain ⟨m₁, hm₁, h₁⟩ := addValueBack_holds this h n.2
      have hother₁ : Function.update c this (c this ++ [(m.nodes.next, n.2)]) other
          = (xs ++ [n]) ++ ys := by
        rw [Function.update_of_ne hne.symm, hother, List.append_assoc]
        rfl
      obtain ⟨m', c', hrun, h', hrest, hvalues⟩ := ih (xs ++ [n])
        { ci with current := first ys none } h₁ hother₁ rfl (Nat.lt_of_succ_lt_succ hfuel)
      refine ⟨m', c', ?_, h', fun j hj => ?_, ?_⟩
      · rw [copyLoop, if_pos (by simp [ConstIterator.hasNext, hci]), hstep]
        change (addValueBack this n.2 m).bind _ = _
        rw [hm₁]
        exact hrun
      · rw [hrest j hj, Function.update_of_ne hj]
      · rw [hvalues, Function.update_self]
        simp [values]

theorem copyOther_holds (h : Holds m c) (hne : this ≠ other) :
    ∃ m' c', copyOther this other m = some m' ∧ Holds m' c' ∧ (∀ j, j ≠ this → c' j = c j) ∧
      values (c' this) = values (c this) ++ values (c other) :=
  copyLoop_holds hne [] _ h rfl (h.stored other).head (h.stored other).length_lt_rounds

end Copying

/-! ## 6. Runs -/

/-- A value added at one end. -/
inductive AddValue (α : Type) where
  | front (myval : α)
  | back (myval : α)

def AddValue.run (this : Nat) : AddValue α → Memory α → Option (Memory α)
  | front myval => addValueFront this myval
  | back myval => addValueBack this myval

/-- What it does to the sequence. -/
def AddValue.apply : AddValue α → List α → List α
  | front myval, xs => myval :: xs
  | back myval, xs => xs ++ [myval]

/-- The values added to an empty list. -/
def sequence (ops : List (AddValue α)) : List α := ops.foldl (fun xs op => op.apply xs) []

def addValues (this : Nat) (ops : List (AddValue α)) (m : Memory α) : Option (Memory α) :=
  ops.foldlM (fun m op => op.run this m) m

/-- An operation on the list objects; a list is not constructed from itself. -/
inductive Op (α : Type) where
  | add (this : Nat) (op : AddValue α)
  | copy (this other : Nat) (hne : this ≠ other)
  | assign (this other : Nat)

def Op.run : Op α → Memory α → Option (Memory α)
  | add this op => op.run this
  | copy this other _ => copyConstruct this other
  | assign this other => assignOther this other

/-- What it does to the sequences. -/
def Op.apply : Op α → (Nat → List α) → Nat → List α
  | add this op, s => Function.update s this (op.apply (s this))
  | copy this other _, s => Function.update s this (s other)
  | assign this other, s => Function.update s this (if this = other then [] else s other)

def run (ops : List (Op α)) : Option (Memory α) := ops.foldlM (fun m op => op.run m) Memory.empty

section Runs

variable {m : Memory α} {s : Nat → List α} {this other : Nat}

theorem AddValue.run_sound (op : AddValue α) (this : Nat) (h : Sound m s) :
    ∃ m', op.run this m = some m' ∧ Sound m' (Function.update s this (op.apply (s this))) := by
  obtain ⟨c, hc, hs⟩ := h
  have hvalues : ∀ {ns : List (Nat × α)} {xs : List α}, values ns = xs →
      ∀ i, values (Function.update c this ns i) = Function.update s this xs i := by
    intro ns xs hns i
    by_cases hi : i = this
    · rw [hi, Function.update_self, Function.update_self, hns]
    · rw [Function.update_of_ne hi, Function.update_of_ne hi, hs]
  cases op with
  | front myval =>
    obtain ⟨m', hm', hc'⟩ := addValueFront_holds this hc myval
    refine ⟨m', hm', _, hc', hvalues ?_⟩
    rw [AddValue.apply, ← hs this]
    rfl
  | back myval =>
    obtain ⟨m', hm', hc'⟩ := addValueBack_holds this hc myval
    refine ⟨m', hm', _, hc', hvalues ?_⟩
    rw [AddValue.apply, values_append, hs this]
    rfl

/-- The copy of another list into an empty one. -/
theorem copyOther_sound (h : Sound m s) (hempty : s this = []) (hne : this ≠ other) :
    ∃ m', copyOther this other m = some m' ∧ Sound m' (Function.update s this (s other)) := by
  obtain ⟨c, hc, hs⟩ := h
  obtain ⟨m', c', hm', hc', hrest, hvalues⟩ := copyOther_holds hc hne
  refine ⟨m', hm', c', hc', fun i => ?_⟩
  by_cases hi : i = this
  · rw [hi, Function.update_self, hvalues, hs, hs, hempty, List.nil_append]
  · rw [Function.update_of_ne hi, hrest i hi, hs]

theorem clear_sound (this : Nat) (h : Sound m s) :
    Sound (m.setList this ⟨none, none⟩) (Function.update s this []) := by
  obtain ⟨c, hc, hs⟩ := h
  refine ⟨_, hc.clear rfl fun _ _ => rfl, fun i => ?_⟩
  by_cases hi : i = this
  · rw [hi, Function.update_self, Function.update_self]
    rfl
  · rw [Function.update_of_ne hi, Function.update_of_ne hi, hs]

theorem copyConstruct_sound (h : Sound m s) (hne : this ≠ other) :
    ∃ m', copyConstruct this other m = some m' ∧ Sound m' (Function.update s this (s other)) := by
  obtain ⟨m', hm', hs'⟩ := copyOther_sound (clear_sound this h) (Function.update_self ..) hne
  rw [Function.update_of_ne hne.symm, Function.update_idem] at hs'
  exact ⟨m', hm', hs'⟩

theorem assignOther_sound (this other : Nat) (h : Sound m s) :
    ∃ m', assignOther this other m = some m' ∧
      Sound m' (Function.update s this (if this = other then [] else s other)) := by
  obtain ⟨c, hc, hs⟩ := h
  have hthis := hc.stored this
  obtain ⟨m₁, hm₁, hlists, hcell⟩ :=
    deleteNode_eq hthis.segment hthis.nodup (Nat.le_of_lt hthis.length_lt_rounds)
  have hcleared : Sound (m₁.setList this ⟨none, none⟩) (Function.update s this []) := by
    refine ⟨_, hc.clear hlists hcell, fun i => ?_⟩
    by_cases hi : i = this
    · rw [hi, Function.update_self, Function.update_self]
      rfl
    · rw [Function.update_of_ne hi, Function.update_of_ne hi, hs]
  have hrun : assignOther this other m =
      copyOther this other (m₁.setList this ⟨none, none⟩) := by
    rw [assignOther, hthis.tail, hm₁]
    rfl
  rw [hrun]
  by_cases hne : this = other
  · refine ⟨m₁.setList this ⟨none, none⟩, ?_, ?_⟩
    · rw [copyOther, ← hne, rounds, constIterator, Memory.lists_setList_self]
      rfl
    · rw [if_pos hne]
      exact hcleared
  · obtain ⟨m', hm', hs'⟩ := copyOther_sound hcleared (Function.update_self ..) hne
    rw [Function.update_of_ne (Ne.symm hne), Function.update_idem] at hs'
    exact ⟨m', hm', by rwa [if_neg hne]⟩

/-- **One operation** changes the sequences as it should. -/
theorem Op.run_sound (op : Op α) (h : Sound m s) :
    ∃ m', op.run m = some m' ∧ Sound m' (op.apply s) := by
  cases op with
  | add this op => exact op.run_sound this h
  | copy this other hne => exact copyConstruct_sound h hne
  | assign this other => exact assignOther_sound this other h

/-- **A run** never fails, and every memory it leads to is sound. -/
theorem run_sound (ops : List (Op α)) : ∃ m s, run ops = some m ∧ Sound m s := by
  have hrun : ∀ (ops : List (Op α)) {m s}, Sound m s →
      ∃ m' s', ops.foldlM (fun m op => op.run m) m = some m' ∧ Sound m' s' := by
    intro ops
    induction ops with
    | nil => exact fun h => ⟨_, _, rfl, h⟩
    | cons op ops ih =>
      intro m s h
      obtain ⟨m₁, hm₁, h₁⟩ := op.run_sound h
      obtain ⟨m', s', hm', h'⟩ := ih h₁
      refine ⟨m', s', ?_, h'⟩
      rw [List.foldlM_cons, hm₁]
      exact hm'
  exact hrun ops Memory.empty_sound

theorem addValues_sound (this : Nat) (ops : List (AddValue α)) : ∀ {m : Memory α} {s : Nat → List α},
    Sound m s → ∃ m', addValues this ops m = some m' ∧
      Sound m' (Function.update s this (ops.foldl (fun xs op => op.apply xs) (s this))) := by
  induction ops with
  | nil =>
    intro m s h
    refine ⟨m, rfl, ?_⟩
    rwa [List.foldl_nil, Function.update_eq_self]
  | cons op ops ih =>
    intro m s h
    obtain ⟨m₁, hm₁, h₁⟩ := op.run_sound this h
    obtain ⟨m', hm', h'⟩ := ih h₁
    rw [Function.update_self, Function.update_idem] at h'
    refine ⟨m', ?_, h'⟩
    rw [addValues, List.foldlM_cons, hm₁]
    exact hm'

theorem Sound.getAsVector (h : Sound m s) (this : Nat) :
    getAsVector this m = some (s this) := by
  obtain ⟨c, hc, hs⟩ := h
  rw [(hc.stored this).getAsVector, hs]

theorem Sound.eq_nil (h : Sound m s) (hempty : (m.lists this).head = none) : s this = [] := by
  obtain ⟨c, hc, hs⟩ := h
  rw [← hs]
  have hhead := (hc.stored this).head
  rw [hempty] at hhead
  cases hns : c this with
  | nil => rfl
  | cons n ns =>
    rw [hns] at hhead
    cases hhead

end Runs

/-! ## 7. Integers as text -/

/-- A `std::istringstream`: what is left, and the bits of its state. -/
structure IStream where
  rest : List UInt8
  eof : Bool
  fail : Bool

/-- `std::isspace`. -/
def isSpace (c : UInt8) : Bool := c == 32 || (9 ≤ c && c ≤ 13)

def isDigit (c : UInt8) : Bool := 48 ≤ c && c ≤ 57

/-- The sign, and what follows it. -/
def readSign : List UInt8 → Bool × List UInt8
  | [] => (false, [])
  | c :: rest =>
    if c = 45 then (true, rest) else if c = 43 then (false, rest) else (false, c :: rest)

/-- `operator>>` for a `long`: white space is passed over, and a number that is read up to the end
of the text has set `eof`. -/
def extractLong (s : IStream) (myT : Int64) : Int64 × IStream :=
  if s.eof || s.fail then (myT, { s with fail := true })
  else
    let rest := s.rest.dropWhile isSpace
    if rest = [] then (myT, ⟨[], true, true⟩)
    else
      let (negative, rest) := readSign rest
      let digits := rest.takeWhile isDigit
      let rest := rest.dropWhile isDigit
      let eof := rest.isEmpty
      if digits = [] then (0, ⟨rest, eof, true⟩)
      else
        let i := Radix.horner 10 0 (decimalDigits digits)
        let i := if negative then -i else i
        if i < -2 ^ 63 then (Int64.minValue, ⟨rest, eof, true⟩)
        else if 2 ^ 63 ≤ i then (Int64.maxValue, ⟨rest, eof, true⟩)
        else (Int64.ofInt i, ⟨rest, eof, false⟩)

/-- The loop of `ParserList(str, delimiter)`. -/
def ofStringLoop (this : Nat) : Nat → Int64 → IStream → Memory Int64 → Option (Memory Int64)
  | 0, _, _, _ => none
  | fuel + 1, myT, s, m =>
    if !s.eof && !s.fail then do
      let m ← addValueBack this myT m
      let (myT, s) := extractLong s myT
      ofStringLoop this fuel myT s m
    else
      some m

/-- `ParserList(str, delimiter)`; every round reads a byte at least.  `myT` is not initialised. -/
def ofString (this : Nat) (str delimiter : List UInt8) (myT : Int64) (m : Memory Int64) :
    Option (Memory Int64) :=
  if delimiter = Lexer.bytes " " then
    let (myT, s) := extractLong ⟨str, false, false⟩ myT
    ofStringLoop this (str.length + 1) myT s (m.setList this ⟨none, none⟩)
  else
    none

/-- What `operator<<` writes for a `long`. -/
def writeLong (i : Int64) : List UInt8 := LongLong.decimal i.toInt

/-- A delimiter before each number and one after the last. -/
def delimited (is : List Int64) : List UInt8 :=
  is.flatMap (fun i => 32 :: writeLong i) ++ [32]

theorem delimited_cons (i : Int64) (is : List Int64) :
    delimited (i :: is) = 32 :: (writeLong i ++ delimited is) := by
  simp [delimited]

theorem delimited_eq_cons (is : List Int64) : ∃ rest, delimited is = 32 :: rest := by
  cases is with
  | nil => exact ⟨[], rfl⟩
  | cons i is => exact ⟨_, delimited_cons i is⟩

theorem isDigit_of_isDecimal {c : UInt8} (h : IsDecimal c) : isDigit c = true := by
  obtain ⟨d, hd, rfl⟩ := h
  have hall : ∀ d < 10, isDigit (UInt8.ofNat (48 + d)) = true := by decide
  exact hall d hd

theorem takeWhile_natDecimal (n : Nat) (rest : List UInt8) :
    (LongLong.natDecimal n ++ 32 :: rest).takeWhile isDigit = LongLong.natDecimal n := by
  rw [List.takeWhile_append_of_pos fun c hc => isDigit_of_isDecimal (LongLong.isDecimal_of_mem hc)]
  simp [isDigit]

theorem dropWhile_natDecimal (n : Nat) (rest : List UInt8) :
    (LongLong.natDecimal n ++ 32 :: rest).dropWhile isDigit = 32 :: rest := by
  rw [List.dropWhile_append_of_pos fun c hc => isDigit_of_isDecimal (LongLong.isDecimal_of_mem hc)]
  simp [isDigit]

theorem natDecimal_eq_cons (n : Nat) : ∃ d < 10, ∃ ds,
    LongLong.natDecimal n = UInt8.ofNat (48 + d) :: ds := by
  cases hds : LongLong.natDecimal n with
  | nil => exact absurd hds (LongLong.natDecimal_ne_nil n)
  | cons c ds =>
    obtain ⟨d, hd, rfl⟩ := LongLong.isDecimal_of_mem (hds ▸ List.mem_cons_self : c ∈ _)
    exact ⟨d, hd, ds, rfl⟩

/-- The sign and the digits of a number. -/
theorem readSign_writeLong (i : Int64) (rest : List UInt8) :
    (writeLong i ++ 32 :: rest).dropWhile isSpace = writeLong i ++ 32 :: rest ∧
      writeLong i ++ 32 :: rest ≠ [] ∧ readSign (writeLong i ++ 32 :: rest) =
        (decide (i.toInt < 0), LongLong.natDecimal i.toInt.natAbs ++ 32 :: rest) := by
  have hdigit : ∀ d < 10, isSpace (UInt8.ofNat (48 + d)) = false ∧
      UInt8.ofNat (48 + d) ≠ 45 ∧ UInt8.ofNat (48 + d) ≠ 43 := by decide
  obtain ⟨d, hd, ds, hds⟩ := natDecimal_eq_cons i.toInt.natAbs
  obtain ⟨hspace, hminus, hplus⟩ := hdigit d hd
  by_cases hneg : i.toInt < 0
  · rw [writeLong, LongLong.decimal_of_neg hneg, List.cons_append]
    refine ⟨List.dropWhile_cons_of_neg (by decide), List.cons_ne_nil _ _, ?_⟩
    rw [readSign, if_pos rfl, decide_eq_true hneg]
  · rw [writeLong, LongLong.decimal_of_nonneg (Int.not_lt.mp hneg), hds, List.cons_append]
    have hnot : ¬ isSpace (UInt8.ofNat (48 + d)) = true := by
      rw [hspace]
      exact Bool.false_ne_true
    refine ⟨List.dropWhile_cons_of_neg hnot, List.cons_ne_nil _ _, ?_⟩
    rw [readSign, if_neg hminus, if_neg hplus, decide_eq_false hneg]

/-- **A number is read back**, and the delimiter after it is left. -/
theorem extractLong_writeLong (i myT : Int64) (rest : List UInt8) :
    extractLong ⟨32 :: (writeLong i ++ 32 :: rest), false, false⟩ myT =
      (i, ⟨32 :: rest, false, false⟩) := by
  obtain ⟨hspace, hne, hsign⟩ := readSign_writeLong i rest
  have hdrop : (32 :: (writeLong i ++ 32 :: rest)).dropWhile isSpace =
      writeLong i ++ 32 :: rest := by
    rw [List.dropWhile_cons_of_pos (by decide), hspace]
  have hvalue : (if i.toInt < 0 then -(i.toInt.natAbs : Int) else i.toInt.natAbs) = i.toInt := by
    split <;> omega
  have hlow : ¬ i.toInt < -2 ^ 63 := Int.not_lt.mpr i.le_toInt
  have hhigh : ¬ 2 ^ 63 ≤ i.toInt := Int.not_le.mpr i.toInt_lt
  rw [extractLong]
  simp only [Bool.or_self, Bool.false_eq_true, if_false, hdrop, hne, hsign, takeWhile_natDecimal,
    dropWhile_natDecimal, LongLong.natDecimal_ne_nil, LongLong.horner_natDecimal,
    List.isEmpty_cons, decide_eq_true_eq, hvalue, hlow, hhigh, Int64.ofInt_toInt]

/-- The loop, by induction on the numbers that are still to be read. -/
theorem ofStringLoop_sound (this : Nat) (is : List Int64) : ∀ (i : Int64) {fuel : Nat}
    {m : Memory Int64} {s : Nat → List Int64}, Sound m s → is.length + 1 < fuel →
      ∃ m', ofStringLoop this fuel i ⟨delimited is, false, false⟩ m = some m' ∧
        Sound m' (Function.update s this (s this ++ i :: is)) := by
  induction is with
  | nil =>
    intro i fuel m s h hfuel
    obtain ⟨m₁, hm₁, h₁⟩ := (AddValue.back i).run_sound this h
    obtain _ | _ | fuel := fuel
    · cases hfuel
    · exact absurd hfuel (Nat.lt_irrefl _)
    refine ⟨m₁, ?_, h₁⟩
    change (addValueBack this i m).bind _ = _
    change addValueBack this i m = some m₁ at hm₁
    rw [hm₁]
    rfl
  | cons j is ih =>
    intro i fuel m s h hfuel
    obtain ⟨m₁, hm₁, h₁⟩ := (AddValue.back i).run_sound this h
    obtain _ | fuel := fuel
    · cases hfuel
    obtain ⟨m', hm', h'⟩ := ih j h₁ (Nat.lt_of_succ_lt_succ hfuel)
    rw [Function.update_self, Function.update_idem, AddValue.apply, List.append_assoc] at h'
    refine ⟨m', ?_, h'⟩
    obtain ⟨rest, hrest⟩ := delimited_eq_cons is
    rw [delimited_cons, hrest]
    change (addValueBack this i m).bind (fun m => _) = _
    change addValueBack this i m = some m₁ at hm₁
    rw [hm₁, Option.bind_some, extractLong_writeLong, ← hrest]
    exact hm'

/-! ## 8. Which operations are faithful -/

/-- The list object `this` is read as `xs` by its iterators and by those of its copies. -/
structure Iterates (m : Memory α) (this : Nat) (xs : List α) : Prop where
  forward : ∃ ci, times (ConstIterator.next m) xs.length (constIterator this m) = some (xs, ci) ∧
    ci.hasNext = false
  vector : getAsVector this m = some xs
  backward : ∃ ci, times (ConstIterator.previous m) xs.length ⟨none, this⟩ = some (xs.reverse, ci)
  copy : ∀ other, other ≠ this → ∃ m', copyConstruct other this m = some m' ∧
    getAsVector other m' = some xs
  assign : ∀ other, other ≠ this → ∃ m', assignOther other this m = some m' ∧
    getAsVector other m' = some xs

/-- ...and its length is returned, and it may be assigned to itself. -/
structure Faithful (m : Memory α) (this : Nat) (xs : List α) : Prop extends Iterates m this xs where
  selfAssign : ∃ m', assignOther this this m = some m' ∧ getAsVector this m' = some xs
  length : ∃ fuel, getLength this fuel m = some xs.length

/-- The text of a list of numbers is read back. -/
def RoundTrips (m : Memory Int64) (this : Nat) (xs : List Int64) : Prop :=
  ∃ str, getDelimitedString writeLong this (Lexer.bytes " ") m = some str ∧
    ∀ other, ∀ myT : Int64, ∃ m', ofString other str (Lexer.bytes " ") myT m = some m' ∧
      getAsVector other m' = some xs

/-- `P` holds of every list object that is empty, in any memory that operations lead to, after the
values have been added to it. -/
def After (P : Memory α → Nat → List α → Prop) (ops : List (AddValue α)) : Prop :=
  ∀ (prior : List (Op α)) (this : Nat) (m : Memory α), run prior = some m →
    (m.lists this).head = none →
      ∃ m', addValues this ops m = some m' ∧ P m' this (sequence ops)

section Reading

variable {m : Memory α} {s : Nat → List α} {this : Nat}

theorem Sound.iterates (h : Sound m s) (this : Nat) : Iterates m this (s this) where
  forward := by
    obtain ⟨c, hc, hs⟩ := h
    have hthis := hc.stored this
    have hall := times_next hthis.segment (constIterator this m) hthis.head
    rw [← hs this, show (values (c this)).length = (c this).length from List.length_map _]
    exact ⟨_, hall, rfl⟩
  vector := h.getAsVector this
  backward := by
    obtain ⟨c, hc, hs⟩ := h
    have hthis := hc.stored this
    obtain ⟨ci, hall⟩ := times_previous hthis.segment ⟨none, this⟩ hthis.tail
      (List.append_nil _).symm rfl
    rw [← hs this, show (values (c this)).length = (c this).length from List.length_map _]
    exact ⟨ci, hall⟩
  copy := by
    intro other hne
    obtain ⟨m', hm', hs'⟩ := copyConstruct_sound h hne
    refine ⟨m', hm', ?_⟩
    rw [hs'.getAsVector, Function.update_self]
  assign := by
    intro other hne
    obtain ⟨m', hm', hs'⟩ := assignOther_sound other this h
    refine ⟨m', hm', ?_⟩
    rw [hs'.getAsVector, Function.update_self, if_neg hne]

/-- A list object holds something exactly if it has a head. -/
theorem Sound.head_eq_none_iff (h : Sound m s) : (m.lists this).head = none ↔ s this = [] := by
  refine ⟨h.eq_nil, fun hnil => ?_⟩
  obtain ⟨c, hc, hs⟩ := h
  rw [← hs this, values, List.map_eq_nil_iff] at hnil
  rw [(hc.stored this).head, hnil, first_nil]

/-- **`getLength` returns on the empty list alone.** -/
theorem Sound.getLength_iff (h : Sound m s) (this : Nat) :
    (∃ fuel, getLength this fuel m = some ((s this).length : Int)) ↔ s this = [] := by
  refine ⟨?_, fun hnil => ⟨1, ?_⟩⟩
  · rintro ⟨fuel, hlen⟩
    by_contra hne
    have hhas : (constIterator this m).hasNext = true := by
      rw [ConstIterator.hasNext, constIterator, Option.isSome_iff_ne_none]
      exact fun hnone => hne (h.eq_nil hnone)
    rw [getLength, lengthLoop_of_hasNext hhas] at hlen
    cases hlen
  · rw [getLength, lengthLoop, ConstIterator.hasNext, constIterator,
      h.head_eq_none_iff.mpr hnil, hnil]
    rfl

theorem length_sequence (ops : List (AddValue α)) : (sequence ops).length = ops.length := by
  have hlen : ∀ (ops : List (AddValue α)) (xs : List α),
      (ops.foldl (fun xs op => op.apply xs) xs).length = xs.length + ops.length := by
    intro ops
    induction ops with
    | nil => exact fun _ => rfl
    | cons op ops ih =>
      intro xs
      rw [List.foldl_cons, ih, List.length_cons]
      cases op <;> simp [AddValue.apply] <;> omega
  rw [sequence, hlen, List.length_nil, Nat.zero_add]

/-- What holds of every sound memory holds after the values are added. -/
theorem After.of_sound {P : Memory α → Nat → List α → Prop} {ops : List (AddValue α)}
    (hP : ∀ m s this, Sound m s → s this = sequence ops → P m this (s this)) : After P ops := by
  intro prior this m hprior hempty
  obtain ⟨m₀, s, hrun, hs⟩ := run_sound prior
  rw [hprior] at hrun
  cases hrun
  obtain ⟨m', hm', hs'⟩ := addValues_sound this ops hs
  rw [hs.eq_nil hempty] at hs'
  have hthis := hP m' _ this hs' (Function.update_self ..)
  rw [Function.update_self] at hthis
  exact ⟨m', hm', hthis⟩

/-- The text of the numbers that a list object holds. -/
theorem Sound.roundTrips {m : Memory Int64} {s : Nat → List Int64} (h : Sound m s) (this : Nat) :
    RoundTrips m this (s this) := by
  have hbytes : Lexer.bytes " " = [32] := rfl
  cases hs : s this with
  | nil =>
    have hhead := h.head_eq_none_iff.mpr hs
    refine ⟨[], ?_, fun other myT => ?_⟩
    · rw [getDelimitedString, ConstIterator.hasNext, constIterator, hhead]
      rfl
    · have hcleared := clear_sound other h
      refine ⟨_, rfl, ?_⟩
      rw [hcleared.getAsVector, Function.update_self]
  | cons i is =>
    have hhas : (constIterator this m).hasNext = true := by
      rw [ConstIterator.hasNext, constIterator, Option.isSome_iff_ne_none]
      intro hnone
      rw [h.eq_nil hnone] at hs
      cases hs
    refine ⟨delimited (i :: is), ?_, fun other myT => ?_⟩
    · rw [getDelimitedString, if_pos hhas, h.getAsVector this, hs, hbytes]
      rfl
    · obtain ⟨rest, hrest⟩ := delimited_eq_cons is
      have hlen : is.length + 1 < (delimited (i :: is)).length + 1 := by
        have hle : ∀ is : List Int64, is.length + 1 ≤ (delimited is).length := by
          intro is
          induction is with
          | nil => exact Nat.le_refl _
          | cons i is ih =>
            rw [delimited_cons, List.length_cons, List.length_cons, List.length_append]
            omega
        exact Nat.lt_succ_of_le (Nat.le_of_succ_le (hle (i :: is)))
      obtain ⟨m', hm', h'⟩ := ofStringLoop_sound other is i (clear_sound other h) hlen
      rw [Function.update_self, List.nil_append] at h'
      refine ⟨m', ?_, ?_⟩
      · have hread : extractLong ⟨delimited (i :: is), false, false⟩ myT =
            (i, ⟨delimited is, false, false⟩) := by
          rw [delimited_cons, hrest]
          exact extractLong_writeLong i myT rest
        rw [ofString, if_pos rfl, hread]
        exact hm'
      · rw [h'.getAsVector, Function.update_self]

/-- **What a `ParserList` does.**  Values added at either end are iterated over in both directions,
also in copies, and numbers are read back from their text; but only an empty list has a length that
is returned. -/
theorem parserList_faithful_iff {α : Type} (ops : List (AddValue α))
    (integers : List (AddValue Int64)) :
    After Iterates ops ∧ (After Faithful ops ↔ ops = []) ∧ After RoundTrips integers := by
  refine ⟨After.of_sound fun m s this h _ => h.iterates this, ⟨?_, ?_⟩,
    After.of_sound fun m s this h _ => h.roundTrips this⟩
  · intro hfaithful
    obtain ⟨m, hm, hthis⟩ := hfaithful [] 0 Memory.empty rfl rfl
    obtain ⟨m', hm', hs⟩ := addValues_sound 0 ops (Memory.empty_sound (α := α))
    rw [hm] at hm'
    cases hm'
    have hlength := hthis.length
    have hnil := (hs.getLength_iff 0).mp (by rwa [Function.update_self])
    rw [Function.update_self] at hnil
    have hlen := length_sequence ops
    rw [sequence, hnil] at hlen
    exact List.length_eq_zero_iff.mp hlen.symm
  · rintro rfl
    refine After.of_sound fun m s this h hs => ?_
    have hnil : s this = [] := hs
    refine ⟨h.iterates this, ?_, (h.getLength_iff this).mpr hnil⟩
    obtain ⟨m', hm', hs'⟩ := assignOther_sound this this h
    refine ⟨m', hm', ?_⟩
    rw [hs'.getAsVector, Function.update_self, if_pos rfl, hnil]

/-- The length of the list that holds 7 is never returned. -/
theorem not_faithful_seven : ¬ After Faithful [AddValue.back (7 : Int64)] := by
  intro hfaithful
  obtain ⟨m, hm, hthis⟩ := hfaithful [] 0 Memory.empty rfl rfl
  cases hm
  obtain ⟨fuel, hlen⟩ := hthis.length
  rw [getLength, lengthLoop_of_hasNext rfl] at hlen
  cases hlen

end Reading

end ParserList

end Emdros
