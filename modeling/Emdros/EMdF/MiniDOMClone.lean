/-
# Copies of subtrees in MiniDOM (`minidom.cpp`)

The nodes of a document are on the heap, each with a pointer to its parent and a list of pointers to
its children.  `cloneNode` makes new nodes and hangs children under them; which nodes it hangs there
is what matters.

`TreeAt` says which tree stands at an address, and at which addresses its nodes are.  A deep copy
(`IsDeepCopy`) is the same tree at other addresses.  `cloneNode` hangs the children of the original
under the copy and leaves out attributes, so that it makes a deep copy of a bare node only
(`cloneNode_isDeepCopy_iff`).
-/
import Emdros.Base.Heap
import Emdros.EMdF.QDXml

namespace Emdros.MiniDOM

open Lexer (bytes)
open scoped QDParser

/-! ## 1. Nodes -/

/-- `eMiniDOMNodeType`, with the tag name of an element and the data of a text or comment. -/
inductive Kind where
  | element (tagName : List UInt8)
  | text (data : List UInt8)
  | document
  | comment (data : List UInt8)
  deriving DecidableEq

/-- `class MiniDOMNode` and its subclasses. -/
structure MiniDOMNode where
  kind : Kind
  parentNode : Option Nat
  childNodes : List Nat
  attributes : AttributeMap
  ownerDocument : Option Nat

/-- The constructors, as the factories of a document call them. -/
def newNode (kind : Kind) (doc : Nat) : HeapM MiniDOMNode Nat :=
  Heap.new ⟨kind, none, [], .empty, some doc⟩

def appendChild (this newChild : Nat) : HeapM MiniDOMNode Unit := do
  let node ← Heap.read this
  Heap.write this { node with childNodes := node.childNodes ++ [newChild] }

def setParent (this : Nat) (pNewParent : Option Nat) : HeapM MiniDOMNode Unit := do
  let node ← Heap.read this
  Heap.write this { node with parentNode := pNewParent }

/-- The first element of a document is its root. -/
def createElement (doc : Nat) (tagName : List UInt8) : HeapM MiniDOMNode Nat := do
  let pNewNode ← newNode (.element tagName) doc
  let document ← Heap.read doc
  if document.childNodes = [] then appendChild doc pNewNode
  return pNewNode

def createText (doc : Nat) (data : List UInt8) : HeapM MiniDOMNode Nat := newNode (.text data) doc

def createComment (doc : Nat) (data : List UInt8) : HeapM MiniDOMNode Nat :=
  newNode (.comment data) doc

/-- The beginning of `cloneNode`; a document is not cloned. -/
def createNode (doc : Nat) : Kind → HeapM MiniDOMNode Nat
  | .element tagName => createElement doc tagName
  | .text data => createText doc data
  | .comment data => createComment doc data
  | .document => failure

/-- `cloneNode`; the first argument bounds the depth of the recursion.  Nothing in the loop changes
the list of children it goes through. -/
def cloneNode : Nat → Nat → Bool → HeapM MiniDOMNode Nat
  | 0, _, _ => failure
  | fuel + 1, this, deep => do
    let node ← Heap.read this
    let doc ← Partial.ofOption node.ownerDocument
    let pNewNode ← createNode doc node.kind
    if deep then
      forM node.childNodes fun pChildNode => do
        let pNewChildNode ← cloneNode fuel pChildNode true
        setParent pNewChildNode (some pNewNode)
        appendChild pNewNode pChildNode
    return pNewNode

/-! ## 2. Trees in the heap -/

/-- What a subtree says, wherever it stands. -/
inductive DOMTree where
  | node (kind : Kind) (attributes : AttributeMap) (children : List DOMTree)

mutual

/-- In `h` the tree stands at an address, under a parent; its nodes are at the addresses in the
list. -/
inductive TreeAt (h : Heap MiniDOMNode) : Option Nat → Nat → DOMTree → List Nat → Prop
  | node {parent doc : Option Nat} {p : Nat} {kind : Kind} {attributes : AttributeMap}
      {ps xs : List Nat} {ts : List DOMTree} :
      h.cell p = some ⟨kind, parent, ps, attributes, doc⟩ → ForestAt h kind p ps ts xs →
      TreeAt h parent p (.node kind attributes ts) (p :: xs)

/-- The trees stand at addresses, all under one node.  The child of a document need not point back:
`createElement` gives a root no parent. -/
inductive ForestAt (h : Heap MiniDOMNode) : Kind → Nat → List Nat → List DOMTree → List Nat → Prop
  | nil {kind : Kind} {p : Nat} : ForestAt h kind p [] [] []
  | cons {kind : Kind} {p q : Nat} {parent : Option Nat} {qs xs ys : List Nat} {t : DOMTree}
      {ts : List DOMTree} : parent = some p ∨ kind = .document → TreeAt h parent q t xs →
      ForestAt h kind p qs ts ys → ForestAt h kind p (q :: qs) (t :: ts) (xs ++ ys)

end

section Trees

variable {h : Heap MiniDOMNode} {parent : Option Nat} {p : Nat} {t : DOMTree} {xs : List Nat}

theorem TreeAt.root_mem (ht : TreeAt h parent p t xs) : p ∈ xs := by
  cases ht
  exact List.mem_cons_self

theorem TreeAt.root_cell (ht : TreeAt h parent p t xs) : ∃ node, h.cell p = some node := by
  cases ht with
  | node hp _ => exact ⟨_, hp⟩

/-- Every child is the root of a tree. -/
theorem ForestAt.child {kind : Kind} {ps : List Nat} {ts : List DOMTree} {q : Nat}
    (hf : ForestAt h kind p ps ts xs) (hq : q ∈ ps) :
    ∃ parent' t' ys, TreeAt h parent' q t' ys ∧ ys.Sublist xs := by
  induction ps generalizing ts xs with
  | nil => cases hq
  | cons r ps ih =>
    cases hf with
    | cons _ ht hrest =>
      rcases List.mem_cons.mp hq with rfl | hq
      · exact ⟨_, _, _, ht, List.sublist_append_left _ _⟩
      · obtain ⟨parent', t', ys, ht', hsub⟩ := ih hrest hq
        exact ⟨parent', t', ys, ht', hsub.trans (List.sublist_append_right _ _)⟩

/-- The children of a node are among its nodes. -/
theorem ForestAt.mem_of_mem {kind : Kind} {ps : List Nat} {ts : List DOMTree} {q : Nat}
    (hf : ForestAt h kind p ps ts xs) (hq : q ∈ ps) : q ∈ xs := by
  obtain ⟨parent', t', ys, ht, hsub⟩ := hf.child hq
  exact hsub.subset ht.root_mem

mutual

/-- At every node of a tree stands a tree, with some of the nodes. -/
theorem TreeAt.subtree {h : Heap MiniDOMNode} {parent : Option Nat} {p q : Nat} {t : DOMTree}
    {xs : List Nat} (ht : TreeAt h parent p t xs) (hq : q ∈ xs) :
    ∃ parent' t' ys, TreeAt h parent' q t' ys ∧ ys.Sublist xs := by
  cases ht with
  | node hp hf =>
    rcases List.mem_cons.mp hq with rfl | hq
    · exact ⟨_, _, _, .node hp hf, List.Sublist.refl _⟩
    · obtain ⟨parent', t', ys, ht', hsub⟩ := hf.subtree hq
      exact ⟨parent', t', ys, ht', hsub.cons p⟩

theorem ForestAt.subtree {h : Heap MiniDOMNode} {kind : Kind} {p q : Nat} {ps xs : List Nat}
    {ts : List DOMTree} (hf : ForestAt h kind p ps ts xs) (hq : q ∈ xs) :
    ∃ parent' t' ys, TreeAt h parent' q t' ys ∧ ys.Sublist xs := by
  cases hf with
  | nil => cases hq
  | cons _ ht hrest =>
    rcases List.mem_append.mp hq with hq | hq
    · obtain ⟨parent', t', ys, ht', hsub⟩ := ht.subtree hq
      exact ⟨parent', t', ys, ht', hsub.trans (List.sublist_append_left _ _)⟩
    · obtain ⟨parent', t', ys, ht', hsub⟩ := hrest.subtree hq
      exact ⟨parent', t', ys, ht', hsub.trans (List.sublist_append_right _ _)⟩

end

end Trees

/-! ## 3. What is left as it is -/

/-- From `h` to `h'` every node stays, but that a document without children may get some. -/
def Keeps (h h' : Heap MiniDOMNode) : Prop :=
  ∀ p node, h.cell p = some node → ∃ node', h'.cell p = some node' ∧ node'.kind = node.kind ∧
    (node.kind ≠ .document ∨ node.childNodes ≠ [] → node' = node)

section Keeps

variable {h h' h'' : Heap MiniDOMNode} {p : Nat} {node : MiniDOMNode}

theorem Keeps.refl (h : Heap MiniDOMNode) : Keeps h h :=
  fun _ node hp => ⟨node, hp, rfl, fun _ => rfl⟩

theorem Keeps.trans (hk : Keeps h h') (hk' : Keeps h' h'') : Keeps h h'' := by
  intro p node hp
  obtain ⟨node', hp', hkind, hsame⟩ := hk p node hp
  obtain ⟨node'', hp'', hkind', hsame'⟩ := hk' p node' hp'
  refine ⟨node'', hp'', hkind'.trans hkind, fun hor => ?_⟩
  obtain rfl := hsame hor
  exact hsame' hor

/-- A cell that did not exist before may change. -/
theorem Keeps.update (hk : Keeps h h') (hp : h.cell p = none) {v : Option MiniDOMNode}
    (hcell : h''.cell = Function.update h'.cell p v) : Keeps h h'' := by
  intro q node hq
  have hne : q ≠ p := by
    rintro rfl
    rw [hp] at hq
    cases hq
  rw [hcell, Function.update_of_ne hne]
  exact hk q node hq

theorem Keeps.alloc (hk : Keeps h h') (node : MiniDOMNode) : Keeps h (h'.alloc node) := by
  intro q node' hq
  obtain ⟨node'', hq', hrest⟩ := hk q node' hq
  exact ⟨node'', Heap.cell_alloc hq' node, hrest⟩

theorem Keeps.cell (hk : Keeps h h') (hp : h.cell p = some node) (hkind : node.kind ≠ .document) :
    h'.cell p = some node := by
  obtain ⟨node', hp', -, hsame⟩ := hk p node hp
  rw [hp', hsame (Or.inl hkind)]

theorem Keeps.cell_none (hk : Keeps h h') (hp : h'.cell p = none) : h.cell p = none := by
  cases hcell : h.cell p with
  | none => rfl
  | some node =>
    obtain ⟨node', hp', -⟩ := hk p node hcell
    rw [hp] at hp'
    cases hp'

end Keeps

/-! ## 4. The operations -/

section Operations

variable {h : Heap MiniDOMNode} {p doc : Nat} {node : MiniDOMNode}

theorem run_appendChild (hp : h.cell p = some node) (newChild : Nat) :
    ∃ h', (appendChild p newChild).run h = some ((), h') ∧ h'.cell = Function.update h.cell p
      (some { node with childNodes := node.childNodes ++ [newChild] }) := by
  refine ⟨h.set p _ (Heap.lt_next hp), ?_, rfl⟩
  rw [appendChild, Partial.run_bind_of_some (Heap.run_read hp)]
  exact Heap.run_assign hp _

theorem run_setParent (hp : h.cell p = some node) (pNewParent : Option Nat) :
    ∃ h', (setParent p pNewParent).run h = some ((), h') ∧
      h'.cell = Function.update h.cell p (some { node with parentNode := pNewParent }) := by
  refine ⟨h.set p _ (Heap.lt_next hp), ?_, rfl⟩
  rw [setParent, Partial.run_bind_of_some (Heap.run_read hp)]
  exact Heap.run_assign hp _

/-- The new node of a clone has neither parent, children nor attributes. -/
theorem run_createNode {kind : Kind} {document : MiniDOMNode} (hkind : kind ≠ .document)
    (hdoc : h.cell doc = some document) (hdocument : document.kind = .document) :
    ∃ h', (createNode doc kind).run h = some (h.next, h') ∧ Keeps h h' ∧
      h'.cell h.next = some ⟨kind, none, [], .empty, some doc⟩ := by
  let new : MiniDOMNode := ⟨kind, none, [], .empty, some doc⟩
  have hfresh : h.cell h.next = none := h.fresh h.next (Nat.le_refl _)
  have halloc : Keeps h (h.alloc new) := (Keeps.refl h).alloc new
  have hself : (h.alloc new).cell h.next = some new := Heap.cell_alloc_self h new
  cases kind with
  | document => exact absurd rfl hkind
  | text data => exact ⟨_, rfl, halloc, hself⟩
  | comment data => exact ⟨_, rfl, halloc, hself⟩
  | element tagName =>
    have hread : (h.alloc new).cell doc = some document := Heap.cell_alloc hdoc new
    have hrun : (createNode doc (.element tagName)).run h =
        (do
          if document.childNodes = [] then appendChild doc h.next
          return h.next : HeapM MiniDOMNode Nat).run (h.alloc new) := by
      rw [createNode, createElement, newNode, Partial.run_bind_of_some (Heap.run_new h _),
        Partial.run_bind_of_some (Heap.run_read hread)]
    rw [hrun]
    by_cases hempty : document.childNodes = []
    · -- The document had no root: the new element becomes it.
      obtain ⟨h', happend, hcell⟩ := run_appendChild hread h.next
      refine ⟨h', ?_, ?_, ?_⟩
      · rw [if_pos hempty, Partial.run_bind_of_some happend]
        rfl
      · intro q node hq
        by_cases hqdoc : q = doc
        · subst hqdoc
          rw [hdoc] at hq
          cases hq
          refine ⟨{ document with childNodes := document.childNodes ++ [h.next] }, ?_, rfl, ?_⟩
          · rw [hcell, Function.update_self]
          · intro hor
            exact hor.elim (absurd hdocument) (absurd hempty)
        · rw [hcell, Function.update_of_ne hqdoc]
          exact halloc q node hq
      · have hne : h.next ≠ doc := by
          rintro rfl
          rw [hfresh] at hdoc
          cases hdoc
        rw [hcell, Function.update_of_ne hne, hself]
    · refine ⟨h.alloc new, ?_, halloc, hself⟩
      rw [if_neg hempty]
      rfl

end Operations

/-! ## 5. What a clone is -/

/-- What `cloneNode` needs of a node: it is not a document, and it belongs to one. -/
def Cloneable (h : Heap MiniDOMNode) (p : Nat) : Prop :=
  ∃ node doc document, h.cell p = some node ∧ node.kind ≠ .document ∧
    node.ownerDocument = some doc ∧ h.cell doc = some document ∧ document.kind = .document

/-- The node that `cloneNode` returns for a node: the children are the same, not copies of them. -/
def cloned (node : MiniDOMNode) : MiniDOMNode :=
  ⟨node.kind, none, node.childNodes, .empty, node.ownerDocument⟩

/-- What a clone of depth `fuel` does to heaps that have the nodes of `h`. -/
def Clones (h : Heap MiniDOMNode) (fuel p : Nat) : Prop :=
  ∀ h₁, Keeps h h₁ → ∃ h₂, (cloneNode fuel p true).run h₁ = some (h₁.next, h₂) ∧ Keeps h₁ h₂ ∧
    ∃ node, h.cell p = some node ∧ h₂.cell h₁.next = some (cloned node)

/-- The loop over the children appends them to the new node at `q`.  The nodes that it makes are
written to, but nothing that was there before. -/
theorem run_cloneChildren {h h₀ h₁ : Heap MiniDOMNode} {fuel q : Nat} {new : MiniDOMNode}
    {ps : List Nat} (hps : ∀ p ∈ ps, Clones h fuel p) (hk : Keeps h h₀)
    (hk₀ : Keeps h₀ h₁) (hq₀ : h₀.cell q = none) (hq : h₁.cell q = some new)
    (hnew : new.kind ≠ .document) :
    ∃ h₂, (forM ps fun pChildNode => do
        let pNewChildNode ← cloneNode fuel pChildNode true
        setParent pNewChildNode (some q)
        appendChild q pChildNode : HeapM MiniDOMNode Unit).run h₁ = some ((), h₂) ∧ Keeps h₀ h₂ ∧
      h₂.cell q = some { new with childNodes := new.childNodes ++ ps } := by
  induction ps generalizing h₁ new with
  | nil => exact ⟨h₁, rfl, hk₀, by simpa using hq⟩
  | cons p ps ih =>
    obtain ⟨h₂, hrun, hk₂, node, -, hchild⟩ := hps p List.mem_cons_self h₁ (hk.trans hk₀)
    have hq₂ : h₂.cell q = some new := hk₂.cell hq hnew
    -- The clone of the child is new, so it is not the node at `q`.
    have hfresh : h₁.cell h₁.next = none := h₁.fresh h₁.next (Nat.le_refl _)
    have hne : q ≠ h₁.next := by
      rintro rfl
      rw [hfresh] at hq
      cases hq
    obtain ⟨h₃, hparent, hcell₃⟩ := run_setParent hchild (some q)
    have hq₃ : h₃.cell q = some new := by rw [hcell₃, Function.update_of_ne hne, hq₂]
    obtain ⟨h₄, happend, hcell₄⟩ := run_appendChild hq₃ p
    have hk₃ : Keeps h₀ h₃ := (hk₀.trans hk₂).update (hk₀.cell_none hfresh) hcell₃
    have hq₄ : h₄.cell q = some { new with childNodes := new.childNodes ++ [p] } := by
      rw [hcell₄, Function.update_self]
    obtain ⟨h₅, hrest, hk₅, hq₅⟩ := ih (fun r hr => hps r (List.mem_cons_of_mem p hr))
      (hk₃.update hq₀ hcell₄) hq₄ hnew
    refine ⟨h₅, ?_, hk₅, ?_⟩
    · rw [List.forM_cons, ← hrest]
      refine Partial.run_bind_of_some (a := ()) ?_
      rw [Partial.run_bind_of_some hrun, Partial.run_bind_of_some hparent]
      exact happend
    · rw [hq₅]
      simp

/-- **What `cloneNode` does.**  On every subtree it comes to an end and leaves everything as it is,
but the new node gets the children of the original. -/
theorem cloneNode_clones {h : Heap MiniDOMNode} {fuel : Nat} {parent : Option Nat} {p : Nat}
    {t : DOMTree} {xs : List Nat} (ht : TreeAt h parent p t xs) (hxs : ∀ x ∈ xs, Cloneable h x)
    (hfuel : xs.length ≤ fuel) : Clones h fuel p := by
  induction fuel generalizing parent p t xs with
  | zero =>
    cases ht
    cases hfuel
  | succ fuel ih =>
    intro h₁ hk
    obtain ⟨node, doc, document, hp, hkind, hdoc, hdocument, hkind'⟩ := hxs p ht.root_mem
    have hread : h₁.cell p = some node := hk.cell hp hkind
    obtain ⟨document₁, hdoc₁, hkind₁, -⟩ := hk doc document hdocument
    obtain ⟨h₂, hcreate, hk₂, hnew⟩ := run_createNode hkind hdoc₁ (hkind₁.trans hkind')
    have hchildren : ∀ q ∈ node.childNodes, Clones h fuel q := by
      cases ht with
      | node hp' hf =>
        rw [hp'] at hp
        cases hp
        intro q hq
        obtain ⟨parent', t', ys, ht', hsub⟩ := hf.child hq
        exact ih ht' (fun y hy => hxs y (List.mem_cons_of_mem p (hsub.subset hy)))
          (Nat.le_trans hsub.length_le (Nat.le_of_succ_le_succ hfuel))
    obtain ⟨h₃, hloop, hk₃, hself⟩ := run_cloneChildren hchildren hk hk₂
      (h₁.fresh h₁.next (Nat.le_refl _)) hnew hkind
    refine ⟨h₃, ?_, hk₃, node, hp, ?_⟩
    · rw [cloneNode, Partial.run_bind_of_some (Heap.run_read hread),
        Partial.run_bind_of_some (Partial.run_ofOption_some hdoc h₁),
        Partial.run_bind_of_some hcreate, if_pos rfl]
      exact Partial.run_bind_of_some hloop
    · rw [hself, cloned, hdoc]
      rfl

/-! ## 6. Deep copies -/

/-- The tree of a MiniDOM document, or a part of one that stands alone, at `root`: no node has two
places, and all nodes below the root belong to a document and are not documents themselves. -/
structure IsMiniDOM (h : Heap MiniDOMNode) (root : Nat) (xs : List Nat) : Prop where
  tree : ∃ parent t, TreeAt h parent root t xs
  nodup : xs.Nodup
  below : ∀ x ∈ xs, x ≠ root → Cloneable h x
  root : ∀ node, h.cell root = some node → node.kind ≠ .document → Cloneable h root

/-- From `h` to `h'` a deep copy of the subtree at `p` was made, which stands at `q`: the same tree,
on nodes of its own.  The nodes `xs`, of the tree that `p` is in, are as they were. -/
structure IsDeepCopy (h h' : Heap MiniDOMNode) (xs : List Nat) (p q : Nat) : Prop where
  copy : ∃ parent parent' t ys zs, TreeAt h parent p t ys ∧ TreeAt h' parent' q t zs ∧ zs.Nodup ∧
    ys.Disjoint zs
  kept : ∀ x ∈ xs, h'.cell x = h.cell x

/-- `cloneNode(true)` makes a deep copy. -/
def ClonesDeeply (h : Heap MiniDOMNode) (xs : List Nat) (p : Nat) : Prop :=
  ∃ bound, ∀ fuel, bound ≤ fuel →
    ∃ q h', (cloneNode fuel p true).run h = some (q, h') ∧ IsDeepCopy h h' xs p q

section DeepCopies

variable {h h' : Heap MiniDOMNode} {root p q : Nat} {xs : List Nat} {node : MiniDOMNode}

theorem IsMiniDOM.subtree (hdom : IsMiniDOM h root xs) (hp : p ∈ xs) (hnode : h.cell p = some node)
    (hkind : node.kind ≠ .document) :
    ∃ parent t ys, TreeAt h parent p t ys ∧ ∀ y ∈ ys, Cloneable h y := by
  obtain ⟨parent, t, ht⟩ := hdom.tree
  by_cases hroot : p = root
  · subst hroot
    refine ⟨parent, t, xs, ht, fun y hy => ?_⟩
    by_cases hy' : y = p
    · subst hy'
      exact hdom.root node hnode hkind
    · exact hdom.below y hy hy'
  · cases ht with
    | node hcell hf =>
      have hmem := (List.mem_cons.mp hp).resolve_left hroot
      obtain ⟨parent', t', ys, ht', hsub⟩ := hf.subtree hmem
      refine ⟨parent', t', ys, ht', fun y hy => ?_⟩
      have hy' := hsub.subset hy
      refine hdom.below y (List.mem_cons_of_mem root hy') ?_
      rintro rfl
      exact (List.nodup_cons.mp hdom.nodup).1 hy'

/-- A tree with another node than its root has a child there. -/
theorem IsMiniDOM.children_ne_nil (hdom : IsMiniDOM h root xs) (hp : p ∈ xs) (hne : p ≠ root)
    {rootNode : MiniDOMNode} (hroot : h.cell root = some rootNode) :
    rootNode.childNodes ≠ [] := by
  obtain ⟨parent, t, ht⟩ := hdom.tree
  cases ht with
  | node hcell hf =>
    rw [hcell] at hroot
    cases hroot
    have hmem := (List.mem_cons.mp hp).resolve_left hne
    intro hnil
    change _ = [] at hnil
    subst hnil
    cases hf
    cases hmem

/-- A clone is a copy only of a node that has nothing to leave out and nothing to share. -/
theorem IsDeepCopy.bare (hcopy : IsDeepCopy h h' xs p q) (hnode : h.cell p = some node)
    (hself : h'.cell q = some (cloned node)) : node.childNodes = [] ∧ node.attributes = .empty := by
  obtain ⟨parent, parent', t, ys, zs, ht, ht', -, hdisjoint⟩ := hcopy.copy
  cases ht with
  | node hp hf =>
    cases ht' with
    | node hq hf' =>
      rw [hnode] at hp
      cases hp
      rw [hself] at hq
      cases hq
      refine ⟨List.eq_nil_iff_forall_not_mem.mpr fun c hc => ?_, rfl⟩
      exact hdisjoint (List.mem_cons_of_mem p (hf.mem_of_mem hc))
        (List.mem_cons_of_mem q (hf'.mem_of_mem hc))

theorem isDeepCopy_of_bare (hdom : IsMiniDOM h root xs) (hp : p ∈ xs) (hnode : h.cell p = some node)
    (hkind : node.kind ≠ .document) (hchildren : node.childNodes = [])
    (hattributes : node.attributes = .empty) (hk : Keeps h h') (hq : h.cell q = none)
    (hself : h'.cell q = some (cloned node)) : IsDeepCopy h h' xs p q := by
  constructor
  · refine ⟨node.parentNode, none, .node node.kind .empty [], [p], [q], ?_, ?_, by simp, ?_⟩
    · rw [← hattributes]
      exact .node (by rw [hnode, ← hchildren]) .nil
    · exact .node (by rw [hself, cloned, hchildren]) .nil
    · rw [List.singleton_disjoint, List.mem_singleton]
      rintro rfl
      rw [hq] at hnode
      cases hnode
  · intro x hx
    by_cases hroot : x = root
    · obtain ⟨parent, t, ht⟩ := hdom.tree
      obtain ⟨rootNode, hcell⟩ := ht.root_cell
      subst hroot
      obtain ⟨rootNode', hcell', -, hsame⟩ := hk x rootNode hcell
      rw [hcell', hcell, hsame]
      by_cases hpx : p = x
      · subst hpx
        rw [hnode] at hcell
        cases hcell
        exact Or.inl hkind
      · exact Or.inr (hdom.children_ne_nil hp hpx hcell)
    · obtain ⟨node', doc, document, hcell, hkind', -⟩ := hdom.below x hx hroot
      rw [hk.cell hcell hkind', hcell]

theorem ClonesDeeply.bare (hclones : ClonesDeeply h xs p) (hdom : IsMiniDOM h root xs) (hp : p ∈ xs)
    (hnode : h.cell p = some node) (hkind : node.kind ≠ .document) :
    node.childNodes = [] ∧ node.attributes = .empty := by
  obtain ⟨parent, t, ys, ht, hys⟩ := hdom.subtree hp hnode hkind
  obtain ⟨bound, hclone⟩ := hclones
  obtain ⟨q, h', hrun, hcopy⟩ := hclone _ (Nat.le_max_left bound ys.length)
  obtain ⟨h₂, hrun₂, -, node', hnode', hself⟩ :=
    cloneNode_clones ht hys (Nat.le_max_right bound ys.length) h (Keeps.refl h)
  rw [hrun] at hrun₂
  cases hrun₂
  rw [hnode] at hnode'
  cases hnode'
  exact hcopy.bare hnode hself

/-- **When `cloneNode` makes a deep copy.**  A clone has the children of the original for its own
and no attributes, so only the clone of a node with neither is a copy. -/
theorem cloneNode_isDeepCopy_iff (hdom : IsMiniDOM h root xs) (hp : p ∈ xs)
    (hnode : h.cell p = some node) (hkind : node.kind ≠ .document) :
    ClonesDeeply h xs p ↔ node.childNodes = [] ∧ node.attributes = .empty := by
  refine ⟨fun hclones => hclones.bare hdom hp hnode hkind, ?_⟩
  rintro ⟨hchildren, hattributes⟩
  obtain ⟨parent, t, ys, ht, hys⟩ := hdom.subtree hp hnode hkind
  refine ⟨ys.length, fun fuel hfuel => ?_⟩
  obtain ⟨h₂, hrun, hk, node', hnode', hself⟩ := cloneNode_clones ht hys hfuel h (Keeps.refl h)
  rw [hnode] at hnode'
  cases hnode'
  exact ⟨h.next, h₂, hrun, isDeepCopy_of_bare hdom hp hnode hkind hchildren hattributes hk
    (h.fresh h.next (Nat.le_refl _)) hself⟩

/-- The document `<p>a</p>`: the document is at 0, its root at 1 and the text at 2. -/
def paragraph : Heap MiniDOMNode :=
  ((Heap.empty.alloc ⟨.document, none, [1], .empty, none⟩).alloc
    ⟨.element (bytes "p"), none, [2], .empty, some 0⟩).alloc
    ⟨.text (bytes "a"), some 1, [], .empty, some 0⟩

theorem paragraph_isMiniDOM : IsMiniDOM paragraph 0 [0, 1, 2] where
  tree := ⟨none, _, .node rfl (.cons (Or.inr rfl)
    (.node rfl (.cons (Or.inl rfl) (.node rfl .nil) .nil)) .nil)⟩
  nodup := by decide
  below := by
    have h₁ : Cloneable paragraph 1 := ⟨_, 0, _, rfl, Kind.noConfusion, rfl, rfl, rfl⟩
    have h₂ : Cloneable paragraph 2 := ⟨_, 0, _, rfl, Kind.noConfusion, rfl, rfl, rfl⟩
    simp [h₁, h₂]
  root := by
    intro node hnode hkind
    cases hnode
    exact absurd rfl hkind

/-- The text can be cloned. -/
theorem clonesDeeply_text : ClonesDeeply paragraph [0, 1, 2] 2 :=
  (cloneNode_isDeepCopy_iff paragraph_isMiniDOM (by decide) rfl Kind.noConfusion).mpr ⟨rfl, rfl⟩

/-- The clone of the element shares the text with the original. -/
theorem not_clonesDeeply_element : ¬ ClonesDeeply paragraph [0, 1, 2] 1 := by
  intro hclones
  have hbare := hclones.bare paragraph_isMiniDOM (by decide) rfl Kind.noConfusion
  exact absurd hbare.1 (List.cons_ne_nil 2 [])

end DeepCopies

end Emdros.MiniDOM
