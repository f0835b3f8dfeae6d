/-
# The handler that builds a MiniDOM document (`MiniDOMDocHandler` in `minidom.cpp`)

The handler has a pointer to the innermost open element, whose parents are the others.  `openTags`
says which elements are open after some calls, without any pointer; `Open` says that the pointers of
the handler lead through these.

A call keeps `Open` as long as it is no end tag without an element and none of another name
(`run_handleCall`); an end tag without an element meets a null pointer (`run_endElement_nil`).

The elements are in a heap, where a parent owns its children and a child knows its parent.  A start
tag adds a new element to the innermost one and goes down to it; an end tag goes up; text is added
to the innermost element.  So a call moves along the chain of parents only, and what it adds leaves
that chain as it was (`Grows`).
-/
import Emdros.EMdF.MiniDOMClone

namespace Emdros.MiniDOM

open Lexer (bytes)
open scoped QDParser

/-! ## 1. The handler -/

/-- `class MiniDOMDocHandler`. -/
structure MiniDOMDocHandler where
  charstack : List (List UInt8)
  doc : Nat
  parent : Option Nat

/-- `m_attributes[name] = value`. -/
def setAttribute (this : Nat) (name value : List UInt8) : HeapM MiniDOMNode Unit := do
  let node ← Heap.read this
  Heap.write this
    { node with attributes := (node.attributes.insert name value).modify name fun _ => value }

/-- A node that was just made becomes the last child of `m_pParent`. -/
def attach (parent newChild : Nat) : HeapM MiniDOMNode Unit := do
  setParent newChild (some parent)
  appendChild parent newChild

namespace MiniDOMDocHandler

def handleChars (s : MiniDOMDocHandler) : HeapM MiniDOMNode MiniDOMDocHandler := do
  let chars := s.charstack.flatten
  match s.parent with
  | some parent =>
    if chars ≠ [] then
      let pText ← createText s.doc chars
      attach parent pText
  | none => pure ()
  return { s with charstack := [] }

def startElement (tag : List UInt8) (attrs : AttributeMap) (s : MiniDOMDocHandler) :
    HeapM MiniDOMNode MiniDOMDocHandler := do
  let s ← s.handleChars
  let pElem ← createElement s.doc tag
  forM attrs.entries fun e => setAttribute pElem e.1 e.2
  match s.parent with
  | some parent => attach parent pElem
  | none => pure ()
  return { s with parent := some pElem }

/-- `m_pParent->getTagName()`, which only elements have. -/
def getTagName (node : MiniDOMNode) : Option (List UInt8) :=
  match node.kind with
  | .element tagName => some tagName
  | _ => none

def endElement (tag : List UInt8) (s : MiniDOMDocHandler) :
    HeapM MiniDOMNode (Except (List UInt8) MiniDOMDocHandler) := do
  let s ← s.handleChars
  let parent ← Partial.ofOption s.parent
  let node ← Heap.read parent
  let tagName ← Partial.ofOption (getTagName node)
  if tag ≠ tagName then
    return .error (bytes "MiniDOMDocHandler::endElement: parent tag name '" ++ tagName ++
      bytes "' is not the current tag: '" ++ tag ++ bytes "'. XML malformed.")
  else
    return .ok { s with parent := node.parentNode }

def text (str : List UInt8) (s : MiniDOMDocHandler) : MiniDOMDocHandler :=
  { s with charstack := s.charstack ++ [str] }

/-- A comment before the first element is deleted again. -/
def comment (str : List UInt8) (s : MiniDOMDocHandler) : HeapM MiniDOMNode Unit := do
  let pComm ← createComment s.doc str
  match s.parent with
  | some parent => attach parent pComm
  | none => Heap.delete pComm

def handleCall (s : MiniDOMDocHandler) :
    QDCall → HeapM MiniDOMNode (Except (List UInt8) MiniDOMDocHandler)
  | .startDocument | .endDocument => return .ok s
  | .startElement tag attrs => .ok <$> s.startElement tag attrs
  | .endElement tag => s.endElement tag
  | .text str => return .ok (s.text str)
  | .comment str => do
    s.comment str
    return .ok s

def handleCalls (s : MiniDOMDocHandler) :
    List QDCall → HeapM MiniDOMNode (Except (List UInt8) MiniDOMDocHandler)
  | [] => return .ok s
  | c :: cs => do
    match ← s.handleCall c with
    | .error e => return .error e
    | .ok s => s.handleCalls cs

end MiniDOMDocHandler

/-! ## 2. Open elements -/

/-- The elements that are open after some calls, from the innermost one on; `none` where an end tag
has no element, or one of another name. -/
def openTags : List (List UInt8) → List QDCall → Option (List (List UInt8))
  | tags, [] => some tags
  | tags, .startElement tag _ :: cs => openTags (tag :: tags) cs
  | [], .endElement _ :: _ => none
  | t :: tags, .endElement tag :: cs => if tag = t then openTags tags cs else none
  | tags, .startDocument :: cs | tags, .endDocument :: cs | tags, .text _ :: cs
  | tags, .comment _ :: cs => openTags tags cs

theorem openTags_append (cs ds : List QDCall) (tags : List (List UInt8)) :
    openTags tags (cs ++ ds) = (openTags tags cs).bind (openTags · ds) := by
  induction cs generalizing tags with
  | nil => rfl
  | cons c cs ih =>
    cases c with
    | endElement tag =>
      cases tags with
      | nil => rfl
      | cons t tags =>
        by_cases htag : tag = t
        · simp [openTags, htag, ih]
        · simp [openTags, htag]
    | startElement tag attrs => simp [openTags, ih]
    | startDocument => simp [openTags, ih]
    | endDocument => simp [openTags, ih]
    | text str => simp [openTags, ih]
    | comment str => simp [openTags, ih]

/-- The parents of the node at an address are elements with these names. -/
def Chain (h : Heap MiniDOMNode) : Option Nat → List (List UInt8) → Prop
  | parent, [] => parent = none
  | parent, tag :: tags => ∃ p node, parent = some p ∧ h.cell p = some node ∧
      node.kind = .element tag ∧ Chain h node.parentNode tags

/-- The handler has a document, and the elements from `m_pParent` on are open. -/
structure Open (h : Heap MiniDOMNode) (s : MiniDOMDocHandler) (tags : List (List UInt8)) :
    Prop where
  chain : Chain h s.parent tags
  doc : ∃ document, h.cell s.doc = some document ∧ document.kind = .document

/-- From `h` to `h'` nodes may have got children and attributes, and there may be new ones. -/
def Grows (h h' : Heap MiniDOMNode) : Prop :=
  ∀ p node, h.cell p = some node → ∃ node', h'.cell p = some node' ∧ node'.kind = node.kind ∧
    (node.kind ≠ .document → node'.parentNode = node.parentNode)

section Growth

variable {h h' h'' : Heap MiniDOMNode} {p : Nat} {node : MiniDOMNode} {s : MiniDOMDocHandler}
  {tags : List (List UInt8)}

theorem Grows.refl (h : Heap MiniDOMNode) : Grows h h :=
  fun _ node hp => ⟨node, hp, rfl, fun _ => rfl⟩

theorem Grows.trans (hg : Grows h h') (hg' : Grows h' h'') : Grows h h'' := by
  intro p node hp
  obtain ⟨node', hp', hkind, hparent⟩ := hg p node hp
  obtain ⟨node'', hp'', hkind', hparent'⟩ := hg' p node' hp'
  refine ⟨node'', hp'', hkind'.trans hkind, fun hne => ?_⟩
  rw [hparent' (by rwa [hkind]), hparent hne]

theorem Keeps.grows (hk : Keeps h h') : Grows h h' := by
  intro p node hp
  obtain ⟨node', hp', hkind, hsame⟩ := hk p node hp
  refine ⟨node', hp', hkind, fun hne => ?_⟩
  rw [hsame (Or.inl hne)]

/-- A cell that is new may change in any way... -/
theorem Grows.update (hg : Grows h h') (hp : h.cell p = none) {v : Option MiniDOMNode}
    (hcell : h''.cell = Function.update h'.cell p v) : Grows h h'' := by
  intro q node hq
  have hne : q ≠ p := by
    rintro rfl
    rw [hp] at hq
    cases hq
  rw [hcell, Function.update_of_ne hne]
  exact hg q node hq

/-- ...and others but for kind and parent. -/
theorem Grows.write {node' : MiniDOMNode} (hp : h.cell p = some node)
    (hkind : node'.kind = node.kind) (hparent : node'.parentNode = node.parentNode)
    (hcell : h'.cell = Function.update h.cell p (some node')) : Grows h h' := by
  intro q other hq
  by_cases hqp : q = p
  · subst hqp
    rw [hp] at hq
    cases hq
    exact ⟨node', by rw [hcell, Function.update_self], hkind, fun _ => hparent⟩
  · exact ⟨other, by rw [hcell, Function.update_of_ne hqp, hq], rfl, fun _ => rfl⟩

theorem Chain.grows (hg : Grows h h') : ∀ {tags : List (List UInt8)} {parent : Option Nat},
    Chain h parent tags → Chain h' parent tags
  | [], _, hc => hc
  | tag :: tags, parent, hc => by
    obtain ⟨p, node, hparent, hp, hkind, hrest⟩ := hc
    obtain ⟨node', hp', hkind', hsame⟩ := hg p node hp
    refine ⟨p, node', hparent, hp', hkind'.trans hkind, ?_⟩
    rw [hsame (by rw [hkind]; exact Kind.noConfusion)]
    exact hrest.grows hg

theorem Open.grows (ho : Open h s tags) (hg : Grows h h') : Open h' s tags := by
  obtain ⟨document, hdoc, hkind⟩ := ho.doc
  obtain ⟨document', hdoc', hkind', -⟩ := hg _ _ hdoc
  exact ⟨ho.chain.grows hg, document', hdoc', hkind'.trans hkind⟩

/-- What `m_pParent` points to is there. -/
theorem Open.parent_cell (ho : Open h s tags) {parent : Nat} (hparent : s.parent = some parent) :
    ∃ node, h.cell parent = some node := by
  have hchain := ho.chain
  cases tags with
  | nil =>
    rw [hparent] at hchain
    cases hchain
  | cons tag tags =>
    obtain ⟨p, node, hp, hcell, -⟩ := hchain
    rw [hparent] at hp
    cases hp
    exact ⟨node, hcell⟩

end Growth

/-! ## 3. What the calls do -/

section Calls

variable {h₀ h : Heap MiniDOMNode} {s : MiniDOMDocHandler} {tags : List (List UInt8)}

theorem run_attach {parent new : Nat} {parentNode node : MiniDOMNode} (hg : Grows h₀ h)
    (hfresh : h₀.cell new = none) (hnew : h.cell new = some node)
    (hparent : h.cell parent = some parentNode) (hne : parent ≠ new) :
    ∃ h', (attach parent new).run h = some ((), h') ∧ Grows h₀ h' ∧
      h'.cell new = some { node with parentNode := some parent } := by
  obtain ⟨h₁, hset, hcell₁⟩ := run_setParent hnew (some parent)
  have hparent₁ : h₁.cell parent = some parentNode := by
    rw [hcell₁, Function.update_of_ne hne, hparent]
  obtain ⟨h₂, happend, hcell₂⟩ := run_appendChild hparent₁ new
  refine ⟨h₂, ?_, ?_, ?_⟩
  · rw [attach, Partial.run_bind_of_some hset]
    exact happend
  · refine (hg.update hfresh hcell₁).trans (Grows.write hparent₁ ?_ ?_ hcell₂) <;> rfl
  · rw [hcell₂, Function.update_of_ne hne.symm, hcell₁, Function.update_self]

/-- A node is made and attached to the open element. -/
theorem run_newNode_attach (kind : Kind) (ho : Open h s tags) {parent : Nat}
    (hparent : s.parent = some parent) :
    ∃ h₁ h', (newNode kind s.doc).run h = some (h.next, h₁) ∧
      (attach parent h.next).run h₁ = some ((), h') ∧ Grows h h' := by
  obtain ⟨parentNode, hcell⟩ := ho.parent_cell hparent
  have hfresh : h.cell h.next = none := h.fresh h.next (Nat.le_refl _)
  have hne : parent ≠ h.next := by
    rintro rfl
    rw [hfresh] at hcell
    cases hcell
  let new : MiniDOMNode := ⟨kind, none, [], .empty, some s.doc⟩
  obtain ⟨h', hattach, hg, -⟩ := run_attach (((Keeps.refl h).alloc new).grows) hfresh
    (Heap.cell_alloc_self h new) (Heap.cell_alloc hcell new) hne
  exact ⟨h.alloc new, h', Heap.run_new h new, hattach, hg⟩

theorem run_handleChars (ho : Open h s tags) :
    ∃ h', s.handleChars.run h = some ({ s with charstack := [] }, h') ∧ Grows h h' := by
  rcases s with ⟨charstack, doc, parent⟩
  cases parent with
  | none => exact ⟨h, rfl, Grows.refl h⟩
  | some parent =>
    by_cases hchars : charstack.flatten = []
    · refine ⟨h, ?_, Grows.refl h⟩
      simp only [MiniDOMDocHandler.handleChars, hchars, ne_eq, not_true_eq_false, if_false]
      rfl
    · obtain ⟨h₁, h', hnew, hattach, hg⟩ := run_newNode_attach (.text charstack.flatten) ho rfl
      refine ⟨h', ?_, hg⟩
      simp only [MiniDOMDocHandler.handleChars, createText, hchars, ne_eq, not_false_eq_true,
        if_true]
      rw [Partial.run_bind_of_some hnew, Partial.run_bind_of_some hattach]
      rfl

theorem run_comment (ho : Open h s tags) (str : List UInt8) :
    ∃ h', (s.comment str).run h = some ((), h') ∧ Grows h h' := by
  rcases s with ⟨charstack, doc, parent⟩
  cases parent with
  | none =>
    let new : MiniDOMNode := ⟨.comment str, none, [], .empty, some doc⟩
    have hself : (h.alloc new).cell h.next = some new := Heap.cell_alloc_self h new
    refine ⟨(h.alloc new).set h.next none (Heap.lt_next hself), ?_, ?_⟩
    · rw [MiniDOMDocHandler.comment, createComment, newNode,
        Partial.run_bind_of_some (Heap.run_new h new)]
      exact Heap.run_assign hself none
    · exact ((Keeps.refl h).alloc new).grows.update (h.fresh h.next (Nat.le_refl _)) rfl
  | some parent =>
    obtain ⟨h₁, h', hnew, hattach, hg⟩ := run_newNode_attach (.comment str) ho rfl
    refine ⟨h', ?_, hg⟩
    rw [MiniDOMDocHandler.comment, createComment, Partial.run_bind_of_some hnew]
    exact hattach

/-- The attributes are copied to the new element. -/
theorem run_setAttributes {p : Nat} {node : MiniDOMNode} (hg : Grows h₀ h)
    (hfresh : h₀.cell p = none) (hp : h.cell p = some node)
    (entries : List (List UInt8 × List UInt8)) :
    ∃ h' node', (forM entries fun e => setAttribute p e.1 e.2 : HeapM MiniDOMNode Unit).run h =
      some ((), h') ∧ Grows h₀ h' ∧ h'.cell p = some node' ∧ node'.kind = node.kind ∧
      node'.parentNode = node.parentNode ∧ (∀ q, q ≠ p → h'.cell q = h.cell q) := by
  induction entries generalizing h node with
  | nil => exact ⟨h, node, rfl, hg, hp, rfl, rfl, fun _ _ => rfl⟩
  | cons e entries ih =>
    let new : MiniDOMNode :=
      { node with attributes := (node.attributes.insert e.1 e.2).modify e.1 fun _ => e.2 }
    let h₁ : Heap MiniDOMNode := h.set p (some new) (Heap.lt_next hp)
    have hset : (setAttribute p e.1 e.2).run h = some ((), h₁) := by
      rw [setAttribute, Partial.run_bind_of_some (Heap.run_read hp)]
      exact Heap.run_assign hp _
    have hp₁ : h₁.cell p = some new := Heap.cell_set_self h _ _
    obtain ⟨h', node', hrun, hg', hp', hkind, hparent, hrest⟩ :=
      ih (hg.update hfresh rfl : Grows h₀ h₁) hp₁
    refine ⟨h', node', ?_, hg', hp', hkind, hparent, fun q hq => ?_⟩
    · rw [List.forM_cons, Partial.run_bind_of_some hset]
      exact hrun
    · rw [hrest q hq]
      exact Heap.cell_set h _ _ hq

/-- A start tag opens an element. -/
theorem run_startElement (ho : Open h s tags) (tag : List UInt8) (attrs : AttributeMap) :
    ∃ s' h', (s.startElement tag attrs).run h = some (s', h') ∧ Open h' s' (tag :: tags) := by
  obtain ⟨h₁, hchars, hg₁⟩ := run_handleChars ho
  have ho₁ := ho.grows hg₁
  obtain ⟨document, hdoc, hkind⟩ := ho₁.doc
  have hfresh : h₁.cell h₁.next = none := h₁.fresh h₁.next (Nat.le_refl _)
  obtain ⟨h₂, hcreate, hk₂, hnew⟩ :=
    run_createNode (Kind.noConfusion : Kind.element tag ≠ .document) hdoc hkind
  change (createElement s.doc tag).run h₁ = _ at hcreate
  obtain ⟨h₃, node, hattrs, hg₃, hnode, hnodeKind, hnodeParent, hother⟩ :=
    run_setAttributes hk₂.grows hfresh hnew attrs.entries
  have ho₃ := ho₁.grows hg₃
  have hrun : ∀ s' h', (do
      match s.parent with
      | some parent => attach parent h₁.next
      | none => pure ()
      return s' : HeapM MiniDOMNode MiniDOMDocHandler).run h₃ = some (s', h') →
      s' = ⟨[], s.doc, some h₁.next⟩ → (s.startElement tag attrs).run h = some (s', h') := by
    rintro s' h' hend rfl
    rw [MiniDOMDocHandler.startElement, Partial.run_bind_of_some hchars,
      Partial.run_bind_of_some hcreate, Partial.run_bind_of_some hattrs]
    exact hend
  rcases s with ⟨charstack, doc, parent⟩
  cases parent with
  | none =>
    refine ⟨⟨[], doc, some h₁.next⟩, h₃, hrun _ _ rfl rfl,
      ⟨h₁.next, node, rfl, hnode, hnodeKind, ?_⟩, ho₃.doc⟩
    rw [hnodeParent]
    exact ho₃.chain
  | some parent =>
    obtain ⟨parentNode, hparent⟩ := ho₁.parent_cell rfl
    have hne : parent ≠ h₁.next := by
      rintro rfl
      rw [hfresh] at hparent
      cases hparent
    obtain ⟨parentNode', hparent', -⟩ := hg₃ _ _ hparent
    obtain ⟨h₄, hattach, hg₄, hself⟩ := run_attach hg₃ hfresh hnode hparent' hne
    have ho₄ := ho₁.grows hg₄
    refine ⟨⟨[], doc, some h₁.next⟩, h₄, hrun _ _ ?_ rfl,
      ⟨h₁.next, _, rfl, hself, hnodeKind, ho₄.chain⟩, ho₄.doc⟩
    exact Partial.run_bind_of_some hattach

/-- An end tag meets a null pointer where no element is open, ... -/
theorem run_endElement_nil (ho : Open h s []) (tag : List UInt8) :
    (s.endElement tag).run h = none := by
  obtain ⟨h₁, hchars, -⟩ := run_handleChars ho
  have hparent : s.parent = none := ho.chain
  rw [MiniDOMDocHandler.endElement, Partial.run_bind_of_some hchars]
  apply Partial.run_bind_of_none
  rw [hparent]
  rfl

/-- ...and closes the open element, if this has the name. -/
theorem run_endElement_cons {t : List UInt8} (ho : Open h s (t :: tags)) (tag : List UInt8) :
    ∃ r h', (s.endElement tag).run h = some (r, h') ∧
      (tag = t → ∃ s', r = .ok s' ∧ Open h' s' tags) ∧ (tag ≠ t → ∃ e, r = .error e) := by
  obtain ⟨h₁, hchars, hg₁⟩ := run_handleChars ho
  have ho₁ := ho.grows hg₁
  obtain ⟨p, node, hparent, hcell, hkind, hrest⟩ := ho₁.chain
  have htag : MiniDOMDocHandler.getTagName node = some t := by
    rw [MiniDOMDocHandler.getTagName, hkind]
  have hrun : ∀ r, (if tag ≠ t then
        return .error (bytes "MiniDOMDocHandler::endElement: parent tag name '" ++ t ++
          bytes "' is not the current tag: '" ++ tag ++ bytes "'. XML malformed.")
      else return .ok { s with charstack := [], parent := node.parentNode } :
        HeapM MiniDOMNode (Except (List UInt8) MiniDOMDocHandler)).run h₁ = some (r, h₁) →
      (s.endElement tag).run h = some (r, h₁) := by
    intro r hend
    rw [MiniDOMDocHandler.endElement, Partial.run_bind_of_some hchars,
      Partial.run_bind_of_some (Partial.run_ofOption_some hparent h₁),
      Partial.run_bind_of_some (Heap.run_read hcell),
      Partial.run_bind_of_some (Partial.run_ofOption_some htag h₁)]
    exact hend
  by_cases heq : tag = t
  · refine ⟨.ok ⟨[], s.doc, node.parentNode⟩, h₁, hrun _ ?_, fun _ => ⟨_, rfl, hrest, ho₁.doc⟩,
      fun hne => absurd heq hne⟩
    rw [if_neg (not_not_intro heq)]
    rfl
  · refine ⟨_, h₁, hrun (.error (bytes "MiniDOMDocHandler::endElement: parent tag name '" ++ t ++
      bytes "' is not the current tag: '" ++ tag ++ bytes "'. XML malformed.")) ?_,
      fun htag => absurd htag heq, fun _ => ⟨_, rfl⟩⟩
    rw [if_pos heq]
    rfl

/-- **One call.**  Where it is neither an end tag without an element nor one with another name, the
handler does what the list of open elements says. -/
theorem run_handleCall (ho : Open h s tags) {c : QDCall} {tags' : List (List UInt8)}
    (htags : openTags tags [c] = some tags') :
    ∃ s' h', (s.handleCall c).run h = some (.ok s', h') ∧ Open h' s' tags' := by
  cases c with
  | startDocument =>
    cases htags
    exact ⟨s, h, rfl, ho⟩
  | endDocument =>
    cases htags
    exact ⟨s, h, rfl, ho⟩
  | text str =>
    cases htags
    exact ⟨s.text str, h, rfl, ho.chain, ho.doc⟩
  | comment str =>
    cases htags
    obtain ⟨h', hrun, hg⟩ := run_comment ho str
    refine ⟨s, h', ?_, ho.grows hg⟩
    rw [MiniDOMDocHandler.handleCall, Partial.run_bind_of_some hrun]
    rfl
  | startElement tag attrs =>
    cases htags
    obtain ⟨s', h', hrun, ho'⟩ := run_startElement ho tag attrs
    refine ⟨s', h', ?_, ho'⟩
    rw [MiniDOMDocHandler.handleCall, StateT.run_map, hrun]
    rfl
  | endElement tag =>
    cases tags with
    | nil => cases htags
    | cons t tags =>
      obtain ⟨r, h', hrun, hok, -⟩ := run_endElement_cons ho tag
      by_cases htag : tag = t
      · obtain ⟨s', rfl, ho'⟩ := hok htag
        rw [openTags, if_pos htag] at htags
        cases htags
        exact ⟨s', h', hrun, ho'⟩
      · rw [openTags, if_neg htag] at htags
        cases htags

/-- **Some calls**, one after the other. -/
theorem run_handleCalls (ho : Open h s tags) {cs : List QDCall} {tags' : List (List UInt8)}
    (htags : openTags tags cs = some tags') :
    ∃ s' h', (s.handleCalls cs).run h = some (.ok s', h') ∧ Open h' s' tags' := by
  induction cs generalizing h s tags with
  | nil =>
    cases htags
    exact ⟨s, h, rfl, ho⟩
  | cons c cs ih =>
    have hsplit := openTags_append [c] cs tags
    rw [List.singleton_append, htags] at hsplit
    obtain ⟨tags₁, hone, hrest⟩ := Option.bind_eq_some_iff.mp hsplit.symm
    obtain ⟨s₁, h₁, hcall, ho₁⟩ := run_handleCall ho hone
    obtain ⟨s', h', hcalls, ho'⟩ := ih ho₁ hrest
    refine ⟨s', h', ?_, ho'⟩
    rw [MiniDOMDocHandler.handleCalls, Partial.run_bind_of_some hcall]
    exact hcalls

end Calls

end Emdros.MiniDOM
