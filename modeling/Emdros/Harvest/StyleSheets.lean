/-
# Render stylesheets (`renderxml.cpp`)

`XML2HTMLDocHandler::parseStyleSheet` reads the templates of the elements from a JSON value.  A
stylesheet may extend another, which is read before it; an element that both define is taken from
the stylesheet that extends.

The loop over the elements leaves its iterator where it is after a value that is not an object, and
nothing looks whether a stylesheet extends itself.  `readsStyleSheet_iff` says for which values the function
returns; where it returns without an error, the elements are those of the nearest stylesheets.
-/
import Mathlib
import Emdros.EMdF.JsonClasses

namespace Emdros

open Lexer (bytes)
open Relation

/-! ## 1. The elements -/

/-- `ElementInfo`, for the compiled templates `τ`. -/
structure ElementInfo (τ : Type) where
  m_tag : List UInt8
  m_pStartTemplate : Option τ
  m_pEndTemplate : Option τ
  m_bNix : Bool

namespace ElementInfo

variable {τ : Type} (parseTemplate : List UInt8 → Except (List UInt8) τ)

/-- One of the two templates in `fill`. -/
def fillTemplate (which tag : List UInt8) : Option JSONValue → Except (List UInt8) (Option τ)
  | none => .ok none
  | some (.string s) =>
    if s.isEmpty then .ok none
    else
      match parseTemplate s with
      | .ok pNode => .ok (some pNode)
      | .error e =>
        .error (bytes "ElementInfo::fill(): parsing template '" ++ which ++ bytes "' for tag '" ++
          tag ++ bytes "' failed with the following error:\n" ++ e ++ bytes "\n")
  | some _ =>
    .error (bytes "ElementInfo::fill(): for tag '" ++ tag ++ bytes "', " ++ which ++
      bytes " is not a JSON String.")

def fill (tag : List UInt8) (pStart pEnd : Option JSONValue) (bNix : Bool) :
    Except (List UInt8) (ElementInfo τ) :=
  match fillTemplate parseTemplate (bytes "start") tag pStart with
  | .error e => .error e
  | .ok startTemplate =>
    match fillTemplate parseTemplate (bytes "end") tag pEnd with
    | .error e => .error e
    | .ok endTemplate => .ok ⟨tag, startTemplate, endTemplate, bNix⟩

/-- The element that a member of `elements` defines. -/
def ofDefinition (elemkey : List UInt8) (pValue : JSONValue) :
    Except (List UInt8) (ElementInfo τ) :=
  fill parseTemplate elemkey (pValue.getObjectValue (bytes "start"))
    (pValue.getObjectValue (bytes "end"))
    (match pValue.getObjectValue (bytes "nix") with
      | some v => v.getBoolean
      | none => false)

end ElementInfo

/-! ## 2. The handler -/

/-- What `parseStyleSheet` changes of an `XML2HTMLDocHandler`, and its error text. -/
structure XML2HTMLDocHandler (τ : Type) where
  m_elements : List UInt8 → Option (ElementInfo τ)
  strError : List UInt8

namespace XML2HTMLDocHandler

variable {τ : Type}

/-- As the constructor leaves it. -/
def init : XML2HTMLDocHandler τ := ⟨fun _ => none, []⟩

def addError (h : XML2HTMLDocHandler τ) (text : List UInt8) : XML2HTMLDocHandler τ :=
  { h with strError := h.strError ++ text }

/-- `m_elements.erase(it)`, where there is one. -/
def eraseElement (h : XML2HTMLDocHandler τ) (elemkey : List UInt8) : XML2HTMLDocHandler τ :=
  { h with m_elements := fun k => if k = elemkey then none else h.m_elements k }

/-- `m_elements.insert(make_pair(elemkey, pElementInfo))`, after it was erased. -/
def insertElement (h : XML2HTMLDocHandler τ) (elemkey : List UInt8) (e : ElementInfo τ) :
    XML2HTMLDocHandler τ :=
  { h with m_elements := fun k => if k = elemkey then some e else h.m_elements k }

variable (parseTemplate : List UInt8 → Except (List UInt8) τ)

/-- The loop over the keys of `elements`, as many turns of it as `fuel` allows. -/
def fillElements (pElements : JSONValue) :
    Nat → List (List UInt8) → Bool → XML2HTMLDocHandler τ → Option (Bool × XML2HTMLDocHandler τ)
  | _, [], bResult, h => some (bResult, h)
  | 0, _ :: _, _, _ => none
  | fuel + 1, elemkey :: keys, bResult, h =>
    match pElements.getObjectValue elemkey with
    | none => none
    | some pValue =>
      if pValue.isObject then
        match ElementInfo.ofDefinition parseTemplate elemkey pValue with
        | .ok e =>
          fillElements pElements fuel keys bResult ((h.eraseElement elemkey).insertElement elemkey e)
        | .error e => fillElements pElements fuel keys false ((h.eraseElement elemkey).addError e)
      else
        -- `++elemkeyci` is in the other branch only
        fillElements pElements fuel (elemkey :: keys) false ((h.eraseElement elemkey).addError
          (bytes "XML2HTMLDocHandler::parseStyleSheet: for elements member '" ++ elemkey ++
            bytes "', value is not a JSON Object."))

/-- The value of `elements` in a stylesheet, after the checks at the beginning. -/
def styleSheetElements (pRenderInfo : JSONValue) (render_stylesheet : List UInt8) :
    Except (List UInt8) JSONValue :=
  if pRenderInfo.isObject then
    match pRenderInfo.getObjectValue render_stylesheet with
    | none => .error (bytes "XML2HTMLDocHandler::parseStyleSheet: pRenderInfo does not have '" ++
        render_stylesheet ++ bytes "' key.")
    | some pStyleSheet =>
      if pStyleSheet.isObject then
        match pStyleSheet.getObjectValue (bytes "elements") with
        | none => .error
            (bytes "XML2HTMLDocHandler::parseStyleSheet: pStyleSheet does not have 'elements' key.")
        | some pElements =>
          if pElements.isObject then .ok pElements
          else .error
            (bytes "XML2HTMLDocHandler::parseStyleSheet: 'elements' value is not a JSON Object.")
      else .error (bytes "XML2HTMLDocHandler::parseStyleSheet: pStyleSheet is not a JSON Object.")
  else .error (bytes "XML2HTMLDocHandler::parseStyleSheet: pRenderInfo is not a JSON Object.")

/-- The value of `extends` in a stylesheet. -/
def styleSheetExtends (pRenderInfo : JSONValue) (render_stylesheet : List UInt8) :
    Option JSONValue :=
  match pRenderInfo.getObjectValue render_stylesheet with
  | some pStyleSheet => pStyleSheet.getObjectValue (bytes "extends")
  | none => none

/-- The stylesheet that this one extends is read first. -/
def readExtended (pRenderInfo : JSONValue) (render_stylesheet : List UInt8)
    (read : List UInt8 → XML2HTMLDocHandler τ → Option (Bool × XML2HTMLDocHandler τ))
    (h : XML2HTMLDocHandler τ) : Option (Bool × XML2HTMLDocHandler τ) :=
  match styleSheetExtends pRenderInfo render_stylesheet with
  | none => some (true, h)
  | some (.string name) => read name h
  | some .null => some (true, h)
  | some _ => some (false, h.addError
      (bytes "XML2HTMLDocHandler::parseStyleSheet: 'renderinfo'['" ++ render_stylesheet ++
        bytes "']['extends'] does not map to a JSON string."))

/-- `parseStyleSheet`, with the calls of itself and the loop as long as `fuel` allows. -/
def parseStyleSheet (pRenderInfo : JSONValue) :
    Nat → List UInt8 → XML2HTMLDocHandler τ → Option (Bool × XML2HTMLDocHandler τ)
  | 0, _, _ => none
  | fuel + 1, render_stylesheet, h =>
    match styleSheetElements pRenderInfo render_stylesheet with
    | .error e => some (false, h.addError e)
    | .ok pElements =>
      match readExtended pRenderInfo render_stylesheet (parseStyleSheet pRenderInfo fuel) h with
      | none => none
      | some (bResult, h) =>
        fillElements parseTemplate pElements fuel pElements.getObjectKeys bResult h

/-! ## 3. What a stylesheet should give -/

variable (pRenderInfo : JSONValue)

/-- The stylesheet is read, and its elements are these. -/
def HasElements (name : List UInt8) (pElements : JSONValue) : Prop :=
  styleSheetElements pRenderInfo name = .ok pElements

/-- The stylesheet is read after another. -/
def Extends (name next : List UInt8) : Prop :=
  (∃ pElements, HasElements pRenderInfo name pElements) ∧
    styleSheetExtends pRenderInfo name = some (.string next)

/-- The definition of an element in the nearest stylesheet that has one. -/
inductive Nearest (key : List UInt8) : List UInt8 → JSONValue → Prop
  | here {name pElements v} (elements : HasElements pRenderInfo name pElements)
      (defines : pElements.getObjectValue key = some v) : Nearest key name v
  | extended {name next pElements v} (elements : HasElements pRenderInfo name pElements)
      (not_here : pElements.getObjectValue key = none) (ext : Extends pRenderInfo name next)
      (nearest : Nearest key next v) : Nearest key name v

/-- The function returns; unless it reports an error, each element is as it is defined nearest. -/
def Reads (name : List UInt8) : Prop :=
  ∃ fuel bResult h, parseStyleSheet parseTemplate pRenderInfo fuel name init = some (bResult, h) ∧
    (bResult = true → ∀ key e, h.m_elements key = some e ↔
      ∃ v, Nearest pRenderInfo key name v ∧ ElementInfo.ofDefinition parseTemplate key v = .ok e)

/-- Every member of the elements of the stylesheet is an object. -/
def OnlyObjects (name : List UInt8) : Prop :=
  ∀ pElements, HasElements pRenderInfo name pElements →
    ∀ key v, pElements.getObjectValue key = some v → v.isObject = true

/-! ## 4. The loop over the elements -/

section Loop

variable {parseTemplate} {pElements : JSONValue}

/-- Where the loop ends, it has met objects only. -/
theorem isObject_of_fillElements {fuel : Nat} {keys : List (List UInt8)} {bResult : Bool}
    {h : XML2HTMLDocHandler τ} {r : Bool × XML2HTMLDocHandler τ}
    (hr : fillElements parseTemplate pElements fuel keys bResult h = some r) :
    ∀ key ∈ keys, ∃ v, pElements.getObjectValue key = some v ∧ v.isObject = true := by
  induction fuel generalizing keys bResult h with
  | zero =>
    cases keys with
    | nil => simp
    | cons elemkey keys => cases hr
  | succ fuel ih =>
    cases keys with
    | nil => simp
    | cons elemkey keys =>
      rw [fillElements] at hr
      split at hr
      · cases hr
      · rename_i pValue hvalue
        split at hr
        · rename_i hobject
          have hkeys : ∀ key ∈ keys, ∃ v, pElements.getObjectValue key = some v ∧
              v.isObject = true := by
            split at hr
            · exact ih hr
            · exact ih hr
          simp only [List.forall_mem_cons]
          exact ⟨⟨pValue, hvalue, hobject⟩, hkeys⟩
        · exact ih hr

/-- Over objects the loop ends. -/
theorem exists_fillElements {keys : List (List UInt8)}
    (hkeys : ∀ key ∈ keys, ∃ v, pElements.getObjectValue key = some v ∧ v.isObject = true) :
    ∀ {fuel : Nat}, keys.length ≤ fuel → ∀ (bResult : Bool) (h : XML2HTMLDocHandler τ),
      ∃ r, fillElements parseTemplate pElements fuel keys bResult h = some r := by
  induction keys with
  | nil => exact fun _ bResult h => ⟨(bResult, h), by simp [fillElements]⟩
  | cons elemkey keys ih =>
    intro fuel hfuel bResult h
    obtain ⟨⟨v, hv, hobject⟩, hrest⟩ := List.forall_mem_cons.mp hkeys
    cases fuel with
    | zero => simp at hfuel
    | succ fuel =>
      have hlen : keys.length ≤ fuel := by simpa using hfuel
      rw [fillElements, hv]
      simp only [hobject, if_true]
      split
      · exact ih hrest hlen _ _
      · exact ih hrest hlen _ _

/-- Without an error, every key has the element of its definition and the others are as before. -/
theorem elements_of_fillElements {fuel : Nat} {keys : List (List UInt8)} {bResult : Bool}
    {h h' : XML2HTMLDocHandler τ}
    (hr : fillElements parseTemplate pElements fuel keys bResult h = some (true, h')) :
    bResult = true ∧
      (∀ key ∈ keys, ∃ v e, pElements.getObjectValue key = some v ∧
        ElementInfo.ofDefinition parseTemplate key v = .ok e ∧ h'.m_elements key = some e) ∧
      ∀ key ∉ keys, h'.m_elements key = h.m_elements key := by
  induction fuel generalizing keys bResult h with
  | zero =>
    cases keys with
    | nil =>
      cases hr
      simp
    | cons elemkey keys => cases hr
  | succ fuel ih =>
    cases keys with
    | nil =>
      cases hr
      simp
    | cons elemkey keys =>
      rw [fillElements] at hr
      split at hr
      · cases hr
      · rename_i pValue hvalue
        split at hr
        · split at hr
          · rename_i e he
            obtain ⟨hresult, hin, hout⟩ := ih hr
            refine ⟨hresult, fun key hkey => ?_, fun key hkey => ?_⟩
            · by_cases hmem : key ∈ keys
              · exact hin key hmem
              · have heq : key = elemkey := (List.mem_cons.mp hkey).resolve_right hmem
                subst heq
                refine ⟨pValue, e, hvalue, he, ?_⟩
                rw [hout key hmem]
                simp [insertElement]
            · obtain ⟨hne, hmem⟩ := not_or.mp (mt List.mem_cons.mpr hkey)
              rw [hout key hmem]
              simp [insertElement, eraseElement, hne]
          · have hfalse := (ih hr).1
            cases hfalse
        · have hfalse := (ih hr).1
          cases hfalse

/-- More fuel changes nothing. -/
theorem fillElements_mono {fuel more : Nat} (hle : fuel ≤ more) {keys : List (List UInt8)}
    {bResult : Bool} {h : XML2HTMLDocHandler τ} {r : Bool × XML2HTMLDocHandler τ}
    (hr : fillElements parseTemplate pElements fuel keys bResult h = some r) :
    fillElements parseTemplate pElements more keys bResult h = some r := by
  induction fuel generalizing keys bResult h more with
  | zero =>
    cases keys with
    | nil => simpa [fillElements] using hr
    | cons elemkey keys => cases hr
  | succ fuel ih =>
    cases keys with
    | nil => simpa [fillElements] using hr
    | cons elemkey keys =>
      obtain ⟨more, rfl⟩ : ∃ k, more = k + 1 := ⟨more - 1, by omega⟩
      have hle' : fuel ≤ more := by omega
      rw [fillElements] at hr ⊢
      split at hr
      · cases hr
      · split at hr
        · rename_i hobject
          rw [if_pos hobject]
          split at hr
          · exact ih hle' hr
          · exact ih hle' hr
        · rename_i hobject
          rw [if_neg hobject]
          exact ih hle' hr

end Loop

/-! ## 5. The chain of the stylesheets -/

section Chain

variable {parseTemplate} {pRenderInfo}

theorem HasElements.unique {name : List UInt8} {pElements pElements' : JSONValue}
    (h : HasElements pRenderInfo name pElements) (h' : HasElements pRenderInfo name pElements') :
    pElements = pElements' := by
  have heq := h.symm.trans h'
  cases heq
  rfl

/-- A stylesheet extends one at most. -/
theorem Extends.unique {name next next' : List UInt8} (h : Extends pRenderInfo name next)
    (h' : Extends pRenderInfo name next') : next = next' := by
  have heq := h.2.symm.trans h'.2
  cases heq
  rfl

/-- A stylesheet that extends another has a key of its own. -/
theorem Extends.mem_keys {name next : List UInt8} (h : Extends pRenderInfo name next) :
    name ∈ pRenderInfo.getObjectKeys := by
  obtain ⟨-, hext⟩ := h
  rw [styleSheetExtends] at hext
  split at hext
  · rename_i pStyleSheet hsheet
    exact JSONValue.exists_getObjectValue.mp ⟨pStyleSheet, hsheet⟩
  · cases hext

/-- **The chain ends** if it does not come back: there are only so many keys. -/
theorem acc_of_acyclic {name : List UInt8}
    (hacyclic : ∀ next, ReflTransGen (Extends pRenderInfo) name next →
      ¬ TransGen (Extends pRenderInfo) next next) :
    Acc (fun next name => Extends pRenderInfo name next) name := by
  let OnChain := {k : List UInt8 // k ∈ pRenderInfo.getObjectKeys ∧
    ReflTransGen (Extends pRenderInfo) name k}
  have hfinite : Finite OnChain :=
    Set.Finite.subset (List.finite_toSet pRenderInfo.getObjectKeys) fun k hk => hk.1
  have hirrefl : Std.Irrefl fun x y : OnChain => TransGen (Extends pRenderInfo) y.1 x.1 :=
    ⟨fun x hx => hacyclic x.1 x.2.2 hx⟩
  have htrans : IsTrans OnChain fun x y => TransGen (Extends pRenderInfo) y.1 x.1 :=
    ⟨fun x y z hxy hyz => hyz.trans hxy⟩
  have hwf := Finite.wellFounded_of_trans_of_irrefl
    fun x y : OnChain => TransGen (Extends pRenderInfo) y.1 x.1
  have hacc : ∀ x : OnChain, Acc (fun next name => Extends pRenderInfo name next) x.1 := by
    intro x
    induction x using hwf.induction with
    | _ x ih =>
      refine ⟨x.1, fun next hnext => ?_⟩
      by_cases hmem : next ∈ pRenderInfo.getObjectKeys
      · exact ih ⟨next, hmem, x.2.2.tail hnext⟩ (TransGen.single hnext)
      · exact ⟨next, fun after hafter => absurd hafter.mem_keys hmem⟩
  by_cases hmem : name ∈ pRenderInfo.getObjectKeys
  · exact hacc ⟨name, hmem, ReflTransGen.refl⟩
  · exact ⟨name, fun next hnext => absurd hnext.mem_keys hmem⟩

/-- A definition in the stylesheet itself is the nearest. -/
theorem nearest_iff_of_defines {key name : List UInt8} {pElements v w : JSONValue}
    (hel : HasElements pRenderInfo name pElements) (hw : pElements.getObjectValue key = some w) :
    Nearest pRenderInfo key name v ↔ v = w := by
  constructor
  · intro hv
    cases hv with
    | here hel' hv' =>
      cases hel'.unique hel
      rw [hw] at hv'
      cases hv'
      rfl
    | extended hel' hnone =>
      cases hel'.unique hel
      rw [hw] at hnone
      cases hnone
  · rintro rfl
    exact .here hel hw

/-- Otherwise it is the nearest one of the stylesheet that is extended. -/
theorem exists_extends_of_nearest {key name : List UInt8} {pElements v : JSONValue}
    (hel : HasElements pRenderInfo name pElements) (hnone : pElements.getObjectValue key = none)
    (hv : Nearest pRenderInfo key name v) :
    ∃ next, Extends pRenderInfo name next ∧ Nearest pRenderInfo key next v := by
  cases hv with
  | here hel' hv' =>
    cases hel'.unique hel
    rw [hnone] at hv'
    cases hv'
  | extended _ _ hext hv' => exact ⟨_, hext, hv'⟩

/-- A chain that ends does not come back. -/
theorem not_cyclic_of_acc {name : List UInt8}
    (hacc : Acc (fun next name => Extends pRenderInfo name next) name) :
    ¬ TransGen (Extends pRenderInfo) name name := by
  induction hacc with
  | intro name _ ih =>
    intro hcycle
    obtain ⟨next, hnext, hback⟩ := TransGen.head'_iff.mp hcycle
    exact ih next hnext (TransGen.tail' hback hnext)

end Chain

/-! ## 6. Reading a stylesheet -/

section Reading

variable {parseTemplate} {pRenderInfo}

/-- What the function does when it returns: it stops at an error at the beginning, or goes on
from what the extended stylesheet has left to the loop over the elements. -/
theorem parseStyleSheet_cases {fuel : Nat} {name : List UInt8} {h : XML2HTMLDocHandler τ}
    {r : Bool × XML2HTMLDocHandler τ}
    (hr : parseStyleSheet parseTemplate pRenderInfo fuel name h = some r) :
    ∃ k, fuel = k + 1 ∧
      ((∀ pElements, ¬ HasElements pRenderInfo name pElements) ∧ r.1 = false ∨
        ∃ pElements extended, HasElements pRenderInfo name pElements ∧
          readExtended pRenderInfo name (parseStyleSheet parseTemplate pRenderInfo k) h =
            some extended ∧
          fillElements parseTemplate pElements k pElements.getObjectKeys extended.1 extended.2 =
            some r) := by
  cases fuel with
  | zero => cases hr
  | succ k =>
    refine ⟨k, rfl, ?_⟩
    rw [parseStyleSheet] at hr
    split at hr
    · rename_i e he
      cases hr
      refine Or.inl ⟨fun pElements hel => ?_, rfl⟩
      rw [HasElements, he] at hel
      cases hel
    · rename_i pElements hel
      split at hr
      · cases hr
      · rename_i bResult h' hext
        exact Or.inr ⟨pElements, (bResult, h'), hel, hext, hr⟩

/-- The stylesheet before, if there is one, is read in the same way. -/
theorem readExtended_of_extends {name next : List UInt8} (hext : Extends pRenderInfo name next)
    (read : List UInt8 → XML2HTMLDocHandler τ → Option (Bool × XML2HTMLDocHandler τ))
    (h : XML2HTMLDocHandler τ) : readExtended pRenderInfo name read h = read next h := by
  rw [readExtended, hext.2]

/-- Without one the function goes on at once, and from the same elements. -/
theorem readExtended_of_not_extends {name : List UInt8} {pElements : JSONValue}
    (hel : HasElements pRenderInfo name pElements)
    (hext : ∀ next, ¬ Extends pRenderInfo name next)
    (read : List UInt8 → XML2HTMLDocHandler τ → Option (Bool × XML2HTMLDocHandler τ))
    (h : XML2HTMLDocHandler τ) :
    ∃ extended, readExtended pRenderInfo name read h = some extended ∧
      extended.2.m_elements = h.m_elements := by
  rw [readExtended]
  split
  · exact ⟨_, rfl, rfl⟩
  · rename_i next hnext
    exact absurd ⟨⟨pElements, hel⟩, hnext⟩ (hext next)
  · exact ⟨_, rfl, rfl⟩
  · exact ⟨_, rfl, rfl⟩

theorem readExtended_mono {name : List UInt8} {h : XML2HTMLDocHandler τ}
    {read more : List UInt8 → XML2HTMLDocHandler τ → Option (Bool × XML2HTMLDocHandler τ)}
    (hmore : ∀ next r, read next h = some r → more next h = some r)
    {extended : Bool × XML2HTMLDocHandler τ}
    (hext : readExtended pRenderInfo name read h = some extended) :
    readExtended pRenderInfo name more h = some extended := by
  rw [readExtended] at hext ⊢
  split at hext
  · exact hext
  · exact hmore _ _ hext
  · exact hext
  · exact hext

theorem parseStyleSheet_mono {fuel more : Nat} (hle : fuel ≤ more) {name : List UInt8}
    {h : XML2HTMLDocHandler τ} {r : Bool × XML2HTMLDocHandler τ}
    (hr : parseStyleSheet parseTemplate pRenderInfo fuel name h = some r) :
    parseStyleSheet parseTemplate pRenderInfo more name h = some r := by
  induction fuel generalizing more name h r with
  | zero => cases hr
  | succ fuel ih =>
    obtain ⟨more, rfl⟩ : ∃ k, more = k + 1 := ⟨more - 1, by omega⟩
    have hle' : fuel ≤ more := by omega
    rw [parseStyleSheet] at hr ⊢
    split at hr
    · exact hr
    · split at hr
      · cases hr
      · rename_i bResult h' hext
        have hext' := readExtended_mono (fun next r => ih hle') hext
        simp only [hext']
        exact fillElements_mono hle' hr

/-- What returns has read a chain that ends. -/
theorem acc_of_parseStyleSheet {fuel : Nat} {name : List UInt8} {h : XML2HTMLDocHandler τ}
    {r : Bool × XML2HTMLDocHandler τ}
    (hr : parseStyleSheet parseTemplate pRenderInfo fuel name h = some r) :
    Acc (fun next name => Extends pRenderInfo name next) name := by
  induction fuel generalizing name h r with
  | zero => cases hr
  | succ fuel ih =>
    refine ⟨name, fun next hnext => ?_⟩
    obtain ⟨k, hk, ⟨hnone, -⟩ | ⟨pElements, extended, -, hext, -⟩⟩ := parseStyleSheet_cases hr
    · obtain ⟨pElements, hel⟩ := hnext.1
      exact absurd hel (hnone pElements)
    · cases hk
      rw [readExtended_of_extends hnext] at hext
      exact ih hext

/-- ...and has met objects only in all of it. -/
theorem onlyObjects_of_parseStyleSheet {fuel : Nat} {name : List UInt8}
    {h : XML2HTMLDocHandler τ} {r : Bool × XML2HTMLDocHandler τ}
    (hr : parseStyleSheet parseTemplate pRenderInfo fuel name h = some r) {last : List UInt8}
    (hlast : ReflTransGen (Extends pRenderInfo) name last) : OnlyObjects pRenderInfo last := by
  induction fuel generalizing name h r with
  | zero => cases hr
  | succ fuel ih =>
    obtain ⟨k, hk, ⟨hnone, -⟩ | ⟨pElements, extended, hel, hext, hfill⟩⟩ :=
      parseStyleSheet_cases hr
    · rcases ReflTransGen.cases_head hlast with rfl | ⟨next, hnext, -⟩
      · exact fun pElements hel => absurd hel (hnone pElements)
      · obtain ⟨pElements, hel⟩ := hnext.1
        exact absurd hel (hnone pElements)
    · cases hk
      rcases ReflTransGen.cases_head hlast with rfl | ⟨next, hnext, hrest⟩
      · intro pElements' hel' key v hv
        cases hel'.unique hel
        obtain ⟨v', hv', hobject⟩ := isObject_of_fillElements hfill key
          (JSONValue.exists_getObjectValue.mp ⟨v, hv⟩)
        rw [hv] at hv'
        cases hv'
        exact hobject
      · rw [readExtended_of_extends hnext] at hext
        exact ih hext hrest

/-- **A chain that ends and has objects only is read**, by induction on the chain. -/
theorem exists_parseStyleSheet {name : List UInt8}
    (hacc : Acc (fun next name => Extends pRenderInfo name next) name)
    (hobjects : ∀ last, ReflTransGen (Extends pRenderInfo) name last →
      OnlyObjects pRenderInfo last) (h : XML2HTMLDocHandler τ) :
    ∃ fuel r, parseStyleSheet parseTemplate pRenderInfo fuel name h = some r := by
  induction hacc with
  | intro name _ ih =>
    cases hel : styleSheetElements pRenderInfo name with
    | error e => exact ⟨1, (false, h.addError e), by simp [parseStyleSheet, hel]⟩
    | ok pElements =>
      have hextended : ∃ fuel extended, readExtended pRenderInfo name
          (parseStyleSheet parseTemplate pRenderInfo fuel) h = some extended := by
        by_cases hnext : ∃ next, Extends pRenderInfo name next
        · obtain ⟨next, hnext⟩ := hnext
          obtain ⟨fuel, r, hr⟩ := ih next hnext
            fun last hlast => hobjects last (ReflTransGen.head hnext hlast)
          exact ⟨fuel, r, by rw [readExtended_of_extends hnext, hr]⟩
        · obtain ⟨extended, hext, -⟩ := readExtended_of_not_extends (τ := τ) hel
            (fun next h => hnext ⟨next, h⟩) (parseStyleSheet parseTemplate pRenderInfo 0) h
          exact ⟨0, extended, hext⟩
      obtain ⟨fuel, extended, hext⟩ := hextended
      have hkeys : ∀ key ∈ pElements.getObjectKeys, ∃ v,
          pElements.getObjectValue key = some v ∧ v.isObject = true := by
        intro key hkey
        obtain ⟨v, hv⟩ := JSONValue.exists_getObjectValue.mpr hkey
        exact ⟨v, hv, hobjects name ReflTransGen.refl pElements hel key v hv⟩
      let enough := fuel + pElements.getObjectKeys.length
      have hfill : ∃ r, fillElements parseTemplate pElements enough pElements.getObjectKeys
          extended.1 extended.2 = some r := exists_fillElements hkeys (Nat.le_add_left _ _) _ _
      obtain ⟨r, hr⟩ := hfill
      have hext' := readExtended_mono
        (fun next r => parseStyleSheet_mono (Nat.le_add_right fuel pElements.getObjectKeys.length))
        hext
      refine ⟨enough + 1, r, ?_⟩
      rw [parseStyleSheet, hel]
      simp only [enough, hext']
      exact hr

/-- Without an error, an element that the chain defines is the nearest one, and any other is as
before. -/
theorem elements_of_parseStyleSheet {fuel : Nat} {name : List UInt8}
    {h h' : XML2HTMLDocHandler τ}
    (hr : parseStyleSheet parseTemplate pRenderInfo fuel name h = some (true, h'))
    (key : List UInt8) :
    (∀ v, Nearest pRenderInfo key name v →
      ∃ e, ElementInfo.ofDefinition parseTemplate key v = .ok e ∧ h'.m_elements key = some e) ∧
    ((∀ v, ¬ Nearest pRenderInfo key name v) → h'.m_elements key = h.m_elements key) := by
  induction fuel generalizing name h h' with
  | zero => cases hr
  | succ fuel ih =>
    obtain ⟨k, hk, ⟨-, hfalse⟩ | ⟨pElements, ⟨bResult, h₁⟩, hel, hext, hfill⟩⟩ :=
      parseStyleSheet_cases hr
    · cases hfalse
    · cases hk
      obtain ⟨rfl, hin, hout⟩ := elements_of_fillElements hfill
      cases hvalue : pElements.getObjectValue key with
      | some w =>
        obtain ⟨w', e, hw, he, hkey⟩ := hin key (JSONValue.exists_getObjectValue.mp ⟨w, hvalue⟩)
        rw [hvalue] at hw
        cases hw
        refine ⟨fun v hv => ?_, fun hnone => absurd (.here hel hvalue) (hnone w)⟩
        cases (nearest_iff_of_defines hel hvalue).mp hv
        exact ⟨e, he, hkey⟩
      | none =>
        have hsame : h'.m_elements key = h₁.m_elements key := hout key fun hmem => by
          obtain ⟨w, hw⟩ := JSONValue.exists_getObjectValue.mpr hmem
          rw [hvalue] at hw
          cases hw
        rw [hsame]
        by_cases hnext : ∃ next, Extends pRenderInfo name next
        · obtain ⟨next, hnext⟩ := hnext
          rw [readExtended_of_extends hnext] at hext
          obtain ⟨hdefined, hundefined⟩ := ih hext
          refine ⟨fun v hv => ?_, fun hnone => hundefined fun v hv => ?_⟩
          · obtain ⟨next', hnext', hv'⟩ := exists_extends_of_nearest hel hvalue hv
            cases hnext'.unique hnext
            exact hdefined v hv'
          · exact hnone v (.extended hel hvalue hnext hv)
        · obtain ⟨extended, hext', helements⟩ := readExtended_of_not_extends (τ := τ) hel
            (fun next h => hnext ⟨next, h⟩) (parseStyleSheet parseTemplate pRenderInfo fuel) h
          rw [hext] at hext'
          cases hext'
          refine ⟨fun v hv => ?_, fun _ => congrFun helements key⟩
          obtain ⟨next, hext, -⟩ := exists_extends_of_nearest hel hvalue hv
          exact absurd ⟨next, hext⟩ hnext

/-- **Reading a stylesheet ends well just if its chain ends and has objects only**: every member of
the elements of every stylesheet on it is an object, and none of them extends itself through others
or directly. -/
theorem readsStyleSheet_iff {name : List UInt8} :
    Reads parseTemplate pRenderInfo name ↔
      ∀ next, ReflTransGen (Extends pRenderInfo) name next →
        OnlyObjects pRenderInfo next ∧ ¬ TransGen (Extends pRenderInfo) next next := by
  constructor
  · rintro ⟨fuel, bResult, h, hr, -⟩ next hnext
    have hacc : Acc (fun next name => Extends pRenderInfo name next) next := by
      have hstart := acc_of_parseStyleSheet hr
      induction hnext with
      | refl => exact hstart
      | tail _ hstep ih => exact ih.inv hstep
    exact ⟨onlyObjects_of_parseStyleSheet hr hnext, not_cyclic_of_acc hacc⟩
  · intro hchain
    have hreturns : ∃ fuel r, parseStyleSheet parseTemplate pRenderInfo fuel name init = some r :=
      exists_parseStyleSheet (acc_of_acyclic fun next hnext => (hchain next hnext).2)
        (fun last hlast => (hchain last hlast).1) init
    obtain ⟨fuel, ⟨bResult, h⟩, hr⟩ := hreturns
    refine ⟨fuel, bResult, h, hr, ?_⟩
    rintro rfl key e
    obtain ⟨hdefined, hundefined⟩ := elements_of_parseStyleSheet hr key
    by_cases hnearest : ∃ v, Nearest pRenderInfo key name v
    · obtain ⟨v, hv⟩ := hnearest
      obtain ⟨e', he', hkey⟩ := hdefined v hv
      rw [hkey, Option.some.injEq]
      constructor
      · rintro rfl
        exact ⟨v, hv, he'⟩
      · rintro ⟨w, hw, he⟩
        obtain ⟨e'', he'', hkey'⟩ := hdefined w hw
        rw [he] at he''
        cases he''
        rw [hkey] at hkey'
        cases hkey'
        rfl
    · have hkey := hundefined fun v hv => hnearest ⟨v, hv⟩
      rw [hkey]
      constructor
      · intro he
        cases he
      · rintro ⟨v, hv, -⟩
        exact absurd ⟨v, hv⟩ hnearest

/-- One member that is not an object is enough, without any other stylesheet. -/
theorem nullMember_not_reads :
    ¬ Reads (fun t => .ok t : List UInt8 → Except (List UInt8) (List UInt8))
      (.object [(bytes "r", .object [(bytes "elements", .object [(bytes "w", .null)])])])
      (bytes "r") := by
  rintro ⟨fuel, bResult, h, hr, -⟩
  have honly := onlyObjects_of_parseStyleSheet hr ReflTransGen.refl
    (.object [(bytes "w", .null)]) rfl (bytes "w") .null rfl
  cases honly

end Reading

end XML2HTMLDocHandler

end Emdros
