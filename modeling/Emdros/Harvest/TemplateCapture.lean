/-
# Constructs that capture text (`enterListMode`, `enterNamedSetAddMode`, `enterSetVarMode`)

Between the tags of such a construct the text of a template goes to a list, a named set or a
variable.  Constructs nest: the kind of target is on a stack, the names of the lists and of the
named sets are on stacks of their own, and so are their delimiters.  The name of the variable is
not: the end of an inner `setvar` leaves the outer one without it.

The tags that end a construct do not look whether one is open.

`Construct` is what the reader of a template sees, a list of the open constructs for each point of a
run.  `captures_of_run` is for the runs whose ends meet the construct they are for, and which do not
begin a construct that would share its place with an open one: there text always goes to the
innermost construct, and no stack is read while it is empty.  `nestedSetVar_not_captures` has a
template on which neither is so.
-/
import Mathlib
import Emdros.Harvest.TemplateScanner

namespace Emdros

open Lexer (bytes)

/-! ## 1. Where text goes -/

/-- The places that text can be added to. -/
inductive TextPlace where
  | doc
  | list (name : List UInt8)
  | delimitedList (name : List UInt8)
  | var (name : List UInt8)
  | namedSet (name : List UInt8)
  deriving DecidableEq, Repr

namespace TemplateLangExecEnv

/-- The text that is there. -/
def textAt (e : TemplateLangExecEnv) : TextPlace → List UInt8
  | .doc => e.m_pOutput
  | .list name => ((e.m_lists name).getD []).flatten
  | .delimitedList name => ((e.m_delimited_lists name).getD []).flatten
  | .var name => (e.m_variables name).getD []
  | .namedSet name => (e.m_sets_under_construction name).getD []

/-- Whether text counts: the document can be nixed alone. -/
def accepts (e : TemplateLangExecEnv) (place : TextPlace) : Prop :=
  e.m_nixingType = .off ∨ e.m_nixingType = .doc ∧ place ≠ .doc

/-- **Text that is added now goes to this place**, and to no other. -/
def TextGoesTo (e : TemplateLangExecEnv) (place : TextPlace) : Prop :=
  ∀ addition, ∃ e', e.addToOutput addition = .ok e' ∧
    (e.accepts place → e'.textAt place = e.textAt place ++ addition) ∧
    ∀ other ≠ place, e'.textAt other = e.textAt other

end TemplateLangExecEnv

/-! ## 2. Open constructs -/

/-- A construct, as it is begun. -/
inductive Construct where
  | list (name : List UInt8) (delimiter : Option (List UInt8))
  | namedSetAdd (name delimiter : List UInt8)
  | namedSetRemove (name delimiter : List UInt8)
  | setVar (name : List UInt8)
  deriving DecidableEq, Repr

namespace Construct

/-- What the text in the construct is added to. -/
def place : Construct → TextPlace
  | list name none => .list name
  | list name (some _) => .delimitedList name
  | namedSetAdd name _ => .namedSet name
  | namedSetRemove name _ => .namedSet name
  | setVar name => .var name

/-- The text is kept until the construct ends, or what there is is replaced at its beginning. -/
def collects : Construct → Bool
  | list _ none => false
  | _ => true

def kind : Construct → EmitTarget
  | list _ none => .list
  | list _ (some _) => .delimitedList
  | namedSetAdd _ _ => .namedSet
  | namedSetRemove _ _ => .namedSet
  | setVar _ => .var

def listName : Construct → Option (List UInt8)
  | list name _ => some name
  | _ => none

def listDelimiter : Construct → Option (Option (List UInt8))
  | list _ delimiter => some delimiter
  | _ => none

def namedSetName : Construct → Option (List UInt8)
  | namedSetAdd name _ => some name
  | namedSetRemove name _ => some name
  | _ => none

def namedSetDelimiter : Construct → Option (List UInt8)
  | namedSetAdd _ delimiter => some delimiter
  | namedSetRemove _ delimiter => some delimiter
  | _ => none

def varName : Construct → Option (List UInt8)
  | setVar name => some name
  | _ => none

/-- The place of the innermost construct, or else the document. -/
def innermost : List Construct → TextPlace
  | [] => .doc
  | c :: _ => c.place

end Construct

namespace TemplateASTNode

/-- The construct that a node begins. -/
def begins : TemplateASTNode → Option Construct
  | listAppendBegin name delimiter => some (.list name delimiter)
  | namedSetAddBegin name delimiter => some (.namedSetAdd name delimiter)
  | namedSetRemoveBegin name delimiter => some (.namedSetRemove name delimiter)
  | setVarBegin name => some (.setVar name)
  | _ => none

/-- The node ends constructs of the kind of this one. -/
def ends : TemplateASTNode → Construct → Bool
  | listAppendEnd, .list _ _ => true
  | namedSetAddEnd, .namedSetAdd _ _ => true
  | namedSetRemoveEnd, .namedSetRemove _ _ => true
  | setVarEnd, .setVar _ => true
  | _, _ => false

def isEnd : TemplateASTNode → Bool
  | listAppendEnd => true
  | namedSetAddEnd => true
  | namedSetRemoveEnd => true
  | setVarEnd => true
  | _ => false

/-- The open constructs after a node. -/
def track (node : TemplateASTNode) (opens : List Construct) : List Construct :=
  match begins node with
  | some c => c :: opens
  | none => if isEnd node then opens.tail else opens

/-- Constructs are properly nested: an end is for the innermost open construct. -/
def Matched (node : TemplateASTNode) (opens : List Construct) : Prop :=
  isEnd node = true → ∃ c rest, opens = c :: rest ∧ ends node c = true

/-- A construct does not take the place of an open one: no `setvar` begins inside of another that
has a name, and nothing that collects text begins at a place that is in use. -/
def Apart (node : TemplateASTNode) (opens : List Construct) : Prop :=
  ∀ c, begins node = some c →
    (∀ name, c = .setVar name → ∀ outer ∈ opens.filterMap Construct.varName, outer = []) ∧
    (c.collects = true → c.place ∉ (opens.filter Construct.collects).map Construct.place)

/-- A run from a chain with the given constructs open, through the nodes that meet a condition. -/
inductive Run (condition : TemplateASTNode → List Construct → Prop)
    (c : List TemplateASTNode × TemplateLangExecEnv) (opens : List Construct) :
    List TemplateASTNode × TemplateLangExecEnv → List Construct → Prop
  | start : Run condition c opens c opens
  | step {node rest e c' opens'} (run : Run condition c opens (node :: rest, e) opens')
      (met : condition node opens') (step : Step (node :: rest, e) c') :
      Run condition c opens c' (track node opens')

/-- Text goes to the innermost open construct, and no two constructs that collect text do so at one
place. -/
structure Captures (e : TemplateLangExecEnv) (opens : List Construct) : Prop where
  text : e.TextGoesTo (Construct.innermost opens)
  apart : ((opens.filter Construct.collects).map Construct.place).Nodup

/-- The stacks of the environment are those of the open constructs. -/
structure Stands (e : TemplateLangExecEnv) (opens : List Construct) : Prop where
  targets : e.m_emit_target_stack = opens.map Construct.kind ++ [.doc]
  listNames : e.m_list_stack = opens.filterMap Construct.listName
  listDelimiters : e.m_list_delimiter_stack = opens.filterMap Construct.listDelimiter
  namedSetNames : e.m_named_set_name_stack = opens.filterMap Construct.namedSetName
  namedSetDelimiters : e.m_named_set_delimiter_stack = opens.filterMap Construct.namedSetDelimiter
  currentVar : e.m_strCurrentSetVar = (opens.filterMap Construct.varName).headD []
  outerVars : ∀ name ∈ (opens.filterMap Construct.varName).tail, name = []
  apart : ((opens.filter Construct.collects).map Construct.place).Nodup

end TemplateASTNode

/-! ## 3. One text -/

namespace TemplateLangExecEnv

theorem textAt_createVarIfNotExists (e : TemplateLangExecEnv) (var_name : List UInt8)
    (place : TextPlace) : (e.createVarIfNotExists var_name).textAt place = e.textAt place := by
  cases h : e.m_variables var_name with
  | some value => simp [createVarIfNotExists, h]
  | none =>
    cases place with
    | var name =>
      by_cases hname : name = var_name
      · subst hname
        simp [createVarIfNotExists, h, textAt]
      · simp [createVarIfNotExists, h, textAt, Function.update_of_ne hname]
    | _ => simp [createVarIfNotExists, h, textAt]

theorem textAt_createNamedSetIfNotExists (e : TemplateLangExecEnv) (named_set_name : List UInt8)
    (place : TextPlace) :
    (e.createNamedSetIfNotExists named_set_name).textAt place = e.textAt place := by
  cases h : e.m_sets_under_construction named_set_name <;>
    cases h' : e.m_named_sets named_set_name <;> cases place
  all_goals simp only [createNamedSetIfNotExists, h, h', textAt]
  all_goals
    rename_i name
    by_cases hname : name = named_set_name
    · subst hname
      simp [h]
    · simp [Function.update_of_ne hname]

/-- The place of a kind of target. -/
def placeOf (e : TemplateLangExecEnv) : EmitTarget → Option TextPlace
  | .doc => some .doc
  | .list => e.m_list_stack.head?.map .list
  | .delimitedList => e.m_list_stack.head?.map .delimitedList
  | .var => some (.var e.m_strCurrentSetVar)
  | .namedSet => e.m_named_set_name_stack.head?.map .namedSet

theorem addToTarget_of_placeOf {e : TemplateLangExecEnv} {target : EmitTarget} {place : TextPlace}
    (h : e.placeOf target = some place) (addition : List UInt8) :
    ∃ e', e.addToTarget addition target = .ok e' ∧
      (e.accepts place → e'.textAt place = e.textAt place ++ addition) ∧
      ∀ other ≠ place, e'.textAt other = e.textAt other := by
  cases target with
  | doc =>
    cases h
    refine ⟨_, rfl, ?_, ?_⟩
    · rintro (hoff | ⟨-, hdoc⟩)
      · simp [hoff, textAt]
      · exact absurd rfl hdoc
    · intro other hother
      split
      · cases other with
        | doc => exact absurd rfl hother
        | _ => rfl
      · rfl
  | list =>
    cases hstack : e.m_list_stack with
    | nil => simp [placeOf, hstack] at h
    | cons list_name lists =>
      have hplace : TextPlace.list list_name = place := by simpa [placeOf, hstack] using h
      subst hplace
      refine ⟨e.pushList list_name addition, by simp [addToTarget, hstack], ?_, ?_⟩
      · exact fun _ => by simp [textAt, pushList]
      · intro other hother
        cases other with
        | list name =>
          have hname : name ≠ list_name := by simpa using hother
          simp [textAt, pushList, Function.update_of_ne hname]
        | _ => rfl
  | delimitedList =>
    cases hstack : e.m_list_stack with
    | nil => simp [placeOf, hstack] at h
    | cons list_name lists =>
      have hplace : TextPlace.delimitedList list_name = place := by simpa [placeOf, hstack] using h
      subst hplace
      refine ⟨e.pushDelimitedList list_name addition, by simp [addToTarget, hstack], ?_, ?_⟩
      · exact fun _ => by simp [textAt, pushDelimitedList]
      · intro other hother
        cases other with
        | delimitedList name =>
          have hname : name ≠ list_name := by simpa using hother
          simp [textAt, pushDelimitedList, Function.update_of_ne hname]
        | _ => rfl
  | var =>
    cases h
    have hcreate := textAt_createVarIfNotExists e e.m_strCurrentSetVar
    have hcur := (SameTarget.createVarIfNotExists e e.m_strCurrentSetVar).strCurrentSetVar
    refine ⟨e.addToVar addition, rfl, fun _ => ?_, fun other hother => ?_⟩
    · rw [← hcreate (.var e.m_strCurrentSetVar)]
      simp [textAt, addToVar, hcur]
    · rw [← hcreate other]
      cases other with
      | var name =>
        have hname : name ≠ e.m_strCurrentSetVar := by simpa using hother
        simp [textAt, addToVar, hcur, Function.update_of_ne hname]
      | _ => rfl
  | namedSet =>
    cases hstack : e.m_named_set_name_stack with
    | nil => simp [placeOf, hstack] at h
    | cons set_name names =>
      have hplace : TextPlace.namedSet set_name = place := by simpa [placeOf, hstack] using h
      subst hplace
      have hcreate := textAt_createNamedSetIfNotExists e set_name
      refine ⟨e.addToNamedSet set_name addition, by simp [addToTarget, hstack], fun _ => ?_,
        fun other hother => ?_⟩
      · rw [← hcreate (.namedSet set_name)]
        simp [textAt, addToNamedSet]
      · rw [← hcreate other]
        cases other with
        | namedSet name =>
          have hname : name ≠ set_name := by simpa using hother
          simp [textAt, addToNamedSet, Function.update_of_ne hname]
        | _ => rfl

theorem textGoesTo_of_placeOf {e : TemplateLangExecEnv} {target : EmitTarget}
    {targets : List EmitTarget} {place : TextPlace} (hstack : e.m_emit_target_stack = target :: targets)
    (h : e.placeOf target = some place) : e.TextGoesTo place := by
  intro addition
  by_cases hall : e.m_nixingType = .all
  · refine ⟨e, by simp [addToOutput, hall], ?_, fun _ _ => rfl⟩
    rintro (hoff | ⟨hdoc, -⟩)
    · rw [hall] at hoff
      cases hoff
    · rw [hall] at hdoc
      cases hdoc
  · have hadd : e.addToOutput addition = e.addToTarget addition target := by
      simp only [addToOutput, if_neg hall, getCurEmitTarget_of_cons hstack]
    rw [hadd]
    exact addToTarget_of_placeOf h addition

end TemplateLangExecEnv

namespace TemplateASTNode

/-- The top of the stacks is the innermost construct. -/
theorem Stands.exists_placeOf {e : TemplateLangExecEnv} {opens : List Construct}
    (h : Stands e opens) : ∃ target targets, e.m_emit_target_stack = target :: targets ∧
      e.placeOf target = some (Construct.innermost opens) := by
  cases opens with
  | nil => exact ⟨.doc, [], h.targets, rfl⟩
  | cons c opens =>
    have htargets : e.m_emit_target_stack = c.kind :: (opens.map Construct.kind ++ [.doc]) := by
      simpa using h.targets
    refine ⟨c.kind, _, htargets, ?_⟩
    have hlists := h.listNames
    have hsets := h.namedSetNames
    have hvar := h.currentVar
    cases c with
    | list name delimiter =>
      cases delimiter <;>
        simp [Construct.kind, TemplateLangExecEnv.placeOf, hlists, Construct.listName,
          Construct.innermost, Construct.place]
    | setVar name =>
      simp [Construct.kind, TemplateLangExecEnv.placeOf, hvar, Construct.varName,
        Construct.innermost, Construct.place]
    | _ =>
      simp [Construct.kind, TemplateLangExecEnv.placeOf, hsets, Construct.namedSetName,
        Construct.innermost, Construct.place]

theorem Stands.captures {e : TemplateLangExecEnv} {opens : List Construct} (h : Stands e opens) :
    Captures e opens := by
  obtain ⟨target, targets, hstack, hplace⟩ := h.exists_placeOf
  exact ⟨TemplateLangExecEnv.textGoesTo_of_placeOf hstack hplace, h.apart⟩

theorem Stands.of_sameTarget {e e' : TemplateLangExecEnv} {opens : List Construct}
    (h : Stands e opens) (hsame : TemplateLangExecEnv.SameTarget e e') : Stands e' opens where
  targets := hsame.emit_target_stack.trans h.targets
  listNames := hsame.list_stack.trans h.listNames
  listDelimiters := hsame.list_delimiter_stack.trans h.listDelimiters
  namedSetNames := hsame.named_set_name_stack.trans h.namedSetNames
  namedSetDelimiters := hsame.named_set_delimiter_stack.trans h.namedSetDelimiters
  currentVar := hsame.strCurrentSetVar.trans h.currentVar
  outerVars := h.outerVars
  apart := h.apart

end TemplateASTNode

/-! ## 4. Nodes that keep the target -/

namespace TemplateLangExecEnv

/-- The target that is on top of the stack has a place. -/
def HasPlace (e : TemplateLangExecEnv) : Prop :=
  ∃ target targets place, e.m_emit_target_stack = target :: targets ∧
    e.placeOf target = some place

theorem HasPlace.of_sameTarget {e e' : TemplateLangExecEnv} (h : HasPlace e)
    (hsame : SameTarget e e') : HasPlace e' := by
  obtain ⟨target, targets, place, hstack, hplace⟩ := h
  refine ⟨target, targets, place, hsame.emit_target_stack.trans hstack, ?_⟩
  rw [← hplace]
  cases target <;> simp [placeOf, hsame.list_stack, hsame.named_set_name_stack,
    hsame.strCurrentSetVar]

/-- An execution that reads no empty stack, and leaves the target as it is. -/
structure Keeps (e : TemplateLangExecEnv) (r : Except TemplateFault TemplateLangExecEnv) :
    Prop where
  nonempty : r ≠ .error .emptyStack
  same : ∀ e', r = .ok e' → SameTarget e e'

namespace Keeps

variable {e e₁ : TemplateLangExecEnv} {r : Except TemplateFault TemplateLangExecEnv}

theorem ok (h : SameTarget e e₁) : Keeps e (.ok e₁) where
  nonempty := by simp
  same := by
    intro e' he'
    cases he'
    exact h

theorem error {f : TemplateFault} (hf : f ≠ .emptyStack) : Keeps e (.error f) where
  nonempty := by simpa using hf
  same := by simp

theorem after (h : SameTarget e e₁) (hr : Keeps e₁ r) : Keeps e r where
  nonempty := hr.nonempty
  same := fun e' he' => h.trans (hr.same e' he')

/-- A value that is read without an empty stack does not change this. -/
theorem bind {α : Type} {x : Except TemplateFault α}
    {g : α → Except TemplateFault TemplateLangExecEnv} (hx : x ≠ .error .emptyStack)
    (hg : ∀ a, x = .ok a → Keeps e (g a)) : Keeps e (x >>= g) := by
  cases x with
  | error f => exact .error fun hf => hx (by rw [hf])
  | ok a => exact hg a rfl

end Keeps

theorem keeps_addToOutput {e : TemplateLangExecEnv} (h : HasPlace e) (addition : List UInt8) :
    Keeps e (e.addToOutput addition) := by
  obtain ⟨target, targets, place, hstack, hplace⟩ := h
  obtain ⟨e', he', -, -⟩ := textGoesTo_of_placeOf hstack hplace addition
  rw [he']
  refine .ok ?_
  rw [addToOutput] at he'
  split at he'
  · cases he'
    exact .refl e
  · rw [getCurEmitTarget_of_cons hstack] at he'
    exact .addToTarget he'

theorem keeps_addAllToOutput (pieces : List (List UInt8)) {e : TemplateLangExecEnv}
    (h : HasPlace e) : Keeps e (e.addAllToOutput pieces) := by
  induction pieces generalizing e with
  | nil => exact .ok (.refl e)
  | cons addition rest ih =>
    have hfirst := keeps_addToOutput h addition
    rw [addAllToOutput]
    cases he : e.addToOutput addition with
    | error f => exact .error fun hf => hfirst.nonempty (by rw [he, hf])
    | ok e₁ =>
      have hsame := hfirst.same e₁ he
      exact .after hsame (ih (h.of_sameTarget hsame))

theorem sameTarget_getVar (e : TemplateLangExecEnv) (var_name : List UInt8) :
    SameTarget e (e.getVar var_name).2 := .createVarIfNotExists e var_name

theorem sameTarget_getCounter (e : TemplateLangExecEnv) (counter_name : List UInt8) :
    SameTarget e (e.getCounter counter_name).2 := by
  unfold getCounter
  split <;> exact ⟨rfl, rfl, rfl, rfl, rfl, rfl, rfl⟩

theorem sameTarget_incCounter (e : TemplateLangExecEnv) (counter_name : List UInt8) (value : Int) :
    SameTarget e (e.incCounter counter_name value) := by
  unfold incCounter
  split <;> exact ⟨rfl, rfl, rfl, rfl, rfl, rfl, rfl⟩

theorem sameTarget_decCounter (e : TemplateLangExecEnv) (counter_name : List UInt8) (value : Int) :
    SameTarget e (e.decCounter counter_name value) := by
  unfold decCounter
  split <;> exact ⟨rfl, rfl, rfl, rfl, rfl, rfl, rfl⟩

theorem sameTarget_clearList (e : TemplateLangExecEnv) (list_name : List UInt8) :
    SameTarget e (e.clearList list_name) := by
  unfold clearList
  split <;> exact ⟨rfl, rfl, rfl, rfl, rfl, rfl, rfl⟩

theorem getFeature_ne_emptyStack (e : TemplateLangExecEnv) (index : Int) :
    e.getFeature index ≠ .error .emptyStack := by
  unfold getFeature
  split
  · simp
  · split <;> simp

theorem keeps_emitVar {e : TemplateLangExecEnv} (h : HasPlace e) (var_name : List UInt8) :
    Keeps e (e.emitVar var_name) := by
  rw [emitVar]
  split
  · exact .ok (.refl e)
  · have hsame := sameTarget_getVar e var_name
    exact .after hsame (keeps_addToOutput (h.of_sameTarget hsame) _)

theorem keeps_emitList {e : TemplateLangExecEnv} (h : HasPlace e)
    (list_name separator : List UInt8) : Keeps e (e.emitList list_name separator) := by
  rw [emitList]
  split
  · exact .ok (.refl e)
  · split
    · exact .ok ⟨rfl, rfl, rfl, rfl, rfl, rfl, rfl⟩
    · exact keeps_addToOutput h _

theorem keeps_emitNamedSet {e : TemplateLangExecEnv} (h : HasPlace e)
    (named_set_name separator : List UInt8) :
    Keeps e (e.emitNamedSet named_set_name separator) := by
  rw [emitNamedSet]
  split
  · exact .ok (.refl e)
  · split
    · exact .ok ⟨rfl, rfl, rfl, rfl, rfl, rfl, rfl⟩
    · exact keeps_addToOutput h _

end TemplateLangExecEnv

open TemplateLangExecEnv

theorem TemplateCondition.keeps_exec (condition : TemplateCondition) (e : TemplateLangExecEnv) :
    Keeps e (condition.exec e) := by
  cases condition with
  | featureEqual feature_index value =>
    exact .bind (getFeature_ne_emptyStack e feature_index) fun _ _ =>
      .ok ⟨rfl, rfl, rfl, rfl, rfl, rfl, rfl⟩
  | varEqual variable_name value bValueIsVarName =>
    have hfirst := sameTarget_getVar e variable_name
    have hsecond := sameTarget_getVar (e.getVar variable_name).2 value
    cases bValueIsVarName with
    | true => exact .ok (hfirst.trans (hsecond.trans ⟨rfl, rfl, rfl, rfl, rfl, rfl, rfl⟩))
    | false => exact .ok (hfirst.trans ⟨rfl, rfl, rfl, rfl, rfl, rfl, rfl⟩)
  | _ => exact .ok ⟨rfl, rfl, rfl, rfl, rfl, rfl, rfl⟩

namespace TemplateASTNode

/-- The node neither begins nor ends a construct, nor changes what is nixed. -/
def isPlain : TemplateASTNode → Bool
  | nixing _ => false
  | node => (begins node).isNone && !isEnd node && !isIf node

theorem keeps_execNode {e : TemplateLangExecEnv} (h : HasPlace e) {n : TemplateASTNode}
    (hplain : isPlain n = true) : Keeps e (execNode n e) := by
  cases n with
  | simpleNode kind =>
    cases kind with
    | dbName => exact keeps_addToOutput h _
    | _ =>
      simp only [execNode]
      split
      · exact .error (by simp)
      · exact keeps_addToOutput h _
  | feature index mangle_kind =>
    exact .bind (getFeature_ne_emptyStack e index) fun _ _ => keeps_addToOutput h _
  | featureFormat index format =>
    exact .bind (getFeature_ne_emptyStack e index) fun _ _ => keeps_addToOutput h _
  | copyAttribs => exact keeps_addAllToOutput _ h
  | counter counter_name =>
    have hsame := sameTarget_getCounter e counter_name
    exact .after hsame (keeps_addToOutput (h.of_sameTarget hsame) _)
  | counterFormat counter_name format =>
    have hsame := sameTarget_getCounter e counter_name
    exact .after hsame (keeps_addToOutput (h.of_sameTarget hsame) _)
  | setCounterVar counter_name variable_name =>
    exact .ok ((sameTarget_getVar e variable_name).trans ⟨rfl, rfl, rfl, rfl, rfl, rfl, rfl⟩)
  | incCounter counter_name value var_name =>
    simp only [execNode]
    split
    · exact .ok (sameTarget_incCounter e counter_name value)
    · exact .ok ((sameTarget_getVar e var_name).trans (sameTarget_incCounter _ counter_name _))
  | decCounter counter_name value var_name =>
    simp only [execNode]
    split
    · exact .ok (sameTarget_decCounter e counter_name value)
    · exact .ok ((sameTarget_getVar e var_name).trans (sameTarget_decCounter _ counter_name _))
  | dictlookupFeature dict_name feature_index default_value bMangleFeature format =>
    refine .bind (getFeature_ne_emptyStack e feature_index) fun _ _ => ?_
    cases format with
    | none => exact keeps_addToOutput h _
    | some format => exact keeps_addToOutput h _
  | dictlookupVar dict_name var_name default_value bMangleVar =>
    have hsame := sameTarget_getVar e var_name
    exact .after hsame (keeps_addToOutput (h.of_sameTarget hsame) _)
  | dictlookupCounter dict_name counter_name default_value =>
    have hsame := sameTarget_getCounter e counter_name
    exact .after hsame (keeps_addToOutput (h.of_sameTarget hsame) _)
  | setVarSubString outputVarName input start max_length =>
    cases input with
    | var name =>
      simp only [execNode, subStringInput]
      split
      · exact .ok ⟨rfl, rfl, rfl, rfl, rfl, rfl, rfl⟩
      · exact .ok ((sameTarget_getVar e name).trans ⟨rfl, rfl, rfl, rfl, rfl, rfl, rfl⟩)
    | attrib name mangle_kind => exact .ok ⟨rfl, rfl, rfl, rfl, rfl, rfl, rfl⟩
    | feature index mangle_kind =>
      by_cases hindex : 0 ≤ index
      · simp only [execNode, subStringInput, if_pos hindex]
        cases hget : e.getFeature index with
        | error f => exact .error fun hf => getFeature_ne_emptyStack e index (by rw [hget, hf])
        | ok tmp => exact .ok ⟨rfl, rfl, rfl, rfl, rfl, rfl, rfl⟩
      · simp only [execNode, subStringInput, if_neg hindex]
        exact .ok ⟨rfl, rfl, rfl, rfl, rfl, rfl, rfl⟩
  | emitVar varName => exact keeps_emitVar h varName
  | listClear listID => exact .ok (sameTarget_clearList e listID)
  | listEmit listID separator => exact keeps_emitList h listID separator
  | namedSetEmit namedSetID separator => exact keeps_emitNamedSet h namedSetID separator
  | setCounter | setVarNow | namedSetClear => exact .ok ⟨rfl, rfl, rfl, rfl, rfl, rfl, rfl⟩
  | string | attrib | attribNoMangle => exact keeps_addToOutput h _
  | _ => cases hplain

/-! ## 5. Nodes that begin or end a construct -/

theorem Stands.hasPlace {e : TemplateLangExecEnv} {opens : List Construct} (h : Stands e opens) :
    HasPlace e := by
  obtain ⟨target, targets, hstack, hplace⟩ := h.exists_placeOf
  exact ⟨target, targets, _, hstack, hplace⟩

/-- A construct that begins apart from the open ones keeps what collects text apart. -/
theorem nodup_cons {n : TemplateASTNode} {c : Construct} {opens : List Construct}
    (hbegins : begins n = some c) (hapart : Apart n opens)
    (h : ((opens.filter Construct.collects).map Construct.place).Nodup) :
    (((c :: opens).filter Construct.collects).map Construct.place).Nodup := by
  by_cases hc : c.collects = true
  · rw [List.filter_cons_of_pos hc, List.map_cons, List.nodup_cons]
    exact ⟨(hapart c hbegins).2 hc, h⟩
  · rwa [List.filter_cons_of_neg hc]

theorem nodup_tail {c : Construct} {opens : List Construct}
    (h : (((c :: opens).filter Construct.collects).map Construct.place).Nodup) :
    ((opens.filter Construct.collects).map Construct.place).Nodup := by
  by_cases hc : c.collects = true
  · rw [List.filter_cons_of_pos hc, List.map_cons, List.nodup_cons] at h
    exact h.2
  · rwa [List.filter_cons_of_neg hc] at h

/-- **The beginning of a construct** puts it on the stacks. -/
theorem stands_of_begins {e e' : TemplateLangExecEnv} {opens : List Construct}
    {n : TemplateASTNode} {c : Construct} (h : Stands e opens) (hbegins : begins n = some c)
    (hapart : Apart n opens) (he' : execNode n e = .ok e') : Stands e' (c :: opens) := by
  have hnodup := nodup_cons hbegins hapart h.apart
  have hvar := (hapart c hbegins).1
  cases n with
  | listAppendBegin name delimiter =>
    cases hbegins
    cases he'
    exact {
      targets := by
        cases delimiter <;>
          simp [enterListMode, pushEmitTargetStack, h.targets, Construct.kind]
      listNames := by simp [enterListMode, pushEmitTargetStack, h.listNames, Construct.listName]
      listDelimiters := by
        simp [enterListMode, pushEmitTargetStack, h.listDelimiters, Construct.listDelimiter]
      namedSetNames := h.namedSetNames
      namedSetDelimiters := h.namedSetDelimiters
      currentVar := h.currentVar
      outerVars := h.outerVars
      apart := hnodup }
  | namedSetAddBegin name delimiter | namedSetRemoveBegin name delimiter =>
    cases hbegins
    cases he'
    have hsame := SameTarget.createNamedSetIfNotExists
      { e.pushEmitTargetStack .namedSet with
        m_named_set_name_stack := name :: e.m_named_set_name_stack
        m_named_set_delimiter_stack := delimiter :: e.m_named_set_delimiter_stack } name
    refine Stands.of_sameTarget ?_ hsame
    exact {
      targets := by simp [pushEmitTargetStack, h.targets, Construct.kind]
      listNames := h.listNames
      listDelimiters := h.listDelimiters
      namedSetNames := by simp [h.namedSetNames, Construct.namedSetName]
      namedSetDelimiters := by simp [h.namedSetDelimiters, Construct.namedSetDelimiter]
      currentVar := h.currentVar
      outerVars := h.outerVars
      apart := hnodup }
  | setVarBegin name =>
    cases hbegins
    cases he'
    exact {
      targets := by simp [enterSetVarMode, pushEmitTargetStack, h.targets, Construct.kind]
      listNames := h.listNames
      listDelimiters := h.listDelimiters
      namedSetNames := h.namedSetNames
      namedSetDelimiters := h.namedSetDelimiters
      currentVar := by simp [enterSetVarMode, pushEmitTargetStack, Construct.varName]
      outerVars := by
        simpa [Construct.varName] using hvar name rfl
      apart := hnodup }
  | _ => cases hbegins

theorem popEmitTargetStack_of_cons {e : TemplateLangExecEnv} {target : EmitTarget}
    {targets : List EmitTarget} (h : e.m_emit_target_stack = target :: targets) :
    e.popEmitTargetStack = (target, { e with m_emit_target_stack := targets }) := by
  simp [popEmitTargetStack, getCurEmitTarget_of_cons h, h]

theorem sameTarget_foldl_pushList (list_name : List UInt8) (pieces : List (List UInt8))
    (e : TemplateLangExecEnv) :
    SameTarget e (pieces.foldl (fun e p => e.pushList list_name p) e) := by
  induction pieces generalizing e with
  | nil => exact .refl e
  | cons p pieces ih =>
    have hpush : SameTarget e (e.pushList list_name p) := ⟨rfl, rfl, rfl, rfl, rfl, rfl, rfl⟩
    exact hpush.trans (ih _)

theorem sameTarget_foldl_changeNamedSet (bAdd : Bool) (named_set_name : List UInt8)
    (members : List (List UInt8)) (e : TemplateLangExecEnv) :
    SameTarget e (members.foldl (changeNamedSet bAdd named_set_name) e) := by
  induction members generalizing e with
  | nil => exact .refl e
  | cons set_member members ih =>
    have hchange : SameTarget e (changeNamedSet bAdd named_set_name e set_member) :=
      ⟨rfl, rfl, rfl, rfl, rfl, rfl, rfl⟩
    exact hchange.trans (ih _)

theorem sameTarget_appendDelimited (e : TemplateLangExecEnv) (list_name delimiter : List UInt8) :
    SameTarget e (e.appendDelimited list_name delimiter) := by
  simp only [appendDelimited]
  split
  · exact ⟨rfl, rfl, rfl, rfl, rfl, rfl, rfl⟩
  · rename_i pieces _
    exact (sameTarget_foldl_pushList list_name (splitPieces pieces.flatten delimiter) e).trans
      ⟨rfl, rfl, rfl, rfl, rfl, rfl, rfl⟩

theorem exists_exitListMode {e : TemplateLangExecEnv} {target : EmitTarget}
    {targets : List EmitTarget} {list_name : List UInt8} {lists : List (List UInt8)}
    {pStrDelimiter : Option (List UInt8)} {delimiters : List (Option (List UInt8))}
    (htargets : e.m_emit_target_stack = target :: targets)
    (hlists : e.m_list_stack = list_name :: lists)
    (hdelimiters : e.m_list_delimiter_stack = pStrDelimiter :: delimiters) :
    ∃ e', e.exitListMode = .ok e' ∧ SameTarget
      { e with
        m_emit_target_stack := targets
        m_list_stack := lists
        m_list_delimiter_stack := delimiters } e' := by
  have hpop := popEmitTargetStack_of_cons htargets
  simp only [exitListMode, hpop, hlists, hdelimiters]
  refine ⟨_, rfl, ?_⟩
  split
  · cases pStrDelimiter with
    | none => exact ⟨rfl, rfl, rfl, rfl, rfl, rfl, rfl⟩
    | some delimiter =>
      have hsame := sameTarget_appendDelimited
        { e with
          m_emit_target_stack := targets
          m_list_stack := list_name :: lists
          m_list_delimiter_stack := some delimiter :: delimiters } list_name delimiter
      exact ⟨hsame.nixingType, hsame.emit_target_stack, rfl, rfl, hsame.named_set_name_stack,
        hsame.named_set_delimiter_stack, hsame.strCurrentSetVar⟩
  · exact ⟨rfl, rfl, rfl, rfl, rfl, rfl, rfl⟩

theorem exists_exitNamedSetAddOrRemoveMode {e : TemplateLangExecEnv} {target : EmitTarget}
    {targets : List EmitTarget} {named_set_name delimiter : List UInt8}
    {names delimiters : List (List UInt8)} (bAdd : Bool)
    (htargets : e.m_emit_target_stack = target :: targets)
    (hnames : e.m_named_set_name_stack = named_set_name :: names)
    (hdelimiters : e.m_named_set_delimiter_stack = delimiter :: delimiters) :
    ∃ e', e.exitNamedSetAddOrRemoveMode bAdd = .ok e' ∧ SameTarget
      { e with
        m_emit_target_stack := targets
        m_named_set_name_stack := names
        m_named_set_delimiter_stack := delimiters } e' := by
  have hpop := popEmitTargetStack_of_cons htargets
  simp only [exitNamedSetAddOrRemoveMode, hpop, hnames, hdelimiters]
  split
  · exact ⟨_, rfl, rfl, rfl, rfl, rfl, rfl, rfl, rfl⟩
  · refine ⟨_, rfl, ?_⟩
    split
    · exact ⟨rfl, rfl, rfl, rfl, rfl, rfl, rfl⟩
    · refine SameTarget.trans ?_ (sameTarget_foldl_changeNamedSet bAdd named_set_name _ _)
      exact ⟨rfl, rfl, rfl, rfl, rfl, rfl, rfl⟩

/-- The stacks without what the innermost construct has put on them. -/
theorem Stands.tail {e : TemplateLangExecEnv} {opens : List Construct} {c : Construct}
    (h : Stands e (c :: opens)) : Stands
      { e with
        m_emit_target_stack := e.m_emit_target_stack.tail
        m_list_stack := opens.filterMap Construct.listName
        m_list_delimiter_stack := opens.filterMap Construct.listDelimiter
        m_named_set_name_stack := opens.filterMap Construct.namedSetName
        m_named_set_delimiter_stack := opens.filterMap Construct.namedSetDelimiter
        m_strCurrentSetVar := (opens.filterMap Construct.varName).headD [] } opens where
  targets := by simp [h.targets]
  listNames := rfl
  listDelimiters := rfl
  namedSetNames := rfl
  namedSetDelimiters := rfl
  currentVar := rfl
  outerVars := by
    have houter := h.outerVars
    intro name hname
    apply houter
    cases c with
    | setVar => exact List.mem_of_mem_tail hname
    | _ => exact hname
  apart := nodup_tail h.apart

/-- **The end of a construct** takes it from the stacks. -/
theorem stands_of_ends {e : TemplateLangExecEnv} {opens : List Construct} {n : TemplateASTNode}
    {c : Construct} (h : Stands e (c :: opens)) (hends : ends n c = true) :
    ∃ e', execNode n e = .ok e' ∧ Stands e' opens := by
  have htargets : e.m_emit_target_stack = c.kind :: e.m_emit_target_stack.tail := by
    simp [h.targets]
  have htail := h.tail
  have hlists := h.listNames
  have hdelimiters := h.listDelimiters
  have hsets := h.namedSetNames
  have hsetDelimiters := h.namedSetDelimiters
  have hvar := h.currentVar
  cases n with
  | listAppendEnd =>
    cases c with
    | list name delimiter =>
      obtain ⟨e', he', hsame⟩ := exists_exitListMode htargets hlists hdelimiters
      refine ⟨e', he', htail.of_sameTarget (SameTarget.trans ?_ hsame)⟩
      exact ⟨rfl, rfl, rfl, rfl, hsets, hsetDelimiters, hvar⟩
    | _ => cases hends
  | namedSetAddEnd =>
    cases c with
    | namedSetAdd name delimiter =>
      obtain ⟨e', he', hsame⟩ :=
        exists_exitNamedSetAddOrRemoveMode true htargets hsets hsetDelimiters
      refine ⟨e', he', htail.of_sameTarget (SameTarget.trans ?_ hsame)⟩
      exact ⟨rfl, rfl, hlists, hdelimiters, rfl, rfl, hvar⟩
    | _ => cases hends
  | namedSetRemoveEnd =>
    cases c with
    | namedSetRemove name delimiter =>
      obtain ⟨e', he', hsame⟩ :=
        exists_exitNamedSetAddOrRemoveMode false htargets hsets hsetDelimiters
      refine ⟨e', he', htail.of_sameTarget (SameTarget.trans ?_ hsame)⟩
      exact ⟨rfl, rfl, hlists, hdelimiters, rfl, rfl, hvar⟩
    | _ => cases hends
  | setVarEnd =>
    cases c with
    | setVar name =>
      have houter : (opens.filterMap Construct.varName).headD [] = [] := by
        have hnames := h.outerVars
        cases hopens : opens.filterMap Construct.varName with
        | nil => rfl
        | cons outer names => exact hnames outer (by simp [Construct.varName, hopens])
      refine ⟨_, rfl, htail.of_sameTarget ?_⟩
      simp only [exitSetVarMode, popEmitTargetStack_of_cons htargets]
      exact ⟨rfl, rfl, hlists, hdelimiters, hsets, hsetDelimiters, houter.symm⟩
    | _ => cases hends
  | _ => cases hends

/-! ## 6. Runs -/

/-- **One step.** -/
theorem stands_of_step {n : TemplateASTNode} {rest : List TemplateASTNode}
    {e : TemplateLangExecEnv} {c' : List TemplateASTNode × TemplateLangExecEnv}
    {opens : List Construct} (h : Stands e opens) (hmatched : Matched n opens)
    (hapart : Apart n opens) (step : Step (n :: rest, e) c') : Stands c'.2 (track n opens) := by
  cases step with
  | branch he' => exact h.of_sameTarget ((TemplateCondition.keeps_exec _ e).same _ he')
  | node plain he' =>
    cases hbegins : begins n with
    | some c =>
      have htrack : track n opens = c :: opens := by simp [track, hbegins]
      rw [htrack]
      exact stands_of_begins h hbegins hapart he'
    | none =>
      by_cases hend : isEnd n = true
      · obtain ⟨c, outer, rfl, hends⟩ := hmatched hend
        have htrack : track n (c :: outer) = outer := by simp [track, hbegins, hend]
        obtain ⟨e₁, he₁, hstands⟩ := stands_of_ends h hends
        rw [he'] at he₁
        cases he₁
        rwa [htrack]
      · have htrack : track n opens = opens := by simp [track, hbegins, hend]
        rw [htrack]
        by_cases hplain : isPlain n = true
        · exact h.of_sameTarget ((keeps_execNode h.hasPlace hplain).same _ he')
        · cases n with
          | nixing nixingType =>
            cases he'
            exact ⟨h.1, h.2, h.3, h.4, h.5, h.6, h.7, h.8⟩
          | _ => simp_all [isPlain]

/-- No step that is matched meets an empty stack. -/
theorem not_fails_emptyStack {n : TemplateASTNode} {rest : List TemplateASTNode}
    {e : TemplateLangExecEnv} {opens : List Construct} (h : Stands e opens)
    (hmatched : Matched n opens) : ¬ Fails .emptyStack (n :: rest, e) := by
  intro hfails
  cases hfails with
  | branch he => exact (TemplateCondition.keeps_exec _ e).nonempty he
  | node plain he =>
    by_cases hplain : isPlain n = true
    · exact (keeps_execNode h.hasPlace hplain).nonempty he
    · by_cases hend : isEnd n = true
      · obtain ⟨c, outer, rfl, hends⟩ := hmatched hend
        obtain ⟨e₁, he₁, -⟩ := stands_of_ends h hends
        rw [he] at he₁
        cases he₁
      · cases n with
        | nixing | listAppendBegin | namedSetAddBegin | namedSetRemoveBegin | setVarBegin =>
          cases he
        | _ => simp_all [isPlain, isEnd, begins]

theorem Run.stands {c c' : List TemplateASTNode × TemplateLangExecEnv}
    {opens opens' : List Construct}
    (run : Run (fun n o => Matched n o ∧ Apart n o) c opens c' opens') (h : Stands c.2 opens) :
    Stands c'.2 opens' := by
  induction run with
  | start => exact h
  | step run met step ih => exact stands_of_step ih met.1 met.2 step

theorem stands_init : Stands TemplateLangExecEnv.init [] where
  targets := rfl
  listNames := rfl
  listDelimiters := rfl
  namedSetNames := rfl
  namedSetDelimiters := rfl
  currentVar := rfl
  outerVars := by simp
  apart := by simp

/-- **In a run whose ends meet their constructs, and whose constructs stay apart, text goes to the
innermost open construct at every point, and no step meets an empty stack.** -/
theorem captures_of_run {chain : List TemplateASTNode} {e : TemplateLangExecEnv}
    {c : List TemplateASTNode × TemplateLangExecEnv} {opens : List Construct} (h : Stands e [])
    (run : Run (fun n o => Matched n o ∧ Apart n o) (chain.reverse, e) [] c opens) :
    Captures c.2 opens ∧
      ∀ n rest, c.1 = n :: rest → Matched n opens → ¬ Fails .emptyStack c := by
  have hstands := run.stands h
  refine ⟨hstands.captures, fun n rest hc hmatched => ?_⟩
  obtain ⟨nodes, e'⟩ := c
  subst hc
  exact not_fails_emptyStack hstands hmatched

/-- The tags `setvar 'a'`, `listappend 'l'`, the text x, `listappendend`, the text y and
`setvarend`. -/
def listInSetVar : List TemplateASTNode :=
  [setVarBegin (bytes "a"), listAppendBegin (bytes "l") none, string (bytes "x"), listAppendEnd,
    string (bytes "y"), setVarEnd]

/-- Behind the end of the list text goes to the variable again, and behind that of the variable to
the document. -/
theorem captures_list_in_setvar :
    ∃ e₁ e₂, Run (fun n o => Matched n o ∧ Apart n o) (listInSetVar, TemplateLangExecEnv.init) []
        ([string (bytes "y"), setVarEnd], e₁) [.setVar (bytes "a")] ∧
      Captures e₁ [.setVar (bytes "a")] ∧
      Run (fun n o => Matched n o ∧ Apart n o) (listInSetVar, TemplateLangExecEnv.init) []
        ([], e₂) [] ∧ Captures e₂ [] := by
  have hlist : Run (fun n o => Matched n o ∧ Apart n o) (listInSetVar, TemplateLangExecEnv.init) []
      ([listAppendEnd, string (bytes "y"), setVarEnd], _)
      [.list (bytes "l") none, .setVar (bytes "a")] :=
    .step (.step (.step .start ⟨by simp [Matched, isEnd], by simp [Apart, begins]⟩ (.node rfl rfl))
      ⟨by simp [Matched, isEnd], by simp [Apart, begins, Construct.collects]⟩ (.node rfl rfl))
      ⟨by simp [Matched, isEnd], by simp [Apart, begins]⟩ (.node rfl rfl)
  have hvar : Run (fun n o => Matched n o ∧ Apart n o) (listInSetVar, TemplateLangExecEnv.init) []
      ([string (bytes "y"), setVarEnd], _) [.setVar (bytes "a")] :=
    .step hlist ⟨fun _ => ⟨_, _, rfl, rfl⟩, by simp [Apart, begins]⟩ (.node rfl rfl)
  have hdone : Run (fun n o => Matched n o ∧ Apart n o) (listInSetVar, TemplateLangExecEnv.init) []
      ([], _) [] :=
    .step (.step hvar ⟨by simp [Matched, isEnd], by simp [Apart, begins]⟩ (.node rfl rfl))
      ⟨fun _ => ⟨_, _, rfl, rfl⟩, by simp [Apart, begins]⟩ (.node rfl rfl)
  exact ⟨_, _, hvar,
    (@captures_of_run listInSetVar.reverse _ _ _ stands_init hvar).1, hdone,
    (@captures_of_run listInSetVar.reverse _ _ _ stands_init hdone).1⟩

/-- A variable inside of a variable, with text after it. -/
def nestedSetVar : List UInt8 :=
  bytes "\x7b\x7b setvar 'a' \x7d\x7d\x7b\x7b setvar 'b' \x7d\x7d" ++
    bytes "\x7b\x7b setvarend \x7d\x7dx\x7b\x7b setvarend \x7d\x7d"

open TemplateLangParser TemplateLanguageScanner in
/-- After the inner `setvarend` text goes to the variable without a name; and an end alone reads an
empty stack. -/
theorem nestedSetVar_not_captures :
    (∃ chain, parseTemplate nestedSetVar = some chain ∧
      ∃ c opens, Run Matched (chain.reverse, TemplateLangExecEnv.init) [] c opens ∧
        ¬ Captures c.2 opens) ∧
    ∃ chain, parseTemplate (bytes "\x7b\x7b listappendend \x7d\x7d") = some chain ∧
      exec chain TemplateLangExecEnv.init = .error .emptyStack := by
  constructor
  · have htokens : tokens (nestedSetVar.length + 1) nestedSetVar =
        [.setvar, .space, .string (bytes "a"), .bbClose, .setvar, .space, .string (bytes "b"),
          .bbClose, .setvarend, .identifier (bytes "x"), .setvarend] := by
      decide +kernel
    have hparse : parseTemplate nestedSetVar = some [setVarEnd, string (bytes "x"), setVarEnd,
        setVarBegin (bytes "b"), setVarBegin (bytes "a")] := by
      rw [parseTemplate, htokens]
      rfl
    have hrun : Run Matched ([setVarBegin (bytes "a"), setVarBegin (bytes "b"), setVarEnd,
        string (bytes "x"), setVarEnd], TemplateLangExecEnv.init) [] _ _ :=
      .step (.step (.step .start (by simp [Matched, isEnd]) (.node rfl rfl))
        (by simp [Matched, isEnd]) (.node rfl rfl))
        (fun _ => ⟨.setVar (bytes "b"), [.setVar (bytes "a")], rfl, rfl⟩) (.node rfl rfl)
    refine ⟨_, hparse, _, _, hrun, fun hcaptures => ?_⟩
    obtain ⟨e', he', htext, -⟩ := hcaptures.text (bytes "x")
    cases he'
    have hx := htext (.inl rfl)
    revert hx
    decide +kernel
  · have htokens : tokens ((bytes "\x7b\x7b listappendend \x7d\x7d").length + 1)
        (bytes "\x7b\x7b listappendend \x7d\x7d") = [.listappendend] := by
      decide +kernel
    refine ⟨[listAppendEnd], ?_, rfl⟩
    rw [parseTemplate, htokens]
    rfl

end TemplateASTNode

end Emdros
