/-
# Simplifying templates (`simplifyAST`)

`simplifyAST` joins literal texts that are next to each other in a chain.  A chain is executed from
its end, so that the text of the node behind comes first.

Executing the joined node adds the same text in one piece.  In the document, in a variable, in a
named set and in a list with a delimiter nobody can tell; a list without a delimiter has one element
less for every two that are joined.  `exec_simplifyAST` is for the executions that add no literal
text to such a list.

A list with a delimiter is held in pieces until its construct ends, and only their text matters then.
`settle` forgets where the pieces end: the environments before and after are compared through it.
-/
import Mathlib
import Emdros.Harvest.TemplateLang

namespace Emdros

open Lexer (bytes)

/-! ## 1. The pass -/

namespace TemplateASTNode

def isTemplateString : TemplateASTNode → Bool
  | string _ => true
  | _ => false

theorem isTemplateString_iff {node : TemplateASTNode} :
    isTemplateString node = true ↔ ∃ s, node = string s := by
  cases node <;> simp [isTemplateString]

mutual

/-- What `simplifyAST` does to the chains of a node itself. -/
def simplifyNode : TemplateASTNode → TemplateASTNode
  | ifThenElse condition execIfTrue execIfFalse =>
    ifThenElse condition (simplifyAST execIfTrue) (simplifyAST execIfFalse)
  | node => node

def simplifyAST : List TemplateASTNode → List TemplateASTNode
  | [] => []
  | node :: pNext =>
    match simplifyNode node, simplifyAST pNext with
    | string cur_string, string next_string :: rest => string (next_string ++ cur_string) :: rest
    | node, pNext => node :: pNext

end

mutual

/-- In the chains of the node no two texts are adjacent. -/
def SeparatedNode : TemplateASTNode → Prop
  | ifThenElse _ execIfTrue execIfFalse => Separated execIfTrue ∧ Separated execIfFalse
  | _ => True

/-- No two texts are adjacent, at any depth. -/
def Separated : List TemplateASTNode → Prop
  | [] => True
  | node :: pNext =>
    (isTemplateString node = true → ∀ next ∈ pNext.head?, isTemplateString next = false) ∧
      SeparatedNode node ∧ Separated pNext

end

mutual

theorem separatedNode_simplifyNode (node : TemplateASTNode) : SeparatedNode (simplifyNode node) := by
  cases node with
  | ifThenElse condition execIfTrue execIfFalse =>
    simp only [simplifyNode, SeparatedNode]
    exact ⟨separated_simplifyAST execIfTrue, separated_simplifyAST execIfFalse⟩
  | _ => simp only [simplifyNode, SeparatedNode]

/-- **The simplified chain has no two texts next to each other.** -/
theorem separated_simplifyAST (chain : List TemplateASTNode) : Separated (simplifyAST chain) := by
  cases chain with
  | nil => simp only [simplifyAST, Separated]
  | cons node pNext =>
    have hnode := separatedNode_simplifyNode node
    have hnext := separated_simplifyAST pNext
    rw [simplifyAST]
    split
    · rename_i hrest
      rw [hrest, Separated] at hnext
      simp only [Separated]
      exact ⟨fun _ => hnext.1 rfl, by simp only [SeparatedNode], hnext.2.2⟩
    · rename_i hother
      simp only [Separated]
      refine ⟨fun htext next hhead => ?_, hnode, hnext⟩
      obtain ⟨cur_string, hcur⟩ := isTemplateString_iff.mp htext
      by_contra hstring
      obtain ⟨next_string, rfl⟩ := isTemplateString_iff.mp (Bool.eq_true_of_not_eq_false hstring)
      obtain ⟨rest, hrest⟩ := List.head?_eq_some_iff.mp (Option.mem_def.mp hhead)
      exact hother _ _ _ hcur hrest

end

end TemplateASTNode

/-! ## 2. Environments without the ends of the pieces -/

namespace TemplateLangExecEnv

/-- The text of each list with a delimiter, as one piece. -/
@[simps] def settle (e : TemplateLangExecEnv) : TemplateLangExecEnv :=
  { e with m_delimited_lists := fun n => (e.m_delimited_lists n).map fun l => [l.flatten] }

theorem settle_settle (e : TemplateLangExecEnv) : e.settle.settle = e.settle := by
  simp [settle, Function.comp_def]

@[simp] theorem settle_getFeature (e : TemplateLangExecEnv) (index : Int) :
    e.settle.getFeature index = e.getFeature index := rfl

@[simp] theorem settle_getAttribute (e : TemplateLangExecEnv) (attrib_name : List UInt8) :
    e.settle.getAttribute attrib_name = e.getAttribute attrib_name := rfl

@[simp] theorem settle_dictLookup (e : TemplateLangExecEnv)
    (dict_name dict_key default_value : List UInt8) :
    e.settle.dictLookup dict_name dict_key default_value =
      e.dictLookup dict_name dict_key default_value := rfl

@[simp] theorem settle_createVarIfNotExists (e : TemplateLangExecEnv) (var_name : List UInt8) :
    e.settle.createVarIfNotExists var_name = (e.createVarIfNotExists var_name).settle := by
  cases h : e.m_variables var_name <;> simp [createVarIfNotExists, settle, h]

@[simp] theorem settle_getVar (e : TemplateLangExecEnv) (var_name : List UInt8) :
    e.settle.getVar var_name = ((e.getVar var_name).1, (e.getVar var_name).2.settle) := by
  rw [getVar, settle_createVarIfNotExists]
  rfl

@[simp] theorem settle_getCounter (e : TemplateLangExecEnv) (counter_name : List UInt8) :
    e.settle.getCounter counter_name =
      ((e.getCounter counter_name).1, (e.getCounter counter_name).2.settle) := by
  cases h : e.m_counters counter_name <;> simp [getCounter, settle, setCounter, h]

@[simp] theorem settle_createNamedSetIfNotExists (e : TemplateLangExecEnv)
    (named_set_name : List UInt8) :
    e.settle.createNamedSetIfNotExists named_set_name =
      (e.createNamedSetIfNotExists named_set_name).settle := by
  cases h : e.m_sets_under_construction named_set_name <;>
    cases h' : e.m_named_sets named_set_name <;>
      simp [createNamedSetIfNotExists, settle, h, h']

theorem settle_addToVar (e : TemplateLangExecEnv) (addition : List UInt8) :
    e.settle.addToVar addition = (e.addToVar addition).settle := by
  simp only [addToVar, settle_m_strCurrentSetVar, settle_createVarIfNotExists]
  rfl

theorem settle_addToNamedSet (e : TemplateLangExecEnv) (name addition : List UInt8) :
    e.settle.addToNamedSet name addition = (e.addToNamedSet name addition).settle := by
  simp only [addToNamedSet, settle_createNamedSetIfNotExists]
  rfl

/-- The text of a list with a delimiter goes on in the same way. -/
theorem settle_pushDelimitedList (e : TemplateLangExecEnv) (list_name addition : List UInt8) :
    (e.settle.pushDelimitedList list_name addition).settle =
      (e.pushDelimitedList list_name addition).settle := by
  simp only [pushDelimitedList, settle, mk.injEq, true_and, and_true]
  funext n
  by_cases hn : n = list_name
  · subst hn
    cases e.m_delimited_lists n <;> simp
  · simp [Function.update_of_ne hn, Option.map_map, Function.comp_def]

theorem settle_getCurEmitTarget (e : TemplateLangExecEnv) :
    e.settle.getCurEmitTarget = (e.getCurEmitTarget.1, e.getCurEmitTarget.2.settle) := by
  cases h : e.m_emit_target_stack <;> simp [getCurEmitTarget, h, pushEmitTargetStack, settle]

/-- A text adds the same to both. -/
theorem settle_addToTarget (e : TemplateLangExecEnv) (addition : List UInt8) (target : EmitTarget) :
    (e.settle.addToTarget addition target).map settle =
      (e.addToTarget addition target).map settle := by
  cases target with
  | doc =>
    simp only [addToTarget, Except.map, settle_m_nixingType]
    split
    · simp [settle, Function.comp_def]
    · rw [settle_settle]
  | list =>
    simp only [addToTarget, settle_m_list_stack]
    cases e.m_list_stack with
    | nil => rfl
    | cons list_name lists => simp [Except.map, pushList, settle, Function.comp_def]
  | delimitedList =>
    simp only [addToTarget, settle_m_list_stack]
    cases e.m_list_stack with
    | nil => rfl
    | cons list_name lists => simp only [Except.map, settle_pushDelimitedList]
  | var => simp only [addToTarget, Except.map, settle_addToVar, settle_settle]
  | namedSet =>
    simp only [addToTarget, settle_m_named_set_name_stack]
    cases e.m_named_set_name_stack with
    | nil => rfl
    | cons name names => simp only [Except.map, settle_addToNamedSet, settle_settle]

theorem settle_addToOutput (e : TemplateLangExecEnv) (addition : List UInt8) :
    (e.settle.addToOutput addition).map settle = (e.addToOutput addition).map settle := by
  simp only [addToOutput, settle_m_nixingType, settle_getCurEmitTarget]
  split
  · simp [Except.map, settle_settle]
  · exact settle_addToTarget _ _ _

theorem settle_addAllToOutput (additions : List (List UInt8)) :
    ∀ e : TemplateLangExecEnv,
      (e.settle.addAllToOutput additions).map settle = (e.addAllToOutput additions).map settle := by
  induction additions with
  | nil => exact fun e => by simp [addAllToOutput, Except.map, settle_settle]
  | cons addition rest ih =>
    intro e
    have h := settle_addToOutput e addition
    simp only [addAllToOutput]
    cases h₁ : e.settle.addToOutput addition with
    | error f =>
      cases h₂ : e.addToOutput addition with
      | error f' => simpa [h₁, h₂, Except.map] using h
      | ok e₂ => simp [h₁, h₂, Except.map] at h
    | ok e₁ =>
      cases h₂ : e.addToOutput addition with
      | error f' => simp [h₁, h₂, Except.map] at h
      | ok e₂ =>
        have hsettle : e₁.settle = e₂.settle := by simpa [h₁, h₂, Except.map] using h
        simp only
        rw [← ih e₁, hsettle, ih e₂]

theorem settle_emitVar (e : TemplateLangExecEnv) (var_name : List UInt8) :
    (e.settle.emitVar var_name).map settle = (e.emitVar var_name).map settle := by
  simp only [emitVar, settle_m_nixingType, settle_getVar]
  split
  · simp [Except.map, settle_settle]
  · exact settle_addToOutput _ _

theorem settle_addToError (e : TemplateLangExecEnv) (addition : List UInt8) :
    e.settle.addToError addition = (e.addToError addition).settle := rfl

theorem settle_emitList (e : TemplateLangExecEnv) (list_name separator : List UInt8) :
    (e.settle.emitList list_name separator).map settle =
      (e.emitList list_name separator).map settle := by
  simp only [emitList, settle_m_nixingType, settle_m_lists]
  split
  · simp [Except.map, settle_settle]
  · cases e.m_lists list_name with
    | none => simp only [Except.map, settle_addToError, settle_settle]
    | some pieces => exact settle_addToOutput _ _

theorem settle_emitNamedSet (e : TemplateLangExecEnv) (named_set_name separator : List UInt8) :
    (e.settle.emitNamedSet named_set_name separator).map settle =
      (e.emitNamedSet named_set_name separator).map settle := by
  simp only [emitNamedSet, settle_m_nixingType, settle_m_named_sets]
  split
  · simp [Except.map, settle_settle]
  · cases e.m_named_sets named_set_name with
    | none => simp only [Except.map, settle_addToError, settle_settle]
    | some members => exact settle_addToOutput _ _

theorem settle_popEmitTargetStack (e : TemplateLangExecEnv) :
    e.settle.popEmitTargetStack = (e.popEmitTargetStack.1, e.popEmitTargetStack.2.settle) := by
  simp only [popEmitTargetStack, settle_getCurEmitTarget]
  rfl

theorem settle_foldl_pushList (list_name : List UInt8) (pieces : List (List UInt8)) :
    ∀ e : TemplateLangExecEnv, pieces.foldl (fun e p => e.pushList list_name p) e.settle =
      (pieces.foldl (fun e p => e.pushList list_name p) e).settle := by
  induction pieces with
  | nil => exact fun e => rfl
  | cons p pieces ih => exact fun e => ih (e.pushList list_name p)

theorem settle_foldl_changeNamedSet (bAdd : Bool) (named_set_name : List UInt8)
    (members : List (List UInt8)) :
    ∀ e : TemplateLangExecEnv, members.foldl (changeNamedSet bAdd named_set_name) e.settle =
      (members.foldl (changeNamedSet bAdd named_set_name) e).settle := by
  induction members with
  | nil => exact fun e => rfl
  | cons m members ih => exact fun e => ih (changeNamedSet bAdd named_set_name e m)

/-- The end of a list with a delimiter takes the text as a whole. -/
theorem settle_appendDelimited (e : TemplateLangExecEnv) (list_name delimiter : List UInt8) :
    (e.settle.appendDelimited list_name delimiter).settle =
      (e.appendDelimited list_name delimiter).settle := by
  have hclear : ∀ e : TemplateLangExecEnv,
      settle { e.settle with
        m_delimited_lists := Function.update e.settle.m_delimited_lists list_name (some []) } =
      settle { e with m_delimited_lists := Function.update e.m_delimited_lists list_name (some []) } := by
    intro e
    simp only [settle, mk.injEq, true_and, and_true]
    funext n
    by_cases hn : n = list_name
    · subst hn
      simp
    · simp [Function.update_of_ne hn, Option.map_map, Function.comp_def]
  simp only [appendDelimited, settle_m_delimited_lists]
  cases e.m_delimited_lists list_name with
  | none =>
    simp only [Option.map_none, settle_addToError]
    exact hclear _
  | some pieces =>
    simp only [Option.map_some, List.flatten_cons, List.flatten_nil, List.append_nil,
      settle_foldl_pushList]
    exact hclear _

theorem settle_exitListMode (e : TemplateLangExecEnv) :
    (e.settle.exitListMode).map settle = e.exitListMode.map settle := by
  simp only [exitListMode, settle_popEmitTargetStack]
  obtain ⟨target, e⟩ := e.popEmitTargetStack
  simp only [settle_m_list_stack, settle_m_list_delimiter_stack]
  cases e.m_list_stack with
  | nil => rfl
  | cons list_name lists =>
    cases e.m_list_delimiter_stack with
    | nil => rfl
    | cons delimiter delimiters =>
      have hleave : ∀ e₁ e₂ : TemplateLangExecEnv, e₁.settle = e₂.settle →
          settle { e₁ with m_list_stack := lists, m_list_delimiter_stack := delimiters } =
            settle { e₂ with m_list_stack := lists, m_list_delimiter_stack := delimiters } :=
        fun e₁ e₂ h => congrArg
          (fun e : TemplateLangExecEnv =>
            { e with m_list_stack := lists, m_list_delimiter_stack := delimiters }) h
      simp only [Except.map, Except.ok.injEq]
      refine hleave _ _ ?_
      split
      · cases delimiter with
        | none => exact settle_settle e
        | some delimiter => exact settle_appendDelimited e list_name delimiter
      · exact settle_settle e

theorem settle_exitNamedSetAddOrRemoveMode (e : TemplateLangExecEnv) (bAdd : Bool) :
    (e.settle.exitNamedSetAddOrRemoveMode bAdd).map settle =
      (e.exitNamedSetAddOrRemoveMode bAdd).map settle := by
  simp only [exitNamedSetAddOrRemoveMode, settle_popEmitTargetStack]
  obtain ⟨target, e⟩ := e.popEmitTargetStack
  simp only [settle_m_named_set_name_stack, settle_m_named_set_delimiter_stack]
  cases e.m_named_set_name_stack with
  | nil => rfl
  | cons name names =>
    cases e.m_named_set_delimiter_stack with
    | nil => rfl
    | cons delimiter delimiters =>
      simp only [settle_m_sets_under_construction]
      cases e.m_sets_under_construction name with
      | none => simp [Except.map, settle, Function.comp_def]
      | some value =>
        simp only [Except.map, Except.ok.injEq]
        split
        · simp [settle, Function.comp_def]
        · let e₁ : TemplateLangExecEnv := { e with
            m_sets_under_construction :=
              Function.update e.m_sets_under_construction name (some [])
            m_named_set_name_stack := names
            m_named_set_delimiter_stack := delimiters }
          have h := settle_foldl_changeNamedSet bAdd name (splitPieces value delimiter) e₁
          exact (congrArg settle h).trans (settle_settle _)

theorem settle_enterSetVarMode (e : TemplateLangExecEnv) (var_name : List UInt8) :
    e.settle.enterSetVarMode var_name = (e.enterSetVarMode var_name).settle := rfl

theorem settle_exitSetVarMode (e : TemplateLangExecEnv) :
    e.settle.exitSetVarMode = e.exitSetVarMode.settle := by
  simp only [exitSetVarMode, settle_popEmitTargetStack]
  rfl

theorem settle_clearList (e : TemplateLangExecEnv) (list_name : List UInt8) :
    e.settle.clearList list_name = (e.clearList list_name).settle := by
  simp only [clearList, settle_m_lists]
  cases e.m_lists list_name <;> rfl

theorem settle_enterNamedSetMode (e : TemplateLangExecEnv) (named_set_name delimiter : List UInt8) :
    e.settle.enterNamedSetMode named_set_name delimiter =
      (e.enterNamedSetMode named_set_name delimiter).settle :=
  settle_createNamedSetIfNotExists { (e.pushEmitTargetStack .namedSet) with
    m_named_set_name_stack := named_set_name :: e.m_named_set_name_stack
    m_named_set_delimiter_stack := delimiter :: e.m_named_set_delimiter_stack } named_set_name

theorem settle_incCounter (e : TemplateLangExecEnv) (counter_name : List UInt8) (value : Int) :
    e.settle.incCounter counter_name value = (e.incCounter counter_name value).settle := by
  simp only [incCounter, settle_m_counters]
  cases e.m_counters counter_name <;> rfl

theorem settle_decCounter (e : TemplateLangExecEnv) (counter_name : List UInt8) (value : Int) :
    e.settle.decCounter counter_name value = (e.decCounter counter_name value).settle := by
  simp only [decCounter, settle_m_counters]
  cases e.m_counters counter_name <;> rfl

end TemplateLangExecEnv

/-! ## 3. Executing in a settled environment -/

open TemplateLangExecEnv

theorem TemplateCondition.settle_exec (condition : TemplateCondition) (e : TemplateLangExecEnv) :
    condition.exec e.settle = (condition.exec e).map settle := by
  cases condition with
  | featureEqual feature_index value =>
    simp only [exec, settle_getFeature]
    cases e.getFeature feature_index <;> rfl
  | varEqual variable_name value bValueIsVarName =>
    simp only [exec, settle_getVar]
    split <;> rfl
  | _ => rfl

namespace TemplateASTNode

/-- An operation on an environment that does not look into the pieces. -/
theorem map_settle_ok {e₁ e₂ : TemplateLangExecEnv} (h : e₁ = e₂.settle) :
    (Except.ok e₁ : Except TemplateFault _).map settle = (Except.ok e₂).map settle := by
  rw [h]
  simp only [Except.map, settle_settle]

mutual

/-- **A node does the same in a settled environment.** -/
theorem settle_execNode (n : TemplateASTNode) (e : TemplateLangExecEnv) :
    (execNode n e.settle).map settle = (execNode n e).map settle := by
  cases n with
  | simpleNode kind =>
    cases kind with
    | dbName => exact settle_addToOutput _ _
    | _ =>
      simp only [execNode, settle_m_pObject]
      cases e.m_pObject with
      | none => rfl
      | some pObject => exact settle_addToOutput _ _
  | feature index mangle_kind =>
    simp only [execNode, settle_getFeature]
    cases e.getFeature index with
    | error f => rfl
    | ok tmp => exact settle_addToOutput _ _
  | featureFormat index format =>
    simp only [execNode, settle_getFeature]
    cases e.getFeature index with
    | error f => rfl
    | ok tmp => exact settle_addToOutput _ _
  | attrib attrib_name => exact settle_addToOutput _ _
  | attribNoMangle attrib_name => exact settle_addToOutput _ _
  | copyAttribs => exact settle_addAllToOutput _ _
  | counter counter_name =>
    simp only [execNode, settle_getCounter]
    exact settle_addToOutput _ _
  | counterFormat counter_name format =>
    simp only [execNode, settle_getCounter]
    exact settle_addToOutput _ _
  | setCounter counter_name value => exact map_settle_ok rfl
  | setCounterVar counter_name variable_name =>
    simp only [execNode, settle_getVar]
    exact map_settle_ok rfl
  | incCounter counter_name value var_name =>
    simp only [execNode, settle_getVar]
    split
    · exact map_settle_ok (settle_incCounter _ _ _)
    · exact map_settle_ok (settle_incCounter _ _ _)
  | decCounter counter_name value var_name =>
    simp only [execNode, settle_getVar]
    split
    · exact map_settle_ok (settle_decCounter _ _ _)
    · exact map_settle_ok (settle_decCounter _ _ _)
  | string s => exact settle_addToOutput _ _
  | nixing nixingType => exact map_settle_ok rfl
  | dictlookupFeature dict_name feature_index default_value bMangleFeature format =>
    simp only [execNode, settle_getFeature]
    cases e.getFeature feature_index with
    | error f => rfl
    | ok tmp =>
      cases format with
      | none => exact settle_addToOutput _ _
      | some format => exact settle_addToOutput _ _
  | dictlookupVar dict_name var_name default_value bMangleVar =>
    simp only [execNode, settle_getVar]
    exact settle_addToOutput _ _
  | dictlookupCounter dict_name counter_name default_value =>
    simp only [execNode, settle_getCounter]
    exact settle_addToOutput _ _
  | ifThenElse condition execIfTrue execIfFalse =>
    simp only [execNode, TemplateCondition.settle_exec]
    cases condition.exec e with
    | error f => rfl
    | ok e₁ =>
      change Except.map settle (if e₁.bLastIfCondition = true then exec execIfTrue e₁.settle
        else exec execIfFalse e₁.settle) = Except.map settle (if e₁.bLastIfCondition = true then
        exec execIfTrue e₁ else exec execIfFalse e₁)
      split
      · exact settle_exec execIfTrue e₁
      · exact settle_exec execIfFalse e₁
  | listAppendBegin listID delimiter => exact map_settle_ok rfl
  | listAppendEnd => exact settle_exitListMode e
  | namedSetAddBegin namedSetID delimiter => exact map_settle_ok (settle_enterNamedSetMode _ _ _)
  | namedSetAddEnd => exact settle_exitNamedSetAddOrRemoveMode e true
  | namedSetRemoveBegin namedSetID delimiter => exact map_settle_ok (settle_enterNamedSetMode _ _ _)
  | namedSetRemoveEnd => exact settle_exitNamedSetAddOrRemoveMode e false
  | setVarSubString outputVarName input «from» max_length =>
    cases input with
    | var name =>
      simp only [execNode, subStringInput, settle_getVar]
      by_cases hname : name.isEmpty
      · simp only [hname, if_true]
        exact map_settle_ok rfl
      · simp only [hname]
        exact map_settle_ok rfl
    | attrib name mangle_kind => exact map_settle_ok rfl
    | feature index mangle_kind =>
      simp only [execNode, subStringInput, settle_getFeature]
      split
      · cases e.getFeature index with
        | error f => rfl
        | ok tmp => exact map_settle_ok rfl
      · exact map_settle_ok rfl
  | setVarNow varName value => exact map_settle_ok rfl
  | setVarBegin varName => exact map_settle_ok rfl
  | setVarEnd => exact map_settle_ok (settle_exitSetVarMode e)
  | emitVar varName => exact settle_emitVar e varName
  | listClear listID => exact map_settle_ok (settle_clearList e listID)
  | namedSetClear namedSetID => exact map_settle_ok rfl
  | listEmit listID separator => exact settle_emitList e listID separator
  | namedSetEmit namedSetID separator => exact settle_emitNamedSet e namedSetID separator

/-- ...and so does a chain. -/
theorem settle_exec (chain : List TemplateASTNode) (e : TemplateLangExecEnv) :
    (exec chain e.settle).map settle = (exec chain e).map settle := by
  cases chain with
  | nil => exact map_settle_ok rfl
  | cons node pNext =>
    have h := settle_exec pNext e
    simp only [exec]
    cases h₁ : exec pNext e.settle with
    | error f =>
      cases h₂ : exec pNext e with
      | error f' => simpa [h₁, h₂, Except.map] using h
      | ok e₂ => simp [h₁, h₂, Except.map] at h
    | ok e₁ =>
      cases h₂ : exec pNext e with
      | error f' => simp [h₁, h₂, Except.map] at h
      | ok e₂ =>
        have hsettle : e₁.settle = e₂.settle := by simpa [h₁, h₂, Except.map] using h
        simp only
        rw [← settle_execNode node e₁, hsettle, settle_execNode node e₂]

end

/-! ## 4. Two texts in one piece -/

theorem addToVar_append (e : TemplateLangExecEnv) (next_string cur_string : List UInt8) :
    e.addToVar (next_string ++ cur_string) = (e.addToVar next_string).addToVar cur_string := by
  cases h : e.m_variables e.m_strCurrentSetVar <;>
    simp [addToVar, createVarIfNotExists, h]

theorem addToNamedSet_append (e : TemplateLangExecEnv) (name next_string cur_string : List UInt8) :
    e.addToNamedSet name (next_string ++ cur_string) =
      (e.addToNamedSet name next_string).addToNamedSet name cur_string := by
  cases h : e.m_sets_under_construction name <;> cases h' : e.m_named_sets name <;>
    simp [addToNamedSet, createNamedSetIfNotExists, h, h']

/-- Except in a list without a delimiter, two texts are the same as one. -/
theorem settle_addToTarget_append (e : TemplateLangExecEnv) (next_string cur_string : List UInt8)
    {target : EmitTarget} (htarget : target ≠ .list) :
    (e.addToTarget (next_string ++ cur_string) target).map settle =
      ((e.addToTarget next_string target).bind fun e => e.addToTarget cur_string target).map
        settle := by
  cases target with
  | list => exact absurd rfl htarget
  | doc =>
    simp only [addToTarget, Except.bind]
    by_cases hoff : e.m_nixingType = .off
    · simp [hoff]
    · simp [hoff]
  | delimitedList =>
    simp only [addToTarget]
    cases hstack : e.m_list_stack with
    | nil => rfl
    | cons list_name lists =>
      simp only [Except.bind, pushDelimitedList, hstack, Except.map, settle, Except.ok.injEq,
        mk.injEq, true_and, and_true]
      funext n
      by_cases hn : n = list_name
      · subst hn
        simp
      · simp [Function.update_of_ne hn]
  | var => simp only [addToTarget, Except.bind, addToVar_append]
  | namedSet =>
    simp only [addToTarget]
    cases hstack : e.m_named_set_name_stack with
    | nil => rfl
    | cons name names =>
      have hadd : e.addToTarget next_string .namedSet = .ok (e.addToNamedSet name next_string) := by
        simp only [addToTarget, hstack]
      have hnames : (e.addToNamedSet name next_string).m_named_set_name_stack = name :: names :=
        (SameTarget.addToTarget hadd).named_set_name_stack.trans hstack
      simp only [Except.bind, hnames, addToNamedSet_append]

/-- Adding text leaves the mode and the current target. -/
theorem target_of_addToOutput {e e' : TemplateLangExecEnv} {addition : List UInt8}
    (h : e.addToOutput addition = .ok e') :
    e'.m_nixingType = e.m_nixingType ∧ e'.getCurEmitTarget.1 = e.getCurEmitTarget.1 := by
  by_cases hall : e.m_nixingType = .all
  · simp only [addToOutput, if_pos hall, Except.ok.injEq] at h
    rw [h]
    exact ⟨rfl, rfl⟩
  · obtain ⟨target, targets, e₁, hcur, hstack, hnixing⟩ := exists_getCurEmitTarget e
    simp only [addToOutput, if_neg hall, hcur] at h
    have hsame := SameTarget.addToTarget h
    have hcur' := getCurEmitTarget_of_cons (hsame.emit_target_stack.trans hstack)
    exact ⟨hsame.nixingType.trans hnixing, by rw [hcur', hcur]⟩

/-- Whether text can be added does not depend on the text. -/
theorem addToOutput_eq_error {e : TemplateLangExecEnv} {addition : List UInt8} {f : TemplateFault}
    (h : e.addToOutput addition = .error f) (other : List UInt8) :
    e.addToOutput other = .error f := by
  by_cases hall : e.m_nixingType = .all
  · simp [addToOutput, hall] at h
  · obtain ⟨target, targets, e₁, hcur, -, -⟩ := exists_getCurEmitTarget e
    simp only [addToOutput, if_neg hall, hcur] at h ⊢
    cases target with
    | doc => cases h
    | var => cases h
    | list =>
      simp only [addToTarget] at h ⊢
      cases hls : e₁.m_list_stack with
      | nil => simpa [hls] using h
      | cons list_name lists => simp [hls] at h
    | delimitedList =>
      simp only [addToTarget] at h ⊢
      cases hls : e₁.m_list_stack with
      | nil => simpa [hls] using h
      | cons list_name lists => simp [hls] at h
    | namedSet =>
      simp only [addToTarget] at h ⊢
      cases hns : e₁.m_named_set_name_stack with
      | nil => simpa [hns] using h
      | cons name names => simp [hns] at h

theorem settle_addToOutput_append {e : TemplateLangExecEnv} (next_string cur_string : List UInt8)
    (he : e.m_nixingType = .all ∨ e.getCurEmitTarget.1 ≠ .list) :
    (e.addToOutput (next_string ++ cur_string)).map settle =
      ((e.addToOutput next_string).bind fun e => e.addToOutput cur_string).map settle := by
  by_cases hall : e.m_nixingType = .all
  · simp [addToOutput, hall, Except.bind]
  · obtain ⟨target, targets, e₁, hcur, hstack, hnixing⟩ := exists_getCurEmitTarget e
    have htarget : target ≠ .list := by simpa [hcur] using he.resolve_left hall
    have hadd : ∀ addition, e.addToOutput addition = e₁.addToTarget addition target := by
      intro addition
      simp only [addToOutput, hall, if_false, hcur]
    rw [hadd, hadd, settle_addToTarget_append e₁ next_string cur_string htarget]
    congr 1
    cases hnext : e₁.addToTarget next_string target with
    | error f => rfl
    | ok e₂ =>
      have hsame := SameTarget.addToTarget hnext
      have hall₂ : e₂.m_nixingType ≠ .all := by rw [hsame.nixingType, hnixing]; exact hall
      have hcur₂ := getCurEmitTarget_of_cons (hsame.emit_target_stack.trans hstack)
      simp only [Except.bind, addToOutput, if_neg hall₂, hcur₂]

/-! ## 5. Simplifying changes nothing -/

/-- No literal text is emitted inside a list without a delimiter. -/
def LiteralsAvoidLists (c : List TemplateASTNode × TemplateLangExecEnv) : Prop :=
  ∀ s rest e, Steps c (string s :: rest, e) → e.m_nixingType = .all ∨ e.getCurEmitTarget.1 ≠ .list

/-- The result of one part after the other is the same, if the results of the parts are. -/
theorem settle_bind {x y : Except TemplateFault TemplateLangExecEnv}
    {f g : TemplateLangExecEnv → Except TemplateFault TemplateLangExecEnv}
    (hxy : x.map settle = y.map settle)
    (hfg : ∀ e e', x = .ok e → y = .ok e' → e.settle = e'.settle →
      (f e).map settle = (g e').map settle) :
    (x.bind f).map settle = (y.bind g).map settle := by
  cases x with
  | error a =>
    cases y with
    | error b => simpa [Except.map, Except.bind] using hxy
    | ok e' => simp [Except.map] at hxy
  | ok e =>
    cases y with
    | error b => simp [Except.map] at hxy
    | ok e' => exact hfg e e' rfl rfl (by simpa [Except.map] using hxy)

theorem exec_cons (node : TemplateASTNode) (pNext : List TemplateASTNode)
    (e : TemplateLangExecEnv) :
    exec (node :: pNext) e = (exec pNext e).bind (execNode node) := by
  rw [exec]
  cases exec pNext e <;> rfl

mutual

theorem settle_execNode_simplifyNode (node : TemplateASTNode) (e : TemplateLangExecEnv)
    (rest : List TemplateASTNode) (h : LiteralsAvoidLists (node :: rest, e)) :
    (execNode (simplifyNode node) e).map settle = (execNode node e).map settle := by
  cases node with
  | ifThenElse condition execIfTrue execIfFalse =>
    simp only [simplifyNode, execNode]
    cases hcond : condition.exec e with
    | error f => rfl
    | ok e₁ =>
      have hbranch := step_branch execIfTrue execIfFalse rest hcond
      simp only
      split
      · rename_i htrue
        rw [if_pos htrue] at hbranch
        exact settle_exec_simplifyAST execIfTrue e₁ rest
          fun s rest' e' hsteps => h s rest' e' (.head hbranch hsteps)
      · rename_i hfalse
        rw [if_neg hfalse] at hbranch
        exact settle_exec_simplifyAST execIfFalse e₁ rest
          fun s rest' e' hsteps => h s rest' e' (.head hbranch hsteps)
  | _ => simp only [simplifyNode]

theorem settle_exec_simplifyAST (chain : List TemplateASTNode) (e : TemplateLangExecEnv)
    (rest : List TemplateASTNode) (h : LiteralsAvoidLists (chain.reverse ++ rest, e)) :
    (exec (simplifyAST chain) e).map settle = (exec chain e).map settle := by
  cases chain with
  | nil => simp only [simplifyAST]
  | cons node pNext =>
    rw [List.reverse_cons, List.append_assoc] at h
    have hnext := settle_exec_simplifyAST pNext e (node :: rest) h
    have hnode : ∀ e₁, exec pNext e = .ok e₁ →
        (execNode (simplifyNode node) e₁).map settle = (execNode node e₁).map settle :=
      fun e₁ he₁ => settle_execNode_simplifyNode node e₁ rest
        fun s rest' e' hsteps => h s rest' e' ((steps_exec pNext he₁ (node :: rest)).trans hsteps)
    have hboth : ((exec (simplifyAST pNext) e).bind (execNode (simplifyNode node))).map settle =
        (exec (node :: pNext) e).map settle := by
      rw [exec_cons]
      refine settle_bind hnext fun e₁ e₂ _ he₂ hsettle => ?_
      rw [← settle_execNode _ e₁, hsettle, settle_execNode _ e₂]
      exact hnode e₂ he₂
    rw [simplifyAST]
    split
    · rename_i cur_string next_string rest' hcur hstring
      rw [hcur, hstring] at hboth
      rw [hstring] at hnext
      rw [exec_cons] at hnext hboth ⊢
      rw [← hboth]
      cases hrest : exec rest' e with
      | error f => rfl
      | ok e₀ =>
        rw [hrest] at hnext
        simp only [Except.bind, execNode] at hnext ⊢
        cases hadd : e₀.addToOutput next_string with
        | error f => rw [addToOutput_eq_error hadd]
        | ok e₁ =>
          -- the text of `node` is executed where `pNext` ends, and that is no plain list
          have hplain : e₁.m_nixingType = .all ∨ e₁.getCurEmitTarget.1 ≠ .list := by
            rw [hadd] at hnext
            cases hpNext : exec pNext e with
            | error f => simp [hpNext, Except.map] at hnext
            | ok e₂ =>
              have hsettle : e₁.settle = e₂.settle := by simpa [hpNext, Except.map] using hnext
              have hnode₂ : node = string cur_string := by
                cases node <;> simp_all [simplifyNode]
              subst hnode₂
              have h₂ := h cur_string rest e₂ (steps_exec pNext hpNext (string cur_string :: rest))
              have hnixing := congrArg TemplateLangExecEnv.m_nixingType hsettle
              have htarget := congrArg (fun e => (getCurEmitTarget e).1) hsettle
              simp only [settle_getCurEmitTarget] at htarget
              rw [htarget]
              exact (show e₁.m_nixingType = e₂.m_nixingType from hnixing) ▸ h₂
          have happend := settle_addToOutput_append (e := e₀) next_string cur_string (by
            obtain ⟨hnixing, htarget⟩ := target_of_addToOutput hadd
            rwa [← hnixing, ← htarget])
          rw [happend, hadd]
          rfl
    · rw [exec_cons]
      exact hboth

end

/-- What an execution leaves for others to see. -/
structure Result where
  m_pOutput : List UInt8
  m_counters : List UInt8 → Option Int
  m_variables : List UInt8 → Option (List UInt8)
  m_lists : List UInt8 → Option (List (List UInt8))
  m_named_sets : List UInt8 → Option (List (List UInt8))
  m_nixingType : TemplateNixingType

def result (e : TemplateLangExecEnv) : Result :=
  ⟨e.m_pOutput, e.m_counters, e.m_variables, e.m_lists, e.m_named_sets, e.m_nixingType⟩

theorem map_result_of_settle {x y : Except TemplateFault TemplateLangExecEnv}
    (h : x.map settle = y.map settle) : x.map result = y.map result := by
  have hresult : ∀ z : Except TemplateFault TemplateLangExecEnv,
      z.map result = (z.map settle).map result := by
    intro z
    cases z <;> rfl
  rw [hresult x, h, ← hresult y]

/-- **Simplifying changes nothing that can be seen**, whatever the nodes are and however their
constructs are nested, and leaves no two texts next to each other. -/
theorem exec_simplifyAST (chain : List TemplateASTNode) (e : TemplateLangExecEnv)
    (h : LiteralsAvoidLists (chain.reverse, e)) :
    (exec (simplifyAST chain) e).map result = (exec chain e).map result ∧
      Separated (simplifyAST chain) := by
  refine ⟨map_result_of_settle (settle_exec_simplifyAST chain e [] ?_), separated_simplifyAST chain⟩
  rwa [List.append_nil]

/-- Two texts in the document. -/
theorem exec_simplifyAST_two :
    (exec (simplifyAST [string (bytes "b"), string (bytes "a")]) init).map result =
        (exec [string (bytes "b"), string (bytes "a")] init).map result ∧
      Separated (simplifyAST [string (bytes "b"), string (bytes "a")]) := by
  refine exec_simplifyAST _ _ fun s rest e hsteps => Or.inr ?_
  rcases Relation.ReflTransGen.cases_head hsteps with heq | ⟨c, hstep, hsteps⟩
  · cases heq
    decide
  · cases hstep with
    | node plain h =>
      cases h
      rcases Relation.ReflTransGen.cases_head hsteps with heq | ⟨c, hstep, hsteps⟩
      · cases heq
        decide
      · cases hstep with
        | node plain h =>
          cases h
          rcases Relation.ReflTransGen.cases_head hsteps with heq | ⟨c, hstep, -⟩
          · cases heq
          · cases hstep

end TemplateASTNode

end Emdros
