/-
# The template language (`templatelang_classes.cpp`)

A template is a chain of nodes, linked from the last one in the text to the first.  Executing a node
executes the rest of the chain before it, so that a chain works from its end.  A node adds text to
the output, changes a counter, a variable, a list or a named set, or begins or ends a construct that
captures text.

What text is added to is decided by the environment: by the kind on top of `m_emit_target_stack`,
with the name on a stack of its own for lists and for named sets, and in one place for variables.

The executions that have no meaning in the source are kept apart by a `Fault`.
-/
import Mathlib.Logic.Function.Basic
import Mathlib.Logic.Relation
import Emdros.EMdF.JsonClasses
import Emdros.EMdF.SplitString

namespace Emdros

open Lexer (bytes)

/-! ## 1. Strings -/

namespace TemplateLang

/-- `hasXMLCharsToMangle`. -/
def hasXMLCharsToMangle (input : List UInt8) : Bool := input.any (bytes "&\"<>").contains

/-- `escapeXMLEntities`. -/
def escapeXMLEntities (input : List UInt8) : List UInt8 :=
  input.flatMap fun c =>
    if c = 38 then bytes "&amp;"
    else if c = 34 then bytes "&quot;"
    else if c = 60 then bytes "&lt;"
    else if c = 62 then bytes "&gt;"
    else [c]

/-- `hasJSONCharsToMangle`. -/
def hasJSONCharsToMangle (input : List UInt8) : Bool :=
  input.any [34, 39, 92, 8, 12, 10, 13, 9].contains

/-- `string2longlong`. -/
def string2longlong (str : List UInt8) : Int :=
  sz2longlong (str.dropWhile fun c => c = 32 || c = 10 || c = 9 || c = 13)

/-- `longlong2string_format`: a byte to pad with, and the length to pad to. -/
def longlong2string_format (l : Int) (format : List UInt8) : List UInt8 :=
  let tmp_result := longlong2string l
  match format with
  | [] => tmp_result
  | [_] => tmp_result
  | cPad :: c :: rest =>
    let nMinLength := string2longlong (c :: rest)
    List.replicate (nMinLength - tmp_result.length).toNat cPad ++ tmp_result

/-- `id_d2string`. -/
def id_d2string (i : Int) : List UInt8 := if i = 0 then bytes "NIL" else longlong2string i

/-- The elements of a `std::set`, in their order, with one more. -/
def setInsert (x : List UInt8) : List (List UInt8) → List (List UInt8)
  | [] => [x]
  | y :: rest => if x < y then x :: y :: rest else if x = y then y :: rest else y :: setInsert x rest

/-- `erase`. -/
def setErase (x : List UInt8) (s : List (List UInt8)) : List (List UInt8) := s.filter (· ≠ x)

end TemplateLang

/-! ## 2. Nodes -/

/-- `eTemplateSimpleNodeKind`. -/
inductive TemplateSimpleNodeKind where
  | id_d
  | firstMonad
  | lastMonad
  | dbName
  deriving DecidableEq, Repr

/-- `eMangleKind`. -/
inductive MangleKind where
  | xml
  | json
  | none
  deriving DecidableEq, Repr

/-- `eTemplateNixingType`. -/
inductive TemplateNixingType where
  | all
  | doc
  | off
  deriving DecidableEq, Repr

/-- The conditions of an `if`. -/
inductive TemplateCondition where
  | featureEqual (feature_index : Int) (value : List UInt8)
  | varEqual (variable_name value : List UInt8) (bValueIsVarName : Bool)
  | listEmpty (list_name : List UInt8)
  | namedSetEmpty (named_set_name : List UInt8)
  | hasAttrib (attrib_name : List UInt8)
  | attribEqual (attrib_name value : List UInt8)
  deriving DecidableEq, Repr

/-- What a substring is taken of. -/
inductive SubStringInput where
  | var (name : List UInt8)
  | attrib (name : List UInt8) (mangle_kind : MangleKind)
  | feature (index : Int) (mangle_kind : MangleKind)
  deriving DecidableEq, Repr

/-- The nodes.  A chain is the list of its nodes as they are linked: the last one of the text in
front, `m_pNext` after it. -/
inductive TemplateASTNode where
  | simpleNode (kind : TemplateSimpleNodeKind)
  | feature (index : Int) (mangle_kind : MangleKind)
  | featureFormat (index : Int) (format : List UInt8)
  | attrib (attrib_name : List UInt8)
  | attribNoMangle (attrib_name : List UInt8)
  | copyAttribs
  | counter (counter_name : List UInt8)
  | counterFormat (counter_name format : List UInt8)
  | setCounter (counter_name : List UInt8) (value : Int)
  | setCounterVar (counter_name variable_name : List UInt8)
  | incCounter (counter_name : List UInt8) (value : Int) (var_name : List UInt8)
  | decCounter (counter_name : List UInt8) (value : Int) (var_name : List UInt8)
  | string (s : List UInt8)
  | nixing (nixingType : TemplateNixingType)
  | dictlookupFeature (dict_name : List UInt8) (feature_index : Int) (default_value : List UInt8)
      (bMangleFeature : Bool) (format : Option (List UInt8))
  | dictlookupVar (dict_name var_name default_value : List UInt8) (bMangleVar : Bool)
  | dictlookupCounter (dict_name counter_name default_value : List UInt8)
  | ifThenElse (condition : TemplateCondition) (execIfTrue execIfFalse : List TemplateASTNode)
  | listAppendBegin (listID : List UInt8) (delimiter : Option (List UInt8))
  | listAppendEnd
  | namedSetAddBegin (namedSetID delimiter : List UInt8)
  | namedSetAddEnd
  | namedSetRemoveBegin (namedSetID delimiter : List UInt8)
  | namedSetRemoveEnd
  | setVarSubString (outputVarName : List UInt8) (input : SubStringInput) («from» max_length : Int)
  | setVarNow (varName value : List UInt8)
  | setVarBegin (varName : List UInt8)
  | setVarEnd
  | emitVar (varName : List UInt8)
  | listClear (listID : List UInt8)
  | namedSetClear (namedSetID : List UInt8)
  | listEmit (listID separator : List UInt8)
  | namedSetEmit (namedSetID separator : List UInt8)

/-! ## 3. The environment -/

/-- What a template reads of a `MemObject`. -/
structure TemplateLang.MemObject where
  m_first : Int
  m_last : Int
  m_id_d : Int
  m_features : List (List UInt8)

/-- `eEmitTarget`. -/
inductive EmitTarget where
  | doc
  | list
  | delimitedList
  | var
  | namedSet
  deriving DecidableEq, Repr

/-- An execution that the source gives no meaning, or an exception. -/
inductive TemplateFault where
  | noObject
  | indexOutOfRange
  | emptyStack
  deriving DecidableEq, Repr

/-- `TemplateLangExecEnv`.  The maps are partial functions, the stacks have their top in front, and
the variables and the sets under construction are the text of their `Bigstring`. -/
structure TemplateLangExecEnv where
  m_pTopStylesheet : Option JSONValue
  m_pError : List UInt8
  m_pOutput : List UInt8
  m_DBName : List UInt8
  m_attrs : List (List UInt8 × List UInt8)
  m_counters : List UInt8 → Option Int
  m_lists : List UInt8 → Option (List (List UInt8))
  m_delimited_lists : List UInt8 → Option (List (List UInt8))
  m_named_sets : List UInt8 → Option (List (List UInt8))
  m_variables : List UInt8 → Option (List UInt8)
  m_sets_under_construction : List UInt8 → Option (List UInt8)
  m_strCurrentSetVar : List UInt8
  m_list_stack : List (List UInt8)
  m_list_delimiter_stack : List (Option (List UInt8))
  m_named_set_name_stack : List (List UInt8)
  m_named_set_delimiter_stack : List (List UInt8)
  m_emit_target_stack : List EmitTarget
  m_nixingType : TemplateNixingType
  m_pObject : Option TemplateLang.MemObject
  bLastIfCondition : Bool

namespace TemplateLangExecEnv

open TemplateLang

/-- `TemplateLangExecEnv()`, with the flag that it leaves open. -/
def init : TemplateLangExecEnv where
  m_pTopStylesheet := none
  m_pError := []
  m_pOutput := []
  m_DBName := []
  m_attrs := []
  m_counters := fun _ => none
  m_lists := fun _ => none
  m_delimited_lists := fun _ => none
  m_named_sets := fun _ => none
  m_variables := fun _ => none
  m_sets_under_construction := fun _ => none
  m_strCurrentSetVar := []
  m_list_stack := []
  m_list_delimiter_stack := []
  m_named_set_name_stack := []
  m_named_set_delimiter_stack := []
  m_emit_target_stack := [.doc]
  m_nixingType := .off
  m_pObject := none
  bLastIfCondition := false

def addToError (e : TemplateLangExecEnv) (addition : List UInt8) : TemplateLangExecEnv :=
  { e with m_pError := e.m_pError ++ addition }

/-! ### Emitting text -/

def pushEmitTargetStack (e : TemplateLangExecEnv) (emitTarget : EmitTarget) : TemplateLangExecEnv :=
  { e with m_emit_target_stack := emitTarget :: e.m_emit_target_stack }

/-- `getCurEmitTarget`: an empty stack gets the document. -/
def getCurEmitTarget (e : TemplateLangExecEnv) : EmitTarget × TemplateLangExecEnv :=
  match e.m_emit_target_stack with
  | [] => (.doc, e.pushEmitTargetStack .doc)
  | top :: _ => (top, e)

def popEmitTargetStack (e : TemplateLangExecEnv) : EmitTarget × TemplateLangExecEnv :=
  match e.getCurEmitTarget with
  | (topEmitTarget, e) =>
    (topEmitTarget, { e with m_emit_target_stack := e.m_emit_target_stack.tail })

def createVarIfNotExists (e : TemplateLangExecEnv) (var_name : List UInt8) : TemplateLangExecEnv :=
  match e.m_variables var_name with
  | some _ => e
  | none => { e with m_variables := Function.update e.m_variables var_name (some []) }

def createNamedSetIfNotExists (e : TemplateLangExecEnv) (named_set_name : List UInt8) :
    TemplateLangExecEnv :=
  let e :=
    match e.m_sets_under_construction named_set_name with
    | some _ => e
    | none =>
      { e with m_sets_under_construction :=
          Function.update e.m_sets_under_construction named_set_name (some []) }
  match e.m_named_sets named_set_name with
  | some _ => e
  | none => { e with m_named_sets := Function.update e.m_named_sets named_set_name (some []) }

/-- `m_lists[list_name].push_back(addition)`. -/
def pushList (e : TemplateLangExecEnv) (list_name addition : List UInt8) : TemplateLangExecEnv :=
  { e with
    m_lists := Function.update e.m_lists list_name
      (some ((e.m_lists list_name).getD [] ++ [addition])) }

/-- `m_delimited_lists[list_name].push_back(addition)`. -/
def pushDelimitedList (e : TemplateLangExecEnv) (list_name addition : List UInt8) :
    TemplateLangExecEnv :=
  { e with
    m_delimited_lists := Function.update e.m_delimited_lists list_name
      (some ((e.m_delimited_lists list_name).getD [] ++ [addition])) }

/-- The text of the current variable goes on, which is created first. -/
def addToVar (e : TemplateLangExecEnv) (addition : List UInt8) : TemplateLangExecEnv :=
  let e := e.createVarIfNotExists e.m_strCurrentSetVar
  { e with
    m_variables := Function.update e.m_variables e.m_strCurrentSetVar
      (some ((e.m_variables e.m_strCurrentSetVar).getD [] ++ addition)) }

/-- The text for a named set goes on. -/
def addToNamedSet (e : TemplateLangExecEnv) (strNamedSetName addition : List UInt8) :
    TemplateLangExecEnv :=
  let e := e.createNamedSetIfNotExists strNamedSetName
  { e with
    m_sets_under_construction := Function.update e.m_sets_under_construction strNamedSetName
      (some ((e.m_sets_under_construction strNamedSetName).getD [] ++ addition)) }

/-- The switch in `addToOutput`. -/
def addToTarget (e : TemplateLangExecEnv) (addition : List UInt8) :
    EmitTarget → Except TemplateFault TemplateLangExecEnv
  | .doc => .ok (if e.m_nixingType = .off then { e with m_pOutput := e.m_pOutput ++ addition } else e)
  | .list =>
    match e.m_list_stack with
    | list_name :: _ => .ok (e.pushList list_name addition)
    | [] => .error .emptyStack
  | .delimitedList =>
    match e.m_list_stack with
    | list_name :: _ => .ok (e.pushDelimitedList list_name addition)
    | [] => .error .emptyStack
  | .var => .ok (e.addToVar addition)
  | .namedSet =>
    match e.m_named_set_name_stack with
    | strNamedSetName :: _ => .ok (e.addToNamedSet strNamedSetName addition)
    | [] => .error .emptyStack

/-- `addToOutput`, and `addBigstringToOutput` with the text of the `Bigstring`.  A `Bigstring` of
more than 2048 bytes that is appended to itself (`emitvar 'a'` inside of `setvar 'a'`) grows in the
source while it is being read; that is left out. -/
def addToOutput (e : TemplateLangExecEnv) (addition : List UInt8) :
    Except TemplateFault TemplateLangExecEnv :=
  if e.m_nixingType = .all then .ok e
  else
    match e.getCurEmitTarget with
    | (topEmitTarget, e) => e.addToTarget addition topEmitTarget

/-- One piece of text after the other. -/
def addAllToOutput (e : TemplateLangExecEnv) : List (List UInt8) →
    Except TemplateFault TemplateLangExecEnv
  | [] => .ok e
  | addition :: rest =>
    match e.addToOutput addition with
    | .ok e => e.addAllToOutput rest
    | .error f => .error f

/-! ### Variables, counters and attributes -/

/-- `getVar`. -/
def getVar (e : TemplateLangExecEnv) (var_name : List UInt8) : List UInt8 × TemplateLangExecEnv :=
  let e := e.createVarIfNotExists var_name
  ((e.m_variables var_name).getD [], e)

def setVar (e : TemplateLangExecEnv) (variable_name value : List UInt8) : TemplateLangExecEnv :=
  { e with m_variables := Function.update e.m_variables variable_name (some value) }

/-- `emitVar`, but for a long variable that is emitted into itself. -/
def emitVar (e : TemplateLangExecEnv) (var_name : List UInt8) :
    Except TemplateFault TemplateLangExecEnv :=
  if e.m_nixingType = .all then .ok e
  else
    match e.getVar var_name with
    | (value, e) => e.addToOutput value

def setNixing (e : TemplateLangExecEnv) (nixingType : TemplateNixingType) : TemplateLangExecEnv :=
  { e with m_nixingType := nixingType }

def setCounter (e : TemplateLangExecEnv) (counter_name : List UInt8) (value : Int) :
    TemplateLangExecEnv :=
  { e with m_counters := Function.update e.m_counters counter_name (some value) }

/-- `getCounter`: a counter that is not there is created. -/
def getCounter (e : TemplateLangExecEnv) (counter_name : List UInt8) : Int × TemplateLangExecEnv :=
  match e.m_counters counter_name with
  | none => (0, e.setCounter counter_name 0)
  | some value => (value, e)

def incCounter (e : TemplateLangExecEnv) (counter_name : List UInt8) (value : Int) :
    TemplateLangExecEnv :=
  match e.m_counters counter_name with
  | none => e.setCounter counter_name value
  | some old => e.setCounter counter_name (old + value)

def decCounter (e : TemplateLangExecEnv) (counter_name : List UInt8) (value : Int) :
    TemplateLangExecEnv :=
  match e.m_counters counter_name with
  | none => e.setCounter counter_name (-1 * value)
  | some old => e.setCounter counter_name (old - value)

/-- `getAttribute`. -/
def getAttribute (e : TemplateLangExecEnv) (attrib_name : List UInt8) : List UInt8 :=
  match e.m_attrs.find? fun a => a.1 == attrib_name with
  | some a => a.2
  | none => []

def hasAttribute (e : TemplateLangExecEnv) (attrib_name : List UInt8) : Bool :=
  (e.m_attrs.find? fun a => a.1 == attrib_name).isSome

/-- `m_pObject->getFeature(index)`, whose argument is unsigned. -/
def getFeature (e : TemplateLangExecEnv) (index : Int) : Except TemplateFault (List UInt8) :=
  match e.m_pObject with
  | none => .error .noObject
  | some pObject =>
    match pObject.m_features[(index % 2 ^ 32).toNat]? with
    | some value => .ok value
    | none => .error .indexOutOfRange

/-- `dictLookup`. -/
def dictLookup (e : TemplateLangExecEnv) (dict_name dict_key default_value : List UInt8) :
    List UInt8 :=
  let found := do
    let pDictionaries ← (← e.m_pTopStylesheet).getObjectValue (bytes "dictionaries")
    let pMyDict ← pDictionaries.getObjectValue dict_name
    pMyDict.getObjectValue dict_key
  match found with
  | some (.string value) => value
  | _ => default_value

/-! ### Lists -/

def enterListMode (e : TemplateLangExecEnv) (list_name : List UInt8)
    (delimiter : Option (List UInt8)) : TemplateLangExecEnv :=
  -- the end of `m_lists` is never what is found in `m_delimited_lists`
  let e := e.pushEmitTargetStack (if delimiter = none then .list else .delimitedList)
  { e with
    m_list_stack := list_name :: e.m_list_stack
    m_list_delimiter_stack := delimiter :: e.m_list_delimiter_stack
    m_lists := Function.update e.m_lists list_name (some ((e.m_lists list_name).getD [])) }

/-- The pieces that a text has between delimiters; an empty delimiter leaves it whole. -/
def splitPieces (value delimiter : List UInt8) : List (List UInt8) :=
  if delimiter.isEmpty then [value] else (SplitString.splitStringOnString value delimiter).getD []

/-- At the end of a list with a delimiter, its text goes to the list in pieces. -/
def appendDelimited (e : TemplateLangExecEnv) (list_name delimiter : List UInt8) :
    TemplateLangExecEnv :=
  let e :=
    match e.m_delimited_lists list_name with
    | none => e.addToError (bytes "Error: Could not find delimited list '" ++ list_name)
    | some pieces => (splitPieces pieces.flatten delimiter).foldl (fun e p => e.pushList list_name p) e
  { e with m_delimited_lists := Function.update e.m_delimited_lists list_name (some []) }

def exitListMode (e : TemplateLangExecEnv) : Except TemplateFault TemplateLangExecEnv :=
  match e.popEmitTargetStack with
  | (topEmitTarget, e) =>
    match e.m_list_stack, e.m_list_delimiter_stack with
    | list_name :: lists, pStrDelimiter :: delimiters =>
      let e :=
        if topEmitTarget = .delimitedList then
          match pStrDelimiter with
          | none => e
          | some delimiter => e.appendDelimited list_name delimiter
        else e
      .ok { e with m_list_stack := lists, m_list_delimiter_stack := delimiters }
    | _, _ => .error .emptyStack

def listIsEmpty (e : TemplateLangExecEnv) (list_name : List UInt8) : Bool :=
  ((e.m_lists list_name).getD []).isEmpty

def clearList (e : TemplateLangExecEnv) (list_name : List UInt8) : TemplateLangExecEnv :=
  match e.m_lists list_name with
  | none =>
    e.addToError (bytes "Error: Could not clear list '" ++ list_name ++ bytes "', list not found.")
  | some _ => { e with m_lists := Function.update e.m_lists list_name (some []) }

/-- `joinListInBigstring`, or `joinListEmptyBetweenInBigstring` for an empty separator. -/
def joinPieces (separator : List UInt8) (pieces : List (List UInt8)) : List UInt8 :=
  if separator.isEmpty then pieces.flatten else SplitString.joinList separator pieces

def emitList (e : TemplateLangExecEnv) (list_name separator : List UInt8) :
    Except TemplateFault TemplateLangExecEnv :=
  if e.m_nixingType = .all then .ok e
  else
    match e.m_lists list_name with
    | none => .ok (e.addToError (bytes "Error: Could not emit list '" ++ list_name ++
        bytes "' with separator '" ++ separator ++ bytes "'"))
    | some pieces => e.addToOutput (joinPieces separator pieces)

/-! ### Named sets -/

/-- `enterNamedSetAddMode` and `enterNamedSetRemoveMode`. -/
def enterNamedSetMode (e : TemplateLangExecEnv) (named_set_name delimiter : List UInt8) :
    TemplateLangExecEnv :=
  let e := e.pushEmitTargetStack .namedSet
  let e := { e with
    m_named_set_name_stack := named_set_name :: e.m_named_set_name_stack
    m_named_set_delimiter_stack := delimiter :: e.m_named_set_delimiter_stack }
  e.createNamedSetIfNotExists named_set_name

/-- `m_named_sets[named_set_name].insert(set_member)`, or `erase`. -/
def changeNamedSet (bAdd : Bool) (named_set_name : List UInt8) (e : TemplateLangExecEnv)
    (set_member : List UInt8) : TemplateLangExecEnv :=
  let s := (e.m_named_sets named_set_name).getD []
  { e with
    m_named_sets := Function.update e.m_named_sets named_set_name
      (some (if bAdd then setInsert set_member s else setErase set_member s)) }

/-- `exitNamedSetAddMode` and `exitNamedSetRemoveMode`. -/
def exitNamedSetAddOrRemoveMode (e : TemplateLangExecEnv) (bAdd : Bool) :
    Except TemplateFault TemplateLangExecEnv :=
  match e.popEmitTargetStack with
  | (_, e) =>
    match e.m_named_set_name_stack, e.m_named_set_delimiter_stack with
    | named_set_name :: names, delimiter :: delimiters =>
      let e := { e with
        m_named_set_name_stack := names
        m_named_set_delimiter_stack := delimiters }
      match e.m_sets_under_construction named_set_name with
      | none => .ok e
      | some value =>
        let e := { e with
          m_sets_under_construction :=
            Function.update e.m_sets_under_construction named_set_name (some []) }
        .ok (if value.isEmpty then e
          else (splitPieces value delimiter).foldl (changeNamedSet bAdd named_set_name) e)
    | _, _ => .error .emptyStack

def namedSetIsEmpty (e : TemplateLangExecEnv) (named_set_name : List UInt8) : Bool :=
  ((e.m_named_sets named_set_name).getD []).isEmpty

def clearNamedSet (e : TemplateLangExecEnv) (named_set_name : List UInt8) : TemplateLangExecEnv :=
  { e with
    m_named_sets := Function.update e.m_named_sets named_set_name
      ((e.m_named_sets named_set_name).map fun _ => [])
    m_sets_under_construction := Function.update e.m_sets_under_construction named_set_name
      ((e.m_sets_under_construction named_set_name).map fun _ => []) }

def emitNamedSet (e : TemplateLangExecEnv) (named_set_name separator : List UInt8) :
    Except TemplateFault TemplateLangExecEnv :=
  if e.m_nixingType = .all then .ok e
  else
    match e.m_named_sets named_set_name with
    | none => .ok (e.addToError (bytes "Error: Could not emit named_set '" ++ named_set_name ++
        bytes "' with separator '" ++ separator ++ bytes "'"))
    | some members => e.addToOutput (joinPieces separator members)

/-! ### Capturing a variable -/

def enterSetVarMode (e : TemplateLangExecEnv) (var_name : List UInt8) : TemplateLangExecEnv :=
  let e := { e with
    m_strCurrentSetVar := var_name
    m_variables := Function.update e.m_variables var_name (some []) }
  e.pushEmitTargetStack .var

def exitSetVarMode (e : TemplateLangExecEnv) : TemplateLangExecEnv :=
  match e.popEmitTargetStack with
  | (_, e) => { e with m_strCurrentSetVar := [] }

/-! ### What text leaves alone -/

/-- What decides where text is added: the nixing mode, the stacks and the current variable. -/
structure SameTarget (e e' : TemplateLangExecEnv) : Prop where
  nixingType : e'.m_nixingType = e.m_nixingType
  emit_target_stack : e'.m_emit_target_stack = e.m_emit_target_stack
  list_stack : e'.m_list_stack = e.m_list_stack
  list_delimiter_stack : e'.m_list_delimiter_stack = e.m_list_delimiter_stack
  named_set_name_stack : e'.m_named_set_name_stack = e.m_named_set_name_stack
  named_set_delimiter_stack : e'.m_named_set_delimiter_stack = e.m_named_set_delimiter_stack
  strCurrentSetVar : e'.m_strCurrentSetVar = e.m_strCurrentSetVar

namespace SameTarget

variable {e e' e'' : TemplateLangExecEnv}

theorem refl (e : TemplateLangExecEnv) : SameTarget e e := ⟨rfl, rfl, rfl, rfl, rfl, rfl, rfl⟩

theorem trans (h : SameTarget e e') (h' : SameTarget e' e'') : SameTarget e e'' :=
  ⟨h'.1.trans h.1, h'.2.trans h.2, h'.3.trans h.3, h'.4.trans h.4, h'.5.trans h.5, h'.6.trans h.6,
    h'.7.trans h.7⟩

theorem createVarIfNotExists (e : TemplateLangExecEnv) (var_name : List UInt8) :
    SameTarget e (e.createVarIfNotExists var_name) := by
  unfold TemplateLangExecEnv.createVarIfNotExists
  split <;> exact ⟨rfl, rfl, rfl, rfl, rfl, rfl, rfl⟩

theorem createNamedSetIfNotExists (e : TemplateLangExecEnv) (named_set_name : List UInt8) :
    SameTarget e (e.createNamedSetIfNotExists named_set_name) := by
  cases h : e.m_sets_under_construction named_set_name <;>
    cases h' : e.m_named_sets named_set_name <;>
      simp only [TemplateLangExecEnv.createNamedSetIfNotExists, h, h'] <;>
        exact ⟨rfl, rfl, rfl, rfl, rfl, rfl, rfl⟩

/-- Text that is added does not change where text is added. -/
theorem addToTarget {addition : List UInt8} {target : EmitTarget}
    (h : e.addToTarget addition target = .ok e') : SameTarget e e' := by
  cases target with
  | doc =>
    simp only [TemplateLangExecEnv.addToTarget, Except.ok.injEq] at h
    split at h <;> cases h <;> exact ⟨rfl, rfl, rfl, rfl, rfl, rfl, rfl⟩
  | list =>
    simp only [TemplateLangExecEnv.addToTarget] at h
    split at h <;> cases h
    exact ⟨rfl, rfl, rfl, rfl, rfl, rfl, rfl⟩
  | delimitedList =>
    simp only [TemplateLangExecEnv.addToTarget] at h
    split at h <;> cases h
    exact ⟨rfl, rfl, rfl, rfl, rfl, rfl, rfl⟩
  | var =>
    cases h
    exact (createVarIfNotExists e e.m_strCurrentSetVar).trans ⟨rfl, rfl, rfl, rfl, rfl, rfl, rfl⟩
  | namedSet =>
    simp only [TemplateLangExecEnv.addToTarget] at h
    split at h <;> cases h
    rename_i name names hnames
    exact (createNamedSetIfNotExists e name).trans ⟨rfl, rfl, rfl, rfl, rfl, rfl, rfl⟩

end SameTarget

/-- Where a target is on the stack, it is the current one. -/
theorem getCurEmitTarget_of_cons {e : TemplateLangExecEnv} {target : EmitTarget}
    {targets : List EmitTarget} (h : e.m_emit_target_stack = target :: targets) :
    e.getCurEmitTarget = (target, e) := by
  simp only [getCurEmitTarget, h]

/-- There is always a current target, at least from then on. -/
theorem exists_getCurEmitTarget (e : TemplateLangExecEnv) : ∃ target targets e₁,
    e.getCurEmitTarget = (target, e₁) ∧ e₁.m_emit_target_stack = target :: targets ∧
      e₁.m_nixingType = e.m_nixingType := by
  cases h : e.m_emit_target_stack with
  | nil =>
    refine ⟨.doc, [], e.pushEmitTargetStack .doc, ?_, ?_, rfl⟩
    · simp only [getCurEmitTarget, h]
    · simp only [pushEmitTargetStack, h]
  | cons target targets => exact ⟨target, targets, e, getCurEmitTarget_of_cons h, h, rfl⟩

end TemplateLangExecEnv

/-! ## 4. Executing a template -/

open TemplateLang

/-- The text of a value in the given form. -/
def MangleKind.mangle : MangleKind → List UInt8 → List UInt8
  | xml, tmp => if hasXMLCharsToMangle tmp then escapeXMLEntities tmp else tmp
  | json, tmp => if hasJSONCharsToMangle tmp then escapeJSONChars tmp else tmp
  | none, tmp => tmp

/-- `substr` from a place counted from the beginning, or from the end if it is negative. -/
def subString (input_string : List UInt8) («from» max_length : Int) : List UInt8 :=
  if «from» < 0 then
    (input_string.drop (input_string.length - «from».natAbs)).take max_length.toNat
  else (input_string.drop «from».toNat).take max_length.toNat

namespace TemplateCondition

/-- `exec` of the condition of an `if`. -/
def exec (e : TemplateLangExecEnv) :
    TemplateCondition → Except TemplateFault TemplateLangExecEnv
  | featureEqual feature_index value => do
    let featureValue ← e.getFeature feature_index
    return { e with bLastIfCondition := featureValue == value }
  | varEqual variable_name value bValueIsVarName =>
    match e.getVar variable_name with
    | (variableValue, e) =>
      if bValueIsVarName then
        match e.getVar value with
        | (variable2Value, e) => .ok { e with bLastIfCondition := variableValue == variable2Value }
      else .ok { e with bLastIfCondition := variableValue == value }
  | listEmpty list_name => .ok { e with bLastIfCondition := e.listIsEmpty list_name }
  | namedSetEmpty named_set_name =>
    .ok { e with bLastIfCondition := e.namedSetIsEmpty named_set_name }
  | hasAttrib attrib_name => .ok { e with bLastIfCondition := e.hasAttribute attrib_name }
  | attribEqual attrib_name value =>
    .ok { e with bLastIfCondition := e.getAttribute attrib_name == value }

end TemplateCondition

namespace TemplateASTNode

/-- The pieces that `TemplateCopyAttribs` adds for one attribute. -/
def attribPieces (e : TemplateLangExecEnv) (attrib_name : List UInt8) : List (List UInt8) :=
  [bytes " ", attrib_name, bytes "=\"", MangleKind.xml.mangle (e.getAttribute attrib_name),
    bytes "\""]

/-- The input of `TemplateSetVarSubString`. -/
def subStringInput (e : TemplateLangExecEnv) :
    SubStringInput → Except TemplateFault (List UInt8 × TemplateLangExecEnv)
  | .var name => .ok (if name.isEmpty then ([], e) else e.getVar name)
  | .attrib name mangle_kind =>
    .ok (mangle_kind.mangle (if name.isEmpty then [] else e.getAttribute name), e)
  | .feature index mangle_kind => do
    let tmp ← if 0 ≤ index then e.getFeature index else .ok []
    return (mangle_kind.mangle tmp, e)

mutual

/-- What `exec` does after the rest of the chain. -/
def execNode : TemplateASTNode → TemplateLangExecEnv → Except TemplateFault TemplateLangExecEnv
  | simpleNode .dbName, e => e.addToOutput e.m_DBName
  | simpleNode .id_d, e =>
    match e.m_pObject with
    | none => .error .noObject
    | some pObject => e.addToOutput (id_d2string pObject.m_id_d)
  | simpleNode .firstMonad, e =>
    match e.m_pObject with
    | none => .error .noObject
    | some pObject => e.addToOutput (longlong2string pObject.m_first)
  | simpleNode .lastMonad, e =>
    match e.m_pObject with
    | none => .error .noObject
    | some pObject => e.addToOutput (longlong2string pObject.m_last)
  | feature index mangle_kind, e => do
    let tmp ← e.getFeature index
    e.addToOutput (mangle_kind.mangle tmp)
  | featureFormat index format, e => do
    let tmp ← e.getFeature index
    e.addToOutput (longlong2string_format (string2longlong tmp) format)
  | attrib attrib_name, e => e.addToOutput (MangleKind.xml.mangle (e.getAttribute attrib_name))
  | attribNoMangle attrib_name, e => e.addToOutput (e.getAttribute attrib_name)
  | copyAttribs, e => e.addAllToOutput (e.m_attrs.flatMap fun a => attribPieces e a.1)
  | counter counter_name, e =>
    match e.getCounter counter_name with
    | (value, e) => e.addToOutput (longlong2string value)
  | counterFormat counter_name format, e =>
    match e.getCounter counter_name with
    | (counter_value, e) => e.addToOutput (longlong2string_format counter_value format)
  | setCounter counter_name value, e => .ok (e.setCounter counter_name value)
  | setCounterVar counter_name variable_name, e =>
    match e.getVar variable_name with
    | (varValue, e) => .ok (e.setCounter counter_name (string2longlong varValue))
  | incCounter counter_name value var_name, e =>
    if var_name.isEmpty then .ok (e.incCounter counter_name value)
    else
      match e.getVar var_name with
      | (varValue, e) => .ok (e.incCounter counter_name (string2longlong varValue))
  | decCounter counter_name value var_name, e =>
    if var_name.isEmpty then .ok (e.decCounter counter_name value)
    else
      match e.getVar var_name with
      | (varValue, e) => .ok (e.decCounter counter_name (string2longlong varValue))
  | string s, e => e.addToOutput s
  | nixing nixingType, e => .ok (e.setNixing nixingType)
  | dictlookupFeature dict_name feature_index default_value bMangleFeature format, e => do
    let tmp ← e.getFeature feature_index
    let featureValue := if bMangleFeature then MangleKind.xml.mangle tmp else tmp
    let dictlookupValue := e.dictLookup dict_name featureValue default_value
    match format with
    | none => e.addToOutput dictlookupValue
    | some format =>
      e.addToOutput (longlong2string_format (string2longlong dictlookupValue) format)
  | dictlookupVar dict_name var_name default_value bMangleVar, e =>
    match e.getVar var_name with
    | (tmp, e) =>
      let varValue := if bMangleVar then MangleKind.xml.mangle tmp else tmp
      e.addToOutput (e.dictLookup dict_name varValue default_value)
  | dictlookupCounter dict_name counter_name default_value, e =>
    match e.getCounter counter_name with
    | (value, e) => e.addToOutput (e.dictLookup dict_name (longlong2string value) default_value)
  | ifThenElse condition execIfTrue execIfFalse, e =>
    match condition.exec e with
    | .error f => .error f
    | .ok e => if e.bLastIfCondition then exec execIfTrue e else exec execIfFalse e
  | listAppendBegin listID delimiter, e => .ok (e.enterListMode listID delimiter)
  | listAppendEnd, e => e.exitListMode
  | namedSetAddBegin namedSetID delimiter, e => .ok (e.enterNamedSetMode namedSetID delimiter)
  | namedSetAddEnd, e => e.exitNamedSetAddOrRemoveMode true
  | namedSetRemoveBegin namedSetID delimiter, e => .ok (e.enterNamedSetMode namedSetID delimiter)
  | namedSetRemoveEnd, e => e.exitNamedSetAddOrRemoveMode false
  | setVarSubString outputVarName input «from» max_length, e => do
    let (input_string, e) ← subStringInput e input
    return e.setVar outputVarName (subString input_string «from» max_length)
  | setVarNow varName value, e => .ok (e.setVar varName value)
  | setVarBegin varName, e => .ok (e.enterSetVarMode varName)
  | setVarEnd, e => .ok e.exitSetVarMode
  | emitVar varName, e => e.emitVar varName
  | listClear listID, e => .ok (e.clearList listID)
  | namedSetClear namedSetID, e => .ok (e.clearNamedSet namedSetID)
  | listEmit listID separator, e => e.emitList listID separator
  | namedSetEmit namedSetID separator, e => e.emitNamedSet namedSetID separator

/-- `exec` of a chain, from its end. -/
def exec : List TemplateASTNode → TemplateLangExecEnv → Except TemplateFault TemplateLangExecEnv
  | [], e => .ok e
  | node :: pNext, e =>
    match exec pNext e with
    | .error f => .error f
    | .ok e => execNode node e

end

/-! ## 5. Runs -/

/-- The node has chains of its own. -/
def isIf : TemplateASTNode → Bool
  | ifThenElse _ _ _ => true
  | _ => false

/-- One step of an execution.  The nodes that are still to be executed are in the order of the text;
an `if` puts one of its chains in front of them. -/
inductive Step : List TemplateASTNode × TemplateLangExecEnv →
    List TemplateASTNode × TemplateLangExecEnv → Prop
  | node {n rest e e'} (plain : isIf n = false) (h : execNode n e = .ok e') :
      Step (n :: rest, e) (rest, e')
  | branch {condition execIfTrue execIfFalse rest e e'} (h : condition.exec e = .ok e') :
      Step (ifThenElse condition execIfTrue execIfFalse :: rest, e)
        ((if e'.bLastIfCondition then execIfTrue else execIfFalse).reverse ++ rest, e')

/-- The next step fails. -/
inductive Fails (f : TemplateFault) : List TemplateASTNode × TemplateLangExecEnv → Prop
  | node {n rest e} (plain : isIf n = false) (h : execNode n e = .error f) : Fails f (n :: rest, e)
  | branch {condition execIfTrue execIfFalse rest e} (h : condition.exec e = .error f) :
      Fails f (ifThenElse condition execIfTrue execIfFalse :: rest, e)

abbrev Steps := Relation.ReflTransGen Step

theorem step_branch {condition : TemplateCondition} (execIfTrue execIfFalse rest : List TemplateASTNode)
    {e e' : TemplateLangExecEnv} (h : condition.exec e = .ok e') :
    Step (ifThenElse condition execIfTrue execIfFalse :: rest, e)
      ((if e'.bLastIfCondition then execIfTrue else execIfFalse).reverse ++ rest, e') := .branch h

mutual

/-- A node that is executed is executed step by step. -/
theorem steps_execNode (n : TemplateASTNode) {e e' : TemplateLangExecEnv}
    (h : execNode n e = .ok e') (rest : List TemplateASTNode) : Steps (n :: rest, e) (rest, e') := by
  cases n with
  | ifThenElse condition execIfTrue execIfFalse =>
    rw [execNode] at h
    split at h
    · cases h
    · rename_i e₁ he₁
      have hstep := step_branch execIfTrue execIfFalse rest he₁
      split at h
      · rename_i hcond
        rw [if_pos hcond] at hstep
        exact .head hstep (steps_exec execIfTrue h rest)
      · rename_i hcond
        rw [if_neg hcond] at hstep
        exact .head hstep (steps_exec execIfFalse h rest)
  | _ => exact .single (.node rfl h)

/-- ...and so is a chain. -/
theorem steps_exec (chain : List TemplateASTNode) {e e' : TemplateLangExecEnv}
    (h : exec chain e = .ok e') (rest : List TemplateASTNode) :
    Steps (chain.reverse ++ rest, e) (rest, e') := by
  cases chain with
  | nil =>
    cases h
    exact .refl
  | cons node pNext =>
    rw [exec] at h
    split at h
    · cases h
    · rename_i e₁ he₁
      have hnext := steps_exec pNext he₁ (node :: rest)
      rw [List.reverse_cons, List.append_assoc]
      exact hnext.trans (steps_execNode node h rest)

end

mutual

/-- A node that fails does so at one of its steps. -/
theorem fails_execNode (n : TemplateASTNode) {e : TemplateLangExecEnv} {f : TemplateFault}
    (h : execNode n e = .error f) (rest : List TemplateASTNode) :
    ∃ c, Steps (n :: rest, e) c ∧ Fails f c := by
  cases n with
  | ifThenElse condition execIfTrue execIfFalse =>
    rw [execNode] at h
    split at h
    · rename_i f' hf'
      cases h
      exact ⟨_, .refl, .branch hf'⟩
    · rename_i e₁ he₁
      have hstep := step_branch execIfTrue execIfFalse rest he₁
      split at h
      · rename_i hcond
        rw [if_pos hcond] at hstep
        obtain ⟨c, hc, hfails⟩ := fails_exec execIfTrue h rest
        exact ⟨c, .head hstep hc, hfails⟩
      · rename_i hcond
        rw [if_neg hcond] at hstep
        obtain ⟨c, hc, hfails⟩ := fails_exec execIfFalse h rest
        exact ⟨c, .head hstep hc, hfails⟩
  | _ => exact ⟨_, .refl, .node rfl h⟩

/-- ...and so does a chain. -/
theorem fails_exec (chain : List TemplateASTNode) {e : TemplateLangExecEnv} {f : TemplateFault}
    (h : exec chain e = .error f) (rest : List TemplateASTNode) :
    ∃ c, Steps (chain.reverse ++ rest, e) c ∧ Fails f c := by
  cases chain with
  | nil => cases h
  | cons node pNext =>
    rw [exec] at h
    rw [List.reverse_cons, List.append_assoc]
    split at h
    · rename_i f' hf'
      cases h
      exact fails_exec pNext hf' (node :: rest)
    · rename_i e₁ he₁
      obtain ⟨c, hc, hfails⟩ := fails_execNode node h rest
      exact ⟨c, (steps_exec pNext he₁ (node :: rest)).trans hc, hfails⟩

end

end TemplateASTNode

end Emdros
