/-
# The JSON parser (`json.yxx`, `json_classes.cpp`)

The grammar with its actions, the tables that Lemon makes of it, and `jjparse`, which reads one token
after the other and gives it to the parser.

A state of the tables is named after what has been read of the innermost rule.  A state in which one
rule is complete and nothing else can happen is none: the rule is pending there.
-/
import Emdros.Base.Lemon
import Emdros.EMdF.JsonClasses
import Emdros.EMdF.JsonScanner

namespace Emdros

open Lexer (bytes)
open JSONScanner (Token Scanned)

/-- `JSONExecEnv`. -/
structure JSONExecEnv where
  m_pError : List UInt8
  bSyntaxError : Bool
  m_pTopValue : Option JSONValue

namespace JSONExecEnv

/-- `JSONExecEnv()`. -/
def init : JSONExecEnv := ⟨[], false, none⟩

def addToError (addition : List UInt8) (pEE : JSONExecEnv) : JSONExecEnv :=
  { pEE with m_pError := pEE.m_pError ++ addition ++ bytes "\n" }

def prependError (addition : List UInt8) (pEE : JSONExecEnv) : JSONExecEnv :=
  { pEE with m_pError := addition ++ bytes "\n" ++ pEE.m_pError }

end JSONExecEnv

namespace JSONParser

/-! ## 1. Grammar -/

/-- The nonterminal symbols. -/
inductive NonTerm where
  | top_value
  | json_value
  | json_object
  | opt_comma
  | json_key_value_list
  | json_key_value_list_element
  | json_list
  | json_value_list
  | json_string
  | json_boolean
  | json_null
  | json_integer
  deriving DecidableEq, Repr

/-- The rules, in the order of the grammar. -/
inductive Rule where
  | topValue              -- top_value ::= json_value
  | valueObject           -- json_value ::= json_object
  | valueList             -- json_value ::= json_list
  | valueBoolean          -- json_value ::= json_boolean
  | valueString           -- json_value ::= json_string
  | valueInteger          -- json_value ::= json_integer
  | valueNull             -- json_value ::= json_null
  | object                -- json_object ::= { json_key_value_list opt_comma }
  | objectEmpty           -- json_object ::= { }
  | comma                 -- opt_comma ::= ,
  | noComma               -- opt_comma ::=
  | pairsFirst            -- json_key_value_list ::= json_key_value_list_element
  | pairsNext             -- json_key_value_list ::= json_key_value_list , json_key_value_list_element
  | pair                  -- json_key_value_list_element ::= STRING : json_value
  | listEmpty             -- json_list ::= [ ]
  | list                  -- json_list ::= [ json_value_list opt_comma ]
  | elementsFirst         -- json_value_list ::= json_value
  | elementsNext          -- json_value_list ::= json_value_list , json_value
  | string                -- json_string ::= STRING
  | true                  -- json_boolean ::= TRUE
  | false                 -- json_boolean ::= FALSE
  | null                  -- json_null ::= NULL
  | integer               -- json_integer ::= INTEGER
  deriving DecidableEq, Repr

/-- The left-hand side of a rule. -/
def Rule.lhs : Rule → NonTerm
  | topValue => .top_value
  | valueObject | valueList | valueBoolean | valueString | valueInteger | valueNull => .json_value
  | object | objectEmpty => .json_object
  | comma | noComma => .opt_comma
  | pairsFirst | pairsNext => .json_key_value_list
  | pair => .json_key_value_list_element
  | listEmpty | list => .json_list
  | elementsFirst | elementsNext => .json_value_list
  | string => .json_string
  | true | false => .json_boolean
  | null => .json_null
  | integer => .json_integer

/-- The number of symbols on the right-hand side. -/
def Rule.nrhs : Rule → Nat
  | noComma => 0
  | object | list => 4
  | pairsNext | pair | elementsNext => 3
  | objectEmpty | listEmpty => 2
  | _ => 1

/-- The values on the stack. -/
inductive Minor where
  | token (t : Option Token)
  | value (v : JSONValue)
  | elements (tail : List JSONValue)
  | pairs (tail : List (List UInt8 × JSONValue))
  | optComma (n : Int)
  | unset

/-- The actions of the grammar. -/
def act : Rule → List Minor → JSONExecEnv → Option (Minor × JSONExecEnv)
  | .topValue, [.value x], pEE => some (.unset, { pEE with m_pTopValue := some x })
  | .valueObject, [.value x], pEE => some (.value x, pEE)
  | .valueList, [.value x], pEE => some (.value x, pEE)
  | .valueBoolean, [.value x], pEE => some (.value x, pEE)
  | .valueString, [.value x], pEE => some (.value x, pEE)
  | .valueInteger, [.value x], pEE => some (.value x, pEE)
  | .valueNull, [.value x], pEE => some (.value x, pEE)
  | .object, [_, .pairs x, _, _], pEE => some (.value (.ofKeyValuePairs x), pEE)
  | .objectEmpty, [_, _], pEE => some (.value (.ofKeyValuePairs []), pEE)
  | .comma, [_], pEE => some (.optComma 0, pEE)
  | .noComma, [], pEE => some (.optComma 0, pEE)
  | .pairsFirst, [.pairs e], pEE => some (.pairs e, pEE)
  | .pairsNext, [.pairs l, _, .pairs [e]], pEE => some (.pairs (e :: l), pEE)
  | .pair, [.token (some (.string s)), _, .value x], pEE => some (.pairs [(s, x)], pEE)
  | .listEmpty, [_, _], pEE => some (.value (.ofListElements []), pEE)
  | .list, [_, .elements x, _, _], pEE => some (.value (.ofListElements x), pEE)
  | .elementsFirst, [.value e], pEE => some (.elements [e], pEE)
  | .elementsNext, [.elements l, _, .value e], pEE => some (.elements (e :: l), pEE)
  | .string, [.token (some (.string s))], pEE => some (.value (.string s), pEE)
  | .true, [_], pEE => some (.value (.boolean Bool.true), pEE)
  | .false, [_], pEE => some (.value (.boolean Bool.false), pEE)
  | .null, [_], pEE => some (.value .null, pEE)
  | .integer, [.token (some (.integer i))], pEE => some (.value (.integer i), pEE)
  | _, _, _ => none

/-! ## 2. Tables -/

/-- The states. -/
inductive State where
  | start
  | topValue              -- json_value .
  | listOpen              -- [ .
  | listElements          -- [ json_value_list .
  | listComma             -- json_value_list , .
  | listEnd               -- [ json_value_list opt_comma .
  | objectOpen            -- { .
  | objectPairs           -- { json_key_value_list .
  | objectComma           -- json_key_value_list , .
  | objectEnd             -- { json_key_value_list opt_comma .
  | key                   -- STRING .
  | keyColon              -- STRING : .
  deriving DecidableEq, Repr

/-- What begins a value, in the states that wait for one. -/
def valueAction : Token → Option (Lemon.Action State Rule)
  | .keyTrue => some (.shiftReduce .true)
  | .keyFalse => some (.shiftReduce .false)
  | .keyNull => some (.shiftReduce .null)
  | .integer _ => some (.shiftReduce .integer)
  | .string _ => some (.shiftReduce .string)
  | .keyBracketOpen => some (.shift .listOpen)
  | .keyBraceOpen => some (.shift .objectOpen)
  | _ => none

/-- The table of actions.  Where a state has a rule to reduce by, it does so on every token that it
does not shift; only the start symbol waits for the end of the input. -/
def shiftAction : State → Option Token → Lemon.Action State Rule
  | .start, some t => (valueAction t).getD .error
  | .topValue, none => .reduce .topValue
  | .listOpen, some .keyBracketClose => .shiftReduce .listEmpty
  | .listOpen, some t => (valueAction t).getD .error
  | .listElements, some .keyComma => .shift .listComma
  | .listElements, _ => .reduce .noComma
  | .listComma, some t => (valueAction t).getD (.reduce .comma)
  | .listComma, none => .reduce .comma
  | .listEnd, some .keyBracketClose => .shiftReduce .list
  | .objectOpen, some (.string _) => .shift .key
  | .objectOpen, some .keyBraceClose => .shiftReduce .objectEmpty
  | .objectPairs, some .keyComma => .shift .objectComma
  | .objectPairs, _ => .reduce .noComma
  | .objectComma, some (.string _) => .shift .key
  | .objectComma, _ => .reduce .comma
  | .objectEnd, some .keyBraceClose => .shiftReduce .object
  | .key, some .keyColon => .shift .keyColon
  | .keyColon, some t => (valueAction t).getD .error
  | _, _ => .error

/-- Where a symbol leads from the state before it. -/
def gotoAction : State → NonTerm → Option (Lemon.StateNo State Rule)
  | .start, .top_value => some .accept
  | .start, .json_value => some (.state .topValue)
  | .listOpen, .json_value => some (.pending .elementsFirst)
  | .listComma, .json_value => some (.pending .elementsNext)
  | .keyColon, .json_value => some (.pending .pair)
  | .listOpen, .json_value_list => some (.state .listElements)
  | .listElements, .opt_comma => some (.state .listEnd)
  | .objectOpen, .json_key_value_list_element => some (.pending .pairsFirst)
  | .objectComma, .json_key_value_list_element => some (.pending .pairsNext)
  | .objectOpen, .json_key_value_list => some (.state .objectPairs)
  | .objectPairs, .opt_comma => some (.state .objectEnd)
  | _, .json_object => some (.pending .valueObject)
  | _, .json_list => some (.pending .valueList)
  | _, .json_boolean => some (.pending .valueBoolean)
  | _, .json_string => some (.pending .valueString)
  | _, .json_integer => some (.pending .valueInteger)
  | _, .json_null => some (.pending .valueNull)
  | _, _ => none

/-- `%syntax_error`. -/
def syntaxError (lookahead : Option Token) (pEE : JSONExecEnv) : JSONExecEnv :=
  let name := match lookahead with
    | none => bytes "<<EOF>>"
    | some t => t.getTokenName
  { pEE with bSyntaxError := true }.addToError (bytes "syntax error near " ++ name)

/-- The parser; the grammar does not set the size of the stack, and Lemon takes a hundred. -/
def tables : Lemon.Tables State Rule Token Minor JSONExecEnv where
  stackDepth := 100
  start := .start
  shiftAction := shiftAction
  reduceAction q r := gotoAction q r.lhs
  nrhs := Rule.nrhs
  act := act
  minor := .token
  syntaxError := syntaxError
  parseFailure pEE := { pEE with bSyntaxError := true }

/-- The state of the parser between two tokens. -/
abbrev Parser := Lemon.Parser State Rule Minor

/-- `JSONParser`: no token takes more than six turns. -/
def parse (token : Option Token) (pParser : Parser) (pEE : JSONExecEnv) :
    Option (Parser × JSONExecEnv) := tables.parse 6 token pParser pEE

end JSONParser

/-! ## 3. Reading -/

/-- `jjlex`: the next token and the text after it, or the 0 of the scanner. -/
def jjlex (text : List UInt8) : Option (Option (Token × List UInt8)) :=
  match JSONScanner.scan text with
  | none => none
  | some (.token t cur) => some (some (t, cur))
  | some _ => some none

/-- The loop of `jjparse`. -/
def jjparseLoop : Nat → List UInt8 → JSONParser.Parser → JSONExecEnv →
    Option (JSONParser.Parser × JSONExecEnv)
  | 0, _, _, _ => none
  | fuel + 1, text, pParser, pEE =>
    match jjlex text with
    | none => none
    | some none => some (pParser, pEE)
    | some (some (t, cur)) =>
      if pEE.bSyntaxError then some (pParser, pEE)
      else
        match JSONParser.parse (some t) pParser pEE with
        | none => none
        | some (pParser, pEE) => jjparseLoop fuel cur pParser pEE

/-- `jjparse`: 1 where a syntax error has been met, otherwise 0. -/
def jjparse (text : List UInt8) (pEE : JSONExecEnv) : Option (Int × JSONExecEnv) :=
  match jjparseLoop (text.length + 1) text Lemon.Tables.init { pEE with bSyntaxError := false } with
  | none => none
  | some (pParser, pEE) =>
    match JSONParser.parse none pParser pEE with
    | none => none
    | some (_, pEE) => some (if pEE.bSyntaxError then 1 else 0, pEE)

/-- `parseJSON`: the value that was read, and `bResult`. -/
def parseJSON (pEE : JSONExecEnv) (json_string : List UInt8) :
    Option (Option JSONValue × Bool × JSONExecEnv) :=
  match jjparse json_string { pEE with m_pError := [] } with
  | none => none
  | some (iResult, pEE) =>
    if iResult = 1 then some (none, false, pEE.prependError (bytes "Parsing failed\n"))
    else if iResult = 2 then
      some (none, false, pEE.prependError (bytes "Parsing stack overflow. Parsing failed.\n"))
    else some (pEE.m_pTopValue, true, { pEE with m_pTopValue := none })

/-- `readAndParseJSONFromString`: the value, if there is one, and the error message. -/
def readAndParseJSONFromString (json_string error_message : List UInt8) :
    Option (Option JSONValue × List UInt8) :=
  match parseJSON .init json_string with
  | none => none
  | some (pJSONValue, bResult, pJSONEE) =>
    let line := bytes "----------------------------------------------------------------------\n"
    if bResult then some (pJSONValue, error_message)
    else
      some (none, error_message ++
        bytes "FAILURE while parsing JSON contents.  Here is any error message:\n" ++ line ++
        pJSONEE.m_pError ++ bytes "\n" ++ line)

end Emdros
