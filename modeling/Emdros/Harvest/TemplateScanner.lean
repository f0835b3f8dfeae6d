/-
# Reading templates (`templatelang.re`, `templatelang.yxx`)

A template is text with tags between `{{` and ` }}`.  The scanner has one state for both: it knows the
beginnings of the tags as tokens, and reads what stands between tags with the rules for what stands
inside, as identifiers, integers, keywords, strings in single quotes and single bytes.  The rules of
`template_string` make text of these tokens again.

They do so for every token but the string: text between two apostrophes comes back between double
quotes, with its escapes read, and an apostrophe without another ends the template.  So text is
taken literally just if it has no apostrophe (`literalText_iff`).
-/
import Mathlib
import Emdros.EMdF.JsonScanner
import Emdros.MQL.Scanner
import Emdros.Harvest.TemplateSimplify

namespace Emdros

open Lexer (Regex best bytes literal sequence oneOf)

/-! ## 1. The scanner -/

namespace TemplateLanguageScanner

open JSONScanner (dot zero isDigit isHex)
open MQLScanner (isLetter identifier escapes)

/-- The tokens, with what the scanner puts into `yylval`. -/
inductive Token where
  | bbClose
  | keyElse
  | endif
  | id_d
  | firstmonad
  | lastmonad
  | dbname
  | dictlookup
  | counter
  | listappendbegin
  | listappendend
  | listemit
  | listclear
  | namedsetadd
  | namedsetaddend
  | namedsetremove
  | namedsetremoveend
  | namedsetemit
  | namedsetclear
  | setvarend
  | setvar
  | setnixingAll
  | setnixingDoc
  | setnixingOff
  | emitvar
  | setcounter
  | inccounter
  | deccounter
  | feature
  | featurenomangle
  | featurejsonmangle
  | attrib
  | copyattribs
  | attribNomangle
  | ifFeatureequal
  | ifVarequal
  | ifListempty
  | ifNamedsetempty
  | ifHasattrib
  | ifAttribequal
  | bareAttrib
  | bareAttribnomangle
  | bareCounter
  | bareFeature
  | bareFormat
  | bareFrom
  | bareMaxlength
  | bareSubstring
  | bareVar
  | bareVarnomangle
  | bareFeaturenomangle
  | bareFeaturejsonmangle
  | identifier (name : List UInt8)
  | integer (value : Int) (digits : List UInt8)
  | string (value : List UInt8)
  | space
  | newline
  | dash
  | char (c : UInt8)
  deriving DecidableEq, Repr

/-- The fixed texts, in the order of the rules. -/
def keywords : List (String × Token) := [
  (" \x7d\x7d", .bbClose),
  ("\x7b\x7b else \x7d\x7d", .keyElse),
  ("\x7b\x7b endif \x7d\x7d", .endif),
  ("\x7b\x7b id_d \x7d\x7d", .id_d),
  ("\x7b\x7b firstmonad \x7d\x7d", .firstmonad),
  ("\x7b\x7b lastmonad \x7d\x7d", .lastmonad),
  ("\x7b\x7b dbname \x7d\x7d", .dbname),
  ("\x7b\x7b dictlookup", .dictlookup),
  ("\x7b\x7b counter", .counter),
  ("\x7b\x7b listappendbegin", .listappendbegin),
  ("\x7b\x7b listappendend \x7d\x7d", .listappendend),
  ("\x7b\x7b listemit", .listemit),
  ("\x7b\x7b listclear", .listclear),
  ("\x7b\x7b namedsetadd", .namedsetadd),
  ("\x7b\x7b namedsetaddend \x7d\x7d", .namedsetaddend),
  ("\x7b\x7b namedsetremove", .namedsetremove),
  ("\x7b\x7b namedsetremoveend \x7d\x7d", .namedsetremoveend),
  ("\x7b\x7b namedsetemit", .namedsetemit),
  ("\x7b\x7b namedsetclear", .namedsetclear),
  ("\x7b\x7b setvarend \x7d\x7d", .setvarend),
  ("\x7b\x7b setvar", .setvar),
  ("\x7b\x7b setnixing all \x7d\x7d", .setnixingAll),
  ("\x7b\x7b setnixing doc \x7d\x7d", .setnixingDoc),
  ("\x7b\x7b setnixing off \x7d\x7d", .setnixingOff),
  ("\x7b\x7b emitvar", .emitvar),
  ("\x7b\x7b setcounter", .setcounter),
  ("\x7b\x7b inccounter", .inccounter),
  ("\x7b\x7b deccounter", .deccounter),
  ("\x7b\x7b feature", .feature),
  ("attrib", .bareAttrib),
  ("attribnomangle", .bareAttribnomangle),
  ("counter", .bareCounter),
  ("feature", .bareFeature),
  ("format", .bareFormat),
  ("from", .bareFrom),
  ("maxlength", .bareMaxlength),
  ("substring", .bareSubstring),
  ("var", .bareVar),
  ("varnomangle", .bareVarnomangle),
  ("\x7b\x7b featurenomangle", .featurenomangle),
  ("\x7b\x7b featurejsonmangle", .featurejsonmangle),
  ("featurenomangle", .bareFeaturenomangle),
  ("featurejsonmangle", .bareFeaturejsonmangle),
  ("\x7b\x7b attrib", .attrib),
  ("\x7b\x7b copyattribs", .copyattribs),
  ("\x7b\x7b attribnomangle", .attribNomangle),
  ("\x7b\x7b if featureequal", .ifFeatureequal),
  ("\x7b\x7b if varequal", .ifVarequal),
  ("\x7b\x7b if listempty", .ifListempty),
  ("\x7b\x7b if namedsetempty", .ifNamedsetempty),
  ("\x7b\x7b if hasattrib", .ifHasattrib),
  ("\x7b\x7b if attribequal", .ifAttribequal)]

/-- The single bytes and the escapes, in the order of the rules. -/
def signs : List (String × Token) := [
  (" ", .space),
  ("\t", .char 9),
  ("\r", .char 13),
  ("\n", .newline),
  ("-", .dash)]

def slashes : List (String × Token) := [("\\\\", .char 92), ("\\'", .char 39)]

/-- The actions of the first state. -/
inductive Action where
  | key (t : Token)
  | identifier
  | integer
  | stringsq
  | zero
  | dot
  deriving DecidableEq, Repr

/-- `[0-9][0-9]*`. -/
def integer : Regex UInt8 := .seq (.cls isDigit) (.star (.cls isDigit))

/-- The rules at the start of a token. -/
def scanRules : List (Regex UInt8 × Action) :=
  keywords.map (fun k => (literal (bytes k.1), .key k.2)) ++ [
  (identifier, .identifier),
  (integer, .integer),
  (literal (bytes "'"), .stringsq)] ++
  signs.map (fun k => (literal (bytes k.1), .key k.2)) ++ [
  (zero, .zero)] ++
  slashes.map (fun k => (literal (bytes k.1), .key k.2)) ++ [
  (dot, .dot)]

/-- The actions inside a string. -/
inductive SqAction where
  | close
  | push (c : UInt8)
  | octal
  | hex
  | zero
  | dot
  deriving DecidableEq, Repr

/-- The rules inside a string. -/
def stringsqRules : List (Regex UInt8 × SqAction) :=
  (literal (bytes "'"), .close) ::
  escapes.map (fun e => (literal (bytes e.1), .push e.2)) ++ [
  (sequence [oneOf [92], .cls fun c => 48 ≤ c && c ≤ 51, .cls fun c => 48 ≤ c && c ≤ 55,
    .cls fun c => 48 ≤ c && c ≤ 55], .octal),
  (sequence [oneOf [92], oneOf [120], .cls isHex, .cls isHex], .hex),
  (zero, .zero),
  (dot, .dot),
  (literal (bytes "\n"), .push 10)]

/-- The byte that an action pushes, for the text it has matched. -/
def SqAction.pushed : SqAction → List UInt8 → UInt8
  | push c, _ => c
  | octal, tok => octal2char (tok.drop 1)
  | hex, tok => hex2char (tok.getD 2 0) (tok.getD 3 0)
  | dot, tok => tok.getD 0 0
  | close, _ => 0
  | zero, _ => 0

/-- The state `stringsq`: the string and what is left, or nothing at the end of the text.  At a zero
byte inside the text control falls out of the action, and the source does not say where it goes on;
the text is given up there. -/
def stringsq : Nat → List UInt8 → List UInt8 → Option (List UInt8 × List UInt8)
  | 0, _, _ => none
  | _ + 1, [], _ => none
  | fuel + 1, c :: rest, str =>
    match best stringsqRules (c :: rest) with
    | none => none
    | some (n, action) =>
      let cur := (c :: rest).drop n
      match action with
      | .close => some (str, cur)
      | .zero => none
      | action => stringsq fuel cur (str ++ [action.pushed ((c :: rest).take n)])

/-- What an action returns for the text it has matched, with the text after the token. -/
def Action.returns (tok cur : List UInt8) : Action → Option (Token × List UInt8)
  | key t => some (t, cur)
  | identifier => some (.identifier tok, cur)
  | integer => some (.integer (sz2longlong tok) tok, cur)
  | stringsq => (TemplateLanguageScanner.stringsq (cur.length + 1) cur []).map fun r =>
      (.string r.1, r.2)
  | zero => none
  | dot => some (.char (tok.getD 0 0), cur)

/-- `scan`: a token and the text after it; `none` is 0, the end of the text. -/
def scan (text : List UInt8) : Option (Token × List UInt8) :=
  if text.isEmpty then none
  else
    match best scanRules text with
    | none => none
    | some (n, action) => action.returns (text.take n) (text.drop n)

/-- The tokens that the calls of `scan` return before the first 0, of at most `fuel` calls. -/
def tokens : Nat → List UInt8 → List Token
  | 0, _ => []
  | fuel + 1, text =>
    match scan text with
    | none => []
    | some (t, cur) => t :: tokens fuel cur

end TemplateLanguageScanner

/-! ## 2. The grammar -/

namespace TemplateLangParser

open TemplateLanguageScanner (Token tokens)

/-- `template_string`: the tokens that are text between the tags. -/
def templateString : Token → Option (List UInt8)
  | .char c => some [c]
  | .identifier name => some name
  | .bareAttrib => some (bytes "attrib")
  | .bareAttribnomangle => some (bytes "attribnomangle")
  | .bareCounter => some (bytes "counter")
  | .bareFeature => some (bytes "feature")
  | .bareFeaturenomangle => some (bytes "featurenomangle")
  | .bareFeaturejsonmangle => some (bytes "featurejsonmangle")
  | .bareMaxlength => some (bytes "maxlength")
  | .bareSubstring => some (bytes "substring")
  | .bareFormat => some (bytes "format")
  | .bareFrom => some (bytes "from")
  | .bareVar => some (bytes "var")
  | .bareVarnomangle => some (bytes "varnomangle")
  | .integer _ digits => some digits
  | .string value => some (bytes "\"" ++ value ++ bytes "\"")
  | .space => some (bytes " ")
  | .dash => some (bytes "-")
  | .newline => some (bytes "\n")
  | _ => none

/-- What a rule makes of the tokens after its first, and the tokens after the rule. -/
abbrev Read (α : Type) := List Token → Option (α × List Token)

def readFeature : Read TemplateASTNode
  | .space :: .integer i _ :: .bbClose :: rest => some (.feature i .xml, rest)
  | .space :: .integer i _ :: .space :: .bareFormat :: .space :: .string f :: .bbClose :: rest =>
    some (.featureFormat i f, rest)
  | _ => none

/-- A tag with an integer, an identifier, a string or two strings. -/
def readInteger (node : Int → TemplateASTNode) : Read TemplateASTNode
  | .space :: .integer i _ :: .bbClose :: rest => some (node i, rest)
  | _ => none

def readIdentifier (node : List UInt8 → TemplateASTNode) : Read TemplateASTNode
  | .space :: .identifier i :: .bbClose :: rest => some (node i, rest)
  | _ => none

def readString (node : List UInt8 → TemplateASTNode) : Read TemplateASTNode
  | .space :: .string i :: .bbClose :: rest => some (node i, rest)
  | _ => none

def readStrings (node : List UInt8 → List UInt8 → TemplateASTNode) : Read TemplateASTNode
  | .space :: .string i :: .space :: .string d :: .bbClose :: rest => some (node i d, rest)
  | _ => none

def readCopyattribs : Read TemplateASTNode
  | .bbClose :: rest => some (.copyAttribs, rest)
  | _ => none

def readCounter : Read TemplateASTNode
  | .space :: .string i :: .bbClose :: rest => some (.counter i, rest)
  | .space :: .string i :: .space :: .bareFormat :: .space :: .string f :: .bbClose :: rest =>
    some (.counterFormat i f, rest)
  | _ => none

def readSetcounter : Read TemplateASTNode
  | .space :: .string i :: .space :: .integer v _ :: .bbClose :: rest => some (.setCounter i v, rest)
  | .space :: .string i :: .space :: .bareVar :: .space :: .string v :: .bbClose :: rest =>
    some (.setCounterVar i v, rest)
  | _ => none

/-- `inccounter` and `deccounter`. -/
def readChangeCounter (node : List UInt8 → Int → List UInt8 → TemplateASTNode) :
    Read TemplateASTNode
  | .space :: .string i :: .bbClose :: rest => some (node i 1 [], rest)
  | .space :: .string i :: .space :: .integer s _ :: .bbClose :: rest => some (node i s [], rest)
  | .space :: .string i :: .space :: .bareVar :: .space :: .string v :: .bbClose :: rest =>
    some (node i 0 v, rest)
  | _ => none

def readDictlookup : Read TemplateASTNode
  | .space :: .string s :: .space :: .bareFeature :: .space :: .integer i _ :: .space ::
      .string d :: .bbClose :: rest => some (.dictlookupFeature s i d true none, rest)
  | .space :: .string s :: .space :: .bareFeature :: .space :: .integer i _ :: .space ::
      .string d :: .space :: .bareFormat :: .space :: .string f :: .bbClose :: rest =>
    some (.dictlookupFeature s i d false (some f), rest)
  | .space :: .string s :: .space :: .bareFeaturenomangle :: .space :: .integer i _ :: .space ::
      .string d :: .bbClose :: rest => some (.dictlookupFeature s i d false none, rest)
  | .space :: .string s :: .space :: .bareVar :: .space :: .string v :: .space :: .string d ::
      .bbClose :: rest => some (.dictlookupVar s v d true, rest)
  | .space :: .string s :: .space :: .bareVarnomangle :: .space :: .string v :: .space ::
      .string d :: .bbClose :: rest => some (.dictlookupVar s v d false, rest)
  | .space :: .string s :: .space :: .bareCounter :: .space :: .string c :: .space :: .string d ::
      .bbClose :: rest => some (.dictlookupCounter s c d, rest)
  | _ => none

def readListappendbegin : Read TemplateASTNode
  | .space :: .string i :: .bbClose :: rest => some (.listAppendBegin i none, rest)
  | .space :: .string i :: .space :: .string d :: .bbClose :: rest =>
    some (.listAppendBegin i (some d), rest)
  | _ => none

/-- `signed_integer`. -/
def readSignedInteger : Read Int
  | .integer i _ :: rest => some (i, rest)
  | .dash :: .integer i _ :: rest => some (-i, rest)
  | _ => none

/-- `from`, a signed integer, `maxlength` and an integer. -/
def readFromMaxlength (outputVarName : List UInt8) (input : SubStringInput) : Read TemplateASTNode
  | .space :: .bareFrom :: .space :: rest =>
    match readSignedInteger rest with
    | some (f, .space :: .bareMaxlength :: .space :: .integer l _ :: .bbClose :: rest) =>
      some (.setVarSubString outputVarName input f l, rest)
    | _ => none
  | _ => none

/-- What follows `substring`; there is no space after it before `var`, nor after `attrib`. -/
def readSubString (outputVarName : List UInt8) : Read TemplateASTNode
  | .bareVar :: .string v :: rest => readFromMaxlength outputVarName (.var v) rest
  | .space :: .bareAttrib :: .string a :: rest =>
    readFromMaxlength outputVarName (.attrib a .xml) rest
  | .space :: .bareAttribnomangle :: .space :: .string a :: rest =>
    readFromMaxlength outputVarName (.attrib a .none) rest
  | .space :: .bareFeature :: .space :: .integer v _ :: rest =>
    readFromMaxlength outputVarName (.feature v .xml) rest
  | .space :: .bareFeaturenomangle :: .space :: .integer v _ :: rest =>
    readFromMaxlength outputVarName (.feature v .none) rest
  | .space :: .bareFeaturejsonmangle :: .space :: .integer v _ :: rest =>
    readFromMaxlength outputVarName (.feature v .json) rest
  | _ => none

def readSetvar : Read TemplateASTNode
  | .space :: .string i :: .bbClose :: rest => some (.setVarBegin i, rest)
  | .space :: .string i :: .space :: .string v :: .bbClose :: rest => some (.setVarNow i v, rest)
  | .space :: .string i :: .space :: .bareSubstring :: rest => readSubString i rest
  | _ => none

/-- `template_list_element`, all but `template_if`. -/
def readElement : Read TemplateASTNode
  | .id_d :: rest => some (.simpleNode .id_d, rest)
  | .firstmonad :: rest => some (.simpleNode .firstMonad, rest)
  | .lastmonad :: rest => some (.simpleNode .lastMonad, rest)
  | .dbname :: rest => some (.simpleNode .dbName, rest)
  | .feature :: rest => readFeature rest
  | .featurejsonmangle :: rest => readInteger (.feature · .json) rest
  | .featurenomangle :: rest => readInteger (.feature · .none) rest
  | .attrib :: rest => readIdentifier .attrib rest
  | .attribNomangle :: rest => readIdentifier .attribNoMangle rest
  | .copyattribs :: rest => readCopyattribs rest
  | .counter :: rest => readCounter rest
  | .setcounter :: rest => readSetcounter rest
  | .inccounter :: rest => readChangeCounter .incCounter rest
  | .deccounter :: rest => readChangeCounter .decCounter rest
  | .listemit :: rest => readStrings .listEmit rest
  | .listclear :: rest => readString .listClear rest
  | .namedsetemit :: rest => readStrings .namedSetEmit rest
  | .namedsetclear :: rest => readString .namedSetClear rest
  | .listappendbegin :: rest => readListappendbegin rest
  | .listappendend :: rest => some (.listAppendEnd, rest)
  | .namedsetadd :: rest => readStrings .namedSetAddBegin rest
  | .namedsetaddend :: rest => some (.namedSetAddEnd, rest)
  | .namedsetremove :: rest => readStrings .namedSetRemoveBegin rest
  | .namedsetremoveend :: rest => some (.namedSetRemoveEnd, rest)
  | .setvar :: rest => readSetvar rest
  | .setvarend :: rest => some (.setVarEnd, rest)
  | .emitvar :: rest => readString .emitVar rest
  | .setnixingAll :: rest => some (.nixing .all, rest)
  | .setnixingDoc :: rest => some (.nixing .doc, rest)
  | .setnixingOff :: rest => some (.nixing .off, rest)
  | .dictlookup :: rest => readDictlookup rest
  | t :: rest => (templateString t).map fun s => (.string s, rest)
  | [] => none

/-- `template_some_if`. -/
def readCondition : Read TemplateCondition
  | .ifFeatureequal :: .space :: .integer i _ :: .space :: .string s :: .bbClose :: rest =>
    some (.featureEqual i s, rest)
  | .ifVarequal :: .space :: .string v :: .space :: .string s :: .bbClose :: rest =>
    some (.varEqual v s false, rest)
  | .ifVarequal :: .space :: .string v :: .space :: .bareVar :: .space :: .string s :: .bbClose ::
      rest => some (.varEqual v s true, rest)
  | .ifListempty :: .space :: .string l :: .bbClose :: rest => some (.listEmpty l, rest)
  | .ifNamedsetempty :: .space :: .string l :: .bbClose :: rest => some (.namedSetEmpty l, rest)
  | .ifHasattrib :: .space :: .identifier i :: .bbClose :: rest => some (.hasAttrib i, rest)
  | .ifAttribequal :: .space :: .identifier i :: .space :: .string s :: .bbClose :: rest =>
    some (.attribEqual i s, rest)
  | _ => none

mutual

/-- `template_if` after its condition. -/
def readBranches (fuel : Nat) (condition : TemplateCondition) (tokens : List Token) :
    Option (TemplateASTNode × List Token) :=
  match fuel with
  | 0 => none
  | fuel + 1 =>
    match tokens with
    | .keyElse :: rest =>
      match readList fuel [] rest with
      | some (l₂@(_ :: _), .endif :: rest) => some (.ifThenElse condition [] l₂, rest)
      | _ => none
    | tokens =>
      match readList fuel [] tokens with
      | some (l₁@(_ :: _), .endif :: rest) => some (.ifThenElse condition l₁ [], rest)
      | some (l₁@(_ :: _), .keyElse :: rest) =>
        match readList fuel [] rest with
        | some (l₂@(_ :: _), .endif :: rest) => some (.ifThenElse condition l₁ l₂, rest)
        | _ => none
      | _ => none

/-- `template_list`, after the chain of the elements before: it ends where no element begins. -/
def readList (fuel : Nat) (chain : List TemplateASTNode) (tokens : List Token) :
    Option (List TemplateASTNode × List Token) :=
  match fuel with
  | 0 => none
  | fuel + 1 =>
    match readCondition tokens with
    | some (condition, rest) =>
      match readBranches fuel condition rest with
      | some (node, rest) => readList fuel (node :: chain) rest
      | none => none
    | none =>
      match readElement tokens with
      | some (node, rest) => readList fuel (node :: chain) rest
      | none => some (chain, tokens)

end

/-- `top_value`, and nothing after it.  The branches of an `if` are as deep as they like: the parser
has a stack for a limited number of them. -/
def readTop (tokens : List Token) : Option (List TemplateASTNode) :=
  match readList (2 * tokens.length + 2) [] tokens with
  | some (chain@(_ :: _), []) => some chain
  | _ => none

/-- `parseTemplate`: the chain, unless there is a syntax error. -/
def parseTemplate (template_string : List UInt8) : Option (List TemplateASTNode) :=
  (readTop (tokens (template_string.length + 1) template_string)).map TemplateASTNode.simplifyAST

end TemplateLangParser

/-! ## 3. Text -/

/-- The text has no tags, no escapes and no zero byte. -/
structure PlainText (text : List UInt8) : Prop where
  zero : 0 ∉ text
  backslash : 92 ∉ text
  tagOpen : ¬ [123, 123] <:+: text
  tagClose : ¬ [32, 125, 125] <:+: text

theorem PlainText.of_suffix {text cur : List UInt8} (h : PlainText text) (hcur : cur <:+ text) :
    PlainText cur where
  zero hmem := h.zero (hcur.subset hmem)
  backslash hmem := h.backslash (hcur.subset hmem)
  tagOpen hin := h.tagOpen (hin.trans hcur.isInfix)
  tagClose hin := h.tagClose (hin.trans hcur.isInfix)

namespace TemplateLanguageScanner

open JSONScanner (dot zero isDigit exists_match)
open MQLScanner (isLetter identifier escapes)
open TemplateLangParser (templateString)

theorem exists_best_scanRules (c : UInt8) (rest : List UInt8) :
    ∃ n action, best scanRules (c :: rest) = some (n, action) ∧ 1 ≤ n ∧
      (c ≠ 0 → action ≠ .zero) :=
  exists_match ⟨.dot, by simp [scanRules]⟩ ⟨.key .newline, by simp [scanRules, signs]⟩
    (by simp [scanRules]) (fun r hr => by simpa [scanRules] using hr) c rest

/-- What is left after a string is a part of the text at its end. -/
theorem suffix_of_stringsq {fuel : Nat} {text str value cur : List UInt8}
    (h : stringsq fuel text str = some (value, cur)) : cur <:+ text := by
  induction fuel generalizing text str with
  | zero => cases h
  | succ fuel ih =>
    cases text with
    | nil => cases h
    | cons c rest =>
      rw [stringsq] at h
      split at h
      · cases h
      · split at h
        · cases h
          exact List.drop_suffix _ _
        · cases h
        · exact (ih h).trans (List.drop_suffix _ _)

/-- What a fixed text is for: a tag, or text that comes back as it is. -/
theorem keywords_text : ∀ k ∈ keywords, [123, 123] <+: bytes k.1 ∨ [32, 125, 125] <+: bytes k.1 ∨
    templateString k.2 = some (bytes k.1) ∧ 39 ∉ bytes k.1 := by
  decide

theorem signs_text : ∀ k ∈ signs, templateString k.2 = some (bytes k.1) ∧ 39 ∉ bytes k.1 := by
  decide

theorem slashes_text : ∀ k ∈ slashes, [92] <+: bytes k.1 := by decide

/-- A token that stands for the text it was made of, which has no apostrophe. -/
def Restores (text : List UInt8) (t : Token) (cur : List UInt8) : Prop :=
  ∃ piece, templateString t = some piece ∧ text = piece ++ cur ∧ piece ≠ [] ∧ 39 ∉ piece

theorem restores_of_take {text : List UInt8} {t : Token} {n : Nat}
    (ht : templateString t = some (text.take n)) (hne : text.take n ≠ [])
    (happ : 39 ∉ text.take n) : Restores text t (text.drop n) :=
  ⟨text.take n, ht, (List.take_append_drop n text).symm, hne, happ⟩

/-- A fixed text that is found is what the text begins with. -/
theorem take_of_literal {w text : List UInt8} {n : Nat} (h : (literal w).longest text = some n) :
    text.take n = w := by
  obtain ⟨rfl, hpre⟩ := Lexer.prefix_of_longest_literal h
  exact (List.prefix_iff_eq_take.mp hpre).symm

/-- An identifier or an integer is a letter or a digit and more of them. -/
theorem take_of_seq_star {c d : UInt8 → Bool} {x : UInt8} {rest : List UInt8} {n : Nat}
    (h : (Regex.seq (.cls c) (.star (.cls d))).longest (x :: rest) = some n) :
    c x = true ∧ (x :: rest).take n = x :: rest.takeWhile d := by
  rw [Lexer.longest_seq_star] at h
  split at h
  · rename_i hx
    cases h
    refine ⟨hx, ?_⟩
    rw [List.take_succ_cons]
    congr 1
    exact (List.prefix_iff_eq_take.mp (List.takeWhile_prefix d)).symm
  · cases h

theorem not_mem_seq_star {c d : UInt8 → Bool} {x : UInt8} {rest : List UInt8} {n : Nat}
    (hc : c 39 = false) (hd : d 39 = false)
    (h : (Regex.seq (.cls c) (.star (.cls d))).longest (x :: rest) = some n) :
    39 ∉ (x :: rest).take n := by
  obtain ⟨hx, htake⟩ := take_of_seq_star h
  rw [htake, List.mem_cons]
  rintro (rfl | hmem)
  · rw [hc] at hx
    cases hx
  · have hmem' := List.mem_takeWhile_imp hmem
    rw [hd] at hmem'
    cases hmem'

/-- **Every token of plain text but a string restores its text.** -/
theorem exists_restores {c : UInt8} {rest : List UInt8} (h : PlainText (c :: rest)) (hc : c ≠ 39) :
    ∃ t cur, scan (c :: rest) = some (t, cur) ∧ Restores (c :: rest) t cur := by
  obtain ⟨n, action, hbest, hn, hzero⟩ := exists_best_scanRules c rest
  have hc0 : c ≠ 0 := fun h0 => h.zero (h0 ▸ List.mem_cons_self)
  have hc92 : c ≠ 92 := fun h92 => h.backslash (h92 ▸ List.mem_cons_self)
  have hne : (c :: rest).take n ≠ [] := by
    obtain ⟨m, rfl⟩ : ∃ m, n = m + 1 := ⟨n - 1, by omega⟩
    simp
  obtain ⟨r, hmem, hlongest⟩ := Lexer.exists_of_best hbest
  have hscan : scan (c :: rest) = action.returns ((c :: rest).take n) ((c :: rest).drop n) := by
    simp [scan, hbest]
  rw [hscan]
  simp only [scanRules, List.mem_append, List.mem_map, List.mem_cons, List.not_mem_nil, or_false,
    Prod.mk.injEq] at hmem
  rcases hmem with ((((⟨k, hk, rfl, rfl⟩ | ⟨rfl, rfl⟩ | ⟨rfl, rfl⟩ | ⟨rfl, rfl⟩) |
    ⟨k, hk, rfl, rfl⟩) | ⟨rfl, rfl⟩) | ⟨k, hk, rfl, rfl⟩) | ⟨rfl, rfl⟩
  · have htake := take_of_literal hlongest
    have hpre : bytes k.1 <+: c :: rest := htake ▸ List.take_prefix n (c :: rest)
    rcases keywords_text k hk with htag | htag | ⟨htext, happ⟩
    · exact absurd (htag.trans hpre).isInfix h.tagOpen
    · exact absurd (htag.trans hpre).isInfix h.tagClose
    · exact ⟨_, _, rfl, restores_of_take (htake ▸ htext) hne (htake ▸ happ)⟩
  · exact ⟨_, _, rfl, restores_of_take rfl hne (not_mem_seq_star rfl rfl hlongest)⟩
  · exact ⟨_, _, rfl, restores_of_take rfl hne (not_mem_seq_star rfl rfl hlongest)⟩
  · have hpre : bytes "'" <+: c :: rest := take_of_literal hlongest ▸ List.take_prefix n (c :: rest)
    have hc39 : (39 : UInt8) = c := by simpa [bytes] using hpre
    exact absurd hc39.symm hc
  · have htake := take_of_literal hlongest
    obtain ⟨htext, happ⟩ := signs_text k hk
    exact ⟨_, _, rfl, restores_of_take (htake ▸ htext) hne (htake ▸ happ)⟩
  · exact absurd rfl (hzero hc0)
  · have hpre : bytes k.1 <+: c :: rest := take_of_literal hlongest ▸ List.take_prefix n (c :: rest)
    have hbackslash := List.cons_prefix_cons.mp ((slashes_text k hk).trans hpre)
    exact absurd hbackslash.1.symm hc92
  · rw [dot, Lexer.longest_cls] at hlongest
    split at hlongest
    · cases hlongest
      exact ⟨_, _, rfl, restores_of_take rfl hne (by simpa using hc.symm)⟩
    · cases hlongest

/-- At an apostrophe the scanner reads a string. -/
theorem scan_apostrophe (rest : List UInt8) :
    scan (39 :: rest) = Action.returns [39] rest .stringsq := by
  have hfixes : Lexer.fixes scanRules [39] .stringsq = true := by decide +kernel
  have hbest : best scanRules (39 :: rest) = some (1, .stringsq) := Lexer.best_of_fixes hfixes rest
  simp [scan, hbest]

/-- **The tokens of plain text are text**, and all of it just if there is no apostrophe. -/
theorem tokens_plain {fuel : Nat} {text : List UInt8} (h : PlainText text)
    (hfuel : text.length < fuel) :
    ∃ pieces : List (List UInt8), (tokens fuel text).map templateString = pieces.map some ∧
      (pieces.flatten = text ↔ 39 ∉ text) := by
  induction fuel generalizing text with
  | zero => omega
  | succ fuel ih =>
    cases text with
    | nil => exact ⟨[], by simp only [tokens, scan, List.isEmpty_nil, if_true, List.map_nil], by simp⟩
    | cons c rest =>
      by_cases hc : c = 39
      · subst hc
        cases hstring : stringsq (rest.length + 1) rest [] with
        | none =>
          refine ⟨[], ?_, by simp⟩
          simp [tokens, scan_apostrophe, Action.returns, hstring]
        | some r =>
          have hsuffix : r.2 <:+ rest := suffix_of_stringsq hstring
          have hplain := h.of_suffix (hsuffix.trans (List.suffix_cons 39 rest))
          obtain ⟨pieces, hpieces, -⟩ := ih hplain (by
            have hle := hsuffix.length_le
            rw [List.length_cons] at hfuel
            omega)
          refine ⟨(bytes "\"" ++ r.1 ++ bytes "\"") :: pieces, ?_, ?_⟩
          · have hscan : scan (39 :: rest) = some (.string r.1, r.2) := by
              rw [scan_apostrophe, Action.returns, hstring, Option.map_some]
            rw [tokens, hscan]
            exact congrArg (templateString (.string r.1) :: ·) hpieces
          · have hquote : bytes "\"" = [34] := rfl
            simp [hquote]
      · obtain ⟨t, cur, hscan, piece, ht, htext, hne, happ⟩ := exists_restores h hc
        have hplain : PlainText cur := h.of_suffix (htext ▸ List.suffix_append piece cur)
        have hlen : cur.length < fuel := by
          have hlength := congrArg List.length htext
          have hpos := List.length_pos_iff.mpr hne
          rw [List.length_append] at hlength
          omega
        obtain ⟨pieces, hpieces, hiff⟩ := ih hplain hlen
        refine ⟨piece :: pieces, ?_, ?_⟩
        · simp [tokens, hscan, ht, hpieces]
        · rw [htext, List.flatten_cons, List.append_cancel_left_eq, hiff, List.mem_append]
          simp [happ]

end TemplateLanguageScanner

namespace TemplateLangParser

open TemplateLanguageScanner (Token tokens tokens_plain)
open TemplateASTNode (exec simplifyNode simplifyAST)

theorem readCondition_text {t : Token} {piece : List UInt8} (h : templateString t = some piece)
    (rest : List Token) : readCondition (t :: rest) = none := by
  cases t <;> first | rfl | cases h

theorem readElement_text {t : Token} {piece : List UInt8} (h : templateString t = some piece)
    (rest : List Token) : readElement (t :: rest) = some (.string piece, rest) := by
  cases t <;> first | cases h; rfl | cases h

/-- Text between the tags is read token by token. -/
theorem readList_text {pieces : List (List UInt8)} {T : List Token} {fuel : Nat}
    (h : T.map templateString = pieces.map some) (hfuel : T.length < fuel)
    (chain : List TemplateASTNode) :
    readList fuel chain T = some ((pieces.map TemplateASTNode.string).reverse ++ chain, []) := by
  induction fuel generalizing T pieces chain with
  | zero => omega
  | succ fuel ih =>
    cases T with
    | nil =>
      have hnil : pieces = [] := by simpa using h.symm
      subst hnil
      simp [readList, readCondition, readElement]
    | cons t T =>
      cases pieces with
      | nil => simp at h
      | cons piece pieces =>
        simp only [List.map_cons, List.cons.injEq] at h
        rw [readList]
        simp only [readCondition_text h.1, readElement_text h.1]
        rw [ih h.2 (Nat.lt_of_succ_lt_succ hfuel)]
        simp

/-- A chain of texts is one text. -/
theorem simplifyAST_text {pieces : List (List UInt8)} (h : pieces ≠ []) :
    simplifyAST (pieces.map TemplateASTNode.string) = [.string pieces.reverse.flatten] := by
  induction pieces with
  | nil => exact absurd rfl h
  | cons piece pieces ih =>
    cases pieces with
    | nil => simp [simplifyAST, simplifyNode]
    | cons next pieces =>
      rw [List.map_cons, simplifyAST, ih (List.cons_ne_nil next pieces)]
      simp [simplifyNode]

/-- The environment adds text to the document. -/
structure EmitsToDocument (e : TemplateLangExecEnv) : Prop where
  target : ∃ targets, e.m_emit_target_stack = .doc :: targets
  nixingType : e.m_nixingType = .off

/-- The template is read, and executing it adds its text to the document, byte for byte. -/
def LiteralText (template_string : List UInt8) : Prop :=
  ∃ chain, parseTemplate template_string = some chain ∧ ∀ e, EmitsToDocument e →
    exec chain e = .ok { e with m_pOutput := e.m_pOutput ++ template_string }

theorem exec_text {e : TemplateLangExecEnv} (he : EmitsToDocument e) (text : List UInt8) :
    exec [.string text] e = .ok { e with m_pOutput := e.m_pOutput ++ text } := by
  obtain ⟨targets, htargets⟩ := he.target
  simp [exec, TemplateASTNode.execNode, TemplateLangExecEnv.addToOutput, he.nixingType,
    TemplateLangExecEnv.getCurEmitTarget_of_cons htargets, TemplateLangExecEnv.addToTarget]

theorem parseTemplate_text {text : List UInt8} {pieces : List (List UInt8)}
    (h : (tokens (text.length + 1) text).map templateString = pieces.map some) (hne : pieces ≠ []) :
    parseTemplate text = some [.string pieces.flatten] := by
  have hread := readList_text h (Nat.lt_of_lt_of_le (Nat.lt_succ_self _)
    (show (tokens (text.length + 1) text).length + 1 ≤
      2 * (tokens (text.length + 1) text).length + 2 by omega)) []
  have hchain : (pieces.map TemplateASTNode.string).reverse =
      pieces.reverse.map TemplateASTNode.string := by rw [List.map_reverse]
  have hsimplify := simplifyAST_text (List.reverse_ne_nil_iff.mpr hne)
  rw [List.reverse_reverse] at hsimplify
  rw [parseTemplate, readTop, hread, List.append_nil, hchain]
  cases hlist : pieces.reverse.map TemplateASTNode.string with
  | nil => simp [hne] at hlist
  | cons node chain =>
    rw [hlist] at hsimplify
    simp only [Option.map_some, hsimplify]

/-- Text that is taken literally is the text of its tokens. -/
theorem flatten_of_literalText {text : List UInt8} {pieces : List (List UInt8)}
    (h : (tokens (text.length + 1) text).map templateString = pieces.map some)
    (hliteral : LiteralText text) : pieces.flatten = text := by
  obtain ⟨chain, hchain, hexec⟩ := hliteral
  have hdocument : EmitsToDocument TemplateLangExecEnv.init := ⟨⟨[], rfl⟩, rfl⟩
  have hne : pieces ≠ [] := by
    rintro rfl
    have hnone : tokens (text.length + 1) text = [] := by simpa using h
    simp [parseTemplate, hnone, readTop, readList, readCondition, readElement] at hchain
  rw [parseTemplate_text h hne, Option.some.injEq] at hchain
  have hexec' := hexec _ hdocument
  rw [← hchain, exec_text hdocument, Except.ok.injEq] at hexec'
  exact congrArg TemplateLangExecEnv.m_pOutput hexec'

/-- **Text is taken literally just if it has no apostrophe.** -/
theorem literalText_iff {text : List UInt8} (hne : text ≠ []) (h : PlainText text) :
    LiteralText text ↔ 39 ∉ text := by
  obtain ⟨pieces, hpieces, hiff⟩ := tokens_plain h (Nat.lt_succ_self text.length)
  rw [← hiff]
  constructor
  · exact flatten_of_literalText hpieces
  · intro hflatten
    have hpne : pieces ≠ [] := by
      rintro rfl
      exact hne hflatten.symm
    refine ⟨_, parseTemplate_text hpieces hpne, fun e he => ?_⟩
    rw [exec_text he, hflatten]

/-- A text of words, keywords and numbers, between braces. -/
theorem literalText_iff_words :
    LiteralText (bytes "\x7bfrom 12\x7d") ↔ 39 ∉ bytes "\x7bfrom 12\x7d" :=
  literalText_iff (by decide) ⟨by decide, by decide, by decide, by decide⟩

/-- Apostrophes come back as double quotes. -/
theorem apostrophes_not_literal : PlainText (bytes "a 'b' c") ∧ ¬ LiteralText (bytes "a 'b' c") := by
  have hplain : PlainText (bytes "a 'b' c") := ⟨by decide, by decide, by decide, by decide⟩
  refine ⟨hplain, fun hliteral => ?_⟩
  obtain ⟨pieces, hpieces, hiff⟩ := tokens_plain hplain (Nat.lt_succ_self _)
  exact hiff.mp (flatten_of_literalText hpieces hliteral) (by decide)

end TemplateLangParser

end Emdros
