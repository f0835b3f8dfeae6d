/-
# The XML reader (`QDParser` in `qdxml.h`, `qdxml.cpp`)

A reader with one state for each place in a document, which calls a handler for every tag, text and
comment.  The states to return to are on a stack; text, tag name, attribute and entity are
collected in buffers of their own.

`nextChars` is what `getNextChar` returns from call to call: nothing but the input decides it.
`step` is one round of the loop of `parse`; in two states the round reads more characters than one.
The line and the column that stand in the texts of exceptions are left out.
-/
import Emdros.Base.OrdMap
import Emdros.EMdF.StringFunc

namespace Emdros

open Lexer (bytes)

namespace QDParser

/-- Bytes in the order of their numbers, so that strings are ordered byte by byte. -/
scoped instance byteOrder : LinearOrder UInt8 where
  le_refl _ := UInt8.le_refl _
  le_trans _ _ _ := UInt8.le_trans
  lt_iff_le_not_ge a b := by
    rw [UInt8.lt_iff_toNat_lt, UInt8.le_iff_toNat_le, UInt8.le_iff_toNat_le]
    omega
  le_antisymm _ _ := UInt8.le_antisymm
  le_total := UInt8.le_total
  toDecidableLE := inferInstance

end QDParser

open scoped QDParser in
/-- `AttributeMap`. -/
abbrev AttributeMap := OrdMap (List UInt8) (List UInt8)

/-! ## 1. Character sets -/

/-- `eCharsets`. -/
inductive Charset where
  | ascii
  | utf8
  | iso8859 (part : Nat)
  deriving DecidableEq

def iso8859Parts : List Nat := [1, 2, 3, 4, 5, 6, 7, 8, 9, 10, 13, 14, 15, 16]

/-- Does `input` name the part of ISO 8859? -/
def isIso8859 (input : List UInt8) (part : Nat) : Bool :=
  [bytes "iso_8859-", bytes "iso_8859_", bytes "iso-8859_", bytes "iso-8859-"].any fun name =>
    strcmpNocase input (name ++ longlong2string part) = 0

/-- `string2charset`. -/
def string2charset (input : List UInt8) : Option Charset :=
  if strcmpNocase input (bytes "ascii") = 0 then some .ascii
  else if strcmpNocase input (bytes "utf8") = 0 ∨ strcmpNocase input (bytes "utf-8") = 0 then
    some .utf8
  else (iso8859Parts.find? (isIso8859 input)).map .iso8859

/-! ## 2. The input -/

/-- The characters that `getNextChar` returns; `endOfLine` is `m_end_of_line`. -/
def nextChars : Bool → List UInt8 → List UInt8
  | _, [] => []
  | endOfLine, c :: rest =>
    if c = 13 then 10 :: nextChars true rest
    else if c = 10 then
      if endOfLine then
        -- The line feed is passed over, and what follows it is returned as it is.
        match rest with
        | [] => []
        | c :: rest => c :: nextChars false rest
      else 10 :: nextChars endOfLine rest
    else c :: nextChars false rest

/-! ## 3. The state -/

/-- `eQDStates`. -/
inductive QDState where
  | text
  | entity
  | openTag
  | closeTag
  | startTag
  | attributeLvalue
  | attributeEqual
  | attributeRvalue
  | quote
  | inTag
  | singleTag
  | comment
  | done
  | doctype
  | inXmlDeclaration
  | beforeXmlDeclaration
  | openXmlDeclaration
  | cdata
  deriving DecidableEq

/-- A call of the `QDDocHandler`. -/
inductive QDCall where
  | startDocument
  | endDocument
  | startElement (tag : List UInt8) (attrs : AttributeMap)
  | endElement (tag : List UInt8)
  | text (str : List UInt8)
  | comment (str : List UInt8)

/-- `class QDParser`, with the state that `parse` is in and the calls it has made. -/
structure QDParser where
  state : QDState
  encoding : Charset
  tagDepth : Int
  attributes : AttributeMap
  tagName : List UInt8
  lvalue : List UInt8
  rvalue : List UInt8
  quoteChar : UInt8
  entity : List UInt8
  text : List UInt8
  stack : List QDState
  calls : List QDCall

namespace QDParser

/-- The constructor. -/
def new : QDParser :=
  ⟨.beforeXmlDeclaration, .utf8, 0, .empty, [], [], [], 0, [], [], [], []⟩

/-- `except`, without the place in the input. -/
def except {α : Type} (s : List UInt8) : Except (List UInt8) α := .error s

def pushState (s : QDState) (p : QDParser) : QDParser := { p with stack := s :: p.stack }

/-- `state = popState()`. -/
def popState (p : QDParser) : Except (List UInt8) QDParser :=
  match p.stack with
  | s :: stack => .ok { p with state := s, stack := stack }
  | [] => except (bytes "QDParser::popState: Attempted to pop off of an empty StateStack.")

def call (c : QDCall) (p : QDParser) : QDParser := { p with calls := p.calls ++ [c] }

def eraseAttributes (p : QDParser) : QDParser := { p with attributes := .empty }

/-- The white space of the states inside tags: blank, line feed, vertical space and form feed. -/
def isTagSpace (c : UInt8) : Bool := c = 32 || c = 10 || c = 11 || c = 12

def myisspace (nc : UInt8) : Bool := nc = 32 || nc = 10 || nc = 9 || nc = 11 || nc = 12

def stringEndsWith (input fin : List UInt8) : Bool := fin.isSuffixOf input

/-! ## 4. Entities -/

/-- `string2long`. -/
def string2long (str : List UInt8) : Int :=
  sz2longlong (str.dropWhile fun c => c = 32 || c = 10 || c = 9 || c = 13)

/-- `is_hex`. -/
def isHex (str : List UInt8) : Bool :=
  !str.isEmpty && str.all fun c => (bytes "0123456789abcdefABCDEF").contains c

/-- `(char) l`. -/
def lowByte (l : Int) : UInt8 := UInt8.ofNat (l % 256).toNat

/-- The number of a character that is written as `#x...` or `#...`. -/
def entityNumber (entity : List UInt8) : Except (List UInt8) Int :=
  let x := entity.getD 1 0
  if 1 < entity.length ∧ (x = 120 ∨ x = 88) then
    let hexstring := entity.drop 2
    if isHex hexstring then .ok (hex2long hexstring)
    else except (bytes "Invalid hex-string in entity &" ++ entity ++ bytes ";.")
  else .ok (string2long (entity.drop 1))

/-- What the entity stands for. -/
def entityText (encoding : Charset) (entity : List UInt8) : Except (List UInt8) (List UInt8) :=
  if entity.head? = some 35 then do
    let l ← entityNumber entity
    if encoding = .utf8 then .ok (if l < 0x80 then [lowByte l] else long2utf8 l.toNat)
    else if l ≤ 255 then .ok [lowByte l]
    else except (bytes "Entity &" ++ entity ++ bytes ("; out of range; document is non-UTF8, and " ++
      "so we can handle only single-byte data."))
  else if entity = bytes "lt" then .ok [60]
  else if entity = bytes "gt" then .ok [62]
  else if entity = bytes "amp" then .ok [38]
  else if entity = bytes "quot" then .ok [34]
  else if entity = bytes "apos" then .ok [39]
  else except (bytes "Unknown entity: &" ++ entity ++ bytes ";")

/-- `handle_entity(state)`. -/
def handleEntity (p : QDParser) : Except (List UInt8) QDParser :=
  (entityText p.encoding p.entity).map fun str =>
    if p.state = .quote then { p with rvalue := p.rvalue ++ str }
    else { p with text := p.text ++ str }

/-! ## 5. The states -/

def textState (p : QDParser) (c : UInt8) : QDParser :=
  if c = 38 then { p.pushState .text with entity := [], state := .entity }
  else if c = 60 then
    let p := if p.text = [] then p else { p.call (.text p.text) with text := [] }
    { p.pushState .text with state := .startTag, tagName := [] }
  else { p with text := p.text ++ [c] }

def quoteState (p : QDParser) (c : UInt8) : Except (List UInt8) QDParser :=
  if c = 10 ∨ c = 9 then .ok { p with rvalue := p.rvalue ++ [32] }
  else if c = 38 then .ok { p.pushState .quote with state := .entity, entity := [] }
  else if c = p.quoteChar then
    popState { p with attributes := p.attributes.insert p.lvalue p.rvalue }
  else .ok { p with rvalue := p.rvalue ++ [c] }

def attributeLvalueState (p : QDParser) (c : UInt8) : QDParser :=
  if c = 61 then { p with state := .attributeRvalue }
  else if isTagSpace c then { p with state := .attributeEqual }
  else { p with lvalue := p.lvalue ++ [c] }

def attributeEqualState (p : QDParser) (c : UInt8) : Except (List UInt8) QDParser :=
  if c = 61 then .ok { p with state := .attributeRvalue }
  else if isTagSpace c then .ok p
  else except (bytes ("Error while processing attribute: After lvalue, there should only be " ++
    "whitespace or '='."))

def attributeRvalueState (p : QDParser) (c : UInt8) : Except (List UInt8) QDParser :=
  if c = 39 ∨ c = 34 then .ok { p with quoteChar := c, state := .quote }
  else if isTagSpace c then .ok p
  else except (bytes ("Error while processing attribute: After =, there should only be " ++
    "whitespace or '\\'' or '\\\"'."))

/-- The end of a start tag, in the states `OPEN_TAG` and `IN_TAG`. -/
def endStartTag (p : QDParser) : Except (List UInt8) QDParser :=
  let p := { p with tagDepth := p.tagDepth + 1 }
  popState { (p.call (.startElement p.tagName p.attributes)).eraseAttributes with tagName := [] }

def openTagState (p : QDParser) (c : UInt8) : Except (List UInt8) QDParser :=
  if c = 47 then .ok { p with state := .singleTag }
  else if c = 62 then endStartTag p
  else if isTagSpace c then .ok { p with state := .inTag }
  else
    let p := { p with tagName := p.tagName ++ [c] }
    if p.tagName = bytes "!--" then .ok { p with state := .comment }
    else if p.tagName = bytes "![CDATA[" then .ok { p with text := [], state := .cdata }
    else if p.tagName = bytes "!DOCTYPE" then
      .ok { p with state := .doctype, text := [], tagName := [] }
    else .ok p

def startAttribute (p : QDParser) (c : UInt8) : QDParser :=
  { p.pushState p.state with state := .attributeLvalue, lvalue := [c], rvalue := [] }

def inTagState (p : QDParser) (c : UInt8) : Except (List UInt8) QDParser :=
  if c = 47 then .ok { p with state := .singleTag }
  else if c = 62 then endStartTag p
  else if isTagSpace c then .ok p
  else .ok (startAttribute p c)

/-- The state on the stack is taken off and put back. -/
def startTagState (p : QDParser) (c : UInt8) : Except (List UInt8) QDParser :=
  (popState p).map fun q =>
    let p := q.pushState q.state
    if c = 47 then { p with state := .closeTag }
    else if c = 63 then { p.eraseAttributes with state := .openXmlDeclaration }
    else { p.eraseAttributes with state := .openTag, tagName := [c] }

def singleTagState (p : QDParser) (c : UInt8) : Except (List UInt8) QDParser :=
  if c ≠ 62 then
    except (bytes "While processing single tag: Expected > for tag: <" ++ p.tagName ++ bytes "/>")
  else
    let p := (p.call (.startElement p.tagName p.attributes)).call (.endElement p.tagName)
    if p.tagDepth = 0 then .ok { p with state := .done }
    else (popState p).map fun p => { p.eraseAttributes with tagName := [] }

def closeTagState (p : QDParser) (c : UInt8) : Except (List UInt8) QDParser :=
  if c = 62 then
    (popState (p.call (.endElement p.tagName))).map fun p =>
      let p := { p with tagDepth := p.tagDepth - 1, tagName := [] }
      if p.tagDepth = 0 then { p with state := .done } else p
  else .ok { p with tagName := p.tagName ++ [c] }

def entityState (p : QDParser) (c : UInt8) : Except (List UInt8) QDParser :=
  if c = 59 then (popState p).bind handleEntity
  else .ok { p with entity := p.entity ++ [c] }

def commentState (p : QDParser) (c : UInt8) : Except (List UInt8) QDParser :=
  let p := { p with text := p.text ++ [c] }
  if c = 62 then
    if stringEndsWith p.text (bytes "-->") then
      popState { p.call (.comment p.text) with text := [] }
    else .ok p
  else .ok p

def cdataState (p : QDParser) (c : UInt8) : Except (List UInt8) QDParser :=
  if c = 62 then
    if stringEndsWith p.text (bytes "]]") then
      (popState (p.call (.text (p.text.take (p.text.length - 2))))).map fun p =>
        { p with text := [] }
    else .ok { p with text := p.text ++ [c] }
  else .ok { p with text := p.text ++ [c] }

def doctypeState (p : QDParser) (c : UInt8) : Except (List UInt8) QDParser :=
  let p := { p with tagName := p.tagName ++ [c] }
  if c = 60 then .ok { p with tagName := [] }
  else if c = 45 ∧ p.tagName = bytes "!--" then
    .ok { p.pushState .doctype with state := .comment }
  else if c = 93 then .ok { p with tagName := [c] }
  else if c = 62 then if p.tagName = bytes "]>" then popState p else .ok p
  else .ok p

/-- The encoding at the end of the XML declaration. -/
def declaredEncoding (attributes : AttributeMap) : Charset :=
  match attributes.value (some (bytes "encoding")) with
  | some strencoding => (string2charset strencoding).getD .utf8
  | none => .utf8

/-- `rest` is what follows in the input; the number is that of the characters read from it.  At
the end of the input there is a zero byte. -/
def inXmlDeclarationState (p : QDParser) (c : UInt8) (rest : List UInt8) :
    Except (List UInt8) (QDParser × Nat) :=
  if c = 63 then
    if rest.headD 0 ≠ 62 then except (bytes "XML declaration must end with '?>'")
    else .ok ({ p with encoding := declaredEncoding p.attributes, state := .text }, 1)
  else if myisspace c then .ok (p, 0)
  else .ok (startAttribute p c, 0)

def beforeXmlDeclarationState (p : QDParser) (c : UInt8) (rest : List UInt8) :
    Except (List UInt8) (QDParser × Nat) :=
  if c = 60 then
    if rest.getD 0 0 ≠ 63 then except (bytes "Document must start with <?; it does not.")
    else if rest.getD 1 0 ≠ 120 then
      except (bytes "Document must start with '<?x'. It does not.")
    else if rest.getD 2 0 ≠ 109 then
      except (bytes "Document must start with '<?xm'. It does not.")
    else if rest.getD 3 0 ≠ 108 then
      except (bytes "Document must start with '<?xml'. It does not.")
    else if !myisspace (rest.getD 4 0) then
      except (bytes "Document must start with '<?xml' + <whitespace>. It does not.")
    else .ok ({ p with state := .inXmlDeclaration }, 5)
  else .ok (p, 0)

/-- One round of the loop, with the number of characters that it reads after `c`. -/
def step (p : QDParser) (c : UInt8) (rest : List UInt8) : Except (List UInt8) (QDParser × Nat) :=
  let one (r : Except (List UInt8) QDParser) : Except (List UInt8) (QDParser × Nat) :=
    r.map fun p => (p, 0)
  match p.state with
  | .text => .ok (textState p c, 0)
  | .quote => one (quoteState p c)
  | .attributeLvalue => .ok (attributeLvalueState p c, 0)
  | .openTag => one (openTagState p c)
  | .inTag => one (inTagState p c)
  | .startTag => one (startTagState p c)
  | .attributeRvalue => one (attributeRvalueState p c)
  | .singleTag => one (singleTagState p c)
  | .closeTag => one (closeTagState p c)
  | .inXmlDeclaration => inXmlDeclarationState p c rest
  | .beforeXmlDeclaration => beforeXmlDeclarationState p c rest
  | .attributeEqual => one (attributeEqualState p c)
  | .entity => one (entityState p c)
  | .comment => one (commentState p c)
  | .cdata => one (cdataState p c)
  | .doctype => one (doctypeState p c)
  | .done => .ok (p.eraseAttributes, 0)
  | .openXmlDeclaration => except (bytes "Error: Unknown state: OPEN_XMLDECLARATION")

/-! ## 6. Reading a document -/

/-- The loop of `parse`; so many of the characters have been read already.  In the state `DONE` it
returns. -/
def loop : Nat → QDParser → List UInt8 → Except (List UInt8) QDParser
  | _, p, [] => .ok p
  | n + 1, p, _ :: rest => loop n p rest
  | 0, p, c :: rest =>
    if p.state = .done then .ok p
    else (step p c rest).bind fun r => loop r.2 r.1 rest

/-- `parse`. -/
def parse (p : QDParser) (input : List UInt8) : Except (List UInt8) QDParser := do
  let p ← loop 0 { p with
    state := .beforeXmlDeclaration, encoding := .utf8, tagDepth := 0, tagName := bytes "<>"
    calls := [.startDocument] } (nextChars false input)
  if p.state = .done then .ok (p.call .endDocument).eraseAttributes
  else except (bytes "missing end tag")

end QDParser

end Emdros
