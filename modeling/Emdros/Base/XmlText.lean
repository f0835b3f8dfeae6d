/-
# XML documents as they are written

A document with all that can be written in more than one way: the white space in tags, empty
elements as one tag or two, references in place of characters.  `Document.write` is the text, and
`Document.content` is what the document says.  The rules are those of XML 1.0, for documents without
processing instructions.  Line ends are normalised before anything else is done (section 2.11
there), so that white space is a blank, a tab or a line feed; `normalizeLineEnds` does it.

Nothing here is about a particular program.
-/
import Mathlib
import Emdros.Base.Lexer

namespace XmlText

open Lexer (bytes)

/-- A carriage return, with the line feed after it if there is one, is read as a line feed. -/
def normalizeLineEnds : List UInt8 → List UInt8
  | [] => []
  | [c] => if c = 13 then [10] else [c]
  | c :: d :: rest =>
    if c = 13 then
      if d = 10 then 10 :: normalizeLineEnds rest else 10 :: normalizeLineEnds (d :: rest)
    else c :: normalizeLineEnds (d :: rest)

theorem normalizeLineEnds_cons {c : UInt8} (hc : c ≠ 13) (rest : List UInt8) :
    normalizeLineEnds (c :: rest) = c :: normalizeLineEnds rest := by
  cases rest with
  | nil => simp [normalizeLineEnds, hc]
  | cons d rest => simp [normalizeLineEnds, hc]

/-! ## 1. Characters -/

/-- `S?` -/
def IsSpace (w : List UInt8) : Prop := ∀ c ∈ w, c = 32 ∨ c = 9 ∨ c = 10

/-- `NameStartChar`, where all bytes of characters that are not ASCII are let through. -/
def IsNameStart (c : UInt8) : Prop :=
  65 ≤ c ∧ c ≤ 90 ∨ 97 ≤ c ∧ c ≤ 122 ∨ c = 58 ∨ c = 95 ∨ 128 ≤ c

/-- `NameChar` -/
def IsNameChar (c : UInt8) : Prop := IsNameStart c ∨ 48 ≤ c ∧ c ≤ 57 ∨ c = 45 ∨ c = 46

/-- `Name` -/
structure IsName (name : List UInt8) : Prop where
  start : ∃ c rest, name = c :: rest ∧ IsNameStart c
  chars : ∀ c ∈ name, IsNameChar c

/-- The predefined entities. -/
inductive Predefined where
  | lt | gt | amp | quot | apos

def Predefined.name : Predefined → List UInt8
  | lt => bytes "lt"
  | gt => bytes "gt"
  | amp => bytes "amp"
  | quot => bytes "quot"
  | apos => bytes "apos"

def Predefined.char : Predefined → UInt8
  | lt => 60
  | gt => 62
  | amp => 38
  | quot => 34
  | apos => 39

/-- A character of a text or an attribute value as it is written. -/
inductive Piece where
  | char (c : UInt8)
  | entity (e : Predefined)
  | decimal (digits : List UInt8)
  | hexadecimal (digits : List UInt8)

/-- The value of a hexadecimal digit; of the decimal digits it is the value too. -/
def digitValue (c : UInt8) : Nat :=
  if c ≤ 57 then c.toNat - 48 else if c ≤ 70 then c.toNat - 55 else c.toNat - 87

def number (base : Nat) (digits : List UInt8) : Nat :=
  digits.foldl (fun v c => v * base + digitValue c) 0

def IsDigit (c : UInt8) : Prop := 48 ≤ c ∧ c ≤ 57

def IsHexDigit (c : UInt8) : Prop := IsDigit c ∨ 65 ≤ c ∧ c ≤ 70 ∨ 97 ≤ c ∧ c ≤ 102

namespace Piece

def write : Piece → List UInt8
  | char c => [c]
  | entity e => 38 :: (e.name ++ [59])
  | decimal digits => 38 :: 35 :: (digits ++ [59])
  | hexadecimal digits => 38 :: 35 :: 120 :: (digits ++ [59])

/-- The bytes in a text; `encode` writes a character by its number. -/
def value (encode : Nat → List UInt8) : Piece → List UInt8
  | char c => [c]
  | entity e => [e.char]
  | decimal digits => encode (number 10 digits)
  | hexadecimal digits => encode (number 16 digits)

/-- The bytes in an attribute value, where white space that is written as such is read as
blanks. -/
def attributeValue (encode : Nat → List UInt8) : Piece → List UInt8
  | char c => if c = 9 ∨ c = 10 then [32] else [c]
  | piece => piece.value encode

/-- `CharRef`, and `CharData` without what must not stand in it. -/
def WellFormed (excluded : UInt8 → Prop) : Piece → Prop
  | char c => c ≠ 38 ∧ c ≠ 60 ∧ c ≠ 13 ∧ ¬excluded c
  | entity _ => True
  | decimal digits => digits ≠ [] ∧ (∀ c ∈ digits, IsDigit c) ∧
      ∃ c : Char, c.toNat = number 10 digits
  | hexadecimal digits => digits ≠ [] ∧ (∀ c ∈ digits, IsHexDigit c) ∧
      ∃ c : Char, c.toNat = number 16 digits

end Piece

def writePieces (pieces : List Piece) : List UInt8 := pieces.flatMap Piece.write

/-! ## 2. Tags -/

/-- An attribute, with the white space before it. -/
structure Attribute where
  space : List UInt8
  name : List UInt8
  beforeEq : List UInt8
  afterEq : List UInt8
  quote : UInt8
  value : List Piece

namespace Attribute

def write (a : Attribute) : List UInt8 :=
  a.space ++ (a.name ++ (a.beforeEq ++ 61 :: (a.afterEq ++ a.quote :: (writePieces a.value ++
    [a.quote]))))

structure WellFormed (a : Attribute) : Prop where
  space_ne : a.space ≠ []
  space : IsSpace a.space
  name : IsName a.name
  beforeEq : IsSpace a.beforeEq
  afterEq : IsSpace a.afterEq
  quote : a.quote = 34 ∨ a.quote = 39
  value : ∀ piece ∈ a.value, piece.WellFormed (· = a.quote)

/-- Name and value. -/
def content (encode : Nat → List UInt8) (a : Attribute) : List UInt8 × List UInt8 :=
  (a.name, a.value.flatMap (Piece.attributeValue encode))

end Attribute

def writeAttributes (attributes : List Attribute) : List UInt8 := attributes.flatMap Attribute.write

/-- The attributes of one tag have different names. -/
structure AttributesWellFormed (attributes : List Attribute) : Prop where
  each : ∀ a ∈ attributes, a.WellFormed
  names : (attributes.map Attribute.name).Nodup

/-! ## 3. Content -/

inductive Node where
  | text (pieces : List Piece)
  | cdata (data : List UInt8)
  | comment (data : List UInt8)
  | empty (tag : List UInt8) (attributes : List Attribute) (space : List UInt8)
  | element (tag : List UInt8) (attributes : List Attribute) (space : List UInt8)
      (children : List Node) (endSpace : List UInt8)

/-- What a document says.  A text is what stands between two tags, comments or ends of CDATA
sections. -/
inductive Tree where
  | text (data : List UInt8)
  | comment (data : List UInt8)
  | element (tag : List UInt8) (attributes : List (List UInt8 × List UInt8)) (children : List Tree)

def writeComment (data : List UInt8) : List UInt8 := bytes "<!--" ++ (data ++ bytes "-->")

def writeCdata (data : List UInt8) : List UInt8 := bytes "<![CDATA[" ++ (data ++ bytes "]]>")

/-- A start tag up to its end. -/
def writeTag (tag : List UInt8) (attributes : List Attribute) (space : List UInt8) : List UInt8 :=
  60 :: (tag ++ (writeAttributes attributes ++ space))

def writeEndTag (tag endSpace : List UInt8) : List UInt8 := 60 :: 47 :: (tag ++ (endSpace ++ [62]))

mutual

def Node.write : Node → List UInt8
  | .text pieces => writePieces pieces
  | .cdata data => writeCdata data
  | .comment data => writeComment data
  | .empty tag attributes space => writeTag tag attributes space ++ [47, 62]
  | .element tag attributes space children endSpace =>
    writeTag tag attributes space ++ 62 :: (writeNodes children ++ writeEndTag tag endSpace)

def writeNodes : List Node → List UInt8
  | [] => []
  | node :: nodes => node.write ++ writeNodes nodes

end

mutual

def Node.content (encode : Nat → List UInt8) : Node → Tree
  | .text pieces => .text (pieces.flatMap (Piece.value encode))
  | .cdata data => .text data
  | .comment data => .comment data
  | .empty tag attributes _ => .element tag (attributes.map (Attribute.content encode)) []
  | .element tag attributes _ children _ =>
    .element tag (attributes.map (Attribute.content encode)) (contents encode children)

def contents (encode : Nat → List UInt8) : List Node → List Tree
  | [] => []
  | node :: nodes => node.content encode :: contents encode nodes

end

/-- `Comment` -/
structure IsComment (data : List UInt8) : Prop where
  no_hyphens : ¬[45, 45] <:+: data
  last : data.getLast? ≠ some 45

/-- `CData` -/
def IsCdata (data : List UInt8) : Prop := ¬[93, 93, 62] <:+: data

def Node.isText : Node → Bool
  | .text _ => true
  | _ => false

/-- Texts are as long as they can be. -/
def NoAdjacentTexts (nodes : List Node) : Prop :=
  nodes.IsChain fun a b => ¬(a.isText = true ∧ b.isText = true)

mutual

def Node.WellFormed : Node → Prop
  | .text pieces => pieces ≠ [] ∧ ∀ piece ∈ pieces, piece.WellFormed fun _ => False
  | .cdata data => IsCdata data
  | .comment data => IsComment data
  | .empty tag attributes space => IsName tag ∧ AttributesWellFormed attributes ∧ IsSpace space
  | .element tag attributes space children endSpace =>
    IsName tag ∧ AttributesWellFormed attributes ∧ IsSpace space ∧ IsSpace endSpace ∧
      NoAdjacentTexts children ∧ NodesWellFormed children

def NodesWellFormed : List Node → Prop
  | [] => True
  | node :: nodes => node.WellFormed ∧ NodesWellFormed nodes

end

/-! ## 4. Documents -/

/-- The XML declaration. -/
structure Declaration where
  attributes : List Attribute
  space : List UInt8

def Declaration.write (d : Declaration) : List UInt8 :=
  bytes "<?xml" ++ (writeAttributes d.attributes ++ (d.space ++ bytes "?>"))

structure Declaration.WellFormed (d : Declaration) : Prop where
  attributes_ne : d.attributes ≠ []
  attributes : AttributesWellFormed d.attributes
  space : IsSpace d.space

/-- What can stand before and after the root. -/
inductive Misc where
  | space (w : List UInt8)
  | comment (data : List UInt8)

def Misc.write : Misc → List UInt8
  | space w => w
  | comment data => writeComment data

def writeMiscs (miscs : List Misc) : List UInt8 := miscs.flatMap Misc.write

def Misc.WellFormed : Misc → Prop
  | space w => w ≠ [] ∧ IsSpace w
  | comment data => IsComment data

def Misc.isSpace : Misc → Bool
  | space _ => true
  | comment _ => false

def Misc.comment? : Misc → Option (List UInt8)
  | space _ => none
  | comment data => some data

structure MiscsWellFormed (miscs : List Misc) : Prop where
  each : ∀ misc ∈ miscs, misc.WellFormed
  spaces : miscs.IsChain fun a b => ¬(a.isSpace = true ∧ b.isSpace = true)

/-- A part of the internal subset: a comment, or what stands between comments. -/
inductive SubsetPart where
  | other (text : List UInt8)
  | comment (data : List UInt8)

def SubsetPart.write : SubsetPart → List UInt8
  | other text => text
  | comment data => writeComment data

def SubsetPart.comment? : SubsetPart → Option (List UInt8)
  | other _ => none
  | comment data => some data

/-- The document type declaration; `head` is what stands before the internal subset, and `space`
what stands after it. -/
structure Doctype where
  head : List UInt8
  subset : Option (List SubsetPart)
  space : List UInt8

namespace Doctype

def writeSubset : Option (List SubsetPart) → List UInt8
  | none => []
  | some parts => 91 :: (parts.flatMap SubsetPart.write ++ [93])

def write (d : Doctype) : List UInt8 :=
  bytes "<!DOCTYPE" ++ (d.head ++ (writeSubset d.subset ++ (d.space ++ [62])))

/-- The name follows white space.  Of the declarations nothing is asked. -/
structure WellFormed (d : Doctype) : Prop where
  head : ∃ c w, d.head = c :: w ∧ (c = 32 ∨ c = 9 ∨ c = 10)
  space : IsSpace d.space
  comments : ∀ parts, d.subset = some parts → ∀ data, .comment data ∈ parts → IsComment data

def comments (d : Doctype) : List (List UInt8) :=
  (d.subset.getD []).filterMap SubsetPart.comment?

end Doctype

structure Document where
  declaration : Declaration
  prolog : List Misc
  doctype : Option (Doctype × List Misc)
  root : Node
  epilog : List Misc

namespace Document

/-- The document type declaration, with what follows it. -/
def writeDoctype : Option (Doctype × List Misc) → List UInt8
  | none => []
  | some (doctype, miscs) => doctype.write ++ writeMiscs miscs

def write (d : Document) : List UInt8 :=
  d.declaration.write ++ (writeMiscs d.prolog ++ (writeDoctype d.doctype ++
    (d.root.write ++ writeMiscs d.epilog)))

/-- Is the node an element? -/
def IsElement : Node → Prop
  | .empty _ _ _ => True
  | .element _ _ _ _ _ => True
  | _ => False

structure WellFormed (d : Document) : Prop where
  declaration : d.declaration.WellFormed
  prolog : MiscsWellFormed d.prolog
  doctype : ∀ doctype miscs, d.doctype = some (doctype, miscs) →
    doctype.WellFormed ∧ MiscsWellFormed miscs
  root : d.root.WellFormed
  isElement : IsElement d.root
  epilog : MiscsWellFormed d.epilog

/-- What a document says: white space and comments before the root, with the comments of the
document type declaration among them, the root, and the comments after it. -/
structure Content where
  before : List Misc
  root : Tree
  after : List (List UInt8)

def doctypeMiscs : Option (Doctype × List Misc) → List Misc
  | none => []
  | some (doctype, miscs) => doctype.comments.map Misc.comment ++ miscs

def content (encode : Nat → List UInt8) (d : Document) : Content where
  before := d.prolog ++ doctypeMiscs d.doctype
  root := d.root.content encode
  after := d.epilog.filterMap Misc.comment?

end Document

end XmlText
