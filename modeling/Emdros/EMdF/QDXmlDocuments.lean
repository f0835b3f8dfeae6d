/-
# The calls for a document (`QDParser::parse`)

Two documents that say the same should lead to the same calls, however they are written.  They do
when both are `Plain`: no tab stands in a start tag, no white space in an end tag, the root is not
written as an empty tag, no comment follows it, and so on.  `parse_calls` says it for one document,
with the calls; `parse_eq` is the statement about two.

The parser is a machine on one character at a time, and what it has read stands in a few strings.
So each part of a document has a lemma of one form: from the state in which the part may begin,
reading its characters ends in the state in which the next part may begin, with certain calls made.
The XML declaration, the document type declaration and the white space and comments before the root
are here; tags and text are in `QDXmlReading`.  The whole is put together along the document, with
the open elements as the stack of the machine.

Line ends come first: `normalizeLineEnds` is what the character source does to CR LF and CR before
the machine sees them, so the rest only knows line feeds.
-/
import Emdros.EMdF.QDXmlReading

namespace Emdros.QDParser

open Lexer (bytes)
open XmlText

/-! ## 1. Line ends -/

/-- `getNextChar` normalises line ends, but where a carriage return follows the two characters of a
line end. -/
theorem nextChars_eq : ∀ {raw : List UInt8}, ¬[13, 10, 13] <:+: raw →
    nextChars false raw = normalizeLineEnds raw
  | [], _ => rfl
  | [c], _ => by
    by_cases hc : c = 13
    · subst hc
      rfl
    · by_cases hc' : c = 10
      · subst hc'
        rfl
      · simp [nextChars, normalizeLineEnds, hc, hc']
  | c :: d :: rest, h => by
    have hrest : ¬[13, 10, 13] <:+: d :: rest :=
      fun hin => h (hin.trans (List.suffix_cons c _).isInfix)
    have ih := nextChars_eq hrest
    by_cases hc : c = 13
    · subst hc
      by_cases hd : d = 10
      · subst hd
        cases rest with
        | nil => rfl
        | cons e rest =>
          have he : e ≠ 13 := by
            rintro rfl
            exact h ⟨[], rest, rfl⟩
          have hin : ¬[13, 10, 13] <:+: rest := fun hin =>
            hrest (hin.trans ((List.suffix_cons e _).trans (List.suffix_cons 10 _)).isInfix)
          have ih' := nextChars_eq hin
          have hskip : nextChars false (13 :: 10 :: e :: rest) = 10 :: e :: nextChars false rest := rfl
          have hnormal : normalizeLineEnds (13 :: 10 :: e :: rest) =
              10 :: normalizeLineEnds (e :: rest) := rfl
          rw [hskip, hnormal, ih', normalizeLineEnds_cons he]
      · have hflag : nextChars true (d :: rest) = nextChars false (d :: rest) := by
          unfold nextChars
          rw [if_neg hd, if_neg hd]
        have hnormal : normalizeLineEnds (13 :: d :: rest) = 10 :: normalizeLineEnds (d :: rest) := by
          simp [normalizeLineEnds, hd]
        rw [hnormal, ← ih, ← hflag]
        rfl
    · have hone : nextChars false (c :: d :: rest) = c :: nextChars false (d :: rest) := by
        by_cases hc' : c = 10
        · subst hc'
          rfl
        · rw [nextChars, if_neg hc, if_neg hc']
      rw [hone, ih, normalizeLineEnds_cons hc]

/-! ## 2. The XML declaration -/

/-- The character set that the declaration names, and UTF-8 if it names none that is known. -/
def charset (d : Declaration) : Charset :=
  declaredEncoding (attributeMap (d.attributes.map (Attribute.content (encodeNumber .utf8))))

/-- What is asked of the white space in the declaration. -/
def PlainDeclaration (d : Declaration) : Prop := ∀ a ∈ d.attributes, PlainAttribute .utf8 a

/-- `parse` at the beginning of a document. -/
def beginning : QDParser := { new with tagName := bytes "<>", calls := [.startDocument] }

/-- The beginning of the declaration is read in one round, with the white space after it. -/
theorem reads_xml {c : UInt8} {cs : List UInt8} {q : QDParser} (hc : c = 32 ∨ c = 9 ∨ c = 10)
    (h : Reads { beginning with state := .inXmlDeclaration } (c :: cs) q) :
    Reads beginning (bytes "<?xml" ++ c :: cs) q := by
  have hspace : myisspace c = true := by rcases hc with rfl | rfl | rfl <;> rfl
  have hskip : Reads { beginning with state := .inXmlDeclaration } [c]
      { beginning with state := .inXmlDeclaration } := by
    refine Reads.one (by simp) fun rest => ?_
    have hne : c ≠ 63 := by rcases hc with rfl | rfl | rfl <;> decide
    simp [step, inXmlDeclarationState, hne, hspace]
  intro rest
  have hall := h rest
  rw [List.cons_append] at hall
  have hone := hskip (cs ++ rest)
  rw [List.singleton_append] at hone
  rw [← hall, hone]
  have hbytes : bytes "<?xml" = [60, 63, 120, 109, 108] := rfl
  simp [hbytes, beginning, new, loop, step, beforeXmlDeclarationState, hspace, Except.bind]

theorem reads_declaration {d : Declaration} (h : d.WellFormed) (hplain : PlainDeclaration d) :
    ∃ q, Reads beginning d.write q ∧ q.state = .text ∧ q.encoding = charset d ∧ q.stack = [] ∧
      q.tagDepth = 0 ∧ q.text = [] ∧ q.calls = [.startDocument] := by
  let inside : QDParser := { beginning with state := .inXmlDeclaration }
  have hskip : ∀ w, IsSpace w → ∀ q : QDParser, q.state = .inXmlDeclaration → Reads q w q := by
    intro w hw q hq
    refine Reads.skip fun c hc => Reads.one (by rw [hq]; decide) fun rest => ?_
    have hspace := myisspace_of hw c hc
    have hne : c ≠ 63 := by
      rintro rfl
      exact absurd hspace (by decide)
    simp [step, hq, inXmlDeclarationState, hne, hspace]
  obtain ⟨l, v, k, e, t, ht, hattributes⟩ := reads_attributes (p := inside)
    (s := .inXmlDeclaration) (r := .inXmlDeclaration) (Or.inr rfl) h.attributes.each hplain
    (fun a ha q hq => by
      have hq' : q.state = .inXmlDeclaration := hq.elim id id
      have hsame : ({ q with state := .inXmlDeclaration } : QDParser) = q := by rw [← hq']
      rw [hsame]
      exact hskip _ (h.attributes.each a ha).space q hq') (Or.inl rfl)
  obtain rfl : t = .inXmlDeclaration := ht.elim id id
  have hspaces := hattributes.trans (hskip d.space h.space _ rfl)
  have hend : ∀ q : QDParser, q.state = .inXmlDeclaration → Reads q (bytes "?>")
      { q with encoding := declaredEncoding q.attributes, state := .text } := by
    intro q hq rest
    change loop 0 q (63 :: 62 :: rest) = _
    rw [loop, if_neg (by rw [hq]; decide), step, hq]
    rfl
  have hall := hspaces.trans (hend _ rfl)
  -- The declaration has an attribute, which begins with white space.
  obtain ⟨a, attributes, hne⟩ := List.exists_cons_of_ne_nil h.attributes_ne
  have ha := h.attributes.each a (hne ▸ List.mem_cons_self)
  obtain ⟨c, w, hw⟩ := List.exists_cons_of_ne_nil ha.space_ne
  have hbegin : ∃ cs, writeAttributes d.attributes ++ d.space ++ bytes "?>" = c :: cs := by
    rw [hne, writeAttributes, List.flatMap_cons, Attribute.write, hw]
    exact ⟨_, rfl⟩
  obtain ⟨cs, hcs⟩ := hbegin
  rw [hcs] at hall
  have hdeclaration := reads_xml (ha.space c (hw ▸ List.mem_cons_self)) hall
  rw [← hcs, List.append_assoc] at hdeclaration
  exact ⟨_, hdeclaration, rfl, rfl, rfl, rfl, rfl, rfl⟩

/-! ## 3. The document type declaration -/

/-- The buffer `m_tag_name` after `c`, in the state `DOCTYPE`. -/
def nextMark (mark : List UInt8) (c : UInt8) : List UInt8 :=
  if c = 60 then [] else if c = 93 then [93] else mark ++ [c]

/-- Nothing that the state `DOCTYPE` takes for the beginning of a comment or for the end. -/
structure NoMarks (text : List UInt8) : Prop where
  comment : ¬bytes "<!--" <:+: text
  fin : ¬bytes "]>" <:+: text

/-- What stands between comments has no marks; `before` is what was read since the last one. -/
def PlainParts : List UInt8 → List SubsetPart → Prop
  | before, [] => NoMarks before
  | before, .other text :: parts => PlainParts (before ++ text) parts
  | before, .comment _ :: parts => NoMarks before ∧ PlainParts [] parts

/-- What is asked of a document type declaration: it has an internal subset, with nothing after it,
and nothing in it looks like the end or like a comment. -/
def PlainDoctype (d : Doctype) : Prop :=
  (∃ parts, d.subset = some parts ∧ PlainParts (d.head ++ [91]) parts) ∧ d.space = []

theorem NoMarks.of_start {text front : List UInt8} (h : NoMarks text) (hfront : front <+: text) :
    NoMarks front :=
  ⟨fun hin => h.comment (hin.trans hfront.isInfix), fun hin => h.fin (hin.trans hfront.isInfix)⟩

theorem noMarks_of_plainParts {parts : List SubsetPart} {before : List UInt8}
    (h : PlainParts before parts) : NoMarks before := by
  induction parts generalizing before with
  | nil => exact h
  | cons part parts ih =>
    cases part with
    | other text => exact (ih h).of_start (List.prefix_append before text)
    | comment data => exact h.1

/-- The buffer holds what was read since the last less-than sign or closing bracket, or since the
beginning. -/
theorem foldl_nextMark (mark read : List UInt8) :
    (∃ w, read = w ++ 60 :: read.foldl nextMark mark) ∨
      (∃ w rest, read.foldl nextMark mark = 93 :: rest ∧ read = w ++ 93 :: rest) ∨
        read.foldl nextMark mark = mark ++ read := by
  induction read using List.reverseRecOn with
  | nil => exact Or.inr (Or.inr (List.append_nil mark).symm)
  | append_singleton read c ih =>
    rw [List.foldl_append, List.foldl_cons, List.foldl_nil]
    generalize read.foldl nextMark mark = last at ih
    unfold nextMark
    by_cases hlt : c = 60
    · rw [if_pos hlt, hlt]
      exact Or.inl ⟨read, rfl⟩
    · rw [if_neg hlt]
      by_cases hbracket : c = 93
      · rw [if_pos hbracket, hbracket]
        exact Or.inr (Or.inl ⟨read, [], rfl, rfl⟩)
      · rw [if_neg hbracket]
        rcases ih with ⟨w, hw⟩ | ⟨w, rest, hlast, hw⟩ | hlast
        · refine Or.inl ⟨w, ?_⟩
          conv => lhs; rw [hw]
          rw [List.append_assoc, List.cons_append]
        · refine Or.inr (Or.inl ⟨w, rest ++ [c], by rw [hlast, List.cons_append], ?_⟩)
          rw [hw, List.append_assoc, List.cons_append]
        · exact Or.inr (Or.inr (by rw [hlast, List.append_assoc]))

section Doctype

variable {p : QDParser}

/-- The buffer at the beginning, before text that does not go on like a comment, or after a
comment. -/
def MarkStart (mark text : List UInt8) : Prop :=
  mark = [] ∧ text.head? ≠ some 33 ∨ mark = bytes "!--"

/-- Text without marks is passed over. -/
theorem reads_noMarks {mark before : List UInt8} (hs : p.state = .doctype)
    (ht : p.tagName = before.foldl nextMark mark) {text : List UInt8}
    (hmark : MarkStart mark (before ++ text)) (h : NoMarks (before ++ text)) :
    Reads p text { p with tagName := (before ++ text).foldl nextMark mark } := by
  have hread : Reads { p with tagName := (before ++ []).foldl nextMark mark } text
      { p with tagName := (before ++ text).foldl nextMark mark } := by
    refine Reads.many_of_start (f := fun read => { p with
      tagName := (before ++ read).foldl nextMark mark }) fun read c post hsplit => ?_
    refine Reads.one (by simp [hs]) fun rest => ?_
    have hfree : NoMarks (before ++ read ++ [c]) :=
      h.of_start ⟨post, by rw [hsplit]; simp⟩
    have hlast := foldl_nextMark mark (before ++ read)
    have hnext : (before ++ (read ++ [c])).foldl nextMark mark =
        nextMark ((before ++ read).foldl nextMark mark) c := by
      rw [← List.append_assoc, List.foldl_append, List.foldl_cons, List.foldl_nil]
    rw [hnext]
    generalize (before ++ read).foldl nextMark mark = last at hlast
    have hcomment : ¬(c = 45 ∧ last ++ [c] = bytes "!--") := by
      rintro ⟨rfl, heq⟩
      have hmarked : last = [33, 45] := List.append_cancel_right
        (heq : last ++ [45] = [33, 45] ++ [45])
      rw [hmarked] at hlast
      rcases hlast with ⟨w, hw⟩ | ⟨w, rest, hrest, -⟩ | hread
      · exact hfree.comment ⟨w, [], by rw [hw]; simp; rfl⟩
      · simp at hrest
      · rcases hmark with ⟨rfl, hhead⟩ | rfl
        · refine hhead ?_
          rw [hsplit, ← List.append_assoc, ← List.nil_append (before ++ read), ← hread]
          rfl
        · have hlength := congrArg List.length hread
          have hthree : (bytes "!--").length = 3 := rfl
          rw [List.length_append, hthree] at hlength
          simp at hlength
          omega
    have hend : ¬(c = 62 ∧ last ++ [c] = bytes "]>") := by
      rintro ⟨rfl, heq⟩
      have hmarked : last = [93] := List.append_cancel_right (heq : last ++ [62] = [93] ++ [62])
      rw [hmarked] at hlast
      have hin : ∀ w, before ++ read = w ++ [93] → False := fun w hw =>
        hfree.fin ⟨w, [], by rw [hw]; simp; rfl⟩
      rcases hlast with ⟨w, hw⟩ | ⟨w, rest, hrest, hw⟩ | hread
      · exact hin (w ++ [60]) (by rw [hw, List.append_assoc]; rfl)
      · exact hin w (by rw [hw, ← hrest])
      · rcases hmark with ⟨rfl, -⟩ | rfl
        · exact hin [] hread.symm
        · have hlength := congrArg List.length hread
          have hthree : (bytes "!--").length = 3 := rfl
          rw [List.length_append, hthree] at hlength
          simp at hlength
          omega
    by_cases hlt : c = 60
    · simp [step, hs, doctypeState, hlt, nextMark, Except.map]
    · by_cases hbracket : c = 93
      · simp [step, hs, doctypeState, hbracket, nextMark, Except.map]
      · simp only [step, hs, doctypeState, hlt, hcomment, hbracket, nextMark, if_false]
        by_cases hgt : c = 62
        · have hne : last ++ [c] ≠ bytes "]>" := fun heq => hend ⟨hgt, heq⟩
          rw [if_pos hgt, if_neg hne]
          rfl
        · rw [if_neg hgt]
          rfl
  rw [List.append_nil, ← ht] at hread
  exact hread

/-- A comment in the internal subset. -/
theorem reads_subsetComment (hs : p.state = .doctype) (ht : p.text = []) {data : List UInt8}
    (h : IsComment data) : Reads p (writeComment data) { p with
      tagName := bytes "!--", calls := p.calls ++ [.comment (data ++ bytes "-->")] } := by
  have hstart : Reads p (bytes "<!--") { p with
      state := .comment, stack := .doctype :: p.stack, tagName := bytes "!--" } := by
    intro rest
    have hbytes : bytes "<!--" = [60, 33, 45, 45] := rfl
    have hmark : bytes "!--" = [33, 45, 45] := rfl
    simp [hbytes, hmark, loop, step, hs, doctypeState, Except.map, Except.bind, pushState]
  have hrest := reads_commentRest (p := { p with
    state := .comment, stack := .doctype :: p.stack, tagName := bytes "!--" }) rfl rfl ht
      (closes_comment h)
  have hall := hstart.trans hrest
  rw [← hs] at hall
  exact hall

/-- The calls for the comments in the internal subset. -/
def partCalls : SubsetPart → List QDCall
  | .other _ => []
  | .comment data => [.comment (data ++ bytes "-->")]

theorem reads_parts {mark before : List UInt8} (hs : p.state = .doctype) (hempty : p.text = [])
    (ht : p.tagName = before.foldl nextMark mark)
    (hmark : ∀ text, MarkStart mark (before ++ text)) {parts : List SubsetPart}
    (hcomments : ∀ data, .comment data ∈ parts → IsComment data)
    (h : PlainParts before parts) :
    ∃ t, Reads p (parts.flatMap SubsetPart.write) { p with
      tagName := t, calls := p.calls ++ parts.flatMap partCalls } := by
  induction parts generalizing p mark before with
  | nil =>
    refine ⟨p.tagName, ?_⟩
    rw [List.flatMap_nil, List.flatMap_nil, List.append_nil]
    exact Reads.refl p
  | cons part parts ih =>
    have hrest := fun data hdata => hcomments data (List.mem_cons_of_mem part hdata)
    cases part with
    | other text =>
      have hread := reads_noMarks hs ht (hmark text) (noMarks_of_plainParts h)
      have hmark' : ∀ more, MarkStart mark (before ++ text ++ more) := by
        intro more
        rw [List.append_assoc]
        exact hmark (text ++ more)
      obtain ⟨t, hparts⟩ := ih (p := { p with
        tagName := (before ++ text).foldl nextMark mark }) hs hempty rfl hmark' hrest h
      exact ⟨t, hread.trans hparts⟩
    | comment data =>
      have hread := reads_subsetComment hs hempty (hcomments data List.mem_cons_self)
      obtain ⟨t, hparts⟩ := ih (p := { p with
        tagName := bytes "!--", calls := p.calls ++ [.comment (data ++ bytes "-->")] })
        hs hempty (show bytes "!--" = ([] : List UInt8).foldl nextMark (bytes "!--") from rfl)
        (fun _ => Or.inr rfl) hrest h.2
      refine ⟨t, ?_⟩
      have hall := hread.trans hparts
      rw [List.append_assoc] at hall
      exact hall

/-- **The document type declaration**; of what it says only the comments are passed on. -/
theorem reads_doctype (hs : p.state = .text) {d : Doctype} (h : d.WellFormed)
    (hplain : PlainDoctype d) : ∃ t, Reads p d.write { p with
      calls := p.flushed ++ d.comments.flatMap fun data => [.comment (data ++ bytes "-->")]
      text := [], tagName := t, attributes := .empty } := by
  obtain ⟨⟨parts, hsubset, hparts⟩, hspace⟩ := hplain
  obtain ⟨c, w, hhead, hc⟩ := h.head
  let opened : QDParser := { p with
    state := .doctype, stack := .text :: p.stack, calls := p.flushed, text := [], tagName := []
    attributes := .empty }
  have hstart : Reads p (bytes "<!DOCTYPE") opened := by
    refine (reads_lessThan hs).trans (?_ : Reads _ [33, 68, 79, 67, 84, 89, 80, 69] _)
    intro rest
    have hmark : bytes "!--" = [33, 45, 45] := rfl
    have hcdata : bytes "![CDATA[" = [33, 91, 67, 68, 65, 84, 65, 91] := rfl
    have hdoctype : bytes "!DOCTYPE" = [33, 68, 79, 67, 84, 89, 80, 69] := rfl
    simp [loop, step, startTagState, popState, pushState, Except.map, Except.bind, eraseAttributes,
      openTagState, isTagSpace, hmark, hcdata, hdoctype, opened]
  have hmark : ∀ text, MarkStart [] (d.head ++ [91] ++ text) := by
    intro text
    refine Or.inl ⟨rfl, ?_⟩
    rw [hhead]
    rcases hc with rfl | rfl | rfl <;> exact fun heq => absurd (Option.some.inj heq) (by decide)
  have hbefore := reads_noMarks (p := opened) rfl
    (show opened.tagName = ([] : List UInt8).foldl nextMark [] from rfl)
    (by simpa using hmark []) (noMarks_of_plainParts hparts)
  obtain ⟨t, hread⟩ := reads_parts (p := { opened with
    tagName := ([] ++ (d.head ++ [91])).foldl nextMark [] }) rfl rfl rfl hmark
    (h.comments parts hsubset) hparts
  have hend : ∀ q : QDParser, q.state = .doctype → ∀ s stack, q.stack = s :: stack →
      Reads q [93, 62] { q with state := s, stack := stack, tagName := bytes "]>" } := by
    intro q hq s stack hstack rest
    have hmark : bytes "!--" = [33, 45, 45] := rfl
    have hfin : bytes "]>" = [93, 62] := rfl
    simp [hmark, hfin, loop, step, hq, doctypeState, Except.map, Except.bind, popState, hstack]
  have hall := hstart.trans (hbefore.trans (hread.trans (hend _ rfl .text p.stack rfl)))
  have hcalls : parts.flatMap partCalls =
      d.comments.flatMap fun data => [.comment (data ++ bytes "-->")] := by
    rw [Doctype.comments, hsubset, Option.getD_some]
    clear hsubset hparts hread hall
    induction parts with
    | nil => rfl
    | cons part parts ih =>
      cases part with
      | other text => exact ih
      | comment data => exact congrArg (QDCall.comment (data ++ bytes "-->") :: ·) ih
  have hwrite : d.write = bytes "<!DOCTYPE" ++ ([] ++ (d.head ++ [91]) ++
      (parts.flatMap SubsetPart.write ++ [93, 62])) := by
    rw [Doctype.write, hsubset, hspace, Doctype.writeSubset]
    simp
  refine ⟨bytes "]>", ?_⟩
  rw [hwrite, ← hcalls]
  rw [← hs] at hall
  exact hall

end Doctype

/-! ## 4. Documents -/

/-- White space outside of the root is a text like any other. -/
def miscCalls : Misc → List QDCall
  | .space w => [.text w]
  | .comment data => [.comment (data ++ bytes "-->")]

/-- **White space and comments before the root.** -/
theorem reads_miscs {p : QDParser} (hs : p.state = .text) {miscs : List Misc}
    (h : MiscsWellFormed miscs)
    (ht : ∀ misc ∈ miscs.head?, misc.isSpace = true → p.text = []) :
    ∃ q, Reads p (writeMiscs miscs) q ∧ After p (miscs.flatMap miscCalls) q := by
  induction miscs generalizing p with
  | nil =>
    refine ⟨p, Reads.refl p, hs, rfl, rfl, rfl, ?_⟩
    exact (List.append_nil _).symm
  | cons misc miscs ih =>
    have hrest : MiscsWellFormed miscs :=
      ⟨fun m hm => h.each m (List.mem_cons_of_mem misc hm), (List.isChain_cons.mp h.spaces).2⟩
    have hone : ∃ q, Reads p misc.write q ∧ After p (miscCalls misc) q ∧
        (misc.isSpace = false → q.text = []) := by
      cases misc with
      | space w =>
        obtain ⟨hne, hspace⟩ := h.each _ List.mem_cons_self
        have htext := ht _ rfl rfl
        have hread : Reads { p with text := p.text ++ [] } w { p with text := p.text ++ w } := by
          refine Reads.many (f := fun read => { p with text := p.text ++ read }) fun read c hc => ?_
          refine Reads.one (by simp [hs]) fun rest => ?_
          have hc' : c ≠ 38 ∧ c ≠ 60 := by rcases hspace c hc with rfl | rfl | rfl <;> decide
          simp [step, hs, textState, hc'.1, hc'.2]
        rw [List.append_nil, htext, List.nil_append] at hread
        have hsame : { p with text := [] } = p := by rw [← htext]
        rw [hsame] at hread
        refine ⟨_, hread, ⟨hs, rfl, rfl, rfl, ?_⟩, fun h => Bool.noConfusion h⟩
        rw [flushed_of_nil htext]
        exact if_neg hne
      | comment data =>
        obtain ⟨t, hread⟩ := reads_comment hs (closes_comment (h.each _ List.mem_cons_self))
        exact ⟨_, hread, ⟨hs, rfl, rfl, rfl, flushed_of_nil rfl⟩, fun _ => rfl⟩
    obtain ⟨q, hread, hafter, htext⟩ := hone
    have hnext : ∀ next ∈ miscs.head?, next.isSpace = true → q.text = [] := by
      intro next hnext hnextSpace
      apply htext
      have hpair := (List.isChain_cons.mp h.spaces).1 next hnext
      cases hmisc : misc.isSpace with
      | true => exact absurd ⟨hmisc, hnextSpace⟩ hpair
      | false => rfl
    obtain ⟨r, hread', hafter'⟩ := ih hafter.state hrest hnext
    exact ⟨r, hread.trans hread', hafter.trans hafter'⟩

/-- The calls for what a document says. -/
def contentCalls (content : Document.Content) : List QDCall :=
  .startDocument :: (content.before.flatMap miscCalls ++ (treeCalls content.root ++
    ((content.after.map fun data => .comment (data ++ bytes "-->")) ++ [.endDocument])))

/-- What a document says, in the character set that it names. -/
def contentOf (d : Document) : Document.Content := d.content (encodeNumber (charset d.declaration))

/-- **When calls do not depend on how a document is written.**  What is asked of the tags, the XML
declaration and the document type declaration stands there; the root has a start and an end tag, and
no comment follows it. -/
structure Plain (d : Document) : Prop where
  declaration : PlainDeclaration d.declaration
  doctype : ∀ doctype miscs, d.doctype = some (doctype, miscs) → PlainDoctype doctype
  root : PlainNode (charset d.declaration) d.root
  startTag : ∀ tag attributes space, d.root ≠ .empty tag attributes space
  after : (contentOf d).after = []

/-- A text with these line ends. -/
structure Writes (raw : List UInt8) (d : Document) : Prop where
  text : normalizeLineEnds raw = d.write
  lineEnds : ¬[13, 10, 13] <:+: raw

/-- The document type declaration, with what follows it. -/
theorem reads_doctypePart {p : QDParser} (hs : p.state = .text) {d : Document} (h : d.WellFormed)
    (hplain : Plain d) : ∃ q, Reads p (Document.writeDoctype d.doctype) q ∧
      After p ((Document.doctypeMiscs d.doctype).flatMap miscCalls) q := by
  have hdoctype := h.doctype
  have hplain' := hplain.doctype
  cases hd : d.doctype with
  | none =>
    refine ⟨p, Reads.refl p, hs, rfl, rfl, rfl, ?_⟩
    exact (List.append_nil _).symm
  | some pair =>
    obtain ⟨doctype, miscs⟩ := pair
    obtain ⟨hwf, hmiscs⟩ := hdoctype doctype miscs hd
    obtain ⟨t, hread⟩ := reads_doctype hs hwf (hplain' doctype miscs hd)
    obtain ⟨q, hread', hafter⟩ := reads_miscs (p := { p with
      calls := p.flushed ++ doctype.comments.flatMap fun data => [.comment (data ++ bytes "-->")]
      text := [], tagName := t, attributes := .empty }) hs hmiscs fun _ _ _ => rfl
    refine ⟨q, hread.trans hread', hafter.state, hafter.encoding, hafter.stack, hafter.depth, ?_⟩
    rw [hafter.flushed, flushed_of_nil rfl, Document.doctypeMiscs, List.flatMap_append,
      List.flatMap_map, List.append_assoc]
    rfl

/-- **Reading a document.** -/
theorem reads_document {d : Document} (h : d.WellFormed) (hplain : Plain d) :
    ∃ q, (∀ rest, loop 0 beginning (d.write ++ rest) = .ok q) ∧ q.state = .done ∧ q.stack = [] ∧
      q.calls ++ [.endDocument] = contentCalls (contentOf d) := by
  obtain ⟨p, hdeclaration, hs, hencoding, hstack, hdepth, htext, hcalls⟩ :=
    reads_declaration h.declaration hplain.declaration
  obtain ⟨q, hprolog, hafter⟩ := reads_miscs hs h.prolog fun _ _ _ => htext
  obtain ⟨r, hdoctype, hafter'⟩ := reads_doctypePart hafter.state h hplain
  have hbefore := hafter.trans hafter'
  rw [← List.flatMap_append] at hbefore
  -- The root is read at depth zero.
  have hrootDepth : r.tagDepth = 0 := hbefore.depth.trans hdepth
  have hrootEncoding : r.encoding = charset d.declaration := hbefore.encoding.trans hencoding
  have hroot : ∃ u, Reads r d.root.write u ∧ u.state = .done ∧ u.stack = r.stack ∧
      u.calls = r.flushed ++ treeCalls (d.root.content (encodeNumber r.encoding)) := by
    have helement := h.isElement
    have hwf := h.root
    have hplainRoot := hplain.root
    rw [← hrootEncoding] at hplainRoot
    cases hd : d.root with
    | text pieces =>
      rw [hd] at helement
      exact helement.elim
    | cdata data =>
      rw [hd] at helement
      exact helement.elim
    | comment data =>
      rw [hd] at helement
      exact helement.elim
    | empty tag attributes space => exact absurd hd (hplain.startTag tag attributes space)
    | element tag attributes space children endSpace =>
      rw [hd] at hwf hplainRoot
      have hreadable := readable_of_plain hwf hplainRoot
      obtain rfl : endSpace = [] := hreadable.2.1
      exact reads_root hbefore.state hrootDepth hreadable
  obtain ⟨u, hroot, hdone, hstack', hcalls'⟩ := hroot
  refine ⟨u, fun rest => ?_, hdone, ?_, ?_⟩
  · have hall := hdeclaration.trans (hprolog.trans (hdoctype.trans hroot))
    have hread := hall (writeMiscs d.epilog ++ rest)
    have hwrite : d.write ++ rest = d.declaration.write ++ (writeMiscs d.prolog ++
        (Document.writeDoctype d.doctype ++ d.root.write)) ++ (writeMiscs d.epilog ++ rest) := by
      rw [Document.write]
      simp only [List.append_assoc]
    rw [hwrite, hread]
    cases writeMiscs d.epilog ++ rest with
    | nil => rfl
    | cons c rest => rw [loop, if_pos hdone]
  · exact hstack'.trans (hbefore.stack.trans hstack)
  · have hnone : (contentOf d).after = [] := hplain.after
    rw [hcalls', hbefore.flushed, flushed_of_nil htext, hcalls, contentCalls, hnone, hrootEncoding]
    simp only [List.map_nil, List.nil_append, List.append_assoc, List.cons_append]
    rfl

/-- The calls for one document. -/
theorem parse_eq {d : Document} (h : d.WellFormed) (hplain : Plain d) {raw : List UInt8}
    (hraw : Writes raw d) :
    ∃ p, new.parse raw = .ok p ∧ p.calls = contentCalls (contentOf d) ∧ p.stack = [] := by
  obtain ⟨q, hread, hdone, hstack, hcalls⟩ := reads_document h hplain
  have hchars : nextChars false raw = d.write ++ [] := by
    rw [nextChars_eq hraw.lineEnds, hraw.text, List.append_nil]
  refine ⟨(q.call .endDocument).eraseAttributes, ?_, hcalls, hstack⟩
  rw [parse, hchars]
  have hloop : loop 0 { new with
      state := .beforeXmlDeclaration, encoding := .utf8, tagDepth := 0, tagName := bytes "<>"
      calls := [.startDocument] } (d.write ++ []) = .ok q := hread []
  rw [hloop]
  exact if_pos hdone

/-- **Documents that say the same lead to the same calls**, however they are written. -/
theorem parse_calls (d d' : Document) (hd : d.WellFormed) (hd' : d'.WellFormed)
    (hsame : contentOf d = contentOf d') (hplain : Plain d) (hplain' : Plain d')
    (raw raw' : List UInt8) (hraw : Writes raw d) (hraw' : Writes raw' d') :
    ∃ p p', new.parse raw = .ok p ∧ new.parse raw' = .ok p' ∧ p.calls = p'.calls ∧
      p.calls = contentCalls (contentOf d) ∧ p.stack = [] ∧ p'.stack = [] := by
  obtain ⟨p, hparse, hcalls, hstack⟩ := parse_eq hd hplain hraw
  obtain ⟨p', hparse', hcalls', hstack'⟩ := parse_eq hd' hplain' hraw'
  refine ⟨p, p', hparse, hparse', ?_, hcalls, hstack, hstack'⟩
  rw [hcalls, hcalls', hsame]

/-- `version="1.0"`, between quotation marks of one kind or the other. -/
def versionAttribute (quote : UInt8) : Attribute :=
  ⟨[32], bytes "version", [], [], quote, [.char 49, .char 46, .char 48]⟩

/-- `<?xml version="1.0"?><r><a/></r>` -/
def compactDocument : Document where
  declaration := ⟨[versionAttribute 34], []⟩
  prolog := []
  doctype := none
  root := .element (bytes "r") [] [] [.empty (bytes "a") [] []] []
  epilog := []

/-- `<?xml version='1.0' ?><r><a w></a></r>`, where `w` is white space, and a line feed. -/
def spreadDocument (w : List UInt8) : Document where
  declaration := ⟨[versionAttribute 39], [32]⟩
  prolog := []
  doctype := none
  root := .element (bytes "r") [] [] [.element (bytes "a") [] w [] []] []
  epilog := [.space [10]]

theorem isName_letter {c : UInt8} (h : 97 ≤ c ∧ c ≤ 122) : IsName [c] :=
  ⟨⟨c, [], rfl, Or.inr (Or.inl h)⟩, fun d hd => by
    rw [List.mem_singleton.mp hd]
    exact Or.inl (Or.inr (Or.inl h))⟩

theorem versionAttribute_wellFormed {quote : UInt8} (h : quote = 34 ∨ quote = 39) :
    (versionAttribute quote).WellFormed where
  space_ne := List.cons_ne_nil _ _
  space := by simp [versionAttribute, IsSpace]
  name := ⟨⟨118, bytes "ersion", rfl, Or.inr (Or.inl (by decide))⟩, by
    intro c hc
    have hletter : ∀ c ∈ bytes "version", 97 ≤ c ∧ c ≤ 122 := by decide +kernel
    exact Or.inl (Or.inr (Or.inl (hletter c hc)))⟩
  beforeEq := List.forall_mem_nil _
  afterEq := List.forall_mem_nil _
  quote := h
  value := by
    rcases h with rfl | rfl <;> simp [versionAttribute, Piece.WellFormed]

theorem compactDocument_wellFormed : compactDocument.WellFormed where
  declaration := ⟨List.cons_ne_nil _ _, ⟨by
    simpa [compactDocument] using versionAttribute_wellFormed (Or.inl rfl), List.nodup_singleton _⟩,
    List.forall_mem_nil _⟩
  prolog := ⟨List.forall_mem_nil _, List.isChain_nil⟩
  doctype := by simp [compactDocument]
  root := ⟨isName_letter (by decide), ⟨List.forall_mem_nil _, List.nodup_nil⟩, List.forall_mem_nil _,
    List.forall_mem_nil _, List.isChain_singleton _, ⟨isName_letter (by decide),
      ⟨List.forall_mem_nil _, List.nodup_nil⟩, List.forall_mem_nil _⟩, trivial⟩
  isElement := trivial
  epilog := ⟨List.forall_mem_nil _, List.isChain_nil⟩

theorem spreadDocument_wellFormed {w : List UInt8} (h : IsSpace w) : (spreadDocument w).WellFormed where
  declaration := ⟨List.cons_ne_nil _ _, ⟨by
    simpa [spreadDocument] using versionAttribute_wellFormed (Or.inr rfl), List.nodup_singleton _⟩, by
    simp [spreadDocument, IsSpace]⟩
  prolog := ⟨List.forall_mem_nil _, List.isChain_nil⟩
  doctype := by simp [spreadDocument]
  root := ⟨isName_letter (by decide), ⟨List.forall_mem_nil _, List.nodup_nil⟩, List.forall_mem_nil _,
    List.forall_mem_nil _, List.isChain_singleton _, ⟨isName_letter (by decide),
      ⟨List.forall_mem_nil _, List.nodup_nil⟩, h, List.forall_mem_nil _, List.isChain_nil, trivial⟩,
    trivial⟩
  isElement := trivial
  epilog := ⟨by simp [spreadDocument, Misc.WellFormed, IsSpace], List.isChain_singleton _⟩

theorem contentOf_spreadDocument (w : List UInt8) :
    contentOf compactDocument = contentOf (spreadDocument w) := rfl

/-- A document with both kinds of empty element, and white space in tags. -/
theorem parse_calls_two : ∃ p p', new.parse compactDocument.write = .ok p ∧
    new.parse (spreadDocument [32, 10]).write = .ok p' ∧ p.calls = p'.calls ∧
      p.calls = contentCalls (contentOf compactDocument) ∧ p.stack = [] ∧ p'.stack = [] := by
  have hplain : ∀ quote, PlainAttribute .utf8 (versionAttribute quote) := fun quote =>
    ⟨List.forall_mem_nil _, List.forall_mem_nil _, by simp [versionAttribute, Fits]⟩
  refine parse_calls compactDocument (spreadDocument [32, 10]) compactDocument_wellFormed
    (spreadDocument_wellFormed (by simp [IsSpace])) (contentOf_spreadDocument _) ?_ ?_ _ _ ?_ ?_
  · exact ⟨by simpa [PlainDeclaration, compactDocument] using hplain 34, by simp [compactDocument],
      ⟨⟨List.forall_mem_nil _, List.forall_mem_nil _, List.forall_mem_nil _⟩, rfl,
        ⟨List.forall_mem_nil _, List.forall_mem_nil _, List.forall_mem_nil _⟩, trivial⟩,
      fun _ _ _ h => Node.noConfusion h, rfl⟩
  · exact ⟨by simpa [PlainDeclaration, spreadDocument] using hplain 39, by simp [spreadDocument],
      ⟨⟨List.forall_mem_nil _, List.forall_mem_nil _, List.forall_mem_nil _⟩, rfl,
        ⟨⟨List.forall_mem_nil _, List.forall_mem_nil _, by simp [NoTab]⟩, rfl, trivial⟩, trivial⟩,
      fun _ _ _ h => Node.noConfusion h, rfl⟩
  · exact ⟨by decide +kernel, by decide +kernel⟩
  · exact ⟨by decide +kernel, by decide +kernel⟩

/-- The tag of a start tag. -/
def startedTag : QDCall → Option (List UInt8)
  | .startElement tag _ => some tag
  | _ => none

/-- A tab after the name of an element becomes part of the name. -/
theorem not_parse_calls : ¬∀ d d' : Document, d.WellFormed → d'.WellFormed →
    contentOf d = contentOf d' → ∃ p p', new.parse d.write = .ok p ∧ new.parse d'.write = .ok p' ∧
      p.calls = p'.calls := by
  intro hall
  obtain ⟨p, p', hparse, hparse', hcalls⟩ := hall compactDocument (spreadDocument [9])
    compactDocument_wellFormed (spreadDocument_wellFormed (by simp [IsSpace]))
    (contentOf_spreadDocument _)
  have htags : (new.parse compactDocument.write).toOption.map
      (fun p => p.calls.filterMap startedTag) = some [bytes "r", bytes "a"] := by decide +kernel
  have htags' : (new.parse (spreadDocument [9]).write).toOption.map
      (fun p => p.calls.filterMap startedTag) = some [bytes "r", bytes "a\t"] := by decide +kernel
  rw [hparse] at htags
  rw [hparse'] at htags'
  have hsame : some (p.calls.filterMap startedTag) = some (p'.calls.filterMap startedTag) :=
    congrArg (fun calls => some (List.filterMap startedTag calls)) hcalls
  exact absurd (htags.symm.trans (hsame.trans htags')) (by decide +kernel)

end Emdros.QDParser
