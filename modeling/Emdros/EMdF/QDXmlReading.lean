/-
# What the XML reader makes of a piece of text (`QDParser::parse`)

The reader is a machine that takes one character after the other.  `Reads p cs q` says that reading
`cs` takes it from `p` to `q`, whatever follows; so readings can be put one after the other
(`Reads.trans`), and the lemmas go up from the characters to a document.

* References, in texts and in values: what is between `&` and `;` is collected in a state of its
  own, with the old state on the stack.
* Texts and attribute values, piece by piece.
* Attributes, start tags and end tags.  What the reader tolerates is wider than what is written
  here; a tab inside of a tag it does not tolerate (`NoTab`).
* Comments and CDATA sections, which end at the first place where their end could be.
* Content, by induction on the tree, and the root, whose end tag is the end of the document.

The buffers for names and values hold what was left in them, which no later state reads; so the
states that are reached are given up to these.
-/
import Emdros.Base.XmlText
import Emdros.EMdF.QDXml

namespace Emdros.QDParser

open Lexer (bytes)
open XmlText

/-! ## 1. Reading -/

/-- Reading `cs` takes the reader from `p` to `q`. -/
def Reads (p : QDParser) (cs : List UInt8) (q : QDParser) : Prop :=
  ∀ rest, loop 0 p (cs ++ rest) = loop 0 q rest

namespace Reads

variable {p q r : QDParser} {cs ds : List UInt8} {c : UInt8}

theorem refl (p : QDParser) : Reads p [] p := fun _ => rfl

theorem trans (h : Reads p cs q) (h' : Reads q ds r) : Reads p (cs ++ ds) r := by
  intro rest
  rw [List.append_assoc, h, h']

/-- One character. -/
theorem one (hdone : p.state ≠ .done) (h : ∀ rest, step p c rest = .ok (q, 0)) :
    Reads p [c] q := by
  intro rest
  change loop 0 p (c :: rest) = loop 0 q rest
  rw [loop, if_neg hdone, h rest]
  rfl

theorem cons (h : Reads p [c] q) (h' : Reads q cs r) : Reads p (c :: cs) r := h.trans h'

/-- The text of a loop: each character keeps the state and adds to what was read. -/
theorem many_of_start {f : List UInt8 → QDParser} (hone : ∀ read c post, cs = read ++ c :: post →
    Reads (f read) [c] (f (read ++ [c]))) : Reads (f []) cs (f cs) := by
  have hfrom : ∀ ds read : List UInt8, cs = read ++ ds → Reads (f read) ds (f (read ++ ds)) := by
    intro ds
    induction ds with
    | nil => exact fun read _ => (List.append_nil read).symm ▸ Reads.refl _
    | cons c ds ih =>
      intro read hsplit
      have hrest := ih (read ++ [c]) (by rw [hsplit, List.append_assoc, List.singleton_append])
      rw [List.append_assoc] at hrest
      exact (hone read c ds hsplit).cons hrest
  exact hfrom cs [] rfl

theorem many {f : List UInt8 → QDParser} (hone : ∀ read, ∀ c ∈ cs,
    Reads (f read) [c] (f (read ++ [c]))) : Reads (f []) cs (f cs) := by
  refine many_of_start fun read c post hsplit => hone read c ?_
  rw [hsplit]
  exact List.mem_append_right _ List.mem_cons_self

end Reads

/-! ## 2. References -/

/-- How a character is written that is referred to by its number. -/
def encodeNumber (encoding : Charset) (l : Nat) : List UInt8 :=
  if encoding = .utf8 then String.utf8EncodeChar (Char.ofNat l) else [UInt8.ofNat l]

/-- The character set has the character, at its number or in UTF-8. -/
def Encodable (encoding : Charset) (l : Nat) : Prop :=
  encoding = .utf8 ∨ l < 128 ∨ encoding = .iso8859 1 ∧ l < 256

/-- What stands between the ampersand and the semicolon. -/
def entityOf : Piece → List UInt8
  | .char _ => []
  | .entity e => e.name
  | .decimal digits => 35 :: digits
  | .hexadecimal digits => 35 :: 120 :: digits

/-- References are to characters that the character set has. -/
def Fits (encoding : Charset) : Piece → Prop
  | .decimal digits => Encodable encoding (number 10 digits)
  | .hexadecimal digits => Encodable encoding (number 16 digits)
  | _ => True

section References

variable {encoding : Charset} {digits : List UInt8}

theorem toNat_bounds {c : UInt8} (h : IsDigit c) : 48 ≤ c.toNat ∧ c.toNat ≤ 57 :=
  ⟨UInt8.le_iff_toNat_le.mp h.1, UInt8.le_iff_toNat_le.mp h.2⟩

theorem isDecimal_of_isDigit {c : UInt8} (h : IsDigit c) : IsDecimal c := by
  have hc := toNat_bounds h
  refine ⟨c.toNat - 48, by omega, ?_⟩
  rw [Nat.add_sub_cancel' hc.1, UInt8.ofNat_toNat]

theorem digitValue_of_isDigit {c : UInt8} (h : IsDigit c) : digitValue c = c.toNat - 48 := if_pos h.2

/-- What holds of the bytes by number holds of all bytes. -/
theorem forall_byte {P : UInt8 → Prop} (h : ∀ n < 256, P (UInt8.ofNat n)) : ∀ c, P c := by
  intro c
  have hc := h c.toNat (UInt8.toNat_lt c)
  rwa [UInt8.ofNat_toNat] at hc

/-- The hexadecimal digits, by a look at all bytes. -/
theorem hexDigit_spec : ∀ c, IsHexDigit c →
    (bytes "0123456789abcdefABCDEF").contains c = true ∧ (hexDigit c).toNat = digitValue c ∧
      digitValue c < 16 ∧ c ≠ 59 := by
  refine forall_byte ?_
  unfold IsHexDigit IsDigit
  decide +kernel

theorem string2long_digits (hne : digits ≠ []) (h : ∀ c ∈ digits, IsDigit c) :
    string2long digits = number 10 digits := by
  have hspace : (digits.dropWhile fun c => c = 32 || c = 10 || c = 9 || c = 13) = digits := by
    obtain ⟨c, rest, rfl⟩ := List.exists_cons_of_ne_nil hne
    have hc := toNat_bounds (h c List.mem_cons_self)
    refine List.dropWhile_cons_of_neg ?_
    simp only [Bool.or_eq_true, decide_eq_true_eq, not_or]
    refine ⟨⟨⟨?_, ?_⟩, ?_⟩, ?_⟩ <;> rintro rfl <;> exact absurd hc.1 (by decide)
  have hvalue : ∀ (ds : List UInt8) (v : Nat), (∀ c ∈ ds, IsDigit c) →
      Radix.horner 10 v (decimalDigits ds) =
        ((ds.foldl (fun v c => v * 10 + digitValue c) v : Nat) : Int) := by
    intro ds
    induction ds with
    | nil => exact fun _ _ => rfl
    | cons c ds ih =>
      intro v hds
      have hc := toNat_bounds (hds c List.mem_cons_self)
      have hrest := ih (v * 10 + digitValue c) fun d hd => hds d (List.mem_cons_of_mem c hd)
      rw [List.foldl_cons, ← hrest, digitValue_of_isDigit (hds c List.mem_cons_self)]
      rw [decimalDigits, List.map_cons, Radix.horner_cons, ← decimalDigits]
      congr 1
      push_cast [Nat.cast_sub hc.1]
      ring
  rw [string2long, hspace, sz2longlong_decimal fun c hc => isDecimal_of_isDigit (h c hc)]
  exact hvalue digits 0 h

theorem hex2long_digits (h : ∀ c ∈ digits, IsHexDigit c) : hex2long digits = number 16 digits := by
  unfold hex2long number
  generalize 0 = v
  induction digits generalizing v with
  | nil => rfl
  | cons c digits ih =>
    obtain ⟨-, hvalue, hlt, -⟩ := hexDigit_spec _ (h c List.mem_cons_self)
    have hor : (v <<< 4) ||| (hexDigit c).toNat = v * 16 + digitValue c := by
      rw [hvalue, ← Nat.shiftLeft_add_eq_or_of_lt (by omega) v, Nat.shiftLeft_eq]
    rw [List.foldl_cons, List.foldl_cons, hor]
    exact ih (fun d hd => h d (List.mem_cons_of_mem c hd)) _

/-- A number that is that of a character. -/
theorem ofNat_toNat {c : Char} {l : Nat} (h : c.toNat = l) : Char.ofNat l = c := by
  rw [← h]
  exact Char.ofNat_toNat c

/-- **What a reference stands for.** -/
theorem entityText_entityOf {piece : Piece} (hchar : ∀ c, piece ≠ .char c) {excluded : UInt8 → Prop}
    (h : piece.WellFormed excluded) (hfits : Fits encoding piece) :
    entityText encoding (entityOf piece) = .ok (piece.value (encodeNumber encoding)) := by
  have hnumber : ∀ (l : Nat) (c : Char), c.toNat = l → Encodable encoding l →
      (if encoding = .utf8 then .ok (if (l : Int) < 0x80 then [lowByte l] else long2utf8 (l : Int).toNat)
        else if (l : Int) ≤ 255 then .ok [lowByte l]
        else except (bytes "Entity &" ++ entityOf piece ++ bytes ("; out of range; document is " ++
          "non-UTF8, and so we can handle only single-byte data."))) =
        (.ok (encodeNumber encoding l) : Except (List UInt8) (List UInt8)) := by
    intro l c hc hl
    have hlow : l < 256 → lowByte l = UInt8.ofNat l := by
      intro hlt
      unfold lowByte
      congr 1
      omega
    by_cases hutf8 : encoding = .utf8
    · rw [if_pos hutf8, encodeNumber, if_pos hutf8, ofNat_toNat hc, ← long2utf8_eq, hc]
      by_cases hlt : (l : Int) < 0x80
      · rw [if_pos hlt, hlow (by omega), long2utf8, if_pos (by omega)]
      · rw [if_neg hlt, Int.toNat_natCast]
    · have hlt : l < 256 := by
        rcases hl with h | h | ⟨-, h⟩
        · exact absurd h hutf8
        · omega
        · exact h
      rw [if_neg hutf8, if_pos (by omega), encodeNumber, if_neg hutf8, hlow hlt]
  cases piece with
  | char c => exact absurd rfl (hchar c)
  | entity e =>
    cases e <;> rfl
  | decimal digits =>
    obtain ⟨hne, hdigits, c, hc⟩ := h
    have hent : entityNumber (35 :: digits) = .ok (number 10 digits : Int) := by
      obtain ⟨d, rest, rfl⟩ := List.exists_cons_of_ne_nil hne
      have hd := toNat_bounds (hdigits d List.mem_cons_self)
      have hx : ¬(1 < (35 :: d :: rest).length ∧
          ((35 :: d :: rest).getD 1 0 = 120 ∨ (35 :: d :: rest).getD 1 0 = 88)) := by
        rintro ⟨-, hx | hx⟩ <;> change d = _ at hx <;> subst hx <;> exact absurd hd.2 (by decide)
      rw [entityNumber]
      dsimp only
      rw [if_neg hx]
      exact congrArg Except.ok (string2long_digits hne hdigits)
    rw [entityText, entityOf, if_pos (show (35 :: digits).head? = some 35 from rfl), hent]
    exact hnumber _ c hc hfits
  | hexadecimal digits =>
    obtain ⟨hne, hdigits, c, hc⟩ := h
    have hhex : isHex digits = true := by
      rw [isHex, Bool.and_eq_true, List.all_eq_true]
      refine ⟨by simpa using hne, fun d hd => (hexDigit_spec _ (hdigits d hd)).1⟩
    have hent : entityNumber (35 :: 120 :: digits) = .ok (number 16 digits : Int) := by
      rw [entityNumber]
      dsimp only
      rw [if_pos ⟨by simp, Or.inl rfl⟩]
      change (if isHex digits = true then _ else _) = _
      rw [if_pos hhex]
      exact congrArg Except.ok (congrArg Nat.cast (hex2long_digits hdigits))
    rw [entityText, entityOf,
      if_pos (show (35 :: 120 :: digits).head? = some 35 from rfl), hent]
    exact hnumber _ c hc hfits

end References

/-! ## 3. Texts and values -/

section Pieces

variable {p : QDParser} {encoding : Charset}

theorem char_or_reference (piece : Piece) : (∃ c, piece = .char c) ∨ ∀ c, piece ≠ .char c := by
  cases piece with
  | char c => exact Or.inl ⟨c, rfl⟩
  | entity e => exact Or.inr fun c h => Piece.noConfusion h
  | decimal digits => exact Or.inr fun c h => Piece.noConfusion h
  | hexadecimal digits => exact Or.inr fun c h => Piece.noConfusion h

theorem not_mem_entityOf {piece : Piece} {excluded : UInt8 → Prop} (h : piece.WellFormed excluded) :
    ∀ c ∈ entityOf piece, c ≠ 59 := by
  cases piece with
  | char c => exact List.forall_mem_nil _
  | entity e => cases e <;> decide +kernel
  | decimal digits =>
    refine List.forall_mem_cons.mpr ⟨by decide, fun c hc => ?_⟩
    exact (hexDigit_spec _ (Or.inl (h.2.1 c hc))).2.2.2
  | hexadecimal digits =>
    refine List.forall_mem_cons.mpr ⟨by decide, List.forall_mem_cons.mpr ⟨by decide, ?_⟩⟩
    exact fun c hc => (hexDigit_spec _ (h.2.1 c hc)).2.2.2

/-- The reader after a reference, in a text or in a value. -/
def afterReference (p : QDParser) (entity str : List UInt8) : QDParser :=
  if p.state = .quote then { p with entity := entity, rvalue := p.rvalue ++ str }
  else { p with entity := entity, text := p.text ++ str }

/-- **A reference**: the state waits on the stack while the entity is read. -/
theorem reads_reference (hs : p.state = .text ∨ p.state = .quote) {piece : Piece}
    (hchar : ∀ c, piece ≠ .char c) {excluded : UInt8 → Prop} (h : piece.WellFormed excluded)
    (hfits : Fits p.encoding piece) :
    Reads p piece.write (afterReference p (entityOf piece) (piece.value (encodeNumber p.encoding))) := by
  have hwrite : piece.write = 38 :: (entityOf piece ++ [59]) := by
    cases piece with
    | char c => exact absurd rfl (hchar c)
    | entity e => rfl
    | decimal digits => rfl
    | hexadecimal digits => rfl
  let start : QDParser := { p with stack := p.state :: p.stack, state := .entity, entity := [] }
  have hstart : Reads p [38] start := by
    rcases hs with hs | hs
    · refine Reads.one (by rw [hs]; decide) fun rest => ?_
      simp [step, hs, textState, pushState, start]
    · refine Reads.one (by rw [hs]; decide) fun rest => ?_
      simp [step, hs, quoteState, pushState, start, Except.map]
  have hname : Reads start (entityOf piece) { start with entity := entityOf piece } := by
    refine Reads.many (f := fun read => { start with entity := read }) fun read c hc => ?_
    refine Reads.one (by simp [start]) fun rest => ?_
    simp [step, start, entityState, not_mem_entityOf h c hc, Except.map]
  have hend : Reads { start with entity := entityOf piece } [59]
      (afterReference p (entityOf piece) (piece.value (encodeNumber p.encoding))) := by
    refine Reads.one (by simp [start]) fun rest => ?_
    have htext := entityText_entityOf hchar h hfits
    simp [step, start, entityState, popState, Except.bind, handleEntity, htext, Except.map,
      afterReference]
  rw [hwrite]
  exact hstart.cons (hname.trans hend)

/-- **A text.** -/
theorem reads_pieces (hs : p.state = .text) {pieces : List Piece}
    (h : ∀ piece ∈ pieces, piece.WellFormed fun _ => False)
    (hfits : ∀ piece ∈ pieces, Fits p.encoding piece) :
    ∃ e, Reads p (writePieces pieces)
      { p with text := p.text ++ pieces.flatMap (Piece.value (encodeNumber p.encoding)), entity := e } := by
  induction pieces generalizing p with
  | nil =>
    refine ⟨p.entity, ?_⟩
    rw [List.flatMap_nil, List.append_nil]
    exact Reads.refl p
  | cons piece pieces ih =>
    obtain ⟨hpiece, hpieces⟩ := List.forall_mem_cons.mp h
    obtain ⟨hfit, hfits⟩ := List.forall_mem_cons.mp hfits
    have hone : ∃ e, Reads p piece.write
        { p with text := p.text ++ piece.value (encodeNumber p.encoding), entity := e } := by
      rcases char_or_reference piece with ⟨c, rfl⟩ | hchar
      · refine ⟨p.entity, Reads.one (by rw [hs]; decide) fun rest => ?_⟩
        simp [step, hs, textState, hpiece.1, hpiece.2.1, Piece.value]
      · have href := reads_reference (Or.inl hs) hchar hpiece hfit
        rw [afterReference, if_neg (by rw [hs]; decide)] at href
        exact ⟨_, href⟩
    obtain ⟨e, hone⟩ := hone
    obtain ⟨e', hrest⟩ := ih (p := { p with
      text := p.text ++ piece.value (encodeNumber p.encoding), entity := e }) hs hpieces hfits
    refine ⟨e', ?_⟩
    have hall := hone.trans hrest
    rw [List.append_assoc] at hall
    exact hall

/-- **An attribute value**, up to the closing quotation mark. -/
theorem reads_value (hs : p.state = .quote) {pieces : List Piece}
    (h : ∀ piece ∈ pieces, piece.WellFormed (· = p.quoteChar))
    (hfits : ∀ piece ∈ pieces, Fits p.encoding piece) :
    ∃ e, Reads p (writePieces pieces)
      { p with
        rvalue := p.rvalue ++ pieces.flatMap (Piece.attributeValue (encodeNumber p.encoding))
        entity := e } := by
  induction pieces generalizing p with
  | nil =>
    refine ⟨p.entity, ?_⟩
    rw [List.flatMap_nil, List.append_nil]
    exact Reads.refl p
  | cons piece pieces ih =>
    obtain ⟨hpiece, hpieces⟩ := List.forall_mem_cons.mp h
    obtain ⟨hfit, hfits⟩ := List.forall_mem_cons.mp hfits
    have hone : ∃ e, Reads p piece.write
        { p with rvalue := p.rvalue ++ piece.attributeValue (encodeNumber p.encoding), entity := e } := by
      rcases char_or_reference piece with ⟨c, rfl⟩ | hchar
      · refine ⟨p.entity, Reads.one (by rw [hs]; decide) fun rest => ?_⟩
        by_cases hspace : c = 10 ∨ c = 9
        · simp [step, hs, quoteState, hspace, Piece.attributeValue, Or.comm.mp hspace, Except.map]
        · have hspace' : ¬(c = 9 ∨ c = 10) := fun h => hspace h.symm
          simp [step, hs, quoteState, hspace, Piece.attributeValue, hspace', Except.map, hpiece.1,
            hpiece.2.2.2]
      · have href := reads_reference (Or.inr hs) hchar hpiece hfit
        have hvalue : piece.attributeValue (encodeNumber p.encoding) =
            piece.value (encodeNumber p.encoding) := by
          cases piece with
          | char c => exact absurd rfl (hchar c)
          | entity e => rfl
          | decimal digits => rfl
          | hexadecimal digits => rfl
        rw [afterReference, if_pos hs, ← hvalue] at href
        exact ⟨_, href⟩
    obtain ⟨e, hone⟩ := hone
    obtain ⟨e', hrest⟩ := ih (p := { p with
      rvalue := p.rvalue ++ piece.attributeValue (encodeNumber p.encoding), entity := e })
      hs hpieces hfits
    refine ⟨e', ?_⟩
    have hall := hone.trans hrest
    rw [List.append_assoc] at hall
    exact hall

end Pieces

/-! ## 4. Tags -/

/-- The map of the attributes of a tag; the first of two with one name stays. -/
def attributeMap (attributes : List (List UInt8 × List UInt8)) : AttributeMap :=
  attributes.foldl (fun m a => m.insert a.1 a.2) .empty

section Tags

variable {p : QDParser}

/-- White space without tabs, which the states in tags pass over. -/
def NoTab (w : List UInt8) : Prop := ∀ c ∈ w, c ≠ 9

theorem isTagSpace_of {w : List UInt8} (h : IsSpace w) (hplain : NoTab w) :
    ∀ c ∈ w, isTagSpace c = true := by
  intro c hc
  rcases h c hc with rfl | rfl | rfl
  · rfl
  · exact absurd rfl (hplain 9 hc)
  · rfl

theorem myisspace_of {w : List UInt8} (h : IsSpace w) : ∀ c ∈ w, myisspace c = true := by
  intro c hc
  rcases h c hc with rfl | rfl | rfl <;> rfl

/-- Characters that change nothing. -/
theorem Reads.skip {cs : List UInt8} (h : ∀ c ∈ cs, Reads p [c] p) : Reads p cs p :=
  Reads.many (f := fun _ => p) fun _ c hc => h c hc

/-- No character of a name means something else in a tag. -/
theorem nameChar_spec : ∀ c, IsNameChar c →
    isTagSpace c = false ∧ myisspace c = false ∧ c ≠ 61 ∧ c ≠ 47 ∧ c ≠ 62 ∧ c ≠ 63 ∧ c ≠ 33 := by
  refine forall_byte ?_
  unfold IsNameChar IsNameStart
  decide +kernel

/-- The reader inside a tag or in the XML declaration, where attributes begin. -/
def AtAttribute (p : QDParser) : Prop := p.state = .inTag ∨ p.state = .inXmlDeclaration

/-- **An attribute**, from its name on. -/
theorem reads_attribute (hs : AtAttribute p) {a : Attribute} (h : a.WellFormed)
    (hbefore : NoTab a.beforeEq) (hafter : NoTab a.afterEq)
    (hfits : ∀ piece ∈ a.value, Fits p.encoding piece) :
    ∃ l v k e, Reads p (a.name ++ (a.beforeEq ++ 61 :: (a.afterEq ++ a.quote ::
        (writePieces a.value ++ [a.quote]))))
      { p with
        attributes := p.attributes.insert (a.content (encodeNumber p.encoding)).1
          (a.content (encodeNumber p.encoding)).2
        lvalue := l, rvalue := v, quoteChar := k, entity := e } := by
  obtain ⟨c, name, hname, hstart⟩ := h.name.start
  have hchars : ∀ d ∈ c :: name, IsNameChar d := hname ▸ h.name.chars
  -- The name.
  let named (read : List UInt8) : QDParser :=
    { p with stack := p.state :: p.stack, state := .attributeLvalue, lvalue := read, rvalue := [] }
  have hfirst : Reads p [c] (named [c]) := by
    obtain ⟨hspace, hspace', -, hslash, hgt, hquery, -⟩ := nameChar_spec _ (hchars c List.mem_cons_self)
    rcases hs with hs | hs
    · refine Reads.one (by rw [hs]; decide) fun rest => ?_
      simp [step, hs, inTagState, hslash, hgt, hspace, startAttribute, pushState, named, Except.map]
    · refine Reads.one (by rw [hs]; decide) fun rest => ?_
      simp [step, hs, inXmlDeclarationState, hquery, hspace', startAttribute, pushState, named]
  have hrest : Reads (named [c]) name (named (c :: name)) := by
    refine Reads.many (f := fun read => named (c :: read)) fun read d hd => ?_
    obtain ⟨hspace, -, heq, -⟩ := nameChar_spec _ (hchars d (List.mem_cons_of_mem c hd))
    refine Reads.one (by simp [named]) fun rest => ?_
    simp [step, named, attributeLvalueState, hspace, heq]
  -- The equals sign, with white space around it.
  let valued : QDParser := { named a.name with state := .attributeRvalue }
  have heq : Reads (named a.name) (a.beforeEq ++ [61]) valued := by
    have hspaces := isTagSpace_of h.beforeEq hbefore
    cases hw : a.beforeEq with
    | nil =>
      refine Reads.one (by simp [named]) fun rest => ?_
      simp [step, named, attributeLvalueState, valued]
    | cons d w =>
      rw [hw] at hspaces
      let waiting : QDParser := { named a.name with state := .attributeEqual }
      have hd : Reads (named a.name) [d] waiting := by
        refine Reads.one (by simp [named]) fun rest => ?_
        have hspace := hspaces d List.mem_cons_self
        have hne : d ≠ 61 := by
          rintro rfl
          exact absurd hspace (by decide)
        simp [step, named, attributeLvalueState, hspace, hne, waiting]
      have hw : Reads waiting w waiting := Reads.skip fun d hd => by
        refine Reads.one (by simp [waiting]) fun rest => ?_
        have hspace := hspaces d (List.mem_cons_of_mem _ hd)
        have hne : d ≠ 61 := by
          rintro rfl
          exact absurd hspace (by decide)
        simp [step, waiting, attributeEqualState, hspace, hne, Except.map]
      have hsign : Reads waiting [61] valued := by
        refine Reads.one (by simp [waiting]) fun rest => ?_
        simp [step, waiting, attributeEqualState, valued, Except.map]
      exact hd.cons (hw.trans hsign)
  have hspace : Reads valued a.afterEq valued := Reads.skip fun d hd => by
    refine Reads.one (by simp [valued]) fun rest => ?_
    have hspace := isTagSpace_of h.afterEq hafter d hd
    have hne : ¬(d = 39 ∨ d = 34) := by
      rintro (rfl | rfl) <;> exact absurd hspace (by decide)
    simp [step, valued, attributeRvalueState, hspace, hne, Except.map]
  -- The value.
  let quoted : QDParser := { valued with quoteChar := a.quote, state := .quote }
  have hopen : Reads valued [a.quote] quoted := by
    refine Reads.one (by simp [valued]) fun rest => ?_
    simp [step, valued, attributeRvalueState, h.quote.symm, quoted, Except.map]
  obtain ⟨e, hvalue⟩ := reads_value (p := quoted) rfl h.value hfits
  have hclose : Reads { quoted with
      rvalue := quoted.rvalue ++ a.value.flatMap (Piece.attributeValue (encodeNumber quoted.encoding))
      entity := e } [a.quote] { p with
        attributes := p.attributes.insert (a.content (encodeNumber p.encoding)).1
          (a.content (encodeNumber p.encoding)).2
        lvalue := a.name
        rvalue := a.value.flatMap (Piece.attributeValue (encodeNumber p.encoding))
        quoteChar := a.quote, entity := e } := by
    refine Reads.one (by simp [quoted]) fun rest => ?_
    have hquote : ¬(a.quote = 10 ∨ a.quote = 9) ∧ a.quote ≠ 38 := by
      rcases h.quote with hq | hq <;> rw [hq] <;> decide
    simp [step, quoted, quoteState, hquote.1, hquote.2, popState, valued, named, Attribute.content,
      Except.map]
  refine ⟨a.name, a.value.flatMap (Piece.attributeValue (encodeNumber p.encoding)), a.quote, e, ?_⟩
  have hname' : Reads p a.name (named a.name) := by
    rw [hname]
    exact hfirst.cons hrest
  have hall := hname'.trans (heq.trans (hspace.trans (hopen.cons (hvalue.trans hclose))))
  simpa only [List.append_assoc, List.singleton_append] using hall

/-- What is asked of an attribute besides that it is well-formed: no tab stands around the equals
sign, and the character set has what is referred to. -/
structure PlainAttribute (encoding : Charset) (a : Attribute) : Prop where
  beforeEq : NoTab a.beforeEq
  afterEq : NoTab a.afterEq
  fits : ∀ piece ∈ a.value, Fits encoding piece

/-- The attributes of a tag or of the XML declaration.  From the state `s` or `r`, white space leads
to `r`, where attributes begin. -/
theorem reads_attributes {s r : QDState} (hr : r = .inTag ∨ r = .inXmlDeclaration)
    {attributes : List Attribute} (h : ∀ a ∈ attributes, a.WellFormed)
    (hplain : ∀ a ∈ attributes, PlainAttribute p.encoding a)
    (hspace : ∀ a ∈ attributes, ∀ q : QDParser, q.state = s ∨ q.state = r →
      Reads q a.space { q with state := r }) (hs : p.state = s ∨ p.state = r) :
    ∃ l v k e t, (t = s ∨ t = r) ∧ Reads p (writeAttributes attributes) { p with
      state := t
      attributes := (attributes.map (Attribute.content (encodeNumber p.encoding))).foldl
        (fun m a => m.insert a.1 a.2) p.attributes
      lvalue := l, rvalue := v, quoteChar := k, entity := e } := by
  induction attributes generalizing p with
  | nil => exact ⟨p.lvalue, p.rvalue, p.quoteChar, p.entity, p.state, hs, Reads.refl p⟩
  | cons a attributes ih =>
    obtain ⟨ha, h⟩ := List.forall_mem_cons.mp h
    obtain ⟨hone, hplain⟩ := List.forall_mem_cons.mp hplain
    obtain ⟨hfirst, hspace⟩ := List.forall_mem_cons.mp hspace
    obtain ⟨l, v, k, e, hattribute⟩ := reads_attribute (p := { p with state := r }) hr ha
      hone.beforeEq hone.afterEq hone.fits
    obtain ⟨l', v', k', e', t, ht, hrest⟩ := ih (p := { p with
      state := r
      attributes := p.attributes.insert (a.content (encodeNumber p.encoding)).1
        (a.content (encodeNumber p.encoding)).2
      lvalue := l, rvalue := v, quoteChar := k, entity := e }) h hplain hspace (Or.inr rfl)
    refine ⟨l', v', k', e', t, ht, ?_⟩
    have hall := ((hfirst p hs).trans hattribute).trans hrest
    exact hall

/-- White space in a start tag. -/
theorem reads_tagSpace {w : List UInt8} (h : IsSpace w) (hplain : NoTab w) (hne : w ≠ []) (q : QDParser)
    (hs : q.state = .openTag ∨ q.state = .inTag) : Reads q w { q with state := .inTag } := by
  obtain ⟨c, w, rfl⟩ := List.exists_cons_of_ne_nil hne
  have hspaces := isTagSpace_of h hplain
  have hnot : ∀ c, isTagSpace c = true → c ≠ 47 ∧ c ≠ 62 := by
    intro c hc
    constructor <;> rintro rfl <;> exact absurd hc (by decide)
  have hfirst : Reads q [c] { q with state := .inTag } := by
    have hspace := hspaces c List.mem_cons_self
    obtain ⟨hslash, hgt⟩ := hnot c hspace
    rcases hs with hs | hs
    · refine Reads.one (by rw [hs]; decide) fun rest => ?_
      simp [step, hs, openTagState, hspace, hslash, hgt, Except.map]
    · refine Reads.one (by rw [hs]; decide) fun rest => ?_
      have hsame : ({ q with state := .inTag } : QDParser) = q := by rw [← hs]
      simp [step, hs, inTagState, hspace, hslash, hgt, Except.map, hsame]
  refine hfirst.cons (Reads.skip fun d hd => ?_)
  have hspace := hspaces d (List.mem_cons_of_mem c hd)
  obtain ⟨hslash, hgt⟩ := hnot d hspace
  refine Reads.one (by simp) fun rest => ?_
  simp [step, inTagState, hspace, hslash, hgt, Except.map]

/-- What is asked of the white space in a start tag besides. -/
structure PlainTag (encoding : Charset) (attributes : List Attribute) (space : List UInt8) : Prop where
  spaces : ∀ a ∈ attributes, NoTab a.space
  attributes : ∀ a ∈ attributes, PlainAttribute encoding a
  space : NoTab space

/-- The calls, with that for the text that is being collected. -/
def flushed (p : QDParser) : List QDCall :=
  if p.text = [] then p.calls else p.calls ++ [.text p.text]

/-- The less-than sign ends a text. -/
theorem reads_lessThan (hs : p.state = .text) : Reads p [60] { p with
    state := .startTag, stack := .text :: p.stack, calls := p.flushed, text := [], tagName := [] } := by
  refine Reads.one (by rw [hs]; decide) fun rest => ?_
  by_cases ht : p.text = []
  · simp [step, hs, textState, ht, pushState, flushed]
  · simp [step, hs, textState, ht, pushState, flushed, call]

/-- **A start tag**, up to its end. -/
theorem reads_tag (hs : p.state = .text) {tag : List UInt8} {attributes : List Attribute}
    {space : List UInt8} (htag : IsName tag) (h : ∀ a ∈ attributes, a.WellFormed)
    (hspace : IsSpace space) (hplain : PlainTag p.encoding attributes space) :
    ∃ l v k e t, (t = .openTag ∨ t = .inTag) ∧ Reads p (writeTag tag attributes space) { p with
      state := t, stack := .text :: p.stack, calls := p.flushed, text := [], tagName := tag
      attributes := attributeMap (attributes.map (Attribute.content (encodeNumber p.encoding)))
      lvalue := l, rvalue := v, quoteChar := k, entity := e } := by
  obtain ⟨c, name, hname, hstart⟩ := htag.start
  have hchars : ∀ d ∈ c :: name, IsNameChar d := hname ▸ htag.chars
  let opened (read : List UInt8) : QDParser := { p with
    state := .openTag, stack := .text :: p.stack, calls := p.flushed, text := [], tagName := read
    attributes := .empty }
  have hfirst : Reads { p with
      state := .startTag, stack := .text :: p.stack, calls := p.flushed, text := [], tagName := [] }
      [c] (opened [c]) := by
    obtain ⟨-, -, -, hslash, -, hquery, -⟩ := nameChar_spec _ (hchars c List.mem_cons_self)
    refine Reads.one (by simp) fun rest => ?_
    simp [step, startTagState, popState, pushState, hslash, hquery, Except.map, eraseAttributes,
      opened]
  have hrest : Reads (opened [c]) name (opened (c :: name)) := by
    refine Reads.many (f := fun read => opened (c :: read)) fun read d hd => ?_
    obtain ⟨hspace, -, -, hslash, hgt, -⟩ := nameChar_spec _ (hchars d (List.mem_cons_of_mem c hd))
    have hno := (nameChar_spec _ (hchars c List.mem_cons_self)).2.2.2.2.2.2
    have hmark : ∀ w, c :: (read ++ [d]) ≠ 33 :: w := fun w heq => hno (List.cons.inj heq).1
    refine Reads.one (by simp [opened]) fun rest => ?_
    have h1 : c :: (read ++ [d]) ≠ bytes "!--" := hmark [45, 45]
    have h2 : c :: (read ++ [d]) ≠ bytes "![CDATA[" := hmark [91, 67, 68, 65, 84, 65, 91]
    have h3 : c :: (read ++ [d]) ≠ bytes "!DOCTYPE" := hmark [68, 79, 67, 84, 89, 80, 69]
    simp [step, opened, openTagState, hspace, hslash, hgt, h1, h2, h3, Except.map]
  have htagged : Reads p (60 :: tag) (opened tag) := by
    rw [hname]
    exact (reads_lessThan hs).cons (hfirst.cons hrest)
  obtain ⟨l, v, k, e, t, ht, hattributes⟩ := reads_attributes (p := opened tag) (s := .openTag)
    (Or.inl rfl) h hplain.attributes (fun a ha => reads_tagSpace (h a ha).space (hplain.spaces a ha)
      (h a ha).space_ne) (Or.inl rfl)
  by_cases hnil : space = []
  · refine ⟨l, v, k, e, t, ht, ?_⟩
    rw [writeTag, hnil, List.append_nil]
    exact htagged.trans hattributes
  · refine ⟨l, v, k, e, .inTag, Or.inr rfl, ?_⟩
    exact htagged.trans (hattributes.trans (reads_tagSpace hspace hplain.space hnil _ ht))

/-- The end of a start tag. -/
theorem reads_startTagEnd {s : QDState} {stack : List QDState} (hs : p.state = .openTag ∨ p.state = .inTag)
    (hstack : p.stack = s :: stack) : Reads p [62] { p with
      state := s, stack := stack, tagDepth := p.tagDepth + 1, tagName := [], attributes := .empty
      calls := p.calls ++ [.startElement p.tagName p.attributes] } := by
  rcases hs with hs | hs
  · refine Reads.one (by rw [hs]; decide) fun rest => ?_
    simp [step, hs, openTagState, endStartTag, popState, call, eraseAttributes, hstack, Except.map]
  · refine Reads.one (by rw [hs]; decide) fun rest => ?_
    simp [step, hs, inTagState, endStartTag, popState, call, eraseAttributes, hstack, Except.map]

/-- The end of an empty element in another element. -/
theorem reads_singleTagEnd {s : QDState} {stack : List QDState}
    (hs : p.state = .openTag ∨ p.state = .inTag) (hstack : p.stack = s :: stack) (hd : p.tagDepth ≠ 0) :
    Reads p [47, 62] { p with
      state := s, stack := stack, tagName := [], attributes := .empty
      calls := p.calls ++ [.startElement p.tagName p.attributes, .endElement p.tagName] } := by
  have hslash : Reads p [47] { p with state := .singleTag } := by
    rcases hs with hs | hs
    · refine Reads.one (by rw [hs]; decide) fun rest => ?_
      simp [step, hs, openTagState, Except.map]
    · refine Reads.one (by rw [hs]; decide) fun rest => ?_
      simp [step, hs, inTagState, Except.map]
  refine hslash.cons (Reads.one (by simp) fun rest => ?_)
  simp [step, singleTagState, hd, popState, call, eraseAttributes, hstack, Except.map]

/-- **An end tag.** -/
theorem reads_endTag (hs : p.state = .text) {tag : List UInt8} (htag : ∀ c ∈ tag, c ≠ 62) :
    Reads p (60 :: 47 :: (tag ++ [62])) { p with
      state := if p.tagDepth - 1 = 0 then .done else .text
      tagDepth := p.tagDepth - 1, calls := p.flushed ++ [.endElement tag], text := [], tagName := [] } := by
  let closing (read : List UInt8) : QDParser := { p with
    state := .closeTag, stack := .text :: p.stack, calls := p.flushed, text := [], tagName := read }
  have hslash : Reads { p with
      state := .startTag, stack := .text :: p.stack, calls := p.flushed, text := [], tagName := [] }
      [47] (closing []) := by
    refine Reads.one (by simp) fun rest => ?_
    simp [step, startTagState, popState, pushState, Except.map, closing]
  have hname : Reads (closing []) tag (closing tag) := by
    refine Reads.many (f := closing) fun read c hc => ?_
    refine Reads.one (by simp [closing]) fun rest => ?_
    simp [step, closing, closeTagState, htag c hc, Except.map]
  have hend : Reads (closing tag) [62] { p with
      state := if p.tagDepth - 1 = 0 then .done else .text
      tagDepth := p.tagDepth - 1, calls := p.flushed ++ [.endElement tag], text := [], tagName := [] } := by
    refine Reads.one (by simp [closing]) fun rest => ?_
    by_cases hd : p.tagDepth - 1 = 0
    · simp [step, closing, closeTagState, popState, call, hd, Except.map]
    · simp [step, closing, closeTagState, popState, call, hd, Except.map]
  exact (reads_lessThan hs).cons (hslash.cons (hname.trans hend))

end Tags

/-! ## 5. Comments and CDATA sections -/

/-- The text ends with `fin`, and no shorter beginning of it does. -/
structure Closes (fin s : List UInt8) : Prop where
  ends : fin <:+ s
  first : ∀ u, u <+: s → fin <:+ u → u = s

/-- Where `fin` ends a beginning of `data ++ fin`, it begins in `data`. -/
theorem closes_of {fin data : List UInt8}
    (h : ∀ u c v, v ≠ [] → data = u ++ c → fin ++ v = c ++ fin → False) :
    Closes fin (data ++ fin) := by
  refine ⟨List.suffix_append data fin, ?_⟩
  rintro u ⟨v, hv⟩ ⟨w, rfl⟩
  by_contra hne
  have hv0 : v ≠ [] := by
    rintro rfl
    exact hne (by rw [← hv, List.append_nil])
  rw [List.append_assoc] at hv
  rcases List.append_eq_append_iff.mp hv with ⟨c, hdata, hfin⟩ | ⟨c, -, hfin⟩
  · exact h w c v hv0 hdata hfin
  · have hlength := congrArg List.length hfin
    have hpos := List.length_pos_iff.mpr hv0
    simp only [List.length_append] at hlength
    omega

theorem closes_comment {data : List UInt8} (h : IsComment data) :
    Closes (bytes "-->") (data ++ bytes "-->") := by
  refine closes_of fun u c v hv hdata heq => ?_
  have hbytes : bytes "-->" = [45, 45, 62] := rfl
  rw [hbytes] at heq
  rcases c with _ | ⟨x, _ | ⟨y, c⟩⟩
  · exact hv (by simpa using heq)
  · refine h.last ?_
    obtain ⟨rfl, -⟩ := List.cons.inj heq
    rw [hdata, List.getLast?_append]
    rfl
  · simp only [List.cons_append, List.cons.injEq] at heq
    obtain ⟨rfl, rfl, -⟩ := heq
    exact h.no_hyphens ⟨u, c, by rw [hdata, List.append_assoc]; rfl⟩

theorem closes_cdata {data : List UInt8} (h : IsCdata data) :
    Closes (bytes "]]>") (data ++ bytes "]]>") := by
  refine closes_of fun u c v hv hdata heq => ?_
  have hbytes : bytes "]]>" = [93, 93, 62] := rfl
  rw [hbytes] at heq
  rcases c with _ | ⟨x, _ | ⟨y, _ | ⟨z, c⟩⟩⟩
  · exact hv (by simpa using heq)
  · simp at heq
  · simp at heq
  · simp only [List.cons_append, List.cons.injEq] at heq
    obtain ⟨rfl, rfl, rfl, -⟩ := heq
    exact h ⟨u, c, by rw [hdata, List.append_assoc]; rfl⟩

section Sections

variable {p : QDParser}

theorem stringEndsWith_iff {input fin : List UInt8} :
    stringEndsWith input fin = true ↔ fin <:+ input := List.isSuffixOf_iff_suffix

/-- The rest of a comment, in the state that the comment was met in or another. -/
theorem reads_commentRest {s : QDState} {stack : List QDState} {text : List UInt8}
    (hs : p.state = .comment) (hstack : p.stack = s :: stack) (ht : p.text = [])
    (h : Closes (bytes "-->") text) : Reads p text { p with
      state := s, stack := stack, calls := p.calls ++ [.comment text] } := by
  obtain ⟨body, hbody⟩ := h.ends
  have hlast : text = (body ++ [45, 45]) ++ [62] := by
    rw [← hbody, List.append_assoc]
    rfl
  have hopen : Reads { p with text := [] } (body ++ [45, 45]) { p with text := body ++ [45, 45] } := by
    refine Reads.many_of_start (f := fun read => { p with text := read }) fun read c post hsplit => ?_
    refine Reads.one (by simp [hs]) fun rest => ?_
    have hnot : ¬stringEndsWith (read ++ [c]) (bytes "-->") = true := by
      rw [stringEndsWith_iff]
      intro hends
      have hwhole := h.first (read ++ [c]) ⟨post ++ [62], by rw [hlast, hsplit]; simp⟩ hends
      have hlength := congrArg List.length hwhole
      rw [hlast, hsplit] at hlength
      simp at hlength
    simp [step, hs, commentState, hnot, Except.map]
  have hempty : { p with text := [] } = p := by rw [← ht]
  rw [hempty] at hopen
  have hclose : Reads { p with text := body ++ [45, 45] } [62] { p with
      state := s, stack := stack, calls := p.calls ++ [.comment text] } := by
    refine Reads.one (by simp [hs]) fun rest => ?_
    have hends : stringEndsWith text (bytes "-->") = true := stringEndsWith_iff.mpr h.ends
    have htext : body ++ [45, 45] ++ [62] = text := hlast.symm
    simp only [step, hs, commentState, htext, hends, popState, call, hstack, if_true, Except.map, ht]
  have hall := hopen.trans hclose
  rwa [← hlast] at hall

/-- **A comment.** -/
theorem reads_comment (hs : p.state = .text) {text : List UInt8} (h : Closes (bytes "-->") text) :
    ∃ t, Reads p (bytes "<!--" ++ text) { p with
      calls := p.flushed ++ [.comment text], text := [], tagName := t, attributes := .empty } := by
  have hstart : Reads p (bytes "<!--") { p with
      state := .comment, stack := .text :: p.stack, calls := p.flushed, text := []
      tagName := bytes "!--", attributes := .empty } := by
    refine (reads_lessThan hs).trans (?_ : Reads _ [33, 45, 45] _)
    intro rest
    have hmark : bytes "!--" = [33, 45, 45] := rfl
    have hcdata : bytes "![CDATA[" = [33, 91, 67, 68, 65, 84, 65, 91] := rfl
    have hdoctype : bytes "!DOCTYPE" = [33, 68, 79, 67, 84, 89, 80, 69] := rfl
    simp [loop, step, startTagState, popState, pushState, Except.map, Except.bind, eraseAttributes,
      openTagState, isTagSpace, hmark, hcdata, hdoctype]
  have hrest := reads_commentRest (p := { p with
      state := .comment, stack := .text :: p.stack, calls := p.flushed, text := []
      tagName := bytes "!--", attributes := .empty }) rfl rfl rfl h
  refine ⟨bytes "!--", ?_⟩
  have hall := hstart.trans hrest
  rw [← hs] at hall
  exact hall

/-- **A CDATA section.** -/
theorem reads_cdata (hs : p.state = .text) {data : List UInt8} (h : IsCdata data) :
    ∃ t, Reads p (writeCdata data) { p with
      calls := p.flushed ++ [.text data], text := [], tagName := t, attributes := .empty } := by
  let opened (read : List UInt8) : QDParser := { p with
    state := .cdata, stack := .text :: p.stack, calls := p.flushed, text := read
    tagName := bytes "![CDATA[", attributes := .empty }
  have hstart : Reads p (bytes "<![CDATA[") (opened []) := by
    refine (reads_lessThan hs).trans (?_ : Reads _ [33, 91, 67, 68, 65, 84, 65, 91] _)
    intro rest
    have hmark : bytes "!--" = [33, 45, 45] := rfl
    have hcdata : bytes "![CDATA[" = [33, 91, 67, 68, 65, 84, 65, 91] := rfl
    have hdoctype : bytes "!DOCTYPE" = [33, 68, 79, 67, 84, 89, 80, 69] := rfl
    simp [loop, step, startTagState, popState, pushState, Except.map, Except.bind, eraseAttributes,
      openTagState, isTagSpace, hmark, hcdata, hdoctype, opened]
  have hcloses := closes_cdata h
  have hbody : Reads (opened []) (data ++ [93, 93]) (opened (data ++ [93, 93])) := by
    refine Reads.many_of_start (f := opened) fun read c post hsplit => ?_
    refine Reads.one (by simp [opened]) fun rest => ?_
    by_cases hc : c = 62
    · have hnot : ¬stringEndsWith read (bytes "]]") = true := by
        rw [stringEndsWith_iff]
        rintro ⟨w, hw⟩
        have hwhole := hcloses.first (read ++ [c]) ⟨post ++ [62], by
          rw [List.append_assoc, List.singleton_append, ← List.cons_append, ← List.append_assoc,
            ← hsplit, List.append_assoc]
          rfl⟩ ⟨w, by rw [← hw, hc, List.append_assoc]; rfl⟩
        have hlength := congrArg List.length hwhole
        have hlength' := congrArg List.length hsplit
        have hfin : (bytes "]]>").length = 3 := rfl
        simp only [List.length_append, List.length_cons, List.length_nil, hfin] at hlength hlength'
        omega
      simp [step, opened, cdataState, hc, hnot, Except.map]
    · simp [step, opened, cdataState, hc, Except.map]
  have hclose : Reads (opened (data ++ [93, 93])) [62] { p with
      calls := p.flushed ++ [.text data], text := [], tagName := bytes "![CDATA["
      attributes := .empty } := by
    refine Reads.one (by simp [opened]) fun rest => ?_
    have hends : stringEndsWith (data ++ [93, 93]) (bytes "]]") = true :=
      stringEndsWith_iff.mpr (List.suffix_append data [93, 93])
    simp [step, opened, cdataState, hends, popState, call, hs, Except.map]
  refine ⟨bytes "![CDATA[", ?_⟩
  have hall := hstart.trans (hbody.trans hclose)
  rw [List.append_assoc] at hall
  exact hall

end Sections

/-! ## 6. Content -/

mutual

/-- The calls for a tree.  The text of a comment is passed on with its end. -/
def treeCalls : Tree → List QDCall
  | .text data => [.text data]
  | .comment data => [.comment (data ++ bytes "-->")]
  | .element tag attributes children =>
    .startElement tag (attributeMap attributes) :: (treesCalls children ++ [.endElement tag])

def treesCalls : List Tree → List QDCall
  | [] => []
  | tree :: trees => treeCalls tree ++ treesCalls trees

end

mutual

/-- No tab stands in a start tag and no white space in an end tag, and the character set has what is
referred to. -/
def PlainNode (encoding : Charset) : Node → Prop
  | .text pieces => ∀ piece ∈ pieces, Fits encoding piece
  | .cdata _ => True
  | .comment _ => True
  | .empty _ attributes space => PlainTag encoding attributes space
  | .element _ attributes space children endSpace =>
    PlainTag encoding attributes space ∧ endSpace = [] ∧ PlainNodes encoding children

def PlainNodes (encoding : Charset) : List Node → Prop
  | [] => True
  | node :: nodes => PlainNode encoding node ∧ PlainNodes encoding nodes

end

/-- A start tag that is read as it is meant. -/
structure ReadableTag (encoding : Charset) (tag : List UInt8) (attributes : List Attribute)
    (space : List UInt8) : Prop where
  name : IsName tag
  each : ∀ a ∈ attributes, a.WellFormed
  isSpace : IsSpace space
  plain : PlainTag encoding attributes space

mutual

/-- What is needed for a node to be read as it is meant.  Of a comment it is only that it ends where
it should. -/
def Readable (encoding : Charset) : Node → Prop
  | .text pieces => pieces ≠ [] ∧ (∀ piece ∈ pieces, piece.WellFormed fun _ => False) ∧
      ∀ piece ∈ pieces, Fits encoding piece
  | .cdata data => IsCdata data
  | .comment data => Closes (bytes "-->") (data ++ bytes "-->")
  | .empty tag attributes space => ReadableTag encoding tag attributes space
  | .element tag attributes space children endSpace =>
    ReadableTag encoding tag attributes space ∧ endSpace = [] ∧ NoAdjacentTexts children ∧
      ReadableNodes encoding children

def ReadableNodes (encoding : Charset) : List Node → Prop
  | [] => True
  | node :: nodes => Readable encoding node ∧ ReadableNodes encoding nodes

end

mutual

theorem readable_of_plain {encoding : Charset} : ∀ {node : Node}, node.WellFormed →
    PlainNode encoding node → Readable encoding node
  | .text _, h, hplain => ⟨h.1, h.2, hplain⟩
  | .cdata _, h, _ => h
  | .comment _, h, _ => closes_comment h
  | .empty _ _ _, h, hplain => ⟨h.1, h.2.1.each, h.2.2, hplain⟩
  | .element _ _ _ _ _, h, hplain =>
    ⟨⟨h.1, h.2.1.each, h.2.2.1, hplain.1⟩, hplain.2.1, h.2.2.2.2.1,
      readableNodes_of_plain h.2.2.2.2.2 hplain.2.2⟩

theorem readableNodes_of_plain {encoding : Charset} : ∀ {nodes : List Node}, NodesWellFormed nodes →
    PlainNodes encoding nodes → ReadableNodes encoding nodes
  | [], _, _ => trivial
  | _ :: _, h, hplain => ⟨readable_of_plain h.1 hplain.1, readableNodes_of_plain h.2 hplain.2⟩

end

/-- `q` is `p` after content: it stands where `p` stood, and `calls` have been made or are to be made
at the next tag. -/
structure After (p : QDParser) (calls : List QDCall) (q : QDParser) : Prop where
  state : q.state = .text
  encoding : q.encoding = p.encoding
  stack : q.stack = p.stack
  depth : q.tagDepth = p.tagDepth
  flushed : q.flushed = p.flushed ++ calls

theorem flushed_of_nil {p : QDParser} (h : p.text = []) : p.flushed = p.calls := if_pos h

theorem After.trans {p q r : QDParser} {calls calls' : List QDCall} (h : After p calls q)
    (h' : After q calls' r) : After p (calls ++ calls') r :=
  ⟨h'.state, h'.encoding.trans h.encoding, h'.stack.trans h.stack, h'.depth.trans h.depth, by
    rw [h'.flushed, h.flushed, List.append_assoc]⟩

theorem encodeNumber_ne_nil (encoding : Charset) (l : Nat) : encodeNumber encoding l ≠ [] := by
  unfold encodeNumber
  split
  · unfold String.utf8EncodeChar
    dsimp only
    split
    · exact List.cons_ne_nil _ _
    · split
      · exact List.cons_ne_nil _ _
      · split <;> exact List.cons_ne_nil _ _
  · exact List.cons_ne_nil _ _

theorem value_ne_nil (encoding : Charset) (piece : Piece) : piece.value (encodeNumber encoding) ≠ [] := by
  cases piece with
  | char c => exact List.cons_ne_nil _ _
  | entity e => exact List.cons_ne_nil _ _
  | decimal digits => exact encodeNumber_ne_nil _ _
  | hexadecimal digits => exact encodeNumber_ne_nil _ _

theorem ne_gt_of_isName {tag : List UInt8} (h : IsName tag) : ∀ c ∈ tag, c ≠ 62 :=
  fun c hc => (nameChar_spec c (h.chars c hc)).2.2.2.2.1

/-- **An element**, when its children are read.  After the root the document is done. -/
theorem reads_element {p : QDParser} (hs : p.state = .text) (hd : 0 ≤ p.tagDepth) {tag : List UInt8}
    {attributes : List Attribute} {space : List UInt8} {children : List Node} {trees : List Tree}
    (htag : ReadableTag p.encoding tag attributes space)
    (hchildren : ∀ p' : QDParser, p'.state = .text → 1 ≤ p'.tagDepth → p'.encoding = p.encoding →
      p'.text = [] → ∃ q, Reads p' (writeNodes children) q ∧ After p' (treesCalls trees) q) :
    ∃ q, Reads p (Node.element tag attributes space children []).write q ∧
      q.state = (if p.tagDepth = 0 then .done else .text) ∧ q.encoding = p.encoding ∧
      q.stack = p.stack ∧ q.tagDepth = p.tagDepth ∧ q.text = [] ∧
      q.calls = p.flushed ++ treeCalls (.element tag
        (attributes.map (Attribute.content (encodeNumber p.encoding))) trees) := by
  obtain ⟨l, v, k, e, t, ht, hread⟩ := reads_tag hs htag.name htag.each htag.isSpace htag.plain
  have hopen := hread.trans (reads_startTagEnd (s := .text) ht rfl)
  have hdepth : 1 ≤ p.tagDepth + 1 := by omega
  obtain ⟨q, hinside, hafter⟩ := hchildren { p with
    state := .text, tagDepth := p.tagDepth + 1
    calls := p.flushed ++ [.startElement tag
      (attributeMap (attributes.map (Attribute.content (encodeNumber p.encoding))))]
    text := [], tagName := [], attributes := .empty, lvalue := l, rvalue := v, quoteChar := k
    entity := e } rfl hdepth rfl rfl
  have hclose := reads_endTag hafter.state (ne_gt_of_isName htag.name)
  have hall := hopen.trans (hinside.trans hclose)
  simp only [List.append_assoc, List.singleton_append] at hall
  have hsame : q.tagDepth - 1 = p.tagDepth := by
    rw [hafter.depth]
    exact add_sub_cancel_right _ _
  refine ⟨_, hall, ?_, hafter.encoding, hafter.stack, hsame, rfl, ?_⟩
  · rw [hsame]
  · change q.flushed ++ [.endElement tag] = _
    rw [hafter.flushed, flushed_of_nil rfl, treeCalls, List.append_assoc, List.append_assoc]
    rfl

mutual

/-- **Content is read as its tree.** -/
theorem reads_node {p : QDParser} (hs : p.state = .text) (hd : 1 ≤ p.tagDepth) : ∀ node : Node,
    Readable p.encoding node → (node.isText = true → p.text = []) →
      ∃ q, Reads p node.write q ∧ After p (treeCalls (node.content (encodeNumber p.encoding))) q ∧
        (node.isText = false → q.text = [])
  | .text pieces, h, ht => by
    obtain ⟨hne, hpieces, hfits⟩ := h
    obtain ⟨e, hread⟩ := reads_pieces hs hpieces hfits
    have htext := ht rfl
    have hdata : pieces.flatMap (Piece.value (encodeNumber p.encoding)) ≠ [] := by
      obtain ⟨piece, rest, rfl⟩ := List.exists_cons_of_ne_nil hne
      rw [List.flatMap_cons]
      exact List.append_ne_nil_of_left_ne_nil (value_ne_nil _ _) _
    refine ⟨_, hread, ⟨hs, rfl, rfl, rfl, ?_⟩, fun h => Bool.noConfusion h⟩
    rw [flushed, flushed, htext, List.nil_append, if_neg hdata, if_pos rfl]
    rfl
  | .cdata data, h, _ => by
    obtain ⟨t, hread⟩ := reads_cdata hs h
    exact ⟨_, hread, ⟨hs, rfl, rfl, rfl, flushed_of_nil rfl⟩, fun _ => rfl⟩
  | .comment data, h, _ => by
    obtain ⟨t, hread⟩ := reads_comment hs h
    exact ⟨_, hread, ⟨hs, rfl, rfl, rfl, flushed_of_nil rfl⟩, fun _ => rfl⟩
  | .empty tag attributes space, h, _ => by
    obtain ⟨l, v, k, e, t, ht, hread⟩ := reads_tag hs h.name h.each h.isSpace h.plain
    have hdepth : p.tagDepth ≠ 0 := by omega
    have hall := hread.trans (reads_singleTagEnd (s := .text) ht rfl hdepth)
    refine ⟨_, hall, ⟨rfl, rfl, rfl, rfl, ?_⟩, fun _ => rfl⟩
    exact flushed_of_nil rfl
  | .element tag attributes space children endSpace, h, _ => by
    obtain ⟨htag, rfl, hadjacent, hchildren⟩ := h
    obtain ⟨q, hread, hstate, hencoding, hstack, hdepth, htext, hcalls⟩ :=
      reads_element hs (by omega) htag fun p' hs' hd' hencoding htext => by
        obtain ⟨q, hread, hafter⟩ := reads_nodes hs' hd' children (hencoding.symm ▸ hchildren)
          hadjacent fun _ _ _ => htext
        rw [hencoding] at hafter
        exact ⟨q, hread, hafter⟩
    refine ⟨q, hread, ⟨?_, hencoding, hstack, hdepth, ?_⟩, fun _ => htext⟩
    · rw [hstate, if_neg (by omega)]
    · rw [flushed_of_nil htext, hcalls]
      rfl

theorem reads_nodes {p : QDParser} (hs : p.state = .text) (hd : 1 ≤ p.tagDepth) : ∀ nodes : List Node,
    ReadableNodes p.encoding nodes → NoAdjacentTexts nodes →
      (∀ node ∈ nodes.head?, node.isText = true → p.text = []) →
        ∃ q, Reads p (writeNodes nodes) q ∧
          After p (treesCalls (contents (encodeNumber p.encoding) nodes)) q
  | [], _, _, _ => by
    refine ⟨p, Reads.refl p, hs, rfl, rfl, rfl, ?_⟩
    exact (List.append_nil _).symm
  | node :: nodes, h, hadjacent, ht => by
    obtain ⟨q, hread, hafter, htext⟩ := reads_node hs hd node h.1 (ht node rfl)
    -- After a text there is no other text, and after anything else no text is being collected.
    have hnext : ∀ next ∈ nodes.head?, next.isText = true → q.text = [] := by
      intro next hnext hnextText
      apply htext
      have hpair := (List.isChain_cons.mp hadjacent).1 next hnext
      cases hnode : node.isText with
      | true => exact absurd ⟨hnode, hnextText⟩ hpair
      | false => rfl
    obtain ⟨r, hread', hafter'⟩ := reads_nodes hafter.state (hafter.depth ▸ hd) nodes
      (hafter.encoding.symm ▸ h.2) (List.isChain_cons.mp hadjacent).2 hnext
    refine ⟨r, hread.trans hread', ?_⟩
    rw [hafter.encoding] at hafter'
    exact hafter.trans hafter'

end

/-- **The root**: after its end tag the document is done. -/
theorem reads_root {p : QDParser} (hs : p.state = .text) (hd : p.tagDepth = 0) {tag : List UInt8}
    {attributes : List Attribute} {space : List UInt8} {children : List Node}
    (h : Readable p.encoding (.element tag attributes space children [])) :
    ∃ q, Reads p (Node.element tag attributes space children []).write q ∧ q.state = .done ∧
      q.stack = p.stack ∧ q.calls = p.flushed ++ treeCalls
        ((Node.element tag attributes space children []).content (encodeNumber p.encoding)) := by
  obtain ⟨htag, -, hadjacent, hchildren⟩ := h
  obtain ⟨q, hread, hstate, -, hstack, -, -, hcalls⟩ :=
    reads_element hs (le_of_eq hd.symm) htag fun p' hs' hd' hencoding htext => by
      obtain ⟨q, hread, hafter⟩ := reads_nodes hs' hd' children (hencoding.symm ▸ hchildren)
        hadjacent fun _ _ _ => htext
      rw [hencoding] at hafter
      exact ⟨q, hread, hafter⟩
  refine ⟨q, hread, ?_, hstack, hcalls⟩
  rw [hstate, if_pos hd]

end Emdros.QDParser
