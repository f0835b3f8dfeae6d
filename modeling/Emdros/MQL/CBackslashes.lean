/-
# Escapes outside the scanner (`parse_C_backslashes`)

`parse_C_backslashes` decodes the escapes of a string in double quotes without the scanner.  Its
guards on the two bytes after `\x` and after the first octal digit ask for one byte more than
these escapes have, so that one at the very end is not decoded; and they are unsigned, so that for
a text of two bytes they never fail, and `\x` alone is read past its end.

`parseCBackslashes_iff` says exactly where the function decodes what the scanner decodes.
-/
import Mathlib
import Emdros.MQL.Scanner

namespace Emdros

namespace CBackslashes

open MQLScanner

/-! ## 1. The function -/

/-- `instring[i]`: at the length stands a zero byte, and behind it nothing may be read. -/
def charAt (instring : List UInt8) (i : Nat) : Option UInt8 :=
  if i = instring.length then some 0 else instring[i]?

/-- The difference of two values of type `std::string::size_type`. -/
def unsignedSub (a b : Nat) : Nat := if b ≤ a then a - b else a + 2 ^ 64 - b

/-- The branch for `\x`, with `i` at the `x`. -/
def hexEscape (instring : List UInt8) (i : Nat) (c2 : UInt8) : Option (UInt8 × Nat) := do
  if i < unsignedSub instring.length 3 then
    let a ← charAt instring (i + 1)
    let b ← charAt instring (i + 2)
    if isHex a && isHex b then some (hex2char a b, i + 2) else some (c2, i)
  else
    some (c2, i)

/-- The branch for octal digits, with `i` at the first of them. -/
def octalEscape (instring : List UInt8) (i : Nat) (c2 : UInt8) : Option (UInt8 × Nat) := do
  if i < unsignedSub instring.length 3 then
    let a ← charAt instring (i + 1)
    if isDigit a then
      let b ← charAt instring (i + 2)
      if isDigit b then some (octal2char [c2, a, b], i + 2) else some (c2, i)
    else
      some (c2, i)
  else
    some (c2, i)

/-- The body of the loop: the byte it adds to the result, and where it leaves `i`. -/
def parseAt (instring : List UInt8) (i : Nat) : Option (UInt8 × Nat) := do
  let c ← charAt instring i
  if c = 92 then
    if i < unsignedSub instring.length 1 then
      let i := i + 1
      let c2 ← charAt instring i
      match c2 with
      | 110 => some (10, i)     -- 'n'
      | 116 => some (9, i)      -- 't'
      | 118 => some (11, i)     -- 'v'
      | 98 => some (8, i)       -- 'b'
      | 97 => some (7, i)       -- 'a'
      | 114 => some (13, i)     -- 'r'
      | 102 => some (12, i)     -- 'f'
      | 92 => some (92, i)
      | 63 => some (63, i)
      | 39 => some (39, i)
      | 34 => some (34, i)
      | 120 => hexEscape instring i c2
      | 48 => octalEscape instring i c2
      | 49 => octalEscape instring i c2
      | 50 => octalEscape instring i c2
      | 51 => octalEscape instring i c2
      | _ => some (c2, i)
    else
      some (c, i)
  else
    some (c, i)

/-- The loop, from position `i` on.  Every round takes a byte at least, so that the length of the
text is fuel enough. -/
def parseFrom (instring : List UInt8) : Nat → Nat → Option (List UInt8)
  | 0, i => if i < instring.length then none else some []
  | n + 1, i =>
    if i < instring.length then do
      let (c, i) ← parseAt instring i
      (parseFrom instring n (i + 1)).map (c :: ·)
    else
      some []

/-- `parse_C_backslashes`. -/
def parseCBackslashes (instring : List UInt8) : Option (List UInt8) :=
  parseFrom instring instring.length 0

/-! ## 2. Texts with escapes -/

/-- An escape that the scanner decodes. -/
inductive Escape where
  | simple (e : String × UInt8) (he : e ∈ escapes)
  | octal (a b c : UInt8) (ha : 48 ≤ a ∧ a ≤ 51) (hb : 48 ≤ b ∧ b ≤ 55) (hc : 48 ≤ c ∧ c ≤ 55)
  | hex (a b : UInt8) (ha : isHex a = true) (hb : isHex b = true)

namespace Escape

def text : Escape → List UInt8
  | simple e _ => Lexer.bytes e.1
  | octal a b c _ _ _ => [92, a, b, c]
  | hex a b _ _ => [92, 120, a, b]

def value : Escape → UInt8
  | simple e _ => e.2
  | octal a b c _ _ _ => octal2char [a, b, c]
  | hex a b _ _ => hex2char a b

/-- The escape is written with digits. -/
def isNumeric : Escape → Bool
  | simple _ _ => false
  | octal _ _ _ _ _ _ => true
  | hex _ _ _ _ => true

theorem exists_digit {c : UInt8} {n : Nat} (h : 48 ≤ c ∧ c ≤ UInt8.ofNat (48 + n)) (hn : n < 10) :
    ∃ d ≤ n, c = UInt8.ofNat (48 + d) := by
  obtain ⟨hlow, hhigh⟩ := h
  rw [UInt8.le_iff_toNat_le] at hlow hhigh
  rw [toNat_digit hn] at hhigh
  change 48 ≤ c.toNat at hlow
  refine ⟨c.toNat - 48, by omega, ?_⟩
  rw [Nat.add_sub_cancel' hlow, UInt8.ofNat_toNat]

theorem best_octal {a b c : UInt8} (ha : 48 ≤ a ∧ a ≤ 51) (hb : 48 ≤ b ∧ b ≤ 55)
    (hc : 48 ≤ c ∧ c ≤ 55) (rest : List UInt8) :
    Lexer.best stringdqRules (92 :: a :: b :: c :: rest) = some (4, .octal) := by
  have hpieces : ∀ d ≤ 3, Lexer.decidesAfter (stringdqRules.take 12) (stringdqRules.drop 13)
      [92, UInt8.ofNat (48 + d)] = true := by decide +kernel
  obtain ⟨d, hd, rfl⟩ := exists_digit (n := 3) ha (by decide)
  refine @Lexer.best_of_classes _ _ stringdqRules _ _ .octal [((fun x : UInt8 => [92].contains x), 92),
    ((fun c => 48 ≤ c && c ≤ 51), UInt8.ofNat (48 + d)), ((fun c => 48 ≤ c && c ≤ 55), b),
    ((fun c => 48 ≤ c && c ≤ 55), c)] [92, UInt8.ofNat (48 + d)] [b, c] rfl (hpieces d hd) rfl ?_ rest
  intro p hp
  simp only [List.mem_cons, List.not_mem_nil, or_false] at hp
  rcases hp with rfl | rfl | rfl | rfl
  · rfl
  · simpa using ha
  · simpa using hb
  · simpa using hc

/-- **The scanner decodes every escape**, as one match that pushes its value. -/
theorem stringdq_text (fuel : Nat) (rest str : List UInt8) : ∀ e : Escape,
    stringdq (fuel + 1) (e.text ++ rest) str = stringdq fuel rest (str ++ [e.value])
  | simple e he => stringdq_escape he fuel rest str
  | octal a b c ha hb hc => by
    change stringdq (fuel + 1) (92 :: a :: b :: c :: rest) str = _
    rw [stringdq, best_octal ha hb hc]
    rfl
  | hex a b ha hb => by
    change stringdq (fuel + 1) (92 :: 120 :: a :: b :: rest) str = _
    rw [stringdq, best_hex ha hb]
    rfl

end Escape

/-- A byte that stands for itself, or an escape. -/
inductive Item where
  | plain (c : UInt8) (hc : c ≠ 92)
  | escape (e : Escape)

namespace Item

def text : Item → List UInt8
  | plain c _ => [c]
  | escape e => e.text

def value : Item → UInt8
  | plain c _ => c
  | escape e => e.value

def isNumeric : Item → Bool
  | plain _ _ => false
  | escape e => e.isNumeric

/-- What `parse_C_backslashes` makes of an item at the end of the text. -/
def atEnd (x : Item) : List UInt8 := if x.isNumeric then x.text.tail else [x.value]

end Item

/-- The text of a list of items. -/
def textOf (items : List Item) : List UInt8 := items.flatMap Item.text

/-- The bytes that the scanner decodes it to. -/
def valuesOf (items : List Item) : List UInt8 := items.map Item.value

/-- The bytes that `parse_C_backslashes` decodes it to. -/
def decodedOf : List Item → List UInt8
  | [] => []
  | [x] => x.atEnd
  | x :: items => x.value :: decodedOf items

/-- The last item is an escape that is written with digits. -/
def EndsNumeric (items : List Item) : Prop := ∃ x ∈ items.getLast?, x.isNumeric = true

/-! ## 3. One round -/

theorem charAt_append_cons (xs ys : List UInt8) (c : UInt8) {i : Nat} (hi : i = xs.length) :
    charAt (xs ++ c :: ys) i = some c := by
  subst hi
  have hne : xs.length ≠ (xs ++ c :: ys).length := by
    rw [List.length_append, List.length_cons]
    omega
  rw [charAt, if_neg hne, List.getElem?_append_right le_rfl, Nat.sub_self, List.getElem?_cons_zero]

theorem parseAt_plain (xs ys : List UInt8) {c : UInt8} (hc : c ≠ 92) :
    parseAt (xs ++ c :: ys) xs.length = some (c, xs.length) := by
  rw [parseAt, charAt_append_cons xs ys c rfl, Option.bind_eq_bind, Option.bind_some, if_neg hc]

/-- A backslash and the byte after it. -/
theorem parseAt_backslash (xs ys : List UInt8) (c2 : UInt8) :
    parseAt (xs ++ 92 :: c2 :: ys) xs.length =
      match c2 with
      | 110 => some (10, xs.length + 1)
      | 116 => some (9, xs.length + 1)
      | 118 => some (11, xs.length + 1)
      | 98 => some (8, xs.length + 1)
      | 97 => some (7, xs.length + 1)
      | 114 => some (13, xs.length + 1)
      | 102 => some (12, xs.length + 1)
      | 92 => some (92, xs.length + 1)
      | 63 => some (63, xs.length + 1)
      | 39 => some (39, xs.length + 1)
      | 34 => some (34, xs.length + 1)
      | 120 => hexEscape (xs ++ 92 :: c2 :: ys) (xs.length + 1) c2
      | 48 => octalEscape (xs ++ 92 :: c2 :: ys) (xs.length + 1) c2
      | 49 => octalEscape (xs ++ 92 :: c2 :: ys) (xs.length + 1) c2
      | 50 => octalEscape (xs ++ 92 :: c2 :: ys) (xs.length + 1) c2
      | 51 => octalEscape (xs ++ 92 :: c2 :: ys) (xs.length + 1) c2
      | _ => some (c2, xs.length + 1) := by
  have hguard : xs.length < unsignedSub (xs ++ 92 :: c2 :: ys).length 1 := by
    rw [unsignedSub, List.length_append, List.length_cons, List.length_cons, if_pos (by omega)]
    omega
  have hsecond : charAt (xs ++ 92 :: c2 :: ys) (xs.length + 1) = some c2 := by
    have hsplit : xs ++ 92 :: c2 :: ys = (xs ++ [92]) ++ c2 :: ys := by simp
    rw [hsplit]
    exact charAt_append_cons _ _ _ (by simp)
  rw [parseAt, charAt_append_cons xs _ 92 rfl, Option.bind_eq_bind, Option.bind_some, if_pos rfl,
    if_pos hguard]
  dsimp only
  rw [hsecond, Option.bind_some]

theorem parseAt_simple {e : String × UInt8} (he : e ∈ escapes) (xs ys : List UInt8) :
    parseAt (xs ++ (Lexer.bytes e.1 ++ ys)) xs.length = some (e.2, xs.length + 1) := by
  simp only [escapes, List.mem_cons, List.not_mem_nil, or_false] at he
  rcases he with rfl | rfl | rfl | rfl | rfl | rfl | rfl | rfl | rfl | rfl | rfl <;>
    exact parseAt_backslash xs ys _

/-- The two bytes that a numeric escape is looked up in. -/
theorem charAt_digits (xs ys : List UInt8) (c2 a b : UInt8) :
    charAt (xs ++ 92 :: c2 :: a :: b :: ys) (xs.length + 1 + 1) = some a ∧
      charAt (xs ++ 92 :: c2 :: a :: b :: ys) (xs.length + 1 + 2) = some b := by
  have ha : xs ++ 92 :: c2 :: a :: b :: ys = (xs ++ [92, c2]) ++ a :: b :: ys := by simp
  have hb : xs ++ 92 :: c2 :: a :: b :: ys = (xs ++ [92, c2, a]) ++ b :: ys := by simp
  constructor
  · rw [ha]
    exact charAt_append_cons _ _ _ (by simp)
  · rw [hb]
    exact charAt_append_cons _ _ _ (by simp)

/-- **The guard is off by one**: it asks for a byte behind the escape. -/
theorem guard_iff (xs ys : List UInt8) (c2 a b : UInt8) :
    xs.length + 1 < unsignedSub (xs ++ 92 :: c2 :: a :: b :: ys).length 3 ↔ ys ≠ [] := by
  have hlen : (xs ++ 92 :: c2 :: a :: b :: ys).length = xs.length + 4 + ys.length := by
    simp only [List.length_append, List.length_cons]
    omega
  rw [hlen, unsignedSub, if_pos (by omega), ← List.length_pos_iff]
  omega

theorem hexEscape_eq {a b : UInt8} (ha : isHex a = true) (hb : isHex b = true)
    (xs ys : List UInt8) :
    hexEscape (xs ++ 92 :: 120 :: a :: b :: ys) (xs.length + 1) 120 =
      if ys = [] then some (120, xs.length + 1) else some (hex2char a b, xs.length + 1 + 2) := by
  obtain ⟨hfirst, hsecond⟩ := charAt_digits xs ys 120 a b
  rw [hexEscape]
  simp only [guard_iff, hfirst, hsecond, Option.bind_eq_bind, Option.bind_some, ha, hb,
    Bool.and_self, if_true]
  by_cases hys : ys = []
  · rw [if_pos hys, if_neg (not_not_intro hys)]
  · rw [if_neg hys, if_pos hys]

theorem octalEscape_eq (c2 : UInt8) {a b : UInt8} (ha : isDigit a = true) (hb : isDigit b = true)
    (xs ys : List UInt8) :
    octalEscape (xs ++ 92 :: c2 :: a :: b :: ys) (xs.length + 1) c2 =
      if ys = [] then some (c2, xs.length + 1)
      else some (octal2char [c2, a, b], xs.length + 1 + 2) := by
  obtain ⟨hfirst, hsecond⟩ := charAt_digits xs ys c2 a b
  rw [octalEscape]
  simp only [guard_iff, hfirst, hsecond, Option.bind_eq_bind, Option.bind_some, ha, hb, if_true]
  by_cases hys : ys = []
  · rw [if_pos hys, if_neg (not_not_intro hys)]
  · rw [if_neg hys, if_pos hys]

theorem isDigit_of_octal {c : UInt8} (h : 48 ≤ c ∧ c ≤ 55) : isDigit c = true := by
  have hdigit : ∀ d < 8, isDigit (UInt8.ofNat (48 + d)) = true := by decide
  obtain ⟨d, hd, rfl⟩ := Escape.exists_digit (n := 7) h (by decide)
  exact hdigit d (by omega)

/-- **An escape that is written with digits** is decoded if something follows it. -/
theorem parseAt_numeric {e : Escape} (he : e.isNumeric = true) (xs ys : List UInt8) :
    parseAt (xs ++ (e.text ++ ys)) xs.length =
      if ys = [] then some (e.text.getD 1 0, xs.length + 1)
      else some (e.value, xs.length + 3) := by
  cases e with
  | simple e he' => cases he
  | octal a b c ha hb hc =>
    have hparse := octalEscape_eq a (isDigit_of_octal hb) (isDigit_of_octal hc) xs ys
    obtain ⟨d, hd, rfl⟩ := Escape.exists_digit (n := 3) ha (by decide)
    refine Eq.trans ?_ hparse
    obtain _ | _ | _ | _ | d := d
    · exact parseAt_backslash xs _ _
    · exact parseAt_backslash xs _ _
    · exact parseAt_backslash xs _ _
    · exact parseAt_backslash xs _ _
    · omega
  | hex a b ha hb =>
    exact (parseAt_backslash xs _ _).trans (hexEscape_eq ha hb xs ys)

/-- Any other item is decoded wherever it stands. -/
theorem parseAt_item {x : Item} (hx : x.isNumeric = false) (xs ys : List UInt8) :
    parseAt (xs ++ (x.text ++ ys)) xs.length =
      some (x.value, xs.length + x.text.length - 1) := by
  cases x with
  | plain c hc => exact parseAt_plain xs ys hc
  | escape e =>
    cases e with
    | octal a b c ha hb hc => cases hx
    | hex a b ha hb => cases hx
    | simple e he =>
      have hlen : ∀ e ∈ escapes, (Lexer.bytes e.1).length = 2 := by decide
      have hparse := parseAt_simple he xs ys
      rw [Item.text, Escape.text, hlen e he]
      exact hparse

/-! ## 4. The loop -/

theorem parseFrom_of_parseAt {instring : List UInt8} {n i i' : Nat} {c : UInt8}
    (hi : i < instring.length) (h : parseAt instring i = some (c, i')) :
    parseFrom instring (n + 1) i = (parseFrom instring n (i' + 1)).map (c :: ·) := by
  rw [parseFrom, if_pos hi, h]
  rfl

theorem parseFrom_length (xs : List UInt8) (n : Nat) : parseFrom xs n xs.length = some [] := by
  cases n <;> exact if_neg (Nat.lt_irrefl _)

/-- Bytes without a backslash, by induction on them. -/
theorem parseFrom_plain {ys : List UInt8} : ∀ (xs : List UInt8) {n : Nat},
    (∀ c ∈ ys, c ≠ 92) → ys.length ≤ n → parseFrom (xs ++ ys) n xs.length = some ys := by
  induction ys with
  | nil =>
    intro xs n _ _
    rw [List.append_nil]
    exact parseFrom_length xs n
  | cons c ys ih =>
    intro xs n hys hn
    obtain _ | n := n
    · exact absurd hn (Nat.not_succ_le_zero _)
    have hrest := ih (xs ++ [c]) (fun d hd => hys d (List.mem_cons_of_mem _ hd))
      (Nat.le_of_succ_le_succ hn)
    rw [List.append_assoc, List.singleton_append, List.length_append, List.length_singleton] at hrest
    rw [parseFrom_of_parseAt (by simp) (parseAt_plain xs ys (hys c List.mem_cons_self)), hrest,
      Option.map_some]

theorem Item.text_ne_nil : ∀ x : Item, x.text ≠ []
  | plain _ _ => List.cons_ne_nil _ _
  | escape (.octal _ _ _ _ _ _) => List.cons_ne_nil _ _
  | escape (.hex _ _ _ _) => List.cons_ne_nil _ _
  | escape (.simple e he) => by
    have hne : ∀ e ∈ escapes, Lexer.bytes e.1 ≠ [] := by decide
    exact hne e he

/-- The text of an escape that is written with digits. -/
theorem Escape.text_of_isNumeric {e : Escape} (he : e.isNumeric = true) :
    ∃ c a b, e.text = [92, c, a, b] ∧ c ≠ 92 ∧ a ≠ 92 ∧ b ≠ 92 := by
  have hoctal : ∀ {c : UInt8}, (48 ≤ c ∧ c ≤ 55) → c ≠ 92 := by
    rintro c ⟨-, hc⟩ rfl
    exact absurd hc (by decide)
  have hhex : ∀ {c : UInt8}, isHex c = true → c ≠ 92 := by
    rintro c hc rfl
    exact absurd hc (by decide)
  cases e with
  | simple e he' => cases he
  | octal a b c ha hb hc =>
    exact ⟨a, b, c, rfl, hoctal ⟨ha.1, UInt8.le_trans ha.2 (by decide)⟩, hoctal hb, hoctal hc⟩
  | hex a b ha hb => exact ⟨120, a, b, rfl, by decide, hhex ha, hhex hb⟩

/-- Three rounds for a numeric escape at the end of the text. -/
theorem parseFrom_atEnd {e : Escape} (he : e.isNumeric = true) (xs : List UInt8) {n : Nat}
    (hn : e.text.length ≤ n) :
    parseFrom (xs ++ e.text) n xs.length = some e.text.tail := by
  have hparse := parseAt_numeric he xs []
  obtain ⟨c, a, b, htext, hc, ha, hb⟩ := Escape.text_of_isNumeric he
  rw [htext, List.append_nil, if_pos rfl] at hparse
  rw [htext] at hn ⊢
  obtain _ | n := n
  · exact absurd hn (Nat.not_succ_le_zero _)
  have hplain : ∀ d ∈ [a, b], d ≠ 92 := by
    intro d hd
    rcases List.mem_pair.mp hd with rfl | rfl
    · exact ha
    · exact hb
  have hrest := parseFrom_plain (xs ++ [92, c]) hplain
    (le_trans (by decide : 2 ≤ 3) (Nat.le_of_succ_le_succ hn))
  have hsplit : (xs ++ [92, c]) ++ [a, b] = xs ++ [92, c, a, b] := by simp
  have hpos : (xs ++ [92, c]).length = xs.length + 1 + 1 := by simp
  rw [hsplit, hpos] at hrest
  rw [parseFrom_of_parseAt (by simp) hparse, hrest]
  rfl

theorem textOf_cons (x : Item) (items : List Item) : textOf (x :: items) = x.text ++ textOf items :=
  List.flatMap_cons

theorem textOf_ne_nil {items : List Item} (h : items ≠ []) : textOf items ≠ [] := by
  obtain ⟨x, items, rfl⟩ := List.exists_cons_of_ne_nil h
  rw [textOf_cons]
  exact List.append_ne_nil_of_left_ne_nil x.text_ne_nil _

/-- An item that is not a numeric escape at the end takes one round. -/
theorem parseFrom_item {x : Item} {ys : List UInt8} (h : x.isNumeric = true → ys ≠ [])
    (xs : List UInt8) (n : Nat) :
    parseFrom (xs ++ (x.text ++ ys)) (n + 1) xs.length =
      (parseFrom (xs ++ (x.text ++ ys)) n (xs.length + x.text.length)).map (x.value :: ·) := by
  have hpos := List.length_pos_of_ne_nil x.text_ne_nil
  have hlt : xs.length < (xs ++ (x.text ++ ys)).length := by
    rw [List.length_append, List.length_append]
    omega
  cases hx : x.isNumeric with
  | false =>
    rw [parseFrom_of_parseAt hlt (parseAt_item hx xs ys), Nat.sub_add_cancel (by omega)]
  | true =>
    obtain ⟨e, rfl⟩ : ∃ e, x = .escape e := by
      cases x with
      | plain c hc => cases hx
      | escape e => exact ⟨e, rfl⟩
    have hparse := parseAt_numeric hx xs ys
    obtain ⟨c, a, b, htext, -⟩ := Escape.text_of_isNumeric hx
    have hlen : (Item.escape e).text.length = 4 := congrArg List.length htext
    rw [if_neg (h hx)] at hparse
    rw [hlen]
    exact parseFrom_of_parseAt hlt hparse

/-- **What a text with escapes is decoded to**, by induction on its items. -/
theorem parseFrom_items : ∀ {items : List Item} (xs : List UInt8) {n : Nat},
    (textOf items).length ≤ n →
    parseFrom (xs ++ textOf items) n xs.length = some (decodedOf items) := by
  intro items
  induction items with
  | nil =>
    intro xs n _
    rw [textOf, List.flatMap_nil, List.append_nil]
    exact parseFrom_length xs n
  | cons x items ih =>
    intro xs n hn
    by_cases hend : items = [] ∧ x.isNumeric = true
    · obtain ⟨rfl, hx⟩ := hend
      cases x with
      | plain c hc => cases hx
      | escape e =>
        rw [textOf, List.flatMap_singleton] at hn ⊢
        rw [decodedOf, Item.atEnd, if_pos hx]
        exact parseFrom_atEnd hx xs hn
    · have hpos := List.length_pos_of_ne_nil x.text_ne_nil
      have hlast : x.isNumeric = true → textOf items ≠ [] :=
        fun hx => textOf_ne_nil fun hnil => hend ⟨hnil, hx⟩
      have hdecoded : decodedOf (x :: items) = x.value :: decodedOf items := by
        cases items with
        | nil =>
          have hx : ¬ x.isNumeric = true := fun hx => hend ⟨rfl, hx⟩
          exact if_neg hx
        | cons y items => rfl
      rw [textOf_cons] at hn ⊢
      rw [List.length_append] at hn
      obtain _ | n := n
      · omega
      have hrest := ih (xs ++ x.text) (n := n) (by omega)
      rw [List.append_assoc, List.length_append] at hrest
      rw [parseFrom_item hlast, hrest, hdecoded, Option.map_some]

theorem parseCBackslashes_items (items : List Item) :
    parseCBackslashes (textOf items) = some (decodedOf items) :=
  parseFrom_items [] le_rfl

/-- By induction on the items: a numeric escape at the end leaves two bytes too many. -/
theorem decodedOf_eq_valuesOf_iff (items : List Item) :
    decodedOf items = valuesOf items ↔ ¬ EndsNumeric items := by
  induction items with
  | nil => simp [decodedOf, valuesOf, EndsNumeric]
  | cons x items ih =>
    cases items with
    | nil =>
      rw [decodedOf, Item.atEnd, valuesOf, List.map_singleton, EndsNumeric, List.getLast?_singleton]
      by_cases hx : x.isNumeric = true
      · rw [if_pos hx]
        refine iff_of_false ?_ (not_not_intro ⟨x, rfl, hx⟩)
        intro heq
        cases x with
        | plain c hc => cases hx
        | escape e =>
          obtain ⟨c, a, b, htext, -⟩ := Escape.text_of_isNumeric hx
          rw [Item.text, htext] at heq
          have hlen : 3 = 1 := congrArg List.length heq
          omega
      · rw [if_neg hx]
        refine iff_of_true rfl ?_
        rintro ⟨y, hy, hnum⟩
        rw [Option.mem_some] at hy
        exact hx (hy ▸ hnum)
    | cons y items =>
      have hlast : EndsNumeric (x :: y :: items) ↔ EndsNumeric (y :: items) := by
        rw [EndsNumeric, EndsNumeric, List.getLast?_cons_cons]
      rw [hlast, ← ih, valuesOf, List.map_cons]
      exact List.cons_inj_right x.value

/-! ## 5. What the scanner makes of such a text -/

/-- The bytes that can stand for themselves between double quotes. -/
def Item.IsInQuotes : Item → Prop
  | plain c _ => c ≠ 34 ∧ c ≠ 0
  | escape _ => True

theorem Item.stringdq_text {x : Item} (hx : x.IsInQuotes) (fuel : Nat) (rest str : List UInt8) :
    stringdq (fuel + 1) (x.text ++ rest) str = stringdq fuel rest (str ++ [x.value]) := by
  cases x with
  | plain c hc => exact stringdq_plain hx.1 hc hx.2 fuel rest str
  | escape e => exact e.stringdq_text fuel rest str

/-- The run of the scanner over a text with escapes, by induction on the items. -/
theorem stringdq_textOf {items : List Item} (rest : List UInt8) : ∀ (str : List UInt8) {fuel : Nat},
    (∀ x ∈ items, x.IsInQuotes) → items.length < fuel →
      stringdq fuel (textOf items ++ 34 :: rest) str =
        some (.string (str ++ valuesOf items), rest) := by
  induction items with
  | nil =>
    intro str fuel _ hfuel
    obtain _ | fuel := fuel
    · exact absurd hfuel (Nat.not_lt_zero _)
    rw [textOf, List.flatMap_nil, List.nil_append, stringdq, best_close, valuesOf, List.map_nil,
      List.append_nil]
    rfl
  | cons x items ih =>
    intro str fuel hitems hfuel
    obtain _ | fuel := fuel
    · exact absurd hfuel (Nat.not_lt_zero _)
    have hx := Item.stringdq_text (hitems x List.mem_cons_self)
    have hrun := ih (str ++ [x.value])
      (fun y hy => hitems y (List.mem_cons_of_mem _ hy)) (Nat.lt_of_succ_lt_succ hfuel)
    rw [textOf_cons, List.append_assoc, hx, hrun, List.append_assoc]
    rfl

/-- **The scanner decodes every item** between double quotes, at the end as in the middle. -/
theorem scan_textOf {items : List Item} (t : List UInt8) (hitems : ∀ x ∈ items, x.IsInQuotes) :
    scan (34 :: textOf items ++ 34 :: t) = some (.string (valuesOf items), t) := by
  have hlen : items.length ≤ (textOf items).length := by
    induction items with
    | nil => exact Nat.zero_le _
    | cons x items ih =>
      have hpos := List.length_pos_of_ne_nil x.text_ne_nil
      have hrest := ih fun y hy => hitems y (List.mem_cons_of_mem _ hy)
      rw [textOf_cons, List.length_append, List.length_cons]
      omega
  rw [scan, List.cons_append, scanFrom, best_quote]
  exact stringdq_textOf t [] hitems (by simp; omega)

/-! ## 6. Encoded strings -/

/-- What `encodeSTRINGstring` writes for a byte. -/
def itemOf (c : UInt8) : Item :=
  if c < 0x20 ∨ c ≥ 0x80 then
    .escape (.hex (lowerHex (c >>> 4 &&& 15)) (lowerHex (c &&& 15)) (isHex_lowerHex _)
      (isHex_lowerHex _))
  else if hc : c = 92 then .escape (.simple ("\\\\", 92) (by decide))
  else if c = 34 then .escape (.simple ("\\\"", 34) (by decide))
  else .plain c hc

theorem text_itemOf (c : UInt8) : (itemOf c).text = encodeSTRINGbyte c := by
  rw [itemOf, encodeSTRINGbyte]
  split
  · rfl
  · split
    · rfl
    · split <;> rfl

theorem value_itemOf (c : UInt8) : (itemOf c).value = c := by
  rw [itemOf]
  split
  · exact hex2char_char2hex c
  · split
    · rename_i hc
      exact hc.symm
    · split
      · rename_i hc
        exact hc.symm
      · rfl

theorem isNumeric_itemOf (c : UInt8) :
    (itemOf c).isNumeric = true ↔ ¬ (0x20 ≤ c ∧ c < 0x80) := by
  rw [not_and_or, UInt8.not_le, UInt8.not_lt, itemOf]
  split
  · rename_i h
    exact iff_of_true rfl h
  · rename_i h
    refine iff_of_false ?_ h
    split
    · exact Bool.false_ne_true
    · split <;> exact Bool.false_ne_true

theorem textOf_itemOf (s : List UInt8) : textOf (s.map itemOf) = encodeSTRINGstring s := by
  rw [textOf, List.flatMap_map, encodeSTRINGstring]
  simp only [text_itemOf]

theorem valuesOf_itemOf (s : List UInt8) : valuesOf (s.map itemOf) = s := by
  rw [valuesOf, List.map_map]
  exact List.map_id'' value_itemOf s

theorem endsNumeric_itemOf_iff {s : List UInt8} :
    EndsNumeric (s.map itemOf) ↔ ∃ c ∈ s.getLast?, ¬ (0x20 ≤ c ∧ c < 0x80) := by
  rw [EndsNumeric, List.getLast?_map]
  constructor
  · rintro ⟨x, hx, hnum⟩
    obtain ⟨c, hc, rfl⟩ := Option.mem_map.mp hx
    exact ⟨c, hc, (isNumeric_itemOf c).mp hnum⟩
  · rintro ⟨c, hc, hout⟩
    exact ⟨itemOf c, Option.mem_map_of_mem _ hc, (isNumeric_itemOf c).mpr hout⟩

/-! ## 7. Reads past the end -/

theorem exists_charAt (instring : List UInt8) {i : Nat} (h : i ≤ instring.length) :
    ∃ c, charAt instring i = some c := by
  rw [charAt]
  split
  · exact ⟨0, rfl⟩
  · exact ⟨_, List.getElem?_eq_getElem (by omega)⟩

/-- A guard of this form lets nothing be read past the end, unless the text has two bytes. -/
theorem unsignedSub_three_le {instring : List UInt8} {i : Nat} (hlen : instring.length ≠ 2)
    (hpos : 0 < i) (hi : i < instring.length) (hguard : i < unsignedSub instring.length 3) :
    i + 2 ≤ instring.length := by
  rw [unsignedSub] at hguard
  split at hguard <;> omega

theorem hexEscape_isSome {instring : List UInt8} {i : Nat} (c2 : UInt8)
    (hlen : instring.length ≠ 2) (hpos : 0 < i) (hi : i < instring.length) :
    ∃ c i', hexEscape instring i c2 = some (c, i') ∧ i ≤ i' := by
  rw [hexEscape]
  split
  · rename_i hguard
    have hle := unsignedSub_three_le hlen hpos hi hguard
    obtain ⟨a, ha⟩ := exists_charAt instring (i := i + 1) (by omega)
    obtain ⟨b, hb⟩ := exists_charAt instring (i := i + 2) hle
    simp only [ha, hb, Option.bind_eq_bind, Option.bind_some]
    split
    · exact ⟨_, _, rfl, Nat.le_add_right i 2⟩
    · exact ⟨_, _, rfl, le_rfl⟩
  · exact ⟨_, _, rfl, le_rfl⟩

/-- In a text of two bytes the second read is prevented by the first, which is the zero byte. -/
theorem octalEscape_isSome {instring : List UInt8} {i : Nat} (c2 : UInt8)
    (hi : i < instring.length) :
    ∃ c i', octalEscape instring i c2 = some (c, i') ∧ i ≤ i' := by
  rw [octalEscape]
  split
  · rename_i hguard
    obtain ⟨a, ha⟩ := exists_charAt instring (i := i + 1) hi
    simp only [ha, Option.bind_eq_bind, Option.bind_some]
    split
    · rename_i hdigit
      have hlt : i + 1 ≠ instring.length := by
        intro heq
        rw [charAt, if_pos heq, Option.some_inj] at ha
        subst ha
        exact absurd hdigit (by decide)
      obtain ⟨b, hb⟩ := exists_charAt instring (i := i + 2) (by omega)
      simp only [hb, Option.bind_some]
      split
      · exact ⟨_, _, rfl, Nat.le_add_right i 2⟩
      · exact ⟨_, _, rfl, le_rfl⟩
    · exact ⟨_, _, rfl, le_rfl⟩
  · exact ⟨_, _, rfl, le_rfl⟩

theorem eq_pair_of_charAt {instring : List UInt8} (hlen : instring.length = 2) {a b : UInt8}
    (ha : charAt instring 0 = some a) (hb : charAt instring 1 = some b) : instring = [a, b] := by
  obtain ⟨x, y, rfl⟩ := List.length_eq_two.mp hlen
  rw [charAt, if_neg (by rw [hlen]; decide)] at ha hb
  cases ha
  cases hb
  rfl

/-- One round reads nothing past the end, and moves on. -/
theorem parseAt_isSome {instring : List UInt8} {i : Nat} (hne : instring ≠ [92, 120])
    (hi : i < instring.length) : ∃ c i', parseAt instring i = some (c, i') ∧ i ≤ i' := by
  obtain ⟨c, hc⟩ := exists_charAt instring (Nat.le_of_lt hi)
  rw [parseAt, hc, Option.bind_eq_bind, Option.bind_some]
  split
  · rename_i hslash
    split
    · rename_i hguard
      have hlt : i + 1 < instring.length := by
        rw [unsignedSub] at hguard
        split at hguard <;> omega
      obtain ⟨c2, hc2⟩ := exists_charAt instring (Nat.le_of_lt hlt)
      dsimp only
      rw [hc2, Option.bind_some]
      have hmove : ∀ {c i'}, i + 1 ≤ i' → ∃ c' i'', some ((c : UInt8), i') = some (c', i'') ∧ i ≤ i'' :=
        fun h => ⟨_, _, rfl, by omega⟩
      have hoctal : ∃ c i', octalEscape instring (i + 1) c2 = some (c, i') ∧ i ≤ i' := by
        obtain ⟨d, i', h, hle⟩ := octalEscape_isSome c2 hlt
        exact ⟨d, i', h, by omega⟩
      split
      case h_12 =>
        have hlen : instring.length ≠ 2 := by
          intro hlen
          obtain rfl : i = 0 := by omega
          exact hne (hslash ▸ eq_pair_of_charAt hlen hc hc2)
        obtain ⟨d, i', h, hle⟩ := hexEscape_isSome 120 hlen (Nat.succ_pos i) hlt
        exact ⟨d, i', h, by omega⟩
      case h_13 => exact hoctal
      case h_14 => exact hoctal
      case h_15 => exact hoctal
      case h_16 => exact hoctal
      all_goals exact hmove le_rfl
    · exact ⟨_, _, rfl, le_rfl⟩
  · exact ⟨_, _, rfl, le_rfl⟩

theorem parseFrom_isSome {instring : List UInt8} (hne : instring ≠ [92, 120]) : ∀ {n i : Nat},
    instring.length ≤ i + n → parseFrom instring n i ≠ none := by
  intro n
  induction n with
  | zero =>
    intro i hn
    rw [parseFrom, if_neg (by omega)]
    exact Option.some_ne_none _
  | succ n ih =>
    intro i hn
    rw [parseFrom]
    split
    · rename_i hi
      obtain ⟨c, i', hparse, hle⟩ := parseAt_isSome hne hi
      rw [hparse]
      exact fun h => ih (i := i' + 1) (by omega) (Option.map_eq_none_iff.mp h)
    · exact Option.some_ne_none _

/-! ## 8. The function and the scanner -/

/-- **Decoding escapes.**  An encoded string is decoded to what it was when its last byte needed no
hexadecimal escape; the escapes of a text are decoded as by the scanner when the last of its items
is no numeric escape; and nothing is read past the end of any text but `\x`. -/
theorem parseCBackslashes_iff (s : List UInt8) (items : List Item) (instring : List UInt8) :
    (parseCBackslashes (encodeSTRINGstring s) = some s ↔
      ∀ c ∈ s.getLast?, 0x20 ≤ c ∧ c < 0x80) ∧
    (parseCBackslashes (textOf items) = some (valuesOf items) ↔ ¬ EndsNumeric items) ∧
    (parseCBackslashes instring ≠ none ↔ instring ≠ [92, 120]) := by
  refine ⟨?_, ?_, ?_⟩
  · have hdecoded := decodedOf_eq_valuesOf_iff (s.map itemOf)
    rw [valuesOf_itemOf, endsNumeric_itemOf_iff] at hdecoded
    rw [← textOf_itemOf, parseCBackslashes_items, Option.some_inj, hdecoded]
    constructor
    · intro h c hc
      by_contra hout
      exact h ⟨c, hc, hout⟩
    · rintro h ⟨c, hc, hout⟩
      exact hout (h c hc)
  · rw [parseCBackslashes_items, Option.some_inj, decodedOf_eq_valuesOf_iff]
  · constructor
    · rintro h rfl
      exact h (by decide +kernel)
    · intro hne
      exact parseFrom_isSome hne (by omega)

/-- `encodeSTRINGstring` writes the byte 128 as `\x80`, which is decoded to `x80`. -/
theorem not_parse_encoded : ¬ ∀ s : List UInt8,
    parseCBackslashes (encodeSTRINGstring s) = some s := by
  intro h
  have hbyte : parseCBackslashes (encodeSTRINGstring [128]) = some [120, 56, 48] := by
    decide +kernel
  exact absurd ((hbyte.symm.trans (h [128]))) (by decide)

end CBackslashes

end Emdros
