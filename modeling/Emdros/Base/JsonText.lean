/-
# JSON texts

The grammar of JSON, over bytes.  `Tree.texts t` is the language of the texts that denote the tree
`t`, and `Tree.document t` that of the documents.  The rules are those of the standard, RFC 8259:
white space may stand around every value and separator, characters are written in UTF-8, and in a
string the quotation mark, the backslash and the control characters have to be escaped.  Of the
numbers only the whole ones are here.

Nothing here is about a particular program.
-/
import Mathlib
import Emdros.Base.Lexer

namespace JsonText

open Lexer (bytes)
open String (utf8EncodeChar)

/-- What a text denotes; the labels of an object keep their order. -/
inductive Tree where
  | str (s : List UInt8)
  | int (i : Int)
  | bool (b : Bool)
  | null
  | arr (elements : List Tree)
  | obj (members : List (List UInt8 × Tree))

/-! ## 1. White space and strings -/

/-- `ws = *( %x20 / %x09 / %x0A / %x0D )` -/
def ws : Language UInt8 := {w | ∀ c ∈ w, c = 32 ∨ c = 9 ∨ c = 10 ∨ c = 13}

theorem nil_mem_ws : [] ∈ ws := fun _ hc => absurd hc (List.not_mem_nil)

theorem append_mem_ws {v w : List UInt8} (hv : v ∈ ws) (hw : w ∈ ws) : v ++ w ∈ ws := by
  intro c hc
  rcases List.mem_append.mp hc with hc | hc
  · exact hv c hc
  · exact hw c hc

theorem ws_mul_ws : ws * ws = ws := by
  ext w
  rw [Language.mem_mul]
  constructor
  · rintro ⟨u, hu, v, hv, rfl⟩
    exact append_mem_ws hu hv
  · intro hw
    exact ⟨[], nil_mem_ws, w, hw, rfl⟩

/-- The letter after the backslash and the byte it stands for. -/
def escapes : List (UInt8 × UInt8) :=
  [(34, 34), (92, 92), (47, 47), (98, 8), (102, 12), (110, 10), (114, 13), (116, 9)]

/-- The value of a hexadecimal digit. -/
def hexDigit (c : UInt8) : Option Nat :=
  if 48 ≤ c ∧ c ≤ 57 then some (c.toNat - 48)
  else if 65 ≤ c ∧ c ≤ 70 then some (c.toNat - 55)
  else if 97 ≤ c ∧ c ≤ 102 then some (c.toNat - 87)
  else none

/-- The code unit after `\u`. -/
def hex4 : List UInt8 → Option Nat
  | [a, b, c, d] => do
    return (((← hexDigit a) * 16 + (← hexDigit b)) * 16 + (← hexDigit c)) * 16 + (← hexDigit d)
  | _ => none

/-- `StringBody raw s`: what stands between the quotation marks, and the bytes it denotes. -/
inductive StringBody : List UInt8 → List UInt8 → Prop where
  | nil : StringBody [] []
  | unescaped {raw s} (c : Char) (hcontrol : 0x20 ≤ c.toNat) (hquote : c.toNat ≠ 34)
      (hbackslash : c.toNat ≠ 92) (h : StringBody raw s) :
      StringBody (utf8EncodeChar c ++ raw) (utf8EncodeChar c ++ s)
  | escaped {raw s} (e v : UInt8) (he : (e, v) ∈ escapes) (h : StringBody raw s) :
      StringBody (92 :: e :: raw) (v :: s)
  | unicode {raw s} (digits : List UInt8) (c : Char) (hc : hex4 digits = some c.toNat)
      (h : StringBody raw s) :
      StringBody (92 :: 117 :: (digits ++ raw)) (utf8EncodeChar c ++ s)
  | surrogates {raw s} (high low : List UInt8) (u v : Nat) (c : Char) (hhigh : hex4 high = some u)
      (hlow : hex4 low = some v) (hu : 0xD800 ≤ u ∧ u < 0xDC00) (hv : 0xDC00 ≤ v ∧ v < 0xE000)
      (hc : c.toNat = 0x10000 + (u - 0xD800) * 0x400 + (v - 0xDC00)) (h : StringBody raw s) :
      StringBody (92 :: 117 :: (high ++ 92 :: 117 :: (low ++ raw))) (utf8EncodeChar c ++ s)

/-- `string`, as the texts that denote `s`. -/
def string (s : List UInt8) : Language UInt8 := {text | ∃ raw, StringBody raw s ∧
  text = 34 :: (raw ++ [34])}

/-! ## 2. Numbers -/

/-- `int`: digits without a zero in front of others, and the number they write. -/
def IsNatural (digits : List UInt8) (n : Nat) : Prop :=
  digits ≠ [] ∧ (∀ c ∈ digits, 48 ≤ c.toNat ∧ c.toNat ≤ 57) ∧
    (digits.head? = some 48 → digits = [48]) ∧
      digits.foldl (fun v c => v * 10 + (c.toNat - 48)) 0 = n

/-- `number`, as the texts that denote `i`. -/
def number (i : Int) : Language UInt8 :=
  {text | ∃ digits n, IsNatural digits n ∧
    (text = digits ∧ i = n ∨ text = 45 :: digits ∧ i = -n)}

/-! ## 3. Values -/

/-- Texts of the given languages in turn, with commas between them. -/
def separated : List (Language UInt8) → Language UInt8
  | [] => ws
  | L :: Ls => ws * L * ws * (Ls.map fun L => {[44]} * ws * L * ws).prod

theorem separated_singleton (L : Language UInt8) : separated [L] = ws * L * ws := by
  rw [separated, List.map_nil, List.prod_nil, mul_one]

/-- One more text is appended after a comma. -/
theorem separated_concat {Ls : List (Language UInt8)} (hne : Ls ≠ []) (L : Language UInt8) :
    separated (Ls ++ [L]) = separated Ls * ({[44]} * ws * L * ws) := by
  cases Ls with
  | nil => exact absurd rfl hne
  | cons L' Ls =>
    rw [List.cons_append, separated, separated, List.map_append, List.prod_append, List.map_cons,
      List.map_nil, List.prod_singleton, ← mul_assoc]

theorem cons_mem_mul {L : Language UInt8} {c : UInt8} {w : List UInt8} (hw : w ∈ L) :
    c :: w ∈ ({[c]} * L : Language UInt8) := ⟨[c], rfl, w, hw, rfl⟩

/-- Texts, a comma when there are some, and one more. -/
theorem mem_separated_concat {Ls : List (Language UInt8)} {L : Language UInt8}
    {x w text : List UInt8} (hx : x ∈ separated Ls) (hw : w ∈ ws) (htext : text ∈ L) :
    x ++ ((if Ls.isEmpty then [] else 44 :: w) ++ text) ∈ separated (Ls ++ [L]) := by
  by_cases hne : Ls = []
  · subst hne
    rw [List.nil_append, separated_singleton, ← List.append_nil (x ++ _)]
    exact Language.append_mem_mul (Language.append_mem_mul hx htext) nil_mem_ws
  · rw [separated_concat hne, List.isEmpty_eq_false_iff.mpr hne, if_neg Bool.false_ne_true,
      ← List.append_nil (44 :: w ++ text)]
    exact Language.append_mem_mul hx (Language.append_mem_mul (Language.append_mem_mul
      (cons_mem_mul hw) htext) nil_mem_ws)

/-- White space may end the last text. -/
theorem separated_mul_ws (Ls : List (Language UInt8)) : separated Ls * ws = separated Ls := by
  induction Ls using List.reverseRecOn with
  | nil => exact ws_mul_ws
  | append_singleton Ls L ih =>
    by_cases hne : Ls = []
    · rw [hne, List.nil_append, separated_singleton, mul_assoc, ws_mul_ws]
    · rw [separated_concat hne, mul_assoc, mul_assoc ({[44]} * ws * L), ws_mul_ws]

/-- A second text is not reached without a comma. -/
theorem comma_mem_of_separated {L L' : Language UInt8} {Ls : List (Language UInt8)}
    {text : List UInt8} (h : text ∈ separated (L :: L' :: Ls)) : 44 ∈ text := by
  rw [separated, List.map_cons, List.prod_cons] at h
  obtain ⟨first, -, rest, hrest, rfl⟩ := h
  obtain ⟨second, hsecond, others, -, rfl⟩ := hrest
  obtain ⟨front, hfront, w₂, -, rfl⟩ := hsecond
  obtain ⟨start, hstart, body, -, rfl⟩ := hfront
  obtain ⟨comma, rfl, w₁, -, rfl⟩ := hstart
  simp

mutual

/-- `value`, as the texts that denote the tree. -/
def Tree.texts : Tree → Language UInt8
  | .str s => string s
  | .int i => number i
  | .bool b => {bytes (if b then "true" else "false")}
  | .null => {bytes "null"}
  | .arr elements => {[91]} * separated (elementTexts elements) * {[93]}
  | .obj members => {[123]} * separated (memberTexts members) * {[125]}

/-- The elements of an array. -/
def elementTexts : List Tree → List (Language UInt8)
  | [] => []
  | e :: elements => e.texts :: elementTexts elements

/-- `member = string name-separator value` -/
def memberTexts : List (List UInt8 × Tree) → List (Language UInt8)
  | [] => []
  | (label, e) :: members =>
    (string label * ws * {[58]} * ws * e.texts) :: memberTexts members

end

/-- `JSON-text = ws value ws` -/
def Tree.document (t : Tree) : Language UInt8 := ws * t.texts * ws

@[simp] theorem elementTexts_eq_map (elements : List Tree) :
    elementTexts elements = elements.map Tree.texts := by
  induction elements with
  | nil => rfl
  | cons e elements ih => rw [elementTexts, ih, List.map_cons]

@[simp] theorem memberTexts_eq_map (members : List (List UInt8 × Tree)) :
    memberTexts members =
      members.map fun m => string m.1 * ws * {[58]} * ws * m.2.texts := by
  induction members with
  | nil => rfl
  | cons m members ih => rw [memberTexts, ih, List.map_cons]

mutual

/-- **Induction on trees**: what holds of a container when it holds of what is in it. -/
theorem Tree.induct {motive : Tree → Prop} (str : ∀ s, motive (.str s))
    (int : ∀ i, motive (.int i)) (bool : ∀ b, motive (.bool b)) (null : motive .null)
    (arr : ∀ elements, (∀ e ∈ elements, motive e) → motive (.arr elements))
    (obj : ∀ members : List (List UInt8 × Tree), (∀ m ∈ members, motive m.2) →
      motive (.obj members)) : ∀ t, motive t
  | .str s => str s
  | .int i => int i
  | .bool b => bool b
  | .null => null
  | .arr elements => arr elements (Tree.induct_elements str int bool null arr obj elements)
  | .obj members => obj members (Tree.induct_members str int bool null arr obj members)

theorem Tree.induct_elements {motive : Tree → Prop} (str : ∀ s, motive (.str s))
    (int : ∀ i, motive (.int i)) (bool : ∀ b, motive (.bool b)) (null : motive .null)
    (arr : ∀ elements, (∀ e ∈ elements, motive e) → motive (.arr elements))
    (obj : ∀ members : List (List UInt8 × Tree), (∀ m ∈ members, motive m.2) →
      motive (.obj members)) : ∀ elements : List Tree, ∀ e ∈ elements, motive e
  | [] => List.forall_mem_nil _
  | e :: elements => List.forall_mem_cons.mpr ⟨Tree.induct str int bool null arr obj e,
      Tree.induct_elements str int bool null arr obj elements⟩

theorem Tree.induct_members {motive : Tree → Prop} (str : ∀ s, motive (.str s))
    (int : ∀ i, motive (.int i)) (bool : ∀ b, motive (.bool b)) (null : motive .null)
    (arr : ∀ elements, (∀ e ∈ elements, motive e) → motive (.arr elements))
    (obj : ∀ members : List (List UInt8 × Tree), (∀ m ∈ members, motive m.2) →
      motive (.obj members)) : ∀ members : List (List UInt8 × Tree), ∀ m ∈ members, motive m.2
  | [] => List.forall_mem_nil _
  | (_, e) :: members => List.forall_mem_cons.mpr ⟨Tree.induct str int bool null arr obj e,
      Tree.induct_members str int bool null arr obj members⟩

end

/-- **There is a comma** in an array of more than one element. -/
theorem comma_mem_of_arr {e e' : Tree} {elements : List Tree} {text : List UInt8}
    (h : text ∈ (Tree.arr (e :: e' :: elements)).document) : 44 ∈ text := by
  obtain ⟨before, hbefore, w, -, rfl⟩ := h
  obtain ⟨v, -, value, hvalue, rfl⟩ := hbefore
  rw [Tree.texts] at hvalue
  obtain ⟨front, hfront, close, -, rfl⟩ := hvalue
  obtain ⟨bracket, -, body, hbody, rfl⟩ := hfront
  have hcomma := comma_mem_of_separated hbody
  simp [hcomma]

/-! ## 4. The bytes of a document -/

/-- All letters of the language's words are of one kind. -/
def Over (p : UInt8 → Prop) (L : Language UInt8) : Prop := ∀ w ∈ L, ∀ c ∈ w, p c

theorem Over.mul {p : UInt8 → Prop} {L M : Language UInt8} (hL : Over p L) (hM : Over p M) :
    Over p (L * M) := by
  rintro - ⟨u, hu, v, hv, rfl⟩ c hc
  rcases List.mem_append.mp hc with hc | hc
  · exact hL u hu c hc
  · exact hM v hv c hc

theorem over_singleton {p : UInt8 → Prop} {w : List UInt8} (h : ∀ c ∈ w, p c) :
    Over p ({w} : Language UInt8) := by
  rintro _ rfl
  exact h

/-- A byte that occurs in documents: of the control characters those that are white space, and of
the others those that occur in UTF-8. -/
def IsTextByte (c : UInt8) : Prop := c = 9 ∨ c = 10 ∨ c = 13 ∨ 32 ≤ c.toNat ∧ c.toNat ≤ 244

instance (c : UInt8) : Decidable (IsTextByte c) := inferInstanceAs (Decidable (_ ∨ _ ∨ _ ∨ _))

theorem over_ws : Over IsTextByte ws := by
  intro w hw c hc
  rcases hw c hc with rfl | rfl | rfl | rfl <;> decide

/-- A fixed word, checked byte by byte. -/
theorem over_word {w : List UInt8} (h : (w.all fun c => decide (IsTextByte c)) = true) :
    Over IsTextByte ({w} : Language UInt8) :=
  over_singleton (by simpa using h)

theorem over_separated {Ls : List (Language UInt8)} (h : ∀ L ∈ Ls, Over IsTextByte L) :
    Over IsTextByte (separated Ls) := by
  induction Ls using List.reverseRecOn with
  | nil => exact over_ws
  | append_singleton Ls L ih =>
    have hL : Over IsTextByte L := h L (by simp)
    by_cases hne : Ls = []
    · rw [hne, List.nil_append, separated_singleton]
      exact (over_ws.mul hL).mul over_ws
    · rw [separated_concat hne]
      have hLs := ih fun L hL => h L (List.mem_append_left _ hL)
      exact hLs.mul ((((over_word (by decide)).mul over_ws).mul hL).mul over_ws)

theorem isTextByte_utf8 {c : Char} (hc : 0x20 ≤ c.toNat) : ∀ b ∈ utf8EncodeChar c,
    IsTextByte b := by
  have hmax : c.val.toNat < 0x110000 := by
    have := c.valid
    rcases this with h | h <;> omega
  intro b hb
  rw [utf8EncodeChar] at hb
  change 0x20 ≤ c.val.toNat at hc
  refine Or.inr (Or.inr (Or.inr ?_))
  split at hb
  · rw [List.mem_singleton] at hb
    rw [hb, UInt8.toNat_ofNat']
    omega
  · split at hb
    · rcases List.mem_pair.mp hb with rfl | rfl <;> rw [UInt8.toNat_ofNat'] <;> omega
    · split at hb <;> simp only [List.mem_cons, List.not_mem_nil, or_false] at hb
      · rcases hb with rfl | rfl | rfl <;> rw [UInt8.toNat_ofNat'] <;> omega
      · rcases hb with rfl | rfl | rfl | rfl <;> rw [UInt8.toNat_ofNat'] <;> omega

theorem isTextByte_of_hexDigit {c : UInt8} {n : Nat} (h : hexDigit c = some n) : IsTextByte c := by
  unfold hexDigit at h
  simp only [UInt8.le_iff_toNat_le, UInt8.reduceToNat] at h
  refine Or.inr (Or.inr (Or.inr ?_))
  split_ifs at h
  all_goals omega

theorem isTextByte_of_hex4 {digits : List UInt8} {n : Nat} (h : hex4 digits = some n) :
    ∀ c ∈ digits, IsTextByte c := by
  unfold hex4 at h
  split at h
  · rename_i a b c d
    obtain ⟨na, ha, h⟩ := Option.bind_eq_some_iff.mp h
    obtain ⟨nb, hb, h⟩ := Option.bind_eq_some_iff.mp h
    obtain ⟨nc, hc, h⟩ := Option.bind_eq_some_iff.mp h
    obtain ⟨nd, hd, -⟩ := Option.bind_eq_some_iff.mp h
    simp [isTextByte_of_hexDigit ha, isTextByte_of_hexDigit hb, isTextByte_of_hexDigit hc,
      isTextByte_of_hexDigit hd]
  · cases h

theorem StringBody.isTextByte {raw s : List UInt8} (h : StringBody raw s) :
    ∀ c ∈ raw, IsTextByte c := by
  have hletter : ∀ c ∈ ([92, 117] : List UInt8), IsTextByte c := by simp [IsTextByte]
  have hescape : ∀ e ∈ escapes, IsTextByte e.1 := by simp [escapes, IsTextByte]
  induction h with
  | nil => exact List.forall_mem_nil _
  | unescaped c hcontrol _ _ _ ih => exact List.forall_mem_append.mpr ⟨isTextByte_utf8 hcontrol, ih⟩
  | escaped e v he _ ih =>
    exact List.forall_mem_cons.mpr ⟨hletter 92 (by simp),
      List.forall_mem_cons.mpr ⟨hescape (e, v) he, ih⟩⟩
  | unicode digits c hc _ ih =>
    exact List.forall_mem_cons.mpr ⟨hletter 92 (by simp), List.forall_mem_cons.mpr
      ⟨hletter 117 (by simp), List.forall_mem_append.mpr ⟨isTextByte_of_hex4 hc, ih⟩⟩⟩
  | surrogates high low u v c hhigh hlow _ _ _ _ ih =>
    have hlower : ∀ c ∈ (92 :: 117 :: low : List UInt8), IsTextByte c :=
      List.forall_mem_cons.mpr ⟨hletter 92 (by simp), List.forall_mem_cons.mpr
        ⟨hletter 117 (by simp), isTextByte_of_hex4 hlow⟩⟩
    have hupper : ∀ c ∈ (92 :: 117 :: high : List UInt8), IsTextByte c :=
      List.forall_mem_cons.mpr ⟨hletter 92 (by simp), List.forall_mem_cons.mpr
        ⟨hletter 117 (by simp), isTextByte_of_hex4 hhigh⟩⟩
    exact List.forall_mem_append.mpr ⟨hupper, List.forall_mem_append.mpr ⟨hlower, ih⟩⟩

theorem over_string (s : List UInt8) : Over IsTextByte (string s) := by
  rintro - ⟨raw, hraw, rfl⟩
  exact List.forall_mem_cons.mpr ⟨by decide, List.forall_mem_append.mpr
    ⟨hraw.isTextByte, List.forall_mem_singleton.mpr (by decide)⟩⟩

theorem over_number (i : Int) : Over IsTextByte (number i) := by
  have hdigits : ∀ {digits n}, IsNatural digits n → ∀ c ∈ digits, IsTextByte c := by
    intro digits n h c hc
    have hbounds := h.2.1 c hc
    exact Or.inr (Or.inr (Or.inr ⟨by omega, by omega⟩))
  intro text htext
  obtain ⟨digits, n, h, htext⟩ := htext
  rcases htext with ⟨htext, -⟩ | ⟨htext, -⟩
  · exact htext ▸ hdigits h
  · exact htext ▸ List.forall_mem_cons.mpr ⟨by decide, hdigits h⟩

/-- **No other byte occurs** in a text, whatever it denotes. -/
theorem Tree.over_texts (t : Tree) : Over IsTextByte t.texts := by
  induction t using Tree.induct with
  | str s => exact over_string s
  | int i => exact over_number i
  | bool b => cases b <;> exact over_word (by decide)
  | null => exact over_word (by decide)
  | arr elements ih =>
    rw [texts, elementTexts_eq_map]
    refine ((over_word (by decide)).mul (over_separated ?_)).mul (over_word (by decide))
    exact List.forall_mem_map.mpr ih
  | obj members ih =>
    rw [texts, memberTexts_eq_map]
    refine ((over_word (by decide)).mul (over_separated ?_)).mul (over_word (by decide))
    refine List.forall_mem_map.mpr fun m hm => ?_
    exact ((((over_string m.1).mul over_ws).mul (over_word (by decide))).mul over_ws).mul
      (ih m hm)

theorem Tree.over_document (t : Tree) : Over IsTextByte t.document :=
  (over_ws.mul t.over_texts).mul over_ws

end JsonText
