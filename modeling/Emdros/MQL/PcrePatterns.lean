/-
# Patterns of PCRE (`pcre_valid_utf8.c`, `pcre_compile.c`)

PCRE is used with `PCRE_UTF8`: it looks at the characters of a text, and takes no text that is not
UTF-8.  Of its patterns, `readItems` reads those that are characters and dots one after the other,
between `^` and `$`; what it does not read has another meaning, or none.

The compiler and the matcher are not modelled.  `Documented` is what is relied on of them.  Both
have limits: a pattern can be too large (`NotTooLarge`), and a match that backtracks too much is
given up.  The second depends on the text as much as on the pattern, and for most patterns there is
a text that is long enough; so it is a condition on the two together (`Finishes`).
-/
import Mathlib
import Emdros.MQL.FeatureComparison
import Emdros.MQL.Scanner

namespace Emdros

namespace Pcre

open MQLScanner (isDigit)

/-! ## 1. Characters -/

/-- The top bits of a byte that is not the first one of its character. -/
def isContinuation (c : UInt8) : Bool := c &&& 0xc0 == 0x80

/-- One round of `valid_utf`: the length of the first character of a text, if it is valid.  The
characters of five and six bytes are refused after all, whatever they are. -/
def charLength : List UInt8 → Option Nat
  | [] => none
  | c :: p =>
    if c < 0x80 then some 1
    else if c < 0xc0 then none          -- PCRE_UTF8_ERR20
    else if c < 0xe0 then
      match p with
      | d :: _ => if isContinuation d && c &&& 0x3e != 0 then some 2 else none
      | _ => none
    else if c < 0xf0 then
      match p with
      | d :: d₂ :: _ =>
        if isContinuation d && isContinuation d₂ && !(c == 0xe0 && d &&& 0x20 == 0) &&
          !(c == 0xed && 0xa0 ≤ d) then some 3 else none
      | _ => none
    else if c < 0xf8 then
      match p with
      | d :: d₂ :: d₃ :: _ =>
        if isContinuation d && isContinuation d₂ && isContinuation d₃ &&
          !(c == 0xf0 && d &&& 0x30 == 0) && !(0xf4 < c || (c == 0xf4 && 0x8f < d))
        then some 4 else none
      | _ => none
    else none

/-- One character. -/
def IsCharacter (x : List UInt8) : Prop := charLength x = some x.length

/-- `valid_utf`: the text is characters, one after the other. -/
def Valid (s : List UInt8) : Prop :=
  ∃ cs : List (List UInt8), (∀ c ∈ cs, IsCharacter c) ∧ s = cs.flatten

theorem charLength_append {x : List UInt8} {n : Nat} (h : charLength x = some n)
    (rest : List UInt8) : charLength (x ++ rest) = some n := by
  cases x with
  | nil => cases h
  | cons c p =>
    rw [List.cons_append]
    by_cases h₁ : c < 0x80
    · simp only [charLength, if_pos h₁] at h ⊢
      exact h
    by_cases h₂ : c < 0xc0
    · simp only [charLength, if_neg h₁, if_pos h₂] at h
      cases h
    by_cases h₃ : c < 0xe0
    · cases p with
      | nil => simp [charLength, h₁, h₂, h₃] at h
      | cons d p =>
        simp only [charLength, if_neg h₁, if_neg h₂, if_pos h₃] at h ⊢
        exact h
    by_cases h₄ : c < 0xf0
    · rcases p with - | ⟨d, - | ⟨d₂, p⟩⟩
      · simp [charLength, h₁, h₂, h₃, h₄] at h
      · simp [charLength, h₁, h₂, h₃, h₄] at h
      · simp only [charLength, if_neg h₁, if_neg h₂, if_neg h₃, if_pos h₄] at h ⊢
        exact h
    by_cases h₅ : c < 0xf8
    · rcases p with - | ⟨d, - | ⟨d₂, - | ⟨d₃, p⟩⟩⟩
      · simp [charLength, h₁, h₂, h₃, h₄, h₅] at h
      · simp [charLength, h₁, h₂, h₃, h₄, h₅] at h
      · simp [charLength, h₁, h₂, h₃, h₄, h₅] at h
      · simp only [charLength, if_neg h₁, if_neg h₂, if_neg h₃, if_neg h₄, if_pos h₅] at h ⊢
        exact h
    · simp only [charLength, if_neg h₁, if_neg h₂, if_neg h₃, if_neg h₄, if_neg h₅] at h
      cases h

theorem isCharacter_ascii {c : UInt8} (hc : c < 0x80) : IsCharacter [c] := by
  simp [IsCharacter, charLength, hc]

theorem le_of_isContinuation {c : UInt8} (h : isContinuation c = true) : 0x80 ≤ c := by
  have hall : ∀ n < 256, isContinuation (UInt8.ofNat n) = true → 0x80 ≤ UInt8.ofNat n := by
    decide +kernel
  have hc := hall c.toNat c.toNat_lt
  rw [UInt8.ofNat_toNat] at hc
  exact hc h

/-- A character is one byte of ASCII, or bytes that are not ASCII. -/
theorem IsCharacter.ascii_or {x : List UInt8} (h : IsCharacter x) :
    (∃ c, x = [c] ∧ c < 0x80) ∨ x ≠ [] ∧ ∀ b ∈ x, 0x80 ≤ b := by
  cases x with
  | nil => cases h
  | cons c p =>
    rw [IsCharacter] at h
    by_cases h₁ : c < 0x80
    · simp only [charLength, if_pos h₁, Option.some.injEq, List.length_cons] at h
      have hp : p = [] := List.eq_nil_of_length_eq_zero (by omega)
      exact .inl ⟨c, by rw [hp], h₁⟩
    have hc : 0x80 ≤ c := by simpa using h₁
    refine .inr ⟨List.cons_ne_nil c p, ?_⟩
    by_cases h₂ : c < 0xc0
    · simp only [charLength, if_neg h₁, if_pos h₂] at h
      cases h
    by_cases h₃ : c < 0xe0
    · rcases p with - | ⟨d, p⟩
      · simp [charLength, h₁, h₂, h₃] at h
      · simp only [charLength, if_neg h₁, if_neg h₂, if_pos h₃] at h
        split at h <;> simp_all [le_of_isContinuation]
    by_cases h₄ : c < 0xf0
    · rcases p with - | ⟨d, - | ⟨d₂, p⟩⟩
      · simp [charLength, h₁, h₂, h₃, h₄] at h
      · simp [charLength, h₁, h₂, h₃, h₄] at h
      · simp only [charLength, if_neg h₁, if_neg h₂, if_neg h₃, if_pos h₄] at h
        split at h <;> simp_all [le_of_isContinuation]
    by_cases h₅ : c < 0xf8
    · rcases p with - | ⟨d, - | ⟨d₂, - | ⟨d₃, p⟩⟩⟩
      · simp [charLength, h₁, h₂, h₃, h₄, h₅] at h
      · simp [charLength, h₁, h₂, h₃, h₄, h₅] at h
      · simp [charLength, h₁, h₂, h₃, h₄, h₅] at h
      · simp only [charLength, if_neg h₁, if_neg h₂, if_neg h₃, if_neg h₄, if_pos h₅] at h
        split at h <;> simp_all [le_of_isContinuation]
    · simp only [charLength, if_neg h₁, if_neg h₂, if_neg h₃, if_neg h₄, if_neg h₅] at h
      cases h

theorem Valid.append {s t : List UInt8} (hs : Valid s) (ht : Valid t) : Valid (s ++ t) := by
  obtain ⟨cs, hcs, rfl⟩ := hs
  obtain ⟨ds, hds, rfl⟩ := ht
  refine ⟨cs ++ ds, fun c hc => ?_, by simp⟩
  rcases List.mem_append.mp hc with hc | hc
  · exact hcs c hc
  · exact hds c hc

theorem IsCharacter.valid {x : List UInt8} (h : IsCharacter x) : Valid x :=
  ⟨[x], by simpa using h, by simp⟩

/-- A text that is not empty begins with a character, and the rest is valid again. -/
theorem Valid.exists_character {c : UInt8} {s : List UInt8} (h : Valid (c :: s)) :
    ∃ x rest, IsCharacter (c :: x) ∧ s = x ++ rest ∧ Valid rest := by
  obtain ⟨cs, hcs, hflat⟩ := h
  cases cs with
  | nil => cases hflat
  | cons y cs =>
    have hy := hcs y List.mem_cons_self
    cases y with
    | nil => cases hy
    | cons d x =>
      rw [List.flatten_cons, List.cons_append, List.cons.injEq] at hflat
      obtain ⟨rfl, rfl⟩ := hflat
      exact ⟨x, cs.flatten, hy, rfl, cs, fun z hz => hcs z (List.mem_cons_of_mem _ hz), rfl⟩

/-! ## 2. Patterns -/

/-- What follows one or more digits. -/
def digits : List UInt8 → Option (List UInt8)
  | [] => none
  | d :: p => if isDigit d then some (p.dropWhile isDigit) else none

/-- `is_counted_repeat`: of the text after an opening brace. -/
def isCountedRepeat (p : List UInt8) : Bool :=
  (digits p).any fun p =>
    p.head? == some 125 ||
      p.head? == some 44 &&
        (p.tail.head? == some 125 || (digits p.tail).any fun p => p.head? == some 125)

/-- The bytes that do not stand for themselves; an opening brace does if no repeat follows. -/
def metacharacters : List UInt8 := Lexer.bytes "\\^$.[|()?*+"

/-- A piece of a pattern. -/
inductive Item where
  | char (x : List UInt8)
  | dot
  | dotStar
  | dotPlus
  deriving DecidableEq, Repr

/-- The pieces of a pattern that is nothing else. -/
def readItems : Nat → List UInt8 → Option (List Item)
  | 0, _ => none
  | _ + 1, [] => some []
  | fuel + 1, c :: p =>
    if c = 46 then
      if p.head? = some 42 then (readItems fuel p.tail).map (.dotStar :: ·)
      else if p.head? = some 43 then (readItems fuel p.tail).map (.dotPlus :: ·)
      else (readItems fuel p).map (.dot :: ·)
    else if c = 92 then
      -- a backslash before what is no letter or digit takes away any special meaning
      p.head?.bind fun d =>
        if d < 0x80 && !MQLScanner.isLetter d && !isDigit d then
          (readItems fuel p.tail).map (.char [d] :: ·)
        else none
    else if metacharacters.contains c || (c == 123 && isCountedRepeat p) then none
    else
      match charLength (c :: p) with
      | some n => (readItems fuel ((c :: p).drop n)).map (.char ((c :: p).take n) :: ·)
      | none => none

/-- The pieces, one after the other, match these characters. -/
def Fits : List Item → List (List UInt8) → Prop
  | [], ds => ds = []
  | .char x :: items, ds => ∃ t, ds = x :: t ∧ Fits items t
  | .dot :: items, ds => ∃ x t, ds = x :: t ∧ Fits items t
  | .dotStar :: items, ds => ∃ xs t, ds = xs ++ t ∧ Fits items t
  | .dotPlus :: items, ds => ∃ xs t, xs ≠ [] ∧ ds = xs ++ t ∧ Fits items t

/-- A text matches as a whole. -/
def Matches (items : List Item) (s : List UInt8) : Prop :=
  ∃ ds : List (List UInt8), (∀ d ∈ ds, IsCharacter d) ∧ s = ds.flatten ∧ Fits items ds

/-- The pattern for the whole of a text. -/
def anchored (p : List UInt8) : List UInt8 := 94 :: p ++ [36]

/-- The pattern is read as these pieces. -/
def Reads (p : List UInt8) (items : List Item) : Prop := readItems (p.length + 1) p = some items

/-- What PCRE documents: a pattern is checked to be UTF-8, and what the result of a match means for
a text of one line.  -1 is `PCRE_ERROR_NOMATCH`, -10 is `PCRE_ERROR_BADUTF8`.  The pattern is handed
over by `c_str()`, which ends at its first zero byte; so nothing is said of patterns that have
one. -/
structure Documented (ctx : QueryContext) : Prop where
  utf8 : ∀ p, 0 ∉ p → ctx.pcreCompiles p = true → Valid p
  badUtf8 : ∀ p s, ctx.pcreExec p s = -10 → ¬ Valid s
  matched : ∀ p items s, 0 ∉ p → Reads p items → ctx.pcreCompiles (anchored p) = true → 10 ∉ s →
    0 < ctx.pcreExec (anchored p) s → Matches items s
  noMatch : ∀ p items s, 0 ∉ p → Reads p items → ctx.pcreCompiles (anchored p) = true → 10 ∉ s →
    ctx.pcreExec (anchored p) s = -1 → ¬ Matches items s

/-- The pattern is not too large to be compiled. -/
def NotTooLarge (ctx : QueryContext) (p : List UInt8) : Prop :=
  ∀ items, Reads p items → Valid (anchored p) → ctx.pcreCompiles (anchored p) = true

/-- The match on this text is not given up: it does not come to `MATCH_LIMIT` calls of `match`,
after which `pcre_exec` returns -8, nor does it run out of memory. -/
def Finishes (ctx : QueryContext) (p s : List UInt8) : Prop :=
  0 < ctx.pcreExec (anchored p) s ∨ ctx.pcreExec (anchored p) s = -1 ∨
    ctx.pcreExec (anchored p) s = -10

theorem Matches.valid {items : List Item} {s : List UInt8} (h : Matches items s) : Valid s := by
  obtain ⟨ds, hds, rfl, -⟩ := h
  exact ⟨ds, hds, rfl⟩

/-- **A match is a match of the pieces**, on each text on which it is not given up. -/
theorem exec_pos_iff {ctx : QueryContext} (hdoc : Documented ctx) {p : List UInt8}
    (hlarge : NotTooLarge ctx p) (hp : 0 ∉ p) {items : List Item} (hreads : Reads p items)
    (hvalid : Valid (anchored p)) {s : List UInt8} (hs : 10 ∉ s) (hfinishes : Finishes ctx p s) :
    0 < ctx.pcreExec (anchored p) s ↔ Matches items s := by
  have hcompiles := hlarge items hreads hvalid
  constructor
  · exact hdoc.matched p items s hp hreads hcompiles hs
  · intro hmatch
    rcases hfinishes with hpos | hno | hbad
    · exact hpos
    · exact absurd hmatch (hdoc.noMatch p items s hp hreads hcompiles hs hno)
    · exact absurd hmatch.valid (hdoc.badUtf8 _ s hbad)

end Pcre

end Emdros
