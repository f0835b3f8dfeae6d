/-
# The text format of COPY

The rules by which a server reads the text of `COPY ... FROM stdin`: rows are lines, columns are
separated by tabs, a backslash starts an escape, `\N` alone is the null value, and a line `\.` ends
the data.  `rows` is the reader.

`Encodes raw s` says that a column is written safely: separators and backslashes as escapes, and
bytes in octal with all three digits.  `rows_of_encodes` says that columns written like this are
read back, whatever they hold.

Nothing here is about a particular program.
-/
import Mathlib

namespace CopyText

/-! ## 1. The reader -/

/-- Another character in front of the first word. -/
def push (c : UInt8) : List (List UInt8) → List (List UInt8)
  | [] => [[c]]
  | w :: ws => (c :: w) :: ws

/-- The words between separators.  The character after a backslash separates nothing. -/
def split (sep : UInt8) : Bool → List UInt8 → List (List UInt8)
  | _, [] => [[]]
  | true, c :: rest => push c (split sep false rest)
  | false, c :: rest =>
    if c = sep then [] :: split sep false rest else push c (split sep (c = 92) rest)

def isOctal (c : UInt8) : Bool := 48 ≤ c ∧ c ≤ 55

/-- The value of a hexadecimal digit. -/
def hexValue (c : UInt8) : Option UInt8 :=
  if 48 ≤ c ∧ c ≤ 57 then some (c - 48)
  else if 65 ≤ c ∧ c ≤ 70 then some (c - 55)
  else if 97 ≤ c ∧ c ≤ 102 then some (c - 87)
  else none

/-- The letters that stand for a control character; any other character stands for itself. -/
def letters : List (UInt8 × UInt8) := [(98, 8), (102, 12), (110, 10), (114, 13), (116, 9), (118, 11)]

/-- What a column holds: `\` and one to three octal digits, `\x` and one or two hexadecimal digits,
or `\` and another character. -/
def unescape : List UInt8 → List UInt8
  | [] => []
  | [c] => [c]
  | c :: e :: rest =>
    if c ≠ 92 then c :: unescape (e :: rest)
    else if isOctal e then
      let digits := (rest.take 2).takeWhile isOctal
      (e :: digits).foldl (fun v d => v * 8 + (d - 48)) 0 :: unescape (rest.drop digits.length)
    else if e = 120 then
      let digits := (rest.take 2).map hexValue |>.takeWhile Option.isSome
      if digits = [] then 120 :: unescape rest
      else digits.foldl (fun v d => v * 16 + d.getD 0) 0 :: unescape (rest.drop digits.length)
    else (letters.lookup e).getD e :: unescape rest
termination_by raw => raw.length

/-- A column, or `none` for the null value. -/
def column (raw : List UInt8) : Option (List UInt8) :=
  if raw = [92, 78] then none else some (unescape raw)

/-- The rows of a text, up to the end marker; a carriage return has to be escaped. -/
def rows (text : List UInt8) : Option (List (List (Option (List UInt8)))) :=
  if 13 ∈ text then none
  else some (((split 10 false text).takeWhile (· ≠ [92, 46])).map fun line =>
    (split 9 false line).map column)

/-! ## 2. Safe columns -/

/-- The value of three octal digits. -/
def octalValue (a b c : UInt8) : UInt8 := ((a - 48) * 8 + (b - 48)) * 8 + (c - 48)

/-- `raw` is a safe way to write `s`. -/
inductive Encodes : List UInt8 → List UInt8 → Prop where
  | nil : Encodes [] []
  | plain {raw s} (c : UInt8) (hc : c ∉ ([9, 10, 13, 92] : List UInt8)) (h : Encodes raw s) :
      Encodes (c :: raw) (c :: s)
  | letter {raw s} (e v : UInt8) (he : (e, v) ∈ (92, 92) :: letters) (h : Encodes raw s) :
      Encodes (92 :: e :: raw) (v :: s)
  | octal {raw s} (a b c : UInt8) (ha : isOctal a) (hb : isOctal b) (hc : isOctal c)
      (h : Encodes raw s) :
      Encodes (92 :: a :: b :: c :: raw) (octalValue a b c :: s)

theorem Encodes.append {raw raw' s s' : List UInt8} (h : Encodes raw s) (h' : Encodes raw' s') :
    Encodes (raw ++ raw') (s ++ s') := by
  induction h with
  | nil => exact h'
  | plain c hc _ ih => exact .plain c hc ih
  | letter e v he _ ih => exact .letter e v he ih
  | octal a b c ha hb hc _ ih => exact .octal a b c ha hb hc ih

/-- A text that needs no escapes. -/
theorem encodes_self {s : List UInt8} (hs : ∀ c ∈ s, c ∉ ([9, 10, 13, 92] : List UInt8)) :
    Encodes s s := by
  induction s with
  | nil => exact .nil
  | cons c s ih =>
    exact .plain c (hs c List.mem_cons_self) (ih fun d hd => hs d (List.mem_cons_of_mem c hd))

theorem unescape_cons {c : UInt8} (hc : c ≠ 92) (rest : List UInt8) :
    unescape (c :: rest) = c :: unescape rest := by
  cases rest with
  | nil => simp [unescape]
  | cons e rest => rw [unescape, if_pos hc]

/-- **What is written safely is read back.** -/
theorem Encodes.unescape_eq {raw s : List UInt8} (h : Encodes raw s) : unescape raw = s := by
  induction h with
  | nil => simp [unescape]
  | plain c hc _ ih =>
    have hne : c ≠ 92 := by
      rintro rfl
      simp at hc
    rw [unescape_cons hne, ih]
  | letter e v he _ ih =>
    have hletter : ∀ p ∈ (92, 92) :: letters, isOctal p.1 = false ∧ p.1 ≠ 120 ∧
        (letters.lookup p.1).getD p.1 = p.2 := by
      simp [letters, isOctal, List.lookup]
    obtain ⟨h₁, h₂, h₃⟩ := hletter (e, v) he
    rw [unescape, if_neg (by simp), h₁, if_neg Bool.false_ne_true, if_neg h₂, h₃, ih]
  | octal a b c ha hb hc _ ih =>
    rw [unescape, if_neg (by simp), if_pos ha]
    simp [hb, hc, ih, octalValue]

theorem Encodes.not_mem_cr {raw s : List UInt8} (h : Encodes raw s) : 13 ∉ raw := by
  have hletter : ∀ p ∈ (92, 92) :: letters, p.1 ≠ 13 := by simp [letters]
  have hoctal : ∀ c : UInt8, isOctal c → 13 ≠ c := by
    rintro c hc rfl
    exact absurd hc Bool.false_ne_true
  induction h with
  | nil => exact List.not_mem_nil
  | plain c hc _ ih =>
    have hne : (13 : UInt8) ≠ c := by
      rintro rfl
      simp at hc
    simp [hne, ih]
  | letter e v he _ ih =>
    have hne : (13 : UInt8) ≠ e := (hletter (e, v) he).symm
    simp [hne, ih]
  | octal a b c ha hb hc _ ih => simp [hoctal a ha, hoctal b hb, hoctal c hc, ih]

/-- Neither the null value nor the end marker. -/
theorem Encodes.ne_marker {raw s : List UInt8} (h : Encodes raw s) (e : UInt8)
    (he : e = 78 ∨ e = 46) (rest : List UInt8) : raw ≠ 92 :: e :: rest := by
  have hletter : ∀ p ∈ (92, 92) :: letters, p.1 ≠ 78 ∧ p.1 ≠ 46 := by simp [letters]
  have hoctal : isOctal 78 = false ∧ isOctal 46 = false := by decide
  intro heq
  cases h with
  | nil => cases heq
  | plain c hc _ =>
    have hc92 := (List.cons_eq_cons.mp heq).1
    simp [hc92] at hc
  | letter e' v he' _ =>
    have hee := (List.cons_eq_cons.mp (List.cons_eq_cons.mp heq).2).1
    have hne := hletter (e', v) he'
    rcases he with rfl | rfl
    · exact hne.1 hee
    · exact hne.2 hee
  | octal a b c ha _ _ _ =>
    have hae := (List.cons_eq_cons.mp (List.cons_eq_cons.mp heq).2).1
    rw [hae] at ha
    rcases he with rfl | rfl
    · exact absurd ha (by rw [hoctal.1]; exact Bool.false_ne_true)
    · exact absurd ha (by rw [hoctal.2]; exact Bool.false_ne_true)

theorem Encodes.column_eq {raw s : List UInt8} (h : Encodes raw s) : column raw = some s := by
  rw [column, if_neg (h.ne_marker 78 (Or.inl rfl) []), h.unescape_eq]

/-! ## 3. Words that a separator does not split -/

/-- No separator, apart from characters after a backslash, and no backslash at the end. -/
inductive Whole (sep : UInt8) : List UInt8 → Prop where
  | nil : Whole sep []
  | plain {w} (c : UInt8) (hsep : c ≠ sep) (hc : c ≠ 92) (h : Whole sep w) : Whole sep (c :: w)
  | escape {w} (e : UInt8) (h : Whole sep w) : Whole sep (92 :: e :: w)

variable {sep : UInt8}

theorem Whole.append {v w : List UInt8} (hv : Whole sep v) (hw : Whole sep w) :
    Whole sep (v ++ w) := by
  induction hv with
  | nil => exact hw
  | plain c hsep hc _ ih => exact .plain c hsep hc ih
  | escape e _ ih => exact .escape e ih

/-- The first word is what stands before the first separator. -/
theorem Whole.split_append {w : List UInt8} (h : Whole sep w) (hsep : sep ≠ 92)
    (rest : List UInt8) : split sep false (w ++ sep :: rest) = w :: split sep false rest := by
  induction h with
  | nil => rw [List.nil_append, split, if_pos rfl]
  | plain c hne hc _ ih =>
    rw [List.cons_append, split, if_neg hne, decide_eq_false hc, ih, push]
  | escape e _ ih =>
    rw [List.cons_append, List.cons_append, split, if_neg hsep.symm, decide_eq_true rfl, split, ih,
      push, push]

theorem Whole.split_eq {w : List UInt8} (h : Whole sep w) (hsep : sep ≠ 92) :
    split sep false w = [w] := by
  induction h with
  | nil => rfl
  | plain c hne hc _ ih => rw [split, if_neg hne, decide_eq_false hc, ih, push]
  | escape e _ ih =>
    rw [split, if_neg hsep.symm, decide_eq_true rfl, split, ih, push, push]

/-- **Joined words are split again.** -/
theorem split_intercalate {ws : List (List UInt8)} (hne : ws ≠ []) (hws : ∀ w ∈ ws, Whole sep w)
    (hsep : sep ≠ 92) : split sep false ([sep].intercalate ws) = ws := by
  induction ws with
  | nil => exact absurd rfl hne
  | cons w ws ih =>
    cases ws with
    | nil =>
      rw [List.intercalate_singleton]
      exact (hws w List.mem_cons_self).split_eq hsep
    | cons v ws =>
      rw [List.intercalate_cons_cons, List.append_assoc, List.singleton_append,
        (hws w List.mem_cons_self).split_append hsep,
        ih (List.cons_ne_nil v ws) fun u hu => hws u (List.mem_cons_of_mem w hu)]

/-- A safe column is not split, by a tab or a newline. -/
theorem Encodes.whole {raw s : List UInt8} (h : Encodes raw s) (hsep : sep = 9 ∨ sep = 10) :
    Whole sep raw := by
  have hoctal : ∀ c : UInt8, isOctal c → c ≠ sep ∧ c ≠ 92 := by
    intro c hc
    simp only [isOctal, decide_eq_true_eq, UInt8.le_iff_toNat_le] at hc
    constructor
    · rintro rfl
      rcases hsep with rfl | rfl <;> simp at hc
    · rintro rfl
      simp at hc
  induction h with
  | nil => exact .nil
  | plain c hc _ ih =>
    simp only [List.mem_cons, List.not_mem_nil, or_false, not_or] at hc
    obtain ⟨h₁, h₂, -, h₄⟩ := hc
    refine .plain c ?_ h₄ ih
    rcases hsep with rfl | rfl
    · exact h₁
    · exact h₂
  | letter e v _ _ ih => exact .escape e ih
  | octal a b c _ hb hc _ ih =>
    exact .escape a (.plain b (hoctal b hb).1 (hoctal b hb).2
      (.plain c (hoctal c hc).1 (hoctal c hc).2 ih))

/-- Words joined by something else than the separator. -/
theorem whole_intercalate {c : UInt8} (hc : c ≠ sep) (hc92 : c ≠ 92) {ws : List (List UInt8)}
    (hws : ∀ w ∈ ws, Whole sep w) : Whole sep ([c].intercalate ws) := by
  induction ws with
  | nil => exact .nil
  | cons w ws ih =>
    have hw := hws w List.mem_cons_self
    have hrest := ih fun u hu => hws u (List.mem_cons_of_mem w hu)
    cases ws with
    | nil => rwa [List.intercalate_singleton]
    | cons v ws =>
      rw [List.intercalate_cons_cons, List.append_assoc]
      exact hw.append (.plain c hc hc92 hrest)

theorem mem_intercalate {c d : UInt8} {ws : List (List UInt8)} (h : d ∈ [c].intercalate ws) :
    d = c ∨ ∃ w ∈ ws, d ∈ w := by
  induction ws with
  | nil => cases h
  | cons w ws ih =>
    cases ws with
    | nil =>
      rw [List.intercalate_singleton] at h
      exact Or.inr ⟨w, List.mem_cons_self, h⟩
    | cons v ws =>
      rw [List.intercalate_cons_cons, List.append_assoc, List.mem_append, List.singleton_append,
        List.mem_cons] at h
      rcases h with h | rfl | h
      · exact Or.inr ⟨w, List.mem_cons_self, h⟩
      · exact Or.inl rfl
      · rcases ih h with rfl | ⟨u, hu, hd⟩
        · exact Or.inl rfl
        · exact Or.inr ⟨u, List.mem_cons_of_mem w hu, hd⟩

/-- What is paired has a partner. -/
theorem exists_of_forall₂ {α β : Type*} {R : α → β → Prop} {as : List α} {bs : List β}
    (h : List.Forall₂ R as bs) {a : α} (ha : a ∈ as) : ∃ b, R a b := by
  induction h with
  | nil => cases ha
  | cons hab _ ih =>
    rcases List.mem_cons.mp ha with rfl | ha
    · exact ⟨_, hab⟩
    · exact ih ha

/-! ## 4. Rows -/

/-- The line of a row. -/
def line (raws : List (List UInt8)) : List UInt8 := [9].intercalate raws

/-- The text of rows, with the end marker. -/
def text (lines : List (List UInt8)) : List UInt8 := [10].intercalate lines ++ [10, 92, 46, 10]

/-- A row whose columns are written safely; there is at least one. -/
def EncodesRow (raws values : List (List UInt8)) : Prop :=
  raws ≠ [] ∧ List.Forall₂ Encodes raws values

section Row

variable {raws values : List (List UInt8)}

theorem EncodesRow.exists_value (h : EncodesRow raws values) {raw : List UInt8}
    (hraw : raw ∈ raws) : ∃ s, Encodes raw s := exists_of_forall₂ h.2 hraw

theorem EncodesRow.split_line (h : EncodesRow raws values) : split 9 false (line raws) = raws := by
  refine split_intercalate h.1 (fun raw hraw => ?_) (by decide)
  obtain ⟨s, hs⟩ := h.exists_value hraw
  exact hs.whole (Or.inl rfl)

theorem EncodesRow.whole_line (h : EncodesRow raws values) : Whole 10 (line raws) := by
  refine whole_intercalate (by decide) (by decide) fun raw hraw => ?_
  obtain ⟨s, hs⟩ := h.exists_value hraw
  exact hs.whole (Or.inr rfl)

theorem EncodesRow.not_mem_cr (h : EncodesRow raws values) : 13 ∉ line raws := by
  intro hmem
  rcases mem_intercalate hmem with habs | ⟨raw, hraw, hcr⟩
  · exact absurd habs (by decide)
  · obtain ⟨s, hs⟩ := h.exists_value hraw
    exact hs.not_mem_cr hcr

/-- A row is not taken for the end marker. -/
theorem EncodesRow.line_ne_marker (h : EncodesRow raws values) : line raws ≠ [92, 46] := by
  obtain ⟨hne, hall⟩ := h
  cases hall with
  | nil => exact absurd rfl hne
  | @cons raw s raws values hraw hall =>
    cases raws with
    | nil =>
      rw [line, List.intercalate_singleton]
      exact hraw.ne_marker 46 (Or.inr rfl) []
    | cons raw' raws =>
      intro heq
      have htab : (9 : UInt8) ∈ line (raw :: raw' :: raws) := by
        rw [line, List.intercalate_cons_cons]
        simp
      rw [heq] at htab
      simp at htab

theorem EncodesRow.columns_eq (h : EncodesRow raws values) : raws.map column = values.map some := by
  obtain ⟨-, hall⟩ := h
  induction hall with
  | nil => rfl
  | cons hraw _ ih => rw [List.map_cons, List.map_cons, hraw.column_eq, ih]

end Row

/-- Words before a separator, and what comes after it. -/
theorem split_intercalate_append {sep : UInt8} {ws : List (List UInt8)} (hne : ws ≠ [])
    (hws : ∀ w ∈ ws, Whole sep w) (hsep : sep ≠ 92) (rest : List UInt8) :
    split sep false ([sep].intercalate ws ++ sep :: rest) = ws ++ split sep false rest := by
  induction ws with
  | nil => exact absurd rfl hne
  | cons w ws ih =>
    have hw := hws w List.mem_cons_self
    cases ws with
    | nil => rw [List.intercalate_singleton, hw.split_append hsep, List.singleton_append]
    | cons v ws =>
      rw [List.intercalate_cons_cons, List.append_assoc, List.append_assoc, List.singleton_append,
        hw.split_append hsep, List.cons_append,
        ih (List.cons_ne_nil v ws) fun u hu => hws u (List.mem_cons_of_mem w hu)]

/-- **Rows are read back**: as many as there are, with the columns they have. -/
theorem rows_of_encodes {rawss valuess : List (List (List UInt8))} (hne : rawss ≠ [])
    (h : List.Forall₂ EncodesRow rawss valuess) :
    rows (text (rawss.map line)) = some (valuess.map fun values => values.map some) := by
  have hrow : ∀ raws ∈ rawss, ∃ values, EncodesRow raws values := fun raws hraws =>
    exists_of_forall₂ h hraws
  have hcr : 13 ∉ text (rawss.map line) := by
    intro hmem
    rcases List.mem_append.mp hmem with hmem | hmem
    · rcases mem_intercalate hmem with habs | ⟨l, hl, hcr⟩
      · exact absurd habs (by decide)
      · obtain ⟨raws, hraws, rfl⟩ := List.mem_map.mp hl
        obtain ⟨values, hvalues⟩ := hrow raws hraws
        exact hvalues.not_mem_cr hcr
    · simp at hmem
  have hsplit : split 10 false (text (rawss.map line)) = rawss.map line ++ [[92, 46], []] := by
    refine split_intercalate_append (by simpa using hne) (List.forall_mem_map.mpr ?_) (by decide)
      [92, 46, 10]
    intro raws hraws
    obtain ⟨values, hvalues⟩ := hrow raws hraws
    exact hvalues.whole_line
  have htake : (rawss.map line ++ [[92, 46], []]).takeWhile (· ≠ [92, 46]) = rawss.map line := by
    rw [List.takeWhile_append_of_pos]
    · simp
    · intro l hl
      obtain ⟨raws, hraws, rfl⟩ := List.mem_map.mp hl
      obtain ⟨values, hvalues⟩ := hrow raws hraws
      exact decide_eq_true hvalues.line_ne_marker
  rw [rows, if_neg hcr, hsplit, htake, List.map_map]
  congr 1
  clear hne hrow hcr hsplit htake
  induction h with
  | nil => rfl
  | cons hrow _ ih =>
    rw [List.map_cons, List.map_cons, ih, Function.comp_apply, hrow.split_line, hrow.columns_eq]

end CopyText
