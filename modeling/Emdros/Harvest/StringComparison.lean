/-
# Feature comparisons for a token (`make_string_feature_comparison`)

A token of a search is compared with a feature as a string, or by a pattern of PCRE if it has a `*`
or a `?`.  The pattern is made by nine replacements, one after the other; together they replace each
byte of the token by a text of its own (`patternBytes`).

What the pattern matches is not what the token stands for where a byte is left that means something
in a pattern: parentheses, a bar, a brace that begins a counted repeat.  And a `+` becomes `.+`.
`matchesToken_iff` is about the tokens that leave nothing of the first kind; of these it says when
the comparison is right.

PCRE gives a match up that takes too long (`Pcre.Finishes`), as `a*b` against ten million letters;
what is asked of the comparison is asked on the other texts.  To show that a `+` is lost takes one
text on which it shows, and the shortest one that the pattern matches will do (`shortestText`).
-/
import Emdros.MQL.PcrePatterns
import Emdros.Base.Search

namespace Emdros

open Lexer (bytes)
open Search

/-! ## 1. The comparison -/

namespace StringComparison

/-- The loop of `replace_substring`, in at most `n` rounds. -/
def replaceLoop (instring substring_to_replace replacement_string : List UInt8) :
    Nat → Nat → List UInt8
  | 0, _ => []
  | n + 1, nbegin =>
    if nbegin = instring.length then []
    else
      match find instring substring_to_replace nbegin with
      | none => substr instring nbegin (instring.length - nbegin)
      | some nend =>
        substr instring nbegin (nend - nbegin) ++ replacement_string ++
          replaceLoop instring substring_to_replace replacement_string n
            (nend + substring_to_replace.length)

/-- `replace_substring`. -/
def replace_substring (instring substring_to_replace replacement_string : List UInt8) :
    List UInt8 :=
  match find instring substring_to_replace 0 with
  | none => instring
  | some first =>
    if substring_to_replace.isEmpty then instring
    else if instring = substring_to_replace then replacement_string
    else
      let nbegin := if first = 0 then substring_to_replace.length else first
      let result := if first = 0 then replacement_string else substr instring 0 first
      match find instring substring_to_replace nbegin with
      | none => result ++ substr instring nbegin (instring.length - nbegin)
      | some nend =>
        result ++ substr instring nbegin (nend - nbegin) ++ replacement_string ++
          replaceLoop instring substring_to_replace replacement_string (instring.length + 1)
            (nend + substring_to_replace.length)

/-- What is replaced for a pattern, in this order. -/
def replacements : List (String × String) := [
  ("\\", "\\\\"), (".", "\\."), ("[", "\\["), ("]", "\\]"), ("^", "\\^"), ("$", "\\$"),
  ("+", ".+"), ("*", ".*"), ("?", ".")]

/-- `feature_value_to_use`. -/
def featureValueToUse (feature_value : List UInt8) : List UInt8 :=
  replacements.foldl (fun value r => replace_substring value (bytes r.1) (bytes r.2)) feature_value

/-- `find_first_of("*?")` finds something. -/
def hasWildcard (feature_value : List UInt8) : Bool := feature_value.any (bytes "*?").contains

def make_string_feature_comparison (feature_name feature_value : List UInt8) : List UInt8 :=
  if hasWildcard feature_value then
    feature_name ++ bytes "~\"^" ++ encodeSTRINGstring (featureValueToUse feature_value) ++ bytes "$\""
  else feature_name ++ bytes "=\"" ++ encodeSTRINGstring feature_value ++ bytes "\""

/-! ## 2. What it stands for -/

/-- A name that the scanner reads as an identifier, in front of an operator. -/
def IsFeatureName (feature_name : List UInt8) : Prop :=
  ∀ c rest, c = 61 ∨ c = 126 →
    MQLScanner.scan (feature_name ++ c :: rest) = some (.identifier feature_name, c :: rest)

/-- The comparison of a feature with a string, read from its three tokens. -/
def readComparison (text : List UInt8) : Option FeatureComparison := do
  let (.identifier name, rest) ← MQLScanner.scan text | none
  let (.key op, rest) ← MQLScanner.scan rest | none
  let (.string value, rest) ← MQLScanner.scan rest | none
  let (.eof, _) ← MQLScanner.scan rest | none
  let name := name.map fun c => Char.ofNat c.toNat
  if op = "T_KEY_EQUALS" then some ⟨name, [], .equal, .value (.string value)⟩
  else if op = "T_KEY_TILDE" then some ⟨name, [], .tilde, .value (.string value)⟩
  else none

/-- The comparison is read, passes the checks, and is true of the string. -/
def IsTrueOf (ctx : QueryContext) (text s : List UInt8) : Prop :=
  ∃ c, readComparison text = some c ∧ c.weed ctx = some true ∧
    ∀ symbols right, c.compare ctx symbols (.string s) right = some true

/-- The characters of a token stand for these: a `*` for any number of them, a `?` for one. -/
def Glob : List (List UInt8) → List (List UInt8) → Prop
  | [], ds => ds = []
  | x :: cs, ds =>
    if x = [42] then ∃ xs t, ds = xs ++ t ∧ Glob cs t
    else if x = [63] then ∃ y t, ds = y :: t ∧ Glob cs t
    else ∃ t, ds = x :: t ∧ Glob cs t

/-- The token stands for the string; without wildcards it stands for itself alone. -/
def StandsFor (feature_value s : List UInt8) : Prop :=
  if hasWildcard feature_value then
    ∃ cs ds : List (List UInt8), (∀ c ∈ cs, Pcre.IsCharacter c) ∧ (∀ d ∈ ds, Pcre.IsCharacter d) ∧
      feature_value = cs.flatten ∧ s = ds.flatten ∧ Glob cs ds
  else s = feature_value

/-- **The comparison is true of just the strings that the token stands for**, of those without a
line break on which PCRE does not give up. -/
def MatchesToken (ctx : QueryContext) (feature_name feature_value : List UInt8) : Prop :=
  ∀ s, 10 ∉ s →
    (hasWildcard feature_value = true → Pcre.Finishes ctx (featureValueToUse feature_value) s) →
      (IsTrueOf ctx (make_string_feature_comparison feature_name feature_value) s ↔
        StandsFor feature_value s)

/-- Bytes that begin or end a group or an alternative, or a brace that begins a counted repeat: none
of them is replaced, and they do not stand for themselves in a pattern. -/
def leavesMetacharacter : List UInt8 → Bool
  | [] => false
  | c :: rest =>
    c == 40 || c == 41 || c == 124 || (c == 123 && Pcre.isCountedRepeat rest) ||
      leavesMetacharacter rest

/-- The shortest text that the pattern of a token matches, if nothing of that kind is left: nothing
for a `*`, one character for a `?` and for a `+`. -/
def shortestText (feature_value : List UInt8) : List UInt8 :=
  feature_value.flatMap fun c => if c = 42 then [] else if c = 63 ∨ c = 43 then [120] else [c]

/-! ## 3. Replacing -/

variable {instring : List UInt8} {c : UInt8} {replacement_string : List UInt8}

theorem flatMap_eq_self {s : List UInt8} (h : c ∉ s) :
    (s.flatMap fun x => if x = c then replacement_string else [x]) = s := by
  induction s with
  | nil => rfl
  | cons x s ih =>
    rw [List.mem_cons, not_or] at h
    rw [List.flatMap_cons, if_neg (Ne.symm h.1), ih h.2, List.singleton_append]

theorem not_mem_of_find_eq_none {nbegin : Nat} (h : find instring [c] nbegin = none) :
    c ∉ instring.drop nbegin := by
  intro hmem
  rw [find_eq_none_iff (by simp)] at h
  obtain ⟨front, back, hsplit⟩ := List.append_of_mem hmem
  refine h (nbegin + front.length) (Nat.le_add_right _ _) ?_
  rw [OccursAt, ← List.drop_drop, hsplit, List.drop_left]
  exact ⟨back, rfl⟩

/-- The text from `nbegin` on, cut at the first byte that is replaced. -/
theorem drop_of_find {nbegin nend : Nat} (h : find instring [c] nbegin = some nend) :
    nbegin ≤ nend ∧ nend < instring.length ∧ c ∉ substr instring nbegin (nend - nbegin) ∧
      instring.drop nbegin = substr instring nbegin (nend - nbegin) ++ c :: instring.drop (nend + 1) := by
  rw [find_eq_some_iff (by simp)] at h
  obtain ⟨⟨hle, hocc⟩, hfirst⟩ := h
  have hlen := hocc.add_length_le (by simp)
  refine ⟨hle, by simpa using hlen, fun hmem => ?_, by simpa using hocc.drop_eq hle⟩
  have hinfix : [c] <:+: substr instring nbegin (nend - nbegin) := by
    obtain ⟨front, back, hsplit⟩ := List.append_of_mem hmem
    exact ⟨front, back, by rw [hsplit]; simp⟩
  rw [infix_substr_iff (by simp) (by simpa using Nat.le_of_lt (by simpa using hlen))] at hinfix
  obtain ⟨i, hi, hie, hocc'⟩ := hinfix
  exact hfirst i (by simpa using hie) hi hocc'

theorem substr_rest (nbegin : Nat) :
    substr instring nbegin (instring.length - nbegin) = instring.drop nbegin := by
  rw [substr, List.take_of_length_le (by simp)]

/-- What a text from `nbegin` on becomes, cut in the same way. -/
theorem flatMap_drop_of_find {nbegin nend : Nat} (h : find instring [c] nbegin = some nend) :
    ((instring.drop nbegin).flatMap fun x => if x = c then replacement_string else [x]) =
      substr instring nbegin (nend - nbegin) ++ replacement_string ++
        (instring.drop (nend + 1)).flatMap fun x => if x = c then replacement_string else [x] := by
  obtain ⟨-, -, hfree, hdrop⟩ := drop_of_find h
  rw [hdrop, List.flatMap_append, flatMap_eq_self hfree, List.flatMap_cons, if_pos rfl,
    List.append_assoc]

/-- **The loop**, by induction on its rounds. -/
theorem replaceLoop_eq {n nbegin : Nat} (hle : nbegin ≤ instring.length)
    (hn : instring.length < nbegin + n) :
    replaceLoop instring [c] replacement_string n nbegin =
      (instring.drop nbegin).flatMap fun x => if x = c then replacement_string else [x] := by
  induction n generalizing nbegin with
  | zero => omega
  | succ n ih =>
    rw [replaceLoop]
    split
    · rename_i hend
      simp [hend]
    · cases hfind : find instring [c] nbegin with
      | none =>
        have hfree := not_mem_of_find_eq_none hfind
        rw [flatMap_eq_self hfree]
        exact substr_rest nbegin
      | some nend =>
        obtain ⟨hbegin, hend, -, -⟩ := drop_of_find hfind
        have hrest := @ih (nend + 1) (by omega) (by omega)
        rw [flatMap_drop_of_find hfind, ← hrest]
        rfl

/-- **Replacing one byte.** -/
theorem replace_substring_byte (instring : List UInt8) (c : UInt8)
    (replacement_string : List UInt8) : replace_substring instring [c] replacement_string =
      instring.flatMap fun x => if x = c then replacement_string else [x] := by
  rw [replace_substring]
  cases hfirst : find instring [c] 0 with
  | none =>
    have hfree := not_mem_of_find_eq_none hfirst
    exact (flatMap_eq_self (by simpa using hfree)).symm
  | some first =>
    obtain ⟨-, hend, hfree, hdrop⟩ := drop_of_find hfirst
    have hloop := fun nend (h : nend + 1 ≤ instring.length) =>
      @replaceLoop_eq instring c replacement_string (instring.length + 1) (nend + 1) h (by omega)
    by_cases hwhole : instring = [c]
    · simp [hwhole]
    by_cases hzero : first = 0
    · -- the text begins with the byte
      subst hzero
      have hrest : (instring.flatMap fun x => if x = c then replacement_string else [x]) =
          replacement_string ++
            (instring.drop 1).flatMap fun x => if x = c then replacement_string else [x] := by
        have hcut := @flatMap_drop_of_find instring c replacement_string 0 0 hfirst
        simpa [substr] using hcut
      rw [hrest]
      cases hfind : find instring [c] 1 with
      | none =>
        rw [flatMap_eq_self (not_mem_of_find_eq_none hfind)]
        simp [hwhole, hfind, substr_rest]
      | some nend =>
        obtain ⟨-, hend, -, -⟩ := drop_of_find hfind
        rw [flatMap_drop_of_find hfind, ← hloop nend (by omega)]
        simp [hwhole, hfind]
    · -- the byte that was found is found again
      have hfind : find instring [c] first = some first := by
        rw [find_eq_some_iff (by simp)] at hfirst ⊢
        exact ⟨⟨le_rfl, hfirst.1.2⟩, fun j hj hle => absurd hle (by omega)⟩
      have hcut := @flatMap_drop_of_find instring c replacement_string 0 first hfirst
      rw [List.drop_zero, ← hloop first (by omega)] at hcut
      rw [hcut]
      simp [hwhole, hfind, hzero, substr]

/-! ## 4. The pattern -/

/-- What a byte of the token becomes. -/
def patternByte (c : UInt8) : List UInt8 :=
  if c = 43 then [46, 43]
  else if c = 42 then [46, 42]
  else if c = 63 then [46]
  else if [92, 46, 91, 93, 94, 36].contains c then [92, c]
  else [c]

/-- Replacements of one byte each work on the parts of a text apart. -/
theorem foldl_replace_append (rs : List (UInt8 × List UInt8)) (s t : List UInt8) :
    rs.foldl (fun value r => replace_substring value [r.1] r.2) (s ++ t) =
      rs.foldl (fun value r => replace_substring value [r.1] r.2) s ++
        rs.foldl (fun value r => replace_substring value [r.1] r.2) t := by
  induction rs generalizing s t with
  | nil => rfl
  | cons r rs ih =>
    rw [List.foldl_cons, List.foldl_cons, List.foldl_cons, ← ih, replace_substring_byte,
      replace_substring_byte, replace_substring_byte, List.flatMap_append]

/-- The bytes that are replaced, in the order of `replacements`. -/
def byteReplacements : List (UInt8 × List UInt8) := [
  (92, [92, 92]), (46, [92, 46]), (91, [92, 91]), (93, [92, 93]), (94, [92, 94]), (36, [92, 36]),
  (43, [46, 43]), (42, [46, 42]), (63, [46])]

theorem featureValueToUse_foldl (feature_value : List UInt8) :
    featureValueToUse feature_value =
      byteReplacements.foldl (fun value r => replace_substring value [r.1] r.2) feature_value := by
  have hbytes : replacements.map (fun r => (bytes r.1, bytes r.2))
      = byteReplacements.map fun r => ([r.1], r.2) := by decide
  have hmap := congrArg
    (List.foldl (fun value r => replace_substring value r.1 r.2) feature_value) hbytes
  rwa [List.foldl_map, List.foldl_map] at hmap

theorem flatMap_replacements (c : UInt8) :
    featureValueToUse [c] = patternByte c := by
  have hall : ∀ n < 256, byteReplacements.foldl
      (fun value r => value.flatMap fun x => if x = r.1 then r.2 else [x]) [UInt8.ofNat n]
        = patternByte (UInt8.ofNat n) := by
    decide +kernel
  have h := hall c.toNat c.toNat_lt
  rw [UInt8.ofNat_toNat] at h
  rw [featureValueToUse_foldl, ← h]
  simp only [replace_substring_byte]

/-- **The nine replacements are one.** -/
theorem featureValueToUse_eq (feature_value : List UInt8) :
    featureValueToUse feature_value = feature_value.flatMap patternByte := by
  have hsplit : ∀ s t, featureValueToUse (s ++ t) = featureValueToUse s ++ featureValueToUse t := by
    intro s t
    simp only [featureValueToUse_foldl]
    exact foldl_replace_append byteReplacements s t
  induction feature_value with
  | nil =>
    rw [featureValueToUse_foldl]
    rfl
  | cons c s ih =>
    rw [← List.singleton_append, hsplit, ih, flatMap_replacements, List.singleton_append,
      List.flatMap_cons]

/-- The piece of the pattern for a character of the token. -/
def itemOf (x : List UInt8) : Pcre.Item :=
  if x = [42] then .dotStar
  else if x = [63] then .dot
  else if x = [43] then .dotPlus
  else .char x

theorem ne_of_le_of_lt {c d : UInt8} (hc : 0x80 ≤ c) (hd : d < 0x80) : c ≠ d := by
  rintro rfl
  exact absurd hd (UInt8.not_lt.mpr hc)

theorem patternByte_of_le {c : UInt8} (hc : 0x80 ≤ c) : patternByte c = [c] := by
  have hne := fun d => @ne_of_le_of_lt c d hc
  simp [patternByte, hne 43 (by decide), hne 42 (by decide), hne 63 (by decide),
    hne 92 (by decide), hne 46 (by decide), hne 91 (by decide), hne 93 (by decide),
    hne 94 (by decide), hne 36 (by decide)]

theorem metacharacters_eq :
    Pcre.metacharacters = [92, 94, 36, 46, 91, 124, 40, 41, 63, 42, 43] := by
  decide

/-- A byte of the pattern is the byte of the token, or one of what is put in. -/
theorem mem_patternByte {b c : UInt8} (h : b ∈ patternByte c) :
    b = c ∨ b = 46 ∨ b = 43 ∨ b = 42 ∨ b = 92 := by
  unfold patternByte at h
  split_ifs at h <;> simp at h <;> tauto

theorem flatMap_patternByte_of_le {x : List UInt8} (hx : ∀ b ∈ x, 0x80 ≤ b) :
    x.flatMap patternByte = x := by
  induction x with
  | nil => rfl
  | cons b x ih =>
    rw [List.flatMap_cons, patternByte_of_le (hx b List.mem_cons_self),
      ih fun b' hb' => hx b' (List.mem_cons_of_mem _ hb'), List.singleton_append]

/-- A byte is left as it is, or becomes text that begins with a dot or a backslash. -/
theorem patternByte_cases (c : UInt8) :
    (patternByte c = [c] ∧ c ≠ 46 ∧ c ≠ 92 ∧ c ≠ 42 ∧ c ≠ 43) ∨
      (∃ a l, patternByte c = a :: l ∧ (a = 46 ∨ a = 92)) ∧ MQLScanner.isDigit c = false ∧
        c ≠ 44 ∧ c ≠ 125 := by
  by_cases h : [43, 42, 63, 92, 46, 91, 93, 94, 36].contains c = true
  · right
    simp only [List.contains_cons, List.contains_nil, Bool.or_false, Bool.or_eq_true,
      beq_iff_eq] at h
    rcases h with rfl | rfl | rfl | rfl | rfl | rfl | rfl | rfl | rfl <;>
      exact ⟨⟨_, _, rfl, by decide⟩, by decide⟩
  · left
    simp only [List.contains_cons, List.contains_nil, Bool.or_false, Bool.or_eq_true, beq_iff_eq,
      not_or] at h
    refine ⟨?_, h.2.2.2.2.1, h.2.2.2.1, h.2.1, h.1⟩
    simp [patternByte, h]

theorem dropWhile_pattern (s : List UInt8) :
    (s.flatMap patternByte).dropWhile MQLScanner.isDigit =
      (s.dropWhile MQLScanner.isDigit).flatMap patternByte := by
  induction s with
  | nil => rfl
  | cons c s ih =>
    rw [List.flatMap_cons]
    rcases patternByte_cases c with ⟨hself, -⟩ | ⟨⟨a, l, hpattern, ha⟩, hdigit, -, -⟩
    · rw [hself, List.singleton_append]
      by_cases hdigit : MQLScanner.isDigit c = true
      · rw [List.dropWhile_cons_of_pos hdigit, List.dropWhile_cons_of_pos hdigit, ih]
      · rw [List.dropWhile_cons_of_neg hdigit, List.dropWhile_cons_of_neg hdigit,
          List.flatMap_cons, hself, List.singleton_append]
    · have hdigit' : ¬ MQLScanner.isDigit a = true := by
        rcases ha with rfl | rfl <;> decide
      rw [hpattern, List.cons_append, List.dropWhile_cons_of_neg hdigit',
        List.dropWhile_cons_of_neg (by simp [hdigit]), List.flatMap_cons, hpattern, List.cons_append]

theorem digits_pattern (s : List UInt8) :
    Pcre.digits (s.flatMap patternByte) = (Pcre.digits s).map (·.flatMap patternByte) := by
  cases s with
  | nil => rfl
  | cons c s =>
    rw [List.flatMap_cons]
    rcases patternByte_cases c with ⟨hself, -⟩ | ⟨⟨a, l, hpattern, ha⟩, hdigit, -, -⟩
    · rw [hself, List.singleton_append, Pcre.digits, Pcre.digits, dropWhile_pattern]
      split <;> rfl
    · rw [hpattern, List.cons_append, Pcre.digits, Pcre.digits, hdigit]
      rcases ha with rfl | rfl <;> rfl

theorem head_pattern {b : UInt8} (hb : b = 44 ∨ b = 125) (s : List UInt8) :
    (s.flatMap patternByte).head? = some b ↔ s.head? = some b := by
  cases s with
  | nil => rfl
  | cons c s =>
    rw [List.flatMap_cons]
    rcases patternByte_cases c with ⟨hself, -⟩ | ⟨⟨a, l, hpattern, ha⟩, -, hcomma, hbrace⟩
    · rw [hself, List.singleton_append, List.head?_cons, List.head?_cons]
    · rw [hpattern, List.cons_append, List.head?_cons, List.head?_cons]
      rcases hb with rfl | rfl <;> rcases ha with rfl | rfl <;> simp [hcomma, hbrace]

theorem tail_pattern {s : List UInt8} (hs : s.head? = some 44) :
    (s.flatMap patternByte).tail = s.tail.flatMap patternByte := by
  cases s with
  | nil => rfl
  | cons c s =>
    cases hs
    rfl

/-- The replacements neither make nor break a counted repeat. -/
theorem isCountedRepeat_pattern (s : List UInt8) :
    Pcre.isCountedRepeat (s.flatMap patternByte) = Pcre.isCountedRepeat s := by
  have hbrace : ∀ t : List UInt8, ((t.flatMap patternByte).head? == some 125) =
      (t.head? == some 125) := fun t => by
    rw [Bool.eq_iff_iff, beq_iff_eq, beq_iff_eq, head_pattern (.inr rfl)]
  have hcomma : ∀ t : List UInt8, ((t.flatMap patternByte).head? == some 44) =
      (t.head? == some 44) := fun t => by
    rw [Bool.eq_iff_iff, beq_iff_eq, beq_iff_eq, head_pattern (.inl rfl)]
  rw [Pcre.isCountedRepeat, Pcre.isCountedRepeat, digits_pattern]
  cases Pcre.digits s with
  | none => rfl
  | some t =>
    simp only [Option.map_some, Option.any_some, hbrace, hcomma]
    by_cases ht : t.head? = some 44
    · rw [tail_pattern ht, hbrace, digits_pattern]
      cases Pcre.digits t.tail with
      | none => rfl
      | some u => simp only [Option.map_some, Option.any_some, hbrace]
    · rw [beq_eq_false_iff_ne.mpr ht, Bool.false_and, Bool.false_and]

/-- No text of a token begins like a quantifier in the pattern. -/
theorem head_pattern_ne (s : List UInt8) :
    (s.flatMap patternByte).head? ≠ some 42 ∧ (s.flatMap patternByte).head? ≠ some 43 := by
  cases s with
  | nil => simp
  | cons c s =>
    rw [List.flatMap_cons]
    rcases patternByte_cases c with ⟨hself, -, -, hstar, hplus⟩ | ⟨⟨a, l, hpattern, ha⟩, -, -, -⟩
    · rw [hself, List.singleton_append, List.head?_cons]
      exact ⟨by simpa using hstar, by simpa using hplus⟩
    · rw [hpattern, List.cons_append, List.head?_cons]
      rcases ha with rfl | rfl <;> simp

theorem readItems_dot {fuel : Nat} {p : List UInt8} (h : p.head? ≠ some 42 ∧ p.head? ≠ some 43) :
    Pcre.readItems (fuel + 1) (46 :: p) = (Pcre.readItems fuel p).map (.dot :: ·) := by
  rw [Pcre.readItems, if_pos rfl, if_neg h.1, if_neg h.2]

/-- A character that is left as it is, and is no metacharacter. -/
theorem readItems_char {fuel : Nat} {c : UInt8} {x p : List UInt8} (hx : Pcre.IsCharacter (c :: x))
    (hdot : c ≠ 46) (hbackslash : c ≠ 92) (hmeta : Pcre.metacharacters.contains c = false)
    (hbrace : c = 123 → Pcre.isCountedRepeat (x ++ p) = false) :
    Pcre.readItems (fuel + 1) (c :: x ++ p) = (Pcre.readItems fuel p).map (.char (c :: x) :: ·) := by
  have hlength := Pcre.charLength_append hx p
  rw [List.cons_append] at hlength ⊢
  rw [Pcre.readItems, if_neg hdot, if_neg hbackslash, hlength]
  have hcounted : (c == 123 && Pcre.isCountedRepeat (x ++ p)) = false := by
    by_cases hc : c = 123
    · rw [hbrace hc, Bool.and_false]
    · rw [beq_eq_false_iff_ne.mpr hc, Bool.false_and]
  simp only [hmeta, hcounted, Bool.or_self, Bool.false_eq_true, if_false, ← List.cons_append,
    List.take_left, List.drop_left]

theorem itemOf_of_le {x : List UInt8} (hne : x ≠ []) (hx : ∀ b ∈ x, 0x80 ≤ b) :
    itemOf x = .char x := by
  have hascii : ∀ b, b < 0x80 → x ≠ [b] := by
    rintro b hb rfl
    exact absurd (hx b List.mem_cons_self) (by simpa using hb)
  simp [itemOf, hascii 42 (by decide), hascii 63 (by decide), hascii 43 (by decide)]

theorem leavesMetacharacter_append {x s : List UInt8} (h : leavesMetacharacter (x ++ s) = false) :
    leavesMetacharacter s = false := by
  induction x with
  | nil => exact h
  | cons c x ih =>
    rw [List.cons_append, leavesMetacharacter, Bool.or_eq_false_iff] at h
    exact ih h.2

/-- **One byte of ASCII**, with the pattern of what follows. -/
theorem readItems_ascii {fuel : Nat} {c : UInt8} (hc : c < 0x80) {s : List UInt8}
    (hleaves : leavesMetacharacter (c :: s) = false) :
    Pcre.readItems (fuel + 1) (patternByte c ++ s.flatMap patternByte) =
      (Pcre.readItems fuel (s.flatMap patternByte)).map (itemOf [c] :: ·) := by
  by_cases hplus : c = 43
  · subst hplus
    rfl
  by_cases hstar : c = 42
  · subst hstar
    rfl
  by_cases hquestion : c = 63
  · subst hquestion
    exact readItems_dot (head_pattern_ne s)
  have hitem : itemOf [c] = .char [c] := by simp [itemOf, hplus, hstar, hquestion]
  by_cases hescaped : [92, 46, 91, 93, 94, 36].contains c = true
  · simp only [List.contains_cons, List.contains_nil, Bool.or_false, Bool.or_eq_true,
      beq_iff_eq] at hescaped
    rcases hescaped with rfl | rfl | rfl | rfl | rfl | rfl <;> rfl
  · have hself : patternByte c = [c] := by
      simp only [patternByte, if_neg hplus, if_neg hstar, if_neg hquestion, if_neg hescaped]
    simp only [leavesMetacharacter, Bool.or_eq_false_iff, beq_eq_false_iff_ne, Bool.and_eq_false_iff]
      at hleaves
    obtain ⟨⟨⟨⟨hopen, hclose⟩, hbar⟩, hcounted⟩, -⟩ := hleaves
    simp only [List.contains_cons, List.contains_nil, Bool.or_false, Bool.or_eq_true, beq_iff_eq,
      not_or] at hescaped
    have hmeta : Pcre.metacharacters.contains c = false := by
      simp [metacharacters_eq, hescaped, hopen, hclose, hbar, hquestion, hstar, hplus]
    have hbrace : c = 123 → Pcre.isCountedRepeat ([] ++ s.flatMap patternByte) = false := by
      intro h
      rw [List.nil_append, isCountedRepeat_pattern]
      exact hcounted.resolve_left fun hne => hne h
    rw [hself, hitem]
    exact readItems_char (Pcre.isCharacter_ascii hc) hescaped.2.1 hescaped.1 hmeta hbrace

/-- **The pattern of a token is read as its characters**, by induction on them. -/
theorem readItems_pattern {cs : List (List UInt8)} (hcs : ∀ c ∈ cs, Pcre.IsCharacter c)
    (hleaves : leavesMetacharacter cs.flatten = false) {fuel : Nat}
    (hfuel : (cs.flatten.flatMap patternByte).length < fuel) :
    Pcre.readItems fuel (cs.flatten.flatMap patternByte) = some (cs.map itemOf) := by
  induction cs generalizing fuel with
  | nil =>
    obtain ⟨fuel, rfl⟩ := Nat.exists_eq_succ_of_ne_zero (Nat.ne_of_gt hfuel)
    rfl
  | cons x cs ih =>
    have hx := hcs x List.mem_cons_self
    obtain ⟨fuel, rfl⟩ := Nat.exists_eq_succ_of_ne_zero (Nat.ne_zero_of_lt hfuel)
    rw [List.flatten_cons] at hleaves hfuel ⊢
    rw [List.flatMap_append] at hfuel ⊢
    rw [List.map_cons]
    have hrest := @ih (fun c hc => hcs c (List.mem_cons_of_mem _ hc))
      (leavesMetacharacter_append hleaves) fuel
    rcases hx.ascii_or with ⟨c, rfl, hc⟩ | ⟨hne, hle⟩
    · have hpos : 0 < (patternByte c).length := by
        rcases patternByte_cases c with ⟨hself, -⟩ | ⟨⟨a, l, hpattern, -⟩, -⟩ <;> simp [*]
      rw [List.flatMap_cons, List.flatMap_nil, List.append_nil, List.length_append] at hfuel
      have hhead : leavesMetacharacter (c :: cs.flatten) = false := hleaves
      rw [List.flatMap_cons, List.flatMap_nil, List.append_nil, readItems_ascii hc hhead,
        hrest (by omega), Option.map_some]
    · rw [flatMap_patternByte_of_le hle, List.length_append] at hfuel
      rw [flatMap_patternByte_of_le hle, itemOf_of_le hne hle]
      have hpos := List.length_pos_of_ne_nil hne
      obtain ⟨b, x, rfl⟩ := List.exists_cons_of_ne_nil hne
      have hne := fun d => @ne_of_le_of_lt b d (hle b List.mem_cons_self)
      have hmeta : Pcre.metacharacters.contains b = false := by
        simp [metacharacters_eq, hne 92 (by decide), hne 94 (by decide), hne 36 (by decide),
          hne 46 (by decide), hne 91 (by decide), hne 124 (by decide), hne 40 (by decide),
          hne 41 (by decide), hne 63 (by decide), hne 42 (by decide), hne 43 (by decide)]
      rw [readItems_char hx (hne 46 (by decide)) (hne 92 (by decide)) hmeta
        fun h => absurd h (hne 123 (by decide)), hrest (by omega),
        Option.map_some]

/-! ## 5. Texts that are not UTF-8 -/

theorem valid_of_ascii {s : List UInt8} (hs : ∀ b ∈ s, b < 0x80) : Pcre.Valid s := by
  induction s with
  | nil => exact ⟨[], by simp, rfl⟩
  | cons b s ih =>
    have hb := Pcre.isCharacter_ascii (hs b List.mem_cons_self)
    exact hb.valid.append (ih fun b' hb' => hs b' (List.mem_cons_of_mem _ hb'))

/-- A character that begins with a byte of ASCII is that byte. -/
theorem eq_nil_of_isCharacter {b : UInt8} {x : List UInt8} (h : Pcre.IsCharacter (b :: x))
    (hb : b < 0x80) : x = [] := by
  rcases h.ascii_or with ⟨c, hc, -⟩ | ⟨-, hle⟩
  · simpa using (List.cons.inj hc).2
  · exact absurd (hle b List.mem_cons_self) (by simpa using hb)

/-- ...and one that does not has no byte of ASCII. -/
theorem le_of_isCharacter {b : UInt8} {x : List UInt8} (h : Pcre.IsCharacter (b :: x))
    (hb : 0x80 ≤ b) : ∀ b' ∈ x, 0x80 ≤ b' := by
  rcases h.ascii_or with ⟨c, hc, hlt⟩ | ⟨-, hle⟩
  · obtain ⟨rfl, -⟩ := List.cons.inj hc
    exact absurd hb (by simpa using hlt)
  · exact fun b' hb' => hle b' (List.mem_cons_of_mem _ hb')

theorem valid_of_ascii_append {l s : List UInt8} (hl : ∀ b ∈ l, b < 0x80)
    (h : Pcre.Valid (l ++ s)) : Pcre.Valid s := by
  induction l with
  | nil => exact h
  | cons b l ih =>
    obtain ⟨x, rest, hx, hsplit, hrest⟩ := Pcre.Valid.exists_character h
    rw [eq_nil_of_isCharacter hx (hl b List.mem_cons_self), List.nil_append] at hsplit
    rw [← hsplit] at hrest
    exact ih (fun b' hb' => hl b' (List.mem_cons_of_mem _ hb')) hrest

theorem patternByte_ascii {c : UInt8} (hc : c < 0x80) : ∀ b ∈ patternByte c, b < 0x80 := by
  intro b hb
  rcases mem_patternByte hb with rfl | rfl | rfl | rfl | rfl
  · exact hc
  all_goals decide

/-- The bytes of a character that are not ASCII are bytes of the token. -/
theorem split_pattern {x rest w : List UInt8} (hx : ∀ b ∈ x, 0x80 ≤ b)
    (h : w.flatMap patternByte ++ [36] = x ++ rest) :
    ∃ w', w = x ++ w' ∧ rest = w'.flatMap patternByte ++ [36] := by
  induction x generalizing w with
  | nil => exact ⟨w, rfl, h.symm⟩
  | cons b x ih =>
    have hb := hx b List.mem_cons_self
    cases w with
    | nil =>
      rw [List.flatMap_nil, List.nil_append, List.cons_append, List.cons.injEq] at h
      exact absurd hb (by rw [← h.1]; decide)
    | cons c w =>
      rw [List.flatMap_cons, List.append_assoc, List.cons_append] at h
      by_cases hc : c < 0x80
      · have hascii := patternByte_ascii hc
        rcases patternByte_cases c with ⟨hself, -⟩ | ⟨⟨a, l, hpattern, -⟩, -⟩
        · rw [hself, List.singleton_append, List.cons.injEq] at h
          exact absurd hb (by rw [← h.1]; simpa using hc)
        · rw [hpattern, List.cons_append, List.cons.injEq] at h
          have ha := hascii a (by rw [hpattern]; exact List.mem_cons_self)
          exact absurd hb (by rw [← h.1]; simpa using ha)
      · rw [patternByte_of_le (by simpa using hc), List.singleton_append, List.cons.injEq] at h
        obtain ⟨rfl, h⟩ := h
        obtain ⟨w', rfl, hrest⟩ := ih (fun b' hb' => hx b' (List.mem_cons_of_mem _ hb')) h
        exact ⟨w', rfl, hrest⟩

theorem valid_of_pattern {w : List UInt8} (h : Pcre.Valid (w.flatMap patternByte ++ [36])) :
    Pcre.Valid w := by
  induction hn : w.length using Nat.strong_induction_on generalizing w with
  | _ n ih =>
    cases w with
    | nil => exact ⟨[], by simp, rfl⟩
    | cons c w =>
      rw [List.length_cons] at hn
      rw [List.flatMap_cons, List.append_assoc] at h
      by_cases hc : c < 0x80
      · have hrest := ih w.length (by omega) (valid_of_ascii_append (patternByte_ascii hc) h) rfl
        exact (Pcre.isCharacter_ascii hc).valid.append hrest
      · have hle : 0x80 ≤ c := by simpa using hc
        rw [patternByte_of_le hle, List.singleton_append] at h
        obtain ⟨x, rest, hx, hsplit, hrest⟩ := h.exists_character
        obtain ⟨w', rfl, rfl⟩ := split_pattern (le_of_isCharacter hx hle) hsplit
        rw [List.length_append] at hn
        exact hx.valid.append (ih w'.length (by omega) hrest rfl)

/-- **The pattern is UTF-8 just if the token is.** -/
theorem valid_anchored_iff (w : List UInt8) :
    Pcre.Valid (Pcre.anchored (featureValueToUse w)) ↔ Pcre.Valid w := by
  rw [Pcre.anchored, featureValueToUse_eq]
  constructor
  · intro h
    exact valid_of_pattern (valid_of_ascii_append (l := [94]) (by simp) h)
  · rintro ⟨cs, hcs, rfl⟩
    have hpattern : Pcre.Valid (cs.flatten.flatMap patternByte) := by
      induction cs with
      | nil => exact ⟨[], by simp, rfl⟩
      | cons x cs ih =>
        rw [List.flatten_cons, List.flatMap_append]
        refine Pcre.Valid.append ?_ (ih fun c hc => hcs c (List.mem_cons_of_mem _ hc))
        have hx := hcs x List.mem_cons_self
        rcases hx.ascii_or with ⟨c, rfl, hc⟩ | ⟨-, hle⟩
        · simpa using valid_of_ascii (patternByte_ascii hc)
        · rw [flatMap_patternByte_of_le hle]
          exact hx.valid
    have hbegin : Pcre.Valid [94] := valid_of_ascii (by simp)
    have hend : Pcre.Valid [36] := valid_of_ascii (by simp)
    exact (hbegin.append hpattern).append hend

/-! ## 6. Reading the comparison -/

/-- Both operators are taken before a quote, and an empty text is at its end. -/
theorem scan_settled :
    (([61], "T_KEY_EQUALS") :: [([126], "T_KEY_TILDE")]).all (fun p =>
      MQLScanner.scanRules.all (fun rule => rule.1.settled (p.1 ++ [34])) &&
        Lexer.best MQLScanner.scanRules (p.1 ++ [34]) == some (1, .key p.2)) = true ∧
      MQLScanner.scan [] = some (.eof, []) := by
  decide +kernel

theorem scan_operator {c : UInt8} {id : String}
    (hop : c = 61 ∧ id = "T_KEY_EQUALS" ∨ c = 126 ∧ id = "T_KEY_TILDE") (rest : List UInt8) :
    MQLScanner.scan (c :: 34 :: rest) = some (.key id, 34 :: rest) := by
  have hmem : ([c], id) ∈ ([61], "T_KEY_EQUALS") :: [([126], "T_KEY_TILDE")] := by
    rcases hop with ⟨rfl, rfl⟩ | ⟨rfl, rfl⟩ <;> simp
  have hall := List.all_eq_true.mp scan_settled.1 _ hmem
  rw [Bool.and_eq_true, beq_iff_eq, List.all_eq_true] at hall
  have hbest : Lexer.best MQLScanner.scanRules (c :: 34 :: rest) = some (1, .key id) := by
    have happend := Lexer.best_append rest hall.1
    rwa [hall.2] at happend
  rw [MQLScanner.scan, List.length_cons, MQLScanner.scanFrom, hbest]
  rfl

theorem scan_string (s : List UInt8) :
    MQLScanner.scan (34 :: encodeSTRINGstring s ++ [34]) = some (.string s, []) := by
  have hlen := MQLScanner.length_encodeSTRINGstring s
  exact MQLScanner.scanFrom_encodeSTRINGstring (by simp; omega) []

/-- The name of a feature. -/
def nameOf (feature_name : List UInt8) : Name := feature_name.map fun c => Char.ofNat c.toNat

theorem readComparison_equal {f : List UInt8} (hf : IsFeatureName f) (s : List UInt8) :
    readComparison (f ++ 61 :: (34 :: encodeSTRINGstring s ++ [34])) =
      some ⟨nameOf f, [], .equal, .value (.string s)⟩ := by
  have hname := hf 61 (34 :: encodeSTRINGstring s ++ [34]) (.inl rfl)
  have hop := @scan_operator 61 "T_KEY_EQUALS" (.inl ⟨rfl, rfl⟩) (encodeSTRINGstring s ++ [34])
  rw [readComparison, hname]
  simp only [Option.bind_eq_bind, Option.bind_some, List.cons_append] at hop ⊢
  rw [hop]
  simp only [Option.bind_some]
  rw [← List.cons_append, scan_string]
  simp only [Option.bind_some]
  rw [scan_settled.2]
  rfl

theorem readComparison_tilde {f : List UInt8} (hf : IsFeatureName f) (s : List UInt8) :
    readComparison (f ++ 126 :: (34 :: encodeSTRINGstring s ++ [34])) =
      some ⟨nameOf f, [], .tilde, .value (.string s)⟩ := by
  have hname := hf 126 (34 :: encodeSTRINGstring s ++ [34]) (.inr rfl)
  have hop := @scan_operator 126 "T_KEY_TILDE" (.inr ⟨rfl, rfl⟩) (encodeSTRINGstring s ++ [34])
  rw [readComparison, hname]
  simp only [Option.bind_eq_bind, Option.bind_some, List.cons_append] at hop ⊢
  rw [hop]
  simp only [Option.bind_some]
  rw [← List.cons_append, scan_string]
  simp only [Option.bind_some]
  rw [scan_settled.2]
  rfl

/-- **Without wildcards**, the comparison is equality. -/
theorem isTrueOf_equal {ctx : QueryContext} {f w : List UInt8} (hf : IsFeatureName f)
    (hw : hasWildcard w = false) (s : List UInt8) :
    IsTrueOf ctx (make_string_feature_comparison f w) s ↔ s = w := by
  have htext : make_string_feature_comparison f w = f ++ 61 :: (34 :: encodeSTRINGstring w ++ [34]) := by
    have hopen : bytes "=\"" = [61, 34] := by decide
    have hclose : bytes "\"" = [34] := by decide
    simp [make_string_feature_comparison, hw, hopen, hclose]
  have hcompare : ∀ symbols right, FeatureComparison.compare ctx
      ⟨nameOf f, [], .equal, .value (.string w)⟩ symbols (.string s) right =
        some (decide (s = w)) := fun _ _ => rfl
  rw [IsTrueOf, htext, readComparison_equal hf]
  constructor
  · rintro ⟨c, hc, -, htrue⟩
    obtain rfl := Option.some.inj hc
    have hdecide := htrue ⟨FeatureInfo.make [] [] 0 [], 0, 0, [], .empty⟩ (.int 0)
    rw [hcompare] at hdecide
    simpa using hdecide
  · intro hs
    refine ⟨_, rfl, rfl, fun symbols right => ?_⟩
    rw [hcompare]
    simp [hs]

/-- **With wildcards**, it is the pattern. -/
theorem isTrueOf_tilde {ctx : QueryContext} {f w : List UInt8} (hf : IsFeatureName f)
    (hw : hasWildcard w = true) (s : List UInt8) :
    IsTrueOf ctx (make_string_feature_comparison f w) s ↔
      ctx.pcreCompiles (Pcre.anchored (featureValueToUse w)) = true ∧
        0 < ctx.pcreExec (Pcre.anchored (featureValueToUse w)) s := by
  have htext : make_string_feature_comparison f w =
      f ++ 126 :: (34 :: encodeSTRINGstring (Pcre.anchored (featureValueToUse w)) ++ [34]) := by
    have hopen : bytes "~\"^" = [126, 34, 94] := by decide
    have hclose : bytes "$\"" = [36, 34] := by decide
    have hcaret : encodeSTRINGbyte 94 = [94] := by decide
    have hdollar : encodeSTRINGbyte 36 = [36] := by decide
    simp [make_string_feature_comparison, hw, hopen, hclose, Pcre.anchored, encodeSTRINGstring,
      hcaret, hdollar]
  have hcompare : ∀ symbols right, FeatureComparison.compare ctx
      ⟨nameOf f, [], .tilde, .value (.string (Pcre.anchored (featureValueToUse w)))⟩ symbols
        (.string s) right =
      some (decide (0 < ctx.pcreExec (Pcre.anchored (featureValueToUse w)) s)) := fun _ _ => rfl
  have hweed : FeatureComparison.weed ctx
      ⟨nameOf f, [], .tilde, .value (.string (Pcre.anchored (featureValueToUse w)))⟩ =
        some (ctx.pcreCompiles (Pcre.anchored (featureValueToUse w))) := rfl
  rw [IsTrueOf, htext, readComparison_tilde hf]
  constructor
  · rintro ⟨c, hc, hchecks, htrue⟩
    obtain rfl := Option.some.inj hc
    have hdecide := htrue ⟨FeatureInfo.make [] [] 0 [], 0, 0, [], .empty⟩ (.int 0)
    rw [hcompare] at hdecide
    rw [hweed] at hchecks
    exact ⟨by simpa using hchecks, by simpa using hdecide⟩
  · rintro ⟨hcompiles, hpos⟩
    refine ⟨_, rfl, by rw [hweed, hcompiles], fun symbols right => ?_⟩
    rw [hcompare]
    simp [hpos]

/-! ## 7. What the pattern matches -/

/-- A plus sign in a token with wildcards, which can stand in a line of text. -/
def LosesPlus (w : List UInt8) : Prop :=
  hasWildcard w = true ∧ 43 ∈ w ∧ 10 ∉ w ∧ Pcre.Valid w

theorem fits_iff_glob {cs : List (List UInt8)} (hcs : [43] ∉ cs) (ds : List (List UInt8)) :
    Pcre.Fits (cs.map itemOf) ds ↔ Glob cs ds := by
  induction cs generalizing ds with
  | nil => rfl
  | cons x cs ih =>
    rw [List.mem_cons, not_or] at hcs
    have hrest := fun t => ih hcs.2 t
    by_cases hstar : x = [42]
    · subst hstar
      simp [Glob, itemOf, Pcre.Fits, hrest]
    by_cases hquestion : x = [63]
    · subst hquestion
      simp [Glob, itemOf, Pcre.Fits, hrest]
    · simp [Glob, itemOf, Pcre.Fits, hrest, hstar, hquestion, Ne.symm hcs.1]

theorem mem_of_mem_flatten {cs : List (List UInt8)} (hcs : ∀ c ∈ cs, Pcre.IsCharacter c) {b : UInt8}
    (hb : b < 0x80) : [b] ∈ cs ↔ b ∈ cs.flatten := by
  rw [List.mem_flatten]
  constructor
  · exact fun h => ⟨[b], h, List.mem_cons_self⟩
  · rintro ⟨x, hx, hbx⟩
    rcases (hcs x hx).ascii_or with ⟨c, rfl, -⟩ | ⟨-, hle⟩
    · obtain rfl := List.mem_singleton.mp hbx
      exact hx
    · exact absurd (hle b hbx) (by simpa using hb)

theorem zero_not_mem_pattern {w : List UInt8} (hw : 0 ∉ w) : 0 ∉ featureValueToUse w := by
  rw [featureValueToUse_eq, List.mem_flatMap]
  rintro ⟨c, hc, hzero⟩
  have h : 0 = c := by simpa using mem_patternByte hzero
  exact hw (h ▸ hc)

theorem zero_not_mem_anchored {w : List UInt8} (hw : 0 ∉ w) :
    0 ∉ Pcre.anchored (featureValueToUse w) := by
  simpa [Pcre.anchored] using zero_not_mem_pattern hw

/-- **What the comparison is true of**, for any characters of the token. -/
theorem isTrueOf_iff_fits {ctx : QueryContext} (hdoc : Pcre.Documented ctx) {f : List UInt8}
    (hf : IsFeatureName f) {cs : List (List UInt8)} (hcs : ∀ c ∈ cs, Pcre.IsCharacter c)
    (hnul : 0 ∉ cs.flatten) (hlarge : Pcre.NotTooLarge ctx (featureValueToUse cs.flatten))
    (hw : hasWildcard cs.flatten = true) (hleaves : leavesMetacharacter cs.flatten = false)
    {s : List UInt8} (hs : 10 ∉ s)
    (hfinishes : Pcre.Finishes ctx (featureValueToUse cs.flatten) s) :
    IsTrueOf ctx (make_string_feature_comparison f cs.flatten) s ↔
      Pcre.Matches (cs.map itemOf) s := by
  have hvalid := (valid_anchored_iff cs.flatten).mpr ⟨cs, hcs, rfl⟩
  have hreads : Pcre.Reads (featureValueToUse cs.flatten) (cs.map itemOf) := by
    rw [Pcre.Reads, featureValueToUse_eq]
    exact readItems_pattern hcs hleaves (Nat.lt_succ_self _)
  have hcompiles := hlarge _ hreads hvalid
  rw [isTrueOf_tilde hf hw,
    Pcre.exec_pos_iff hdoc hlarge (zero_not_mem_pattern hnul) hreads hvalid hs hfinishes]
  exact and_iff_right hcompiles

/-- **A token without `+` is matched as what it stands for.** -/
theorem matchesToken_of_not_plus {ctx : QueryContext} (hdoc : Pcre.Documented ctx) {f w : List UInt8}
    (hf : IsFeatureName f) (hnul : 0 ∉ w) (hlarge : Pcre.NotTooLarge ctx (featureValueToUse w))
    (hw : hasWildcard w = true) (hleaves : leavesMetacharacter w = false) (hplus : 43 ∉ w) :
    MatchesToken ctx f w := by
  intro s hs hfinishes
  have hfinishes := hfinishes hw
  rw [StandsFor, if_pos hw]
  constructor
  · intro htrue
    have hcompiles := ((isTrueOf_tilde hf hw s).mp htrue).1
    obtain ⟨cs, hcs, rfl⟩ :=
      (valid_anchored_iff w).mp (hdoc.utf8 _ (zero_not_mem_anchored hnul) hcompiles)
    obtain ⟨ds, hds, hsplit, hfits⟩ :=
      (isTrueOf_iff_fits hdoc hf hcs hnul hlarge hw hleaves hs hfinishes).mp htrue
    have hno : [43] ∉ cs := fun h => hplus ((mem_of_mem_flatten hcs (by decide)).mp h)
    exact ⟨cs, ds, hcs, hds, rfl, hsplit, (fits_iff_glob hno ds).mp hfits⟩
  · rintro ⟨cs, ds, hcs, hds, rfl, hsplit, hglob⟩
    have hno : [43] ∉ cs := fun h => hplus ((mem_of_mem_flatten hcs (by decide)).mp h)
    rw [isTrueOf_iff_fits hdoc hf hcs hnul hlarge hw hleaves hs hfinishes]
    exact ⟨ds, hds, hsplit, (fits_iff_glob hno ds).mpr hglob⟩

/-- A string that the pattern matches: no characters for a `*`, and an `x` for `?` and for `+`. -/
def instanceOf (cs : List (List UInt8)) : List (List UInt8) :=
  cs.flatMap fun x => if x = [42] then [] else if x = [63] ∨ x = [43] then [[120]] else [x]

theorem fits_instanceOf (cs : List (List UInt8)) : Pcre.Fits (cs.map itemOf) (instanceOf cs) := by
  induction cs with
  | nil => rfl
  | cons x cs ih =>
    rw [List.map_cons, instanceOf, List.flatMap_cons]
    by_cases hstar : x = [42]
    · subst hstar
      exact ⟨[], _, rfl, ih⟩
    by_cases hquestion : x = [63]
    · subst hquestion
      exact ⟨_, _, rfl, ih⟩
    by_cases hplus : x = [43]
    · subst hplus
      exact ⟨[[120]], _, by simp, rfl, ih⟩
    · have hitem : itemOf x = .char x := by simp [itemOf, hstar, hquestion, hplus]
      rw [hitem, if_neg hstar, if_neg (by simp [hquestion, hplus])]
      exact ⟨_, rfl, ih⟩

theorem mem_instanceOf {cs : List (List UInt8)} {y : List UInt8} (h : y ∈ instanceOf cs) :
    y = [120] ∨ y ∈ cs ∧ y ≠ [43] := by
  obtain ⟨x, hx, hy⟩ := List.mem_flatMap.mp h
  by_cases hstar : x = [42]
  · simp [hstar] at hy
  · by_cases hone : x = [63] ∨ x = [43]
    · left
      simpa [hstar, hone] using hy
    · right
      have hyx : y = x := by simpa [hstar, hone] using hy
      rw [not_or] at hone
      exact ⟨by rwa [hyx], by rw [hyx]; exact hone.2⟩

theorem shortestText_of_le {x : List UInt8} (hx : ∀ b ∈ x, 0x80 ≤ b) : shortestText x = x := by
  induction x with
  | nil => rfl
  | cons b x ih =>
    have hne := fun d => @ne_of_le_of_lt b d (hx b List.mem_cons_self)
    have hrest := ih fun b' hb' => hx b' (List.mem_cons_of_mem _ hb')
    rw [shortestText, List.flatMap_cons, ← shortestText, hrest, if_neg (hne 42 (by decide)),
      if_neg (not_or.mpr ⟨hne 63 (by decide), hne 43 (by decide)⟩), List.singleton_append]

/-- It is the shortest text, whose bytes are looked at one by one. -/
theorem flatten_instanceOf {cs : List (List UInt8)} (hcs : ∀ c ∈ cs, Pcre.IsCharacter c) :
    (instanceOf cs).flatten = shortestText cs.flatten := by
  induction cs with
  | nil => rfl
  | cons x cs ih =>
    have hrest := ih fun c hc => hcs c (List.mem_cons_of_mem _ hc)
    rw [instanceOf, List.flatMap_cons, List.flatten_append, ← instanceOf, hrest, List.flatten_cons,
      shortestText, shortestText, List.flatMap_append]
    congr 1
    rcases (hcs x List.mem_cons_self).ascii_or with ⟨c, rfl, -⟩ | ⟨-, hle⟩
    · by_cases hstar : c = 42
      · simp [hstar]
      by_cases hone : c = 63 ∨ c = 43
      · simp [hone, hstar]
      · simp [hone, hstar]
    · have hne : ∀ d : UInt8, d < 0x80 → x ≠ [d] := by
        rintro d hd rfl
        exact ne_of_le_of_lt (hle d List.mem_cons_self) hd rfl
      rw [if_neg (hne 42 (by decide)),
        if_neg (not_or.mpr ⟨hne 63 (by decide), hne 43 (by decide)⟩), List.flatten_singleton]
      exact (shortestText_of_le hle).symm

/-- What stands for itself in a token is in each string that the token stands for. -/
theorem mem_of_glob {x : List UInt8} (hstar : x ≠ [42]) (hquestion : x ≠ [63])
    {cs ds : List (List UInt8)} (h : Glob cs ds) (hx : x ∈ cs) : x ∈ ds := by
  induction cs generalizing ds with
  | nil => cases hx
  | cons y cs ih =>
    rw [Glob] at h
    split at h
    · rename_i hy
      obtain ⟨xs, t, rfl, hrest⟩ := h
      have hmem : x ∈ cs := (List.mem_cons.mp hx).resolve_left fun hxy => hstar (hxy.trans hy)
      exact List.mem_append_right xs (ih hrest hmem)
    · split at h
      · rename_i hy
        obtain ⟨z, t, rfl, hrest⟩ := h
        have hmem : x ∈ cs := (List.mem_cons.mp hx).resolve_left fun hxy => hquestion (hxy.trans hy)
        exact List.mem_cons_of_mem z (ih hrest hmem)
      · obtain ⟨t, rfl, hrest⟩ := h
        rcases List.mem_cons.mp hx with rfl | hmem
        · exact List.mem_cons_self
        · exact List.mem_cons_of_mem y (ih hrest hmem)

/-- ...and so is it in each string that the pattern matches. -/
theorem mem_of_fits {x : List UInt8} {items : List Pcre.Item} {ds : List (List UInt8)}
    (h : Pcre.Fits items ds) (hx : .char x ∈ items) : x ∈ ds := by
  induction items generalizing ds with
  | nil => cases hx
  | cons item items ih =>
    cases item with
    | char y =>
      obtain ⟨t, rfl, hrest⟩ := h
      rcases List.mem_cons.mp hx with heq | hmem
      · cases heq
        exact List.mem_cons_self
      · exact List.mem_cons_of_mem y (ih hrest hmem)
    | dot =>
      obtain ⟨y, t, rfl, hrest⟩ := h
      exact List.mem_cons_of_mem y (ih hrest ((List.mem_cons.mp hx).resolve_left (by simp)))
    | dotStar =>
      obtain ⟨xs, t, rfl, hrest⟩ := h
      exact List.mem_append_right xs (ih hrest ((List.mem_cons.mp hx).resolve_left (by simp)))
    | dotPlus =>
      obtain ⟨xs, t, -, rfl, hrest⟩ := h
      exact List.mem_append_right xs (ih hrest ((List.mem_cons.mp hx).resolve_left (by simp)))

/-- A token that is not UTF-8, or has a line break, neither stands for a text of one line nor
matches one. -/
theorem matchesToken_of_not_text {ctx : QueryContext} (hdoc : Pcre.Documented ctx)
    {f w : List UInt8} (hf : IsFeatureName f) (hnul : 0 ∉ w)
    (hlarge : Pcre.NotTooLarge ctx (featureValueToUse w)) (hw : hasWildcard w = true)
    (hleaves : leavesMetacharacter w = false) (htext : Pcre.Valid w → 10 ∈ w) :
    MatchesToken ctx f w := by
  intro s hs hfinishes
  rw [StandsFor, if_pos hw]
  constructor
  · intro htrue
    have hcompiles := ((isTrueOf_tilde hf hw s).mp htrue).1
    have hvalid :=
      (valid_anchored_iff w).mp (hdoc.utf8 _ (zero_not_mem_anchored hnul) hcompiles)
    have hline := htext hvalid
    obtain ⟨cs, hcs, rfl⟩ := hvalid
    obtain ⟨ds, hds, rfl, hfits⟩ :=
      (isTrueOf_iff_fits hdoc hf hcs hnul hlarge hw hleaves hs (hfinishes hw)).mp htrue
    have hmem : [10] ∈ ds := by
      refine mem_of_fits hfits (List.mem_map.mpr ⟨[10], ?_, rfl⟩)
      exact (mem_of_mem_flatten hcs (by decide)).mpr hline
    exact absurd ((mem_of_mem_flatten hds (by decide)).mp hmem) hs
  · rintro ⟨cs, ds, hcs, hds, rfl, rfl, hglob⟩
    have hline := htext ⟨cs, hcs, rfl⟩
    have hmem : [10] ∈ ds :=
      mem_of_glob (by simp) (by simp) hglob ((mem_of_mem_flatten hcs (by decide)).mpr hline)
    exact absurd ((mem_of_mem_flatten hds (by decide)).mp hmem) hs

/-- **A `+` in a token with wildcards does not stand for itself.** -/
theorem not_matchesToken_of_losesPlus {ctx : QueryContext} (hdoc : Pcre.Documented ctx)
    {f w : List UInt8} (hf : IsFeatureName f) (hnul : 0 ∉ w)
    (hlarge : Pcre.NotTooLarge ctx (featureValueToUse w)) (hleaves : leavesMetacharacter w = false)
    (hfinishes : Pcre.Finishes ctx (featureValueToUse w) (shortestText w))
    (hloses : LosesPlus w) : ¬ MatchesToken ctx f w := by
  intro hmatches
  obtain ⟨hw, hplus, hline, cs, hcs, rfl⟩ := hloses
  have hchars : ∀ d ∈ instanceOf cs, Pcre.IsCharacter d := by
    intro d hd
    rcases mem_instanceOf hd with rfl | ⟨hd, -⟩
    · exact Pcre.isCharacter_ascii (by decide)
    · exact hcs d hd
  have hfree : ∀ b, b < 0x80 → b ≠ 120 → ([b] ∈ cs → b = 43) → b ∉ (instanceOf cs).flatten := by
    intro b hb hx honly hmem
    rcases mem_instanceOf ((mem_of_mem_flatten hchars hb).mpr hmem) with heq | ⟨hbcs, hne⟩
    · exact hx (List.singleton_inj.mp heq)
    · exact hne (by rw [honly hbcs])
  have hs : 10 ∉ (instanceOf cs).flatten := hfree 10 (by decide) (by decide) fun h =>
    absurd ((mem_of_mem_flatten hcs (by decide)).mp h) hline
  rw [← flatten_instanceOf hcs] at hfinishes
  have htrue := (isTrueOf_iff_fits hdoc hf hcs hnul hlarge hw hleaves hs hfinishes).mpr
    ⟨instanceOf cs, hchars, rfl, fits_instanceOf cs⟩
  have hstands := (hmatches _ hs fun _ => hfinishes).mp htrue
  rw [StandsFor, if_pos hw] at hstands
  obtain ⟨cs', ds', hcs', hds', hsplit, hsplit', hglob⟩ := hstands
  have hmem : [43] ∈ cs' := by
    rw [mem_of_mem_flatten hcs' (by decide), ← hsplit]
    exact hplus
  have hmem' : [43] ∈ ds' := mem_of_glob (by simp) (by simp) hglob hmem
  rw [mem_of_mem_flatten hds' (by decide), ← hsplit'] at hmem'
  exact hfree 43 (by decide) (by decide) (fun _ => rfl) hmem'

/-- **The comparison is true of just the strings that a token stands for, unless a `+` is lost**: of
tokens without wildcards, and of those that leave no other metacharacter.  That PCRE does not give
up on a text of its own is asked for only where a `+` is lost; all tokens that are matched as they
should be are without it. -/
theorem matchesToken_iff {ctx : QueryContext} (hdoc : Pcre.Documented ctx)
    {feature_name feature_value : List UInt8} (hname : IsFeatureName feature_name)
    (hnul : 0 ∉ feature_value)
    (hlarge : Pcre.NotTooLarge ctx (featureValueToUse feature_value))
    (hfinishes : LosesPlus feature_value →
      Pcre.Finishes ctx (featureValueToUse feature_value) (shortestText feature_value))
    (hleaves : hasWildcard feature_value = true → leavesMetacharacter feature_value = false) :
    MatchesToken ctx feature_name feature_value ↔ ¬ LosesPlus feature_value := by
  cases hw : hasWildcard feature_value with
  | false =>
    refine iff_of_true (fun s hs _ => ?_) fun hloses => ?_
    · rw [isTrueOf_equal hname hw, StandsFor, hw]
      rfl
    · rw [hloses.1] at hw
      cases hw
  | true =>
    constructor
    · exact fun hmatches hloses =>
        not_matchesToken_of_losesPlus hdoc hname hnul hlarge (hleaves hw) (hfinishes hloses) hloses
          hmatches
    · intro hloses
      by_cases hplus : 43 ∈ feature_value
      · refine matchesToken_of_not_text hdoc hname hnul hlarge hw (hleaves hw) fun hvalid => ?_
        by_contra hline
        exact hloses ⟨hw, hplus, hline, hvalid⟩
      · exact matchesToken_of_not_plus hdoc hname hnul hlarge hw (hleaves hw) hplus

open Classical in
/-- PCRE without limits, on the patterns that are read; it matches nothing else. -/
noncomputable def exampleExec (p s : List UInt8) : Int :=
  if ∃ q items, p = Pcre.anchored q ∧ Pcre.Reads q items ∧ Pcre.Matches items s then 1
  else if Pcre.Valid s then -1
  else -10

open Classical in
noncomputable def exampleContext : QueryContext :=
  { FeatureComparison.contextX with
    pcreCompiles := fun p => decide (Pcre.Valid p)
    pcreExec := exampleExec }

theorem anchored_inj {p q : List UInt8} (h : Pcre.anchored p = Pcre.anchored q) : p = q := by
  simpa [Pcre.anchored] using h

theorem documented_exampleContext : Pcre.Documented exampleContext where
  utf8 := by
    intro p _ hp
    simpa [exampleContext] using hp
  badUtf8 := by
    intro p s hs
    change exampleExec p s = -10 at hs
    rw [exampleExec] at hs
    split at hs
    · cases hs
    · split at hs
      · cases hs
      · assumption
  matched := by
    intro p items s _ hreads _ _ hpos
    change 0 < exampleExec (Pcre.anchored p) s at hpos
    rw [exampleExec] at hpos
    split at hpos
    · rename_i hmatch
      obtain ⟨q, items', hq, hreads', hmatches⟩ := hmatch
      rw [← anchored_inj hq, Pcre.Reads, hreads, Option.some.injEq] at hreads'
      rwa [hreads']
    · split at hpos <;> exact absurd hpos (by decide)
  noMatch := by
    intro p items s _ hreads _ _ hno hmatches
    change exampleExec (Pcre.anchored p) s = -1 at hno
    rw [exampleExec, if_pos ⟨p, items, rfl, hreads, hmatches⟩] at hno
    cases hno

theorem notTooLarge_exampleContext (p : List UInt8) : Pcre.NotTooLarge exampleContext p := by
  intro items _ hvalid
  simpa [exampleContext] using hvalid

theorem finishes_exampleContext (p s : List UInt8) : Pcre.Finishes exampleContext p s := by
  change 0 < exampleExec _ s ∨ exampleExec _ s = -1 ∨ exampleExec _ s = -10
  rw [exampleExec]
  split
  · exact .inl (by decide)
  · split
    · exact .inr (.inl rfl)
    · exact .inr (.inr rfl)

theorem isFeatureName_lemma : IsFeatureName (bytes "lemma") := by
  have hbytes : bytes "lemma" = [108, 101, 109, 109, 97] := by decide
  have hall : [61, 126].all (fun c =>
      MQLScanner.scanRules.all (fun rule => rule.1.settled ([108, 101, 109, 109, 97] ++ [c])) &&
        Lexer.best MQLScanner.scanRules ([108, 101, 109, 109, 97] ++ [c]) ==
          some (5, .identifier)) = true := by
    decide +kernel
  rw [hbytes]
  intro c rest hc
  have hmem : c ∈ [61, 126] := by simpa using hc
  have hc := List.all_eq_true.mp hall c hmem
  rw [Bool.and_eq_true, beq_iff_eq, List.all_eq_true] at hc
  have happend := Lexer.best_append rest hc.1
  rw [hc.2, List.append_assoc, List.singleton_append] at happend
  have hcons : [108, 101, 109, 109, 97] ++ c :: rest = 108 :: 101 :: 109 :: 109 :: 97 :: c :: rest :=
    rfl
  rw [hcons] at happend ⊢
  rw [MQLScanner.scan, List.length_cons, MQLScanner.scanFrom, happend]
  rfl

/-- `gr?y*` is matched as it should be. -/
theorem matchesToken_iff_question :
    MatchesToken exampleContext (bytes "lemma") (bytes "gr?y*") ↔ ¬ LosesPlus (bytes "gr?y*") :=
  matchesToken_iff documented_exampleContext isFeatureName_lemma (by decide)
    (notTooLarge_exampleContext _) (fun _ => finishes_exampleContext _ _) fun _ => by decide

/-- `c+*` is not: it matches `cx`. -/
theorem not_matchesToken_plus : ¬ ∀ ctx feature_name feature_value, Pcre.Documented ctx →
    IsFeatureName feature_name → 0 ∉ feature_value →
      Pcre.NotTooLarge ctx (featureValueToUse feature_value) →
        MatchesToken ctx feature_name feature_value := by
  intro hall
  have hbytes : bytes "c+*" = [99, 43, 42] := by decide
  have hvalid : Pcre.Valid (bytes "c+*") := by
    rw [hbytes]
    exact valid_of_ascii (by simp)
  have hloses : LosesPlus (bytes "c+*") := ⟨by decide, by decide, by decide, hvalid⟩
  exact not_matchesToken_of_losesPlus documented_exampleContext isFeatureName_lemma (by decide)
    (notTooLarge_exampleContext _) (by decide) (finishes_exampleContext _ _) hloses
      (hall exampleContext _ _ documented_exampleContext isFeatureName_lemma (by decide)
        (notTooLarge_exampleContext _))

end StringComparison

end Emdros
