/-
# Printing JSON and reading it again

There are two printers, a compact one and one with white space.  The scanner finds in what either
of them writes the tokens of the value (`scans_printCompact`, `scans_pretty`): one lemma for each
piece of text, with any text after it, and then the printers by induction on the value.

The tokens derive the value in the grammar (`derives_tokens`).  That does not yet mean that the
parser reads it: its stack has a hundred entries, and a text that is nested deeper is refused.  How
many entries a value needs above those that are there is a function of the value (`need`), since the
rules of lists and objects build them from their last part and so keep all of what comes before on
the stack; `fits_tokens_iff` says that the run stays within the stack exactly if `need` allows it.

Together they make the round trip: what is printed is read back as the value that it was if and
only if there are entries enough for it (`readsBack_printed_iff`).
-/
import Emdros.EMdF.JsonGrammar

namespace Emdros

open Lexer (best bytes)

namespace JSONScanner

/-! ## 1. Pieces of text -/

section

variable {rest : List UInt8} {T : List Token} {b : Bool}

/-- The texts that always mean the same. -/
def fixedPieces : List (List UInt8 × Action) := [
  (bytes " ", .skip), (bytes "\n", .skip), (bytes "\"", .stringdq), (bytes "[", .key .keyBracketOpen),
  (bytes "]", .key .keyBracketClose), (bytes "\x7b", .key .keyBraceOpen),
  (bytes "\x7d", .key .keyBraceClose), (bytes ",", .key .keyComma), (bytes ":", .key .keyColon),
  (bytes "null", .key .keyNull), (bytes "true", .key .keyTrue), (bytes "false", .key .keyFalse)]

theorem fixes_fixedPieces : ∀ e ∈ fixedPieces, Lexer.fixes scanRules e.1 e.2 = true := by
  decide +kernel

theorem best_fixedPiece {piece : List UInt8} {a : Action} (h : (piece, a) ∈ fixedPieces)
    (rest : List UInt8) : best scanRules (piece ++ rest) = some (piece.length, a) :=
  Lexer.best_of_fixes (fixes_fixedPieces (piece, a) h) rest

/-- A text that is one token. -/
theorem Scans.of_key {piece : List UInt8} {t : Token} (hmem : (piece, .key t) ∈ fixedPieces)
    (h : Scans rest T b) : Scans (piece ++ rest) (t :: T) b := by
  refine .token ?_ h
  have hmatch := best_fixedPiece hmem rest
  cases piece with
  | nil =>
    have hfalse : false = true := fixes_fixedPieces _ hmem
    cases hfalse
  | cons c text =>
    rw [scan, List.cons_append, scanFrom, ← List.cons_append, hmatch]
    simp only [List.drop_left]

/-- White space is skipped. -/
theorem Scans.of_skip {c : UInt8} (hmem : ([c], .skip) ∈ fixedPieces) (h : Scans rest T b) :
    Scans (c :: rest) T b := by
  have hmatch : best scanRules (c :: rest) = some (1, .skip) := best_fixedPiece hmem rest
  have hscan : scan (c :: rest) = scan rest := by
    rw [scan, scanFrom, hmatch]
    rfl
  cases h with
  | eof h => exact .eof (hscan.trans h)
  | stray h => exact .stray (hscan.trans h)
  | unterminated h => exact .unterminated (hscan.trans h)
  | token h hrest => exact .token (hscan.trans h) hrest

theorem scans_space (h : Scans rest T b) : Scans (32 :: rest) T b := .of_skip (by decide) h

theorem scans_newline (h : Scans rest T b) : Scans (bytes "\n" ++ rest) T b :=
  .of_skip (by decide) h

theorem scans_indent (n : Nat) (h : Scans rest T b) : Scans (JSONValue.indent n ++ rest) T b := by
  induction n with
  | zero => exact h
  | succ n ih =>
    rw [JSONValue.indent, List.replicate_succ, List.flatten_cons, List.append_assoc]
    exact scans_space (scans_space (scans_space ih))

theorem scans_lastNewline (n : Nat) (h : Scans rest T b) :
    Scans (JSONValue.lastNewline n ++ rest) T b := by
  rw [JSONValue.lastNewline]
  split
  · exact scans_newline h
  · exact h

theorem scans_bracketOpen (h : Scans rest T b) :
    Scans (bytes "[" ++ rest) (.keyBracketOpen :: T) b :=
  .of_key (by decide) h

theorem scans_bracketClose (h : Scans rest T b) :
    Scans (bytes "]" ++ rest) (.keyBracketClose :: T) b :=
  .of_key (by decide) h

theorem scans_braceOpen (h : Scans rest T b) :
    Scans (bytes "\x7b" ++ rest) (.keyBraceOpen :: T) b :=
  .of_key (by decide) h

theorem scans_braceClose (h : Scans rest T b) :
    Scans (bytes "\x7d" ++ rest) (.keyBraceClose :: T) b :=
  .of_key (by decide) h

theorem scans_comma (h : Scans rest T b) : Scans (bytes "," ++ rest) (.keyComma :: T) b :=
  .of_key (by decide) h

theorem scans_colon (h : Scans rest T b) : Scans (bytes ":" ++ rest) (.keyColon :: T) b :=
  .of_key (by decide) h

/-! ## 2. Strings -/

theorem best_quote (rest : List UInt8) : best scanRules (34 :: rest) = some (1, .stringdq) :=
  @best_fixedPiece (bytes "\"") .stringdq (by decide) rest

theorem fixes_stringdqPieces : (([34], DqAction.close) ::
    escapes.map fun e => (bytes e.1, .push e.2)).all
      (fun p => Lexer.fixes stringdqRules p.1 p.2 && p.1 != []) = true := by
  decide +kernel

theorem best_close (rest : List UInt8) : best stringdqRules (34 :: rest) = some (1, .close) := by
  have hfixes := List.all_eq_true.mp fixes_stringdqPieces _ List.mem_cons_self
  exact Lexer.best_of_fixes (Bool.and_eq_true_iff.mp hfixes).1 rest

/-- One match inside a string, whatever follows it. -/
theorem stringdq_match {x c : UInt8} {xs rest : List UInt8} {action : DqAction}
    (hbest : best stringdqRules (x :: (xs ++ rest)) = some (xs.length + 1, action))
    (hpush : action.pushed (x :: xs) = [c]) (hclose : action ≠ .close) (hzero : action ≠ .zero)
    (fuel : Nat) (str : List UInt8) :
    stringdq (fuel + 1) (x :: xs ++ rest) str = stringdq fuel rest (str ++ [c]) := by
  rw [List.cons_append, stringdq, hbest]
  have htake : (x :: (xs ++ rest)).take (xs.length + 1) = x :: xs := by simp
  have hdrop : (x :: (xs ++ rest)).drop (xs.length + 1) = rest := by simp
  cases action with
  | close => exact absurd rfl hclose
  | zero => exact absurd rfl hzero
  | _ => simp only [htake, hdrop, hpush]

theorem stringdq_escape {e : String × UInt8} (he : e ∈ escapes) (fuel : Nat)
    (rest str : List UInt8) :
    stringdq (fuel + 1) (bytes e.1 ++ rest) str = stringdq fuel rest (str ++ [e.2]) := by
  have hall := List.all_eq_true.mp fixes_stringdqPieces _
    (List.mem_cons_of_mem _ (List.mem_map_of_mem he))
  rw [Bool.and_eq_true, bne_iff_ne] at hall
  have hne : bytes e.1 ≠ [] := hall.2
  have hfix : Lexer.fixes stringdqRules (bytes e.1) (.push e.2) = true := hall.1
  have hbest := Lexer.best_of_fixes hfix rest
  obtain ⟨x, xs, hx⟩ := List.exists_cons_of_ne_nil hne
  rw [hx] at hbest ⊢
  exact stringdq_match hbest rfl (by simp) (by simp) fuel str

/-- A byte that begins no other match stands for itself. -/
theorem best_plain {c : UInt8} (hquote : c ≠ 34) (hbackslash : c ≠ 92) (hzero : c ≠ 0)
    (hline : c ≠ 10) (rest : List UInt8) :
    best stringdqRules (c :: rest) = some (1, .dot) := by
  have hdot : dot.longest (c :: rest) = some 1 := by
    rw [dot, Lexer.longest_cls]
    simp [hzero, hline]
  refine Lexer.best_of_heads (r := dot) (by simp [stringdqRules]) (fun p hp => ?_) hdot
  simp only [stringdqRules, escapes, lineEnds, List.map_cons, List.map_nil, List.mem_append,
    List.mem_cons, List.not_mem_nil, or_false] at hp
  rcases hp with (((rfl | rfl | rfl | rfl | rfl | rfl | rfl | rfl | rfl | rfl) | rfl | rfl | rfl |
    rfl | rfl) | rfl | rfl | rfl | rfl | rfl)
  · exact .inr ⟨(· == 34), rfl, by simp [hquote]⟩
  iterate 14 exact .inr ⟨(· == 92), rfl, by simp [hbackslash]⟩
  · exact .inr ⟨_, rfl, by simp [hbackslash]⟩
  · exact .inr ⟨_, rfl, by simp [hbackslash]⟩
  · exact .inr ⟨_, rfl, by simp [hzero]⟩
  · exact .inl rfl
  · exact .inr ⟨(· == 10), rfl, by simp [hline]⟩

/-- One escaped byte, whatever follows it. -/
theorem stringdq_escapeJSONbyte {c : UInt8} (hc : c ≠ 0) (fuel : Nat) (rest str : List UInt8) :
    stringdq (fuel + 1) (escapeJSONbyte c ++ rest) str = stringdq fuel rest (str ++ [c]) := by
  have hescape : ∀ e ∈ escapes, c = e.2 →
      stringdq (fuel + 1) (bytes e.1 ++ rest) str = stringdq fuel rest (str ++ [c]) := by
    rintro e he rfl
    exact stringdq_escape he fuel rest str
  by_cases hquote : c = 34
  · rw [escapeJSONbyte, if_pos hquote]
    exact hescape ("\\\"", 34) (by decide) hquote
  by_cases hbackslash : c = 92
  · rw [escapeJSONbyte, if_neg hquote, if_pos hbackslash]
    exact hescape ("\\\\", 92) (by decide) hbackslash
  rw [escapeJSONbyte, if_neg hquote, if_neg hbackslash]
  split
  · exact hescape ("\\b", 8) (by decide) ‹_›
  split
  · exact hescape ("\\f", 12) (by decide) ‹_›
  split
  · exact hescape ("\\n", 10) (by decide) ‹_›
  rename_i hline
  split
  · exact hescape ("\\r", 13) (by decide) ‹_›
  split
  · exact hescape ("\\t", 9) (by decide) ‹_›
  exact @stringdq_match c c [] rest .dot (best_plain hquote hbackslash hc hline rest) rfl (by simp)
    (by simp) fuel str

/-- The run over an escaped string, by induction on the bytes that are still to come. -/
theorem stringdq_escapeJSONChars {s : List UInt8} (rest : List UInt8) (h0 : 0 ∉ s) :
    ∀ (fuel : Nat) (str : List UInt8), s.length < fuel →
      stringdq fuel (escapeJSONChars s ++ 34 :: rest) str =
        some (.token (.string (str ++ s)) rest) := by
  induction s with
  | nil =>
    intro fuel str hfuel
    obtain ⟨fuel, rfl⟩ := Nat.exists_eq_succ_of_ne_zero (Nat.ne_of_gt hfuel)
    rw [escapeJSONChars, List.flatMap_nil, List.nil_append, stringdq, best_close, List.append_nil]
    rfl
  | cons c s ih =>
    intro fuel str hfuel
    obtain ⟨fuel, rfl⟩ := Nat.exists_eq_succ_of_ne_zero (Nat.ne_of_gt (Nat.zero_lt_of_lt hfuel))
    have hc : c ≠ 0 := fun h => h0 (h ▸ List.mem_cons_self)
    have hrun := ih (fun h => h0 (List.mem_cons_of_mem c h)) fuel (str ++ [c])
      (Nat.lt_of_succ_lt_succ hfuel)
    rw [escapeJSONChars] at hrun
    rw [escapeJSONChars, List.flatMap_cons, List.append_assoc, stringdq_escapeJSONbyte hc, hrun,
      List.append_assoc, List.singleton_append]

theorem length_escapeJSONChars (s : List UInt8) : s.length ≤ (escapeJSONChars s).length := by
  induction s with
  | nil => exact Nat.le_refl _
  | cons c s ih =>
    have hpos : 0 < (escapeJSONbyte c).length := by
      unfold escapeJSONbyte
      repeat' split
      all_goals first | exact Nat.one_pos | decide
    rw [escapeJSONChars, List.flatMap_cons, List.length_append, List.length_cons]
    rw [escapeJSONChars] at ih
    omega

/-- **Strings are read back**, as any bytes but zero. -/
theorem scans_quoted {s : List UInt8} (h0 : 0 ∉ s) (h : Scans rest T b) :
    Scans (JSONValue.quoted s ++ rest) (.string s :: T) b := by
  refine .token ?_ h
  have hlen := length_escapeJSONChars s
  have htext : JSONValue.quoted s ++ rest = 34 :: (escapeJSONChars s ++ 34 :: rest) := by
    simp [JSONValue.quoted]
  rw [htext, scan, scanFrom, best_quote]
  refine stringdq_escapeJSONChars rest h0 _ [] ?_
  rw [List.length_cons, List.length_append, List.length_cons]
  omega

/-! ## 3. Integers -/

theorem isDigit_of_isDecimal {c : UInt8} (h : IsDecimal c) : isDigit c = true := by
  obtain ⟨d, hd, rfl⟩ := h
  have hall : ∀ d < 10, isDigit (UInt8.ofNat (48 + d)) = true := by decide
  exact hall d hd

/-- The first byte of an integer decides every rule but its own. -/
def startsInteger (c : UInt8) : Bool :=
  (scanRules.take 9).all (fun p => p.1.settled [c] && p.1.longest [c] == none) &&
    (scanRules.drop 10).all fun p =>
      p.1.settled [c] && match p.1.longest [c] with | none => true | some m => m ≤ 1

theorem startsInteger_first :
    startsInteger 45 = true ∧ ∀ d < 10, startsInteger (UInt8.ofNat (48 + d)) = true := by
  decide +kernel

theorem best_integer {c : UInt8} (hc : startsInteger c = true) {xs : List UInt8} {n : Nat}
    (hn : 1 ≤ n) (h : integer.longest (c :: xs) = some n) :
    best scanRules (c :: xs) = some (n, .integer) := by
  have hrules : scanRules = scanRules.take 9 ++ (integer, .integer) :: scanRules.drop 10 := rfl
  rw [hrules]
  exact Lexer.best_of_decides hc hn h

/-- The token of an integer, by the length of its match. -/
theorem scans_token {c : UInt8} {text : List UInt8} {i : Int}
    (h : integer.longest (c :: text ++ rest) = some (text.length + 1))
    (hc : startsInteger c = true) (hi : sz2longlong (c :: text) = i) (hrest : Scans rest T b) :
    Scans (c :: text ++ rest) (.integer i :: T) b := by
  refine .token ?_ hrest
  have hbest : best scanRules (c :: (text ++ rest)) = some (text.length + 1, .integer) :=
    best_integer hc (Nat.le_add_left 1 text.length) h
  have htake : (c :: text ++ rest).take (text.length + 1) = c :: text := List.take_left' rfl
  have hdrop : (c :: text ++ rest).drop (text.length + 1) = rest := List.drop_left' rfl
  rw [List.cons_append] at htake hdrop ⊢
  rw [scan, scanFrom, hbest]
  simp only [htake, hdrop, hi]

/-- A text that may stand after an integer. -/
def Delimited (rest : List UInt8) : Prop := ∀ x ∈ rest.head?, isDigit x = false

/-- Digits, as many as the rule takes. -/
theorem longest_digits (hrest : Delimited rest) {ds : List UInt8} (hne : ds ≠ [])
    (hlen : ds.length ≤ 10) (hds : ∀ c ∈ ds, IsDecimal c) :
    (Lexer.upTo (.cls isDigit) 9).longest (ds ++ rest) = some ds.length :=
  Lexer.longest_upTo_of_ne_nil isDigit hrest hne hlen fun c hc => isDigit_of_isDecimal (hds c hc)

theorem deriv_integer {c : UInt8} (hc : c ≠ 45) :
    integer.deriv c = (Lexer.upTo (.cls isDigit) 9).deriv c := by
  have hminus : (Lexer.oneOf [45]).deriv c = .empty := by
    simp [Lexer.oneOf, Lexer.Regex.deriv, hc]
  rw [integer, Lexer.Regex.deriv]
  simp only [Lexer.Regex.deriv, Lexer.Regex.nullable, hminus, Lexer.Regex.altOf,
    Lexer.Regex.seqOf, Bool.or_true, if_true]

theorem deriv_integer_minus : integer.deriv 45 = Lexer.upTo (.cls isDigit) 9 := rfl

/-- The rule takes a minus sign, if there is one, and the digits. -/
theorem longest_integer (hrest : Delimited rest) {ds : List UInt8} (hne : ds ≠ [])
    (hlen : ds.length ≤ 10) (hds : ∀ c ∈ ds, IsDecimal c) :
    integer.longest (ds ++ rest) = some ds.length ∧
      integer.longest (45 :: ds ++ rest) = some (ds.length + 1) := by
  have hdigits := longest_digits hrest hne hlen hds
  constructor
  · cases ds with
    | nil => exact absurd rfl hne
    | cons c ds =>
      obtain ⟨d, hd, hc⟩ := hds c List.mem_cons_self
      have hminus : ∀ d < 10, UInt8.ofNat (48 + d) ≠ 45 := by decide
      have hc45 : c ≠ 45 := hc ▸ hminus d hd
      rw [List.cons_append, Lexer.Regex.longest] at hdigits ⊢
      rw [deriv_integer hc45]
      exact hdigits
  · rw [List.cons_append, Lexer.Regex.longest, deriv_integer_minus, hdigits]
    rfl

/-- **Integers of at most ten digits are read back.** -/
theorem scans_integer {i : Int} (hi : i.natAbs < 10 ^ 10) (hrest : Delimited rest)
    (h : Scans rest T b) : Scans (longlong2string i ++ rest) (.integer i :: T) b := by
  obtain ⟨ds, hloop, hne, hlen, hds, hread⟩ :=
    longlong2szLoop_digits (n := 9) (v := i) [] (by decide : 9 < 29) hi
  have hvalue : sz2longlongDigits 0 ds = i.natAbs := by
    have hread' := hread 0 []
    rw [List.append_nil, Int.zero_mul, Int.zero_add] at hread'
    exact hread'
  obtain ⟨hplus, hminus⟩ := longest_integer hrest hne hlen hds
  rw [List.append_nil] at hloop
  rw [longlong2string, hloop]
  by_cases hneg : i < 0
  · rw [if_pos hneg]
    refine scans_token hminus startsInteger_first.1 ?_ h
    rw [sz2longlong, if_pos rfl, hvalue]
    omega
  · rw [if_neg hneg]
    cases ds with
    | nil => exact absurd rfl hne
    | cons c ds =>
      obtain ⟨d, hd, rfl⟩ := hds c List.mem_cons_self
      have hsign : ∀ d < 10, UInt8.ofNat (48 + d) ≠ 45 ∧ UInt8.ofNat (48 + d) ≠ 43 := by decide
      refine scans_token hplus (startsInteger_first.2 d hd) ?_ h
      rw [sz2longlong, if_neg (hsign d hd).1, if_neg (hsign d hd).2, hvalue]
      omega

end

end JSONScanner

namespace JSONValue

open JSONScanner

/-! ## 4. The tokens of a value -/

mutual

/-- The tokens that both printers write. -/
def tokens : JSONValue → List Token
  | null => [.keyNull]
  | boolean true => [.keyTrue]
  | boolean false => [.keyFalse]
  | integer i => [.integer i]
  | string s => [.string s]
  | list [] => [.keyBracketOpen, .keyBracketClose]
  | list (v :: rest) => .keyBracketOpen :: (tokens v ++ (tokensElements rest ++ [.keyBracketClose]))
  | object [] => [.keyBraceOpen, .keyBraceClose]
  | object ((k, v) :: rest) =>
    .keyBraceOpen :: .string k :: .keyColon ::
      (tokens v ++ (tokensMembers rest ++ [.keyBraceClose]))

def tokensElements : List JSONValue → List Token
  | [] => []
  | v :: rest => .keyComma :: (tokens v ++ tokensElements rest)

def tokensMembers : List (List UInt8 × JSONValue) → List Token
  | [] => []
  | (k, v) :: rest => .keyComma :: .string k :: .keyColon :: (tokens v ++ tokensMembers rest)

end

section

variable {rest : List UInt8} {T : List Token} {b : Bool}

theorem scans_leaf {v : JSONValue} (hv : v.WellFormed) (hrest : Delimited rest)
    (h : Scans rest T b) (hleaf : (∀ l, v ≠ list l) ∧ ∀ o, v ≠ object o) :
    Scans (printLeaf v ++ rest) (tokens v ++ T) b := by
  cases v with
  | null => exact .of_key (by decide) h
  | boolean x =>
    cases x with
    | true => exact .of_key (by decide) h
    | false => exact .of_key (by decide) h
  | integer i => exact scans_integer hv hrest h
  | string s => exact scans_quoted hv h
  | list l => exact absurd rfl (hleaf.1 l)
  | object o => exact absurd rfl (hleaf.2 o)

theorem delimited_cons {c : UInt8} (hc : isDigit c = false) (rest : List UInt8) :
    Delimited (c :: rest) := by
  intro x hx
  cases hx
  exact hc

theorem delimited_elements (l : List JSONValue) (hrest : Delimited rest) :
    Delimited (printCompactElements l ++ rest) := by
  cases l with
  | nil => exact hrest
  | cons v l => exact delimited_cons (by decide) _

theorem delimited_members (o : List (List UInt8 × JSONValue)) (hrest : Delimited rest) :
    Delimited (printCompactMembers o ++ rest) := by
  cases o with
  | nil => exact hrest
  | cons e o => exact delimited_cons (by decide) _

end

mutual

/-- **The compact printer writes the tokens of the value**, by induction on the tree. -/
theorem scans_printCompact {rest : List UInt8} {T : List Token} {b : Bool} : ∀ v : JSONValue,
    v.WellFormed → Delimited rest → Scans rest T b →
      Scans (printCompact v ++ rest) (tokens v ++ T) b
  | null, hv, hrest, h => scans_leaf hv hrest h ⟨nofun, nofun⟩
  | boolean x, hv, hrest, h => scans_leaf hv hrest h ⟨nofun, nofun⟩
  | integer i, hv, hrest, h => scans_leaf hv hrest h ⟨nofun, nofun⟩
  | string s, hv, hrest, h => scans_leaf hv hrest h ⟨nofun, nofun⟩
  | list [], _, _, h => scans_bracketOpen (scans_bracketClose h)
  | list (v :: l), hv, _, h => by
    have hclosed : Delimited (bytes "]" ++ rest) := delimited_cons (by decide) rest
    have helements := scans_printCompactElements l hv.2 hclosed (scans_bracketClose h)
    have hvalue := scans_printCompact v hv.1 (delimited_elements l hclosed) helements
    rw [printCompact, tokens]
    simp only [List.append_assoc, List.cons_append]
    exact scans_bracketOpen hvalue
  | object [], _, _, h => scans_braceOpen (scans_braceClose h)
  | object ((k, v) :: o), hv, _, h => by
    have hclosed : Delimited (bytes "\x7d" ++ rest) := delimited_cons (by decide) rest
    have hmembers := scans_printCompactMembers o hv.2.2.2 hclosed (scans_braceClose h)
    have hvalue := scans_printCompact v hv.2.2.1 (delimited_members o hclosed) hmembers
    rw [printCompact, tokens]
    simp only [List.append_assoc, List.cons_append]
    exact scans_braceOpen (scans_quoted hv.2.1 (scans_colon hvalue))

theorem scans_printCompactElements {rest : List UInt8} {T : List Token} {b : Bool} :
    ∀ l : List JSONValue, WellFormedElements l → Delimited rest → Scans rest T b →
      Scans (printCompactElements l ++ rest) (tokensElements l ++ T) b
  | [], _, _, h => h
  | v :: l, hv, hrest, h => by
    have helements := scans_printCompactElements l hv.2 hrest h
    have hvalue := scans_printCompact v hv.1 (delimited_elements l hrest) helements
    rw [printCompactElements, tokensElements]
    simp only [List.append_assoc, List.cons_append]
    exact scans_comma hvalue

theorem scans_printCompactMembers {rest : List UInt8} {T : List Token} {b : Bool} :
    ∀ o : List (List UInt8 × JSONValue), WellFormedMembers o → Delimited rest → Scans rest T b →
      Scans (printCompactMembers o ++ rest) (tokensMembers o ++ T) b
  | [], _, _, h => h
  | (k, v) :: o, hv, hrest, h => by
    have hmembers := scans_printCompactMembers o hv.2.2 hrest h
    have hvalue := scans_printCompact v hv.2.1 (delimited_members o hrest) hmembers
    rw [printCompactMembers, tokensMembers]
    simp only [List.append_assoc, List.cons_append]
    exact scans_comma (scans_quoted hv.1 (scans_colon hvalue))

end

theorem delimited_lastNewline (n : Nat) {rest : List UInt8} (hrest : Delimited rest) :
    Delimited (lastNewline n ++ rest) := by
  rw [lastNewline]
  split
  · exact delimited_cons (by decide) rest
  · exact hrest

theorem delimited_prettyElements (n : Nat) (l : List JSONValue) {rest : List UInt8}
    (hrest : Delimited rest) : Delimited (prettyElements n l ++ rest) := by
  cases l with
  | nil => exact hrest
  | cons v l => exact delimited_cons (by decide) _

theorem delimited_prettyMembers (n : Nat) (o : List (List UInt8 × JSONValue)) {rest : List UInt8}
    (hrest : Delimited rest) : Delimited (prettyMembers n o ++ rest) := by
  cases o with
  | nil => exact hrest
  | cons e o => exact delimited_cons (by decide) _

theorem scans_prettyLeaf {rest : List UInt8} {T : List Token} {b : Bool} (n : Nat) {v : JSONValue}
    (hv : v.WellFormed) (hrest : Delimited rest) (h : Scans rest T b)
    (hleaf : (∀ l, v ≠ list l) ∧ ∀ o, v ≠ object o) :
    Scans (printLeaf v ++ lastNewline n ++ rest) (tokens v ++ T) b := by
  rw [List.append_assoc]
  exact scans_leaf hv (delimited_lastNewline n hrest) (scans_lastNewline n h) hleaf

mutual

/-- **The other printer writes the same tokens**, with white space between them. -/
theorem scans_pretty {rest : List UInt8} {T : List Token} {b : Bool} :
    ∀ (n : Nat) (v : JSONValue), v.WellFormed → Delimited rest → Scans rest T b →
      Scans (pretty n v ++ rest) (tokens v ++ T) b
  | n, null, hv, hrest, h => scans_prettyLeaf n hv hrest h ⟨nofun, nofun⟩
  | n, boolean x, hv, hrest, h => scans_prettyLeaf n hv hrest h ⟨nofun, nofun⟩
  | n, integer i, hv, hrest, h => scans_prettyLeaf n hv hrest h ⟨nofun, nofun⟩
  | n, string s, hv, hrest, h => scans_prettyLeaf n hv hrest h ⟨nofun, nofun⟩
  | n, list [], _, _, h => by
    have hclose := scans_bracketClose (scans_lastNewline n h)
    rw [pretty, tokens]
    simp only [List.append_assoc, List.cons_append]
    exact scans_bracketOpen (scans_newline (scans_newline (scans_indent n hclose)))
  | n, list (v :: l), hv, _, h => by
    have hclose := scans_newline (scans_indent n (scans_bracketClose (scans_lastNewline n h)))
    have hclosed : Delimited (bytes "\n" ++ (indent n ++ (bytes "]" ++ (lastNewline n ++ rest)))) :=
      delimited_cons (by decide) _
    have helements := scans_prettyElements n l hv.2 hclosed hclose
    have hvalue := scans_pretty (n + 1) v hv.1 (delimited_prettyElements n l hclosed) helements
    rw [pretty, tokens]
    simp only [List.append_assoc, List.cons_append]
    exact scans_bracketOpen (scans_newline (scans_indent (n + 1) hvalue))
  | n, object [], _, _, h => by
    have hclose := scans_braceClose (scans_lastNewline n h)
    rw [pretty, tokens]
    simp only [List.append_assoc, List.cons_append]
    exact scans_braceOpen (scans_newline (scans_newline (scans_indent n hclose)))
  | n, object ((k, v) :: o), hv, _, h => by
    have hclose := scans_newline (scans_indent n (scans_braceClose (scans_lastNewline n h)))
    have hclosed : Delimited
        (bytes "\n" ++ (indent n ++ (bytes "\x7d" ++ (lastNewline n ++ rest)))) :=
      delimited_cons (by decide) _
    have hmembers := scans_prettyMembers n o hv.2.2.2 hclosed hclose
    have hvalue := scans_pretty (n + 1) v hv.2.2.1 (delimited_prettyMembers n o hclosed) hmembers
    rw [pretty, tokens]
    simp only [List.append_assoc, List.cons_append]
    exact scans_braceOpen (scans_newline (scans_indent (n + 1)
      (scans_quoted hv.2.1 (scans_space (scans_colon (scans_space hvalue))))))

theorem scans_prettyElements {rest : List UInt8} {T : List Token} {b : Bool} :
    ∀ (n : Nat) (l : List JSONValue), WellFormedElements l → Delimited rest → Scans rest T b →
      Scans (prettyElements n l ++ rest) (tokensElements l ++ T) b
  | _, [], _, _, h => h
  | n, v :: l, hv, hrest, h => by
    have helements := scans_prettyElements n l hv.2 hrest h
    have hvalue := scans_pretty (n + 1) v hv.1 (delimited_prettyElements n l hrest) helements
    rw [prettyElements, tokensElements]
    simp only [List.append_assoc, List.cons_append]
    exact scans_comma (scans_newline (scans_indent (n + 1) hvalue))

theorem scans_prettyMembers {rest : List UInt8} {T : List Token} {b : Bool} :
    ∀ (n : Nat) (o : List (List UInt8 × JSONValue)), WellFormedMembers o → Delimited rest →
      Scans rest T b → Scans (prettyMembers n o ++ rest) (tokensMembers o ++ T) b
  | _, [], _, _, h => h
  | n, (k, v) :: o, hv, hrest, h => by
    have hmembers := scans_prettyMembers n o hv.2.2 hrest h
    have hvalue := scans_pretty (n + 2) v hv.2.1 (delimited_prettyMembers n o hrest) hmembers
    rw [prettyMembers, tokensMembers]
    simp only [List.append_assoc, List.cons_append]
    exact scans_comma (scans_newline (scans_indent (n + 1)
      (scans_quoted hv.1 (scans_space (scans_colon (scans_space hvalue))))))

end

/-! ## 5. The value of the tokens -/

open JSONParser

mutual

/-- **The tokens of a value derive it**; lists and objects are built from their last part. -/
theorem derives_tokens : ∀ v : JSONValue, v.WellFormed → Derives .json_value (tokens v) (.value v)
  | null, _ => .json_value_null .json_null
  | boolean true, _ => .json_value_boolean .json_boolean_true
  | boolean false, _ => .json_value_boolean .json_boolean_false
  | integer i, _ => .json_value_integer .json_integer
  | string s, _ => .json_value_string .json_string
  | list [], _ => .json_value_list .json_list_empty
  | list (v :: l), hv => by
    have hfirst := Derives.json_value_list_first (derives_tokens v hv.1)
    have hlist := Derives.json_list (derives_tokensElements l hv.2 hfirst) .opt_comma_empty
    rw [← List.reverse_cons, ofListElements_reverse] at hlist
    simp only [List.append_nil, List.append_assoc] at hlist
    exact .json_value_list hlist
  | object [], _ => .json_value_object .json_object_empty
  | object ((k, v) :: o), hv => by
    have hpair := Derives.json_key_value_list_element (s := k) (derives_tokens v hv.2.2.1)
    have hobject := Derives.json_object
      (derives_tokensMembers o hv.2.2.2 (.json_key_value_list_first hpair)) .opt_comma_empty
    rw [← List.reverse_cons, ofKeyValuePairs_reverse hv.1] at hobject
    simp only [List.append_nil, List.append_assoc, List.cons_append] at hobject
    exact .json_value_object hobject

theorem derives_tokensElements {L : List Token} {l₀ : List JSONValue} : ∀ l : List JSONValue,
    WellFormedElements l → Derives .json_value_list L (.elements l₀) →
      Derives .json_value_list (L ++ tokensElements l) (.elements (l.reverse ++ l₀))
  | [], _, h => by
    rw [tokensElements, List.append_nil]
    exact h
  | v :: l, hv, h => by
    have hnext := Derives.json_value_list_next h (derives_tokens v hv.1)
    have hlist := derives_tokensElements l hv.2 hnext
    rw [tokensElements]
    simpa using hlist

theorem derives_tokensMembers {L : List Token} {o₀ : List (List UInt8 × JSONValue)} :
    ∀ o : List (List UInt8 × JSONValue), WellFormedMembers o →
      Derives .json_key_value_list L (.pairs o₀) →
        Derives .json_key_value_list (L ++ tokensMembers o) (.pairs (o.reverse ++ o₀))
  | [], _, h => by
    rw [tokensMembers, List.append_nil]
    exact h
  | (k, v) :: o, hv, h => by
    have hpair := Derives.json_key_value_list_element (s := k) (derives_tokens v hv.2.1)
    have hobject := derives_tokensMembers o hv.2.2 (.json_key_value_list_next h hpair)
    rw [tokensMembers]
    simpa using hobject

end

/-! ## 6. The entries that a value needs -/

mutual

/-- The entries of the parser's stack that it takes to read a value: after the first of its parts a
list keeps three entries below the next, and an object five. -/
def need : JSONValue → Nat
  | list [] => 2
  | list (v :: rest) => max 4 (max (1 + need v) (needElements rest))
  | object [] => 2
  | object ((_, v) :: rest) => max 4 (max (3 + need v) (needMembers rest))
  | _ => 1

def needElements : List JSONValue → Nat
  | [] => 0
  | v :: rest => max (3 + need v) (needElements rest)

def needMembers : List (List UInt8 × JSONValue) → Nat
  | [] => 0
  | (_, v) :: rest => max (5 + need v) (needMembers rest)

end

end JSONValue

namespace JSONParser

open JSONScanner (Token)

/-- The entries that the stack needs for the tokens, up to the first error. -/
def crest (fs : List Frame) : List Token → Nat
  | [] => 0
  | t :: T =>
    max (peak fs t) (match read fs t with | some fs' => crest fs' T | none => 0)

theorem overflow_eq_none_iff {fs : List Frame} {T : List Token} :
    overflow fs T = none ↔ crest fs T ≤ limit := by
  induction T generalizing fs with
  | nil => exact ⟨fun _ => Nat.zero_le _, fun _ => rfl⟩
  | cons t T ih =>
    rw [overflow, crest, Nat.max_le]
    by_cases hover : limit < peak fs t
    · rw [if_pos hover]
      constructor
      · intro h
        cases h
      · exact fun h => absurd h.1 (Nat.not_le.mpr hover)
    · rw [if_neg hover]
      cases read fs t with
      | some fs' => exact ih.trans ⟨fun h => ⟨Nat.not_lt.mp hover, h⟩, And.right⟩
      | none => exact ⟨fun _ => ⟨Nat.not_lt.mp hover, Nat.zero_le _⟩, fun _ => rfl⟩

theorem crest_cons {fs fs' : List Frame} {t : Token} (h : Reads fs t fs') (T : List Token) :
    crest fs (t :: T) = max (peak fs t) (crest fs' T) := by
  rw [crest, h.read]

theorem crest_append {fs fs' : List Frame} {T : List Token} (h : run fs T = some fs')
    (T' : List Token) : crest fs (T ++ T') = max (crest fs T) (crest fs' T') := by
  induction T generalizing fs with
  | nil =>
    cases h
    exact (Nat.zero_max _).symm
  | cons t T ih =>
    rw [run] at h
    rw [List.cons_append, crest, crest]
    cases hread : read fs t with
    | some fs₁ =>
      rw [hread] at h
      simp only [ih h, Nat.max_assoc]
    | none =>
      rw [hread] at h
      cases h

/-- Where a value is expected, what begins one takes one entry more. -/
theorem peak_begin {fs fs' : List Frame} {t : Token} (h : expects fs)
    (hbegin : begin fs t = some fs') : peak fs t = height fs + 1 := by
  have hread := read_of_begin h hbegin
  cases fs with
  | nil =>
    rw [peak, hread]
    · rfl
    all_goals nofun
  | cons f fs =>
    cases f with
    | listOpen | listComma | keyColon =>
      rw [peak, hread]
      · rfl
      all_goals nofun
    | _ => exact h.elim

theorem run_tokens (fs : List Frame) {v : JSONValue} (hv : v.WellFormed) (hexp : expects fs) :
    run fs v.tokens = some (plug v fs) := (JSONValue.derives_tokens v hv).completes fs hexp

theorem crest_leaf {fs : List Frame} {t : Token} {v : JSONValue} (hexp : expects fs)
    (hleaf : leaf t = some v) (hbegin : begin fs t = some (plug v fs)) :
    crest fs [t] = height fs + 1 := by
  rw [crest_cons (.leaf hexp hleaf), peak_begin hexp hbegin]
  exact Nat.max_zero _

mutual

/-- **The stack that a value needs**, above what is there, by induction on the tree. -/
theorem crest_tokens (fs : List Frame) (hexp : expects fs) : ∀ v : JSONValue, v.WellFormed →
    crest fs v.tokens = height fs + v.need
  | .null, _ => crest_leaf hexp rfl rfl
  | .boolean true, _ => crest_leaf hexp rfl rfl
  | .boolean false, _ => crest_leaf hexp rfl rfl
  | .integer i, _ => crest_leaf hexp rfl rfl
  | .string s, _ => crest_leaf hexp rfl rfl
  | .list [], _ => by
    have hclose : crest (.listOpen :: fs) [.keyBracketClose] = 1 + height fs + 1 :=
      Nat.max_zero _
    rw [JSONValue.tokens, JSONValue.need, crest_cons (.listOpen hexp), peak_begin hexp rfl, hclose]
    omega
  | .list (v :: l), hv => by
    have hvalue := crest_tokens (.listOpen :: fs) trivial v hv.1
    have hrest := crest_tokensElements fs [v] l hv.2
    rw [JSONValue.tokens, JSONValue.need, crest_cons (.listOpen hexp), peak_begin hexp rfl,
      crest_append (run_tokens (.listOpen :: fs) hv.1 trivial), hvalue, plug, hrest, height,
      Frame.height]
    omega
  | .object [], _ => by
    have hclose : crest (.objectOpen :: fs) [.keyBraceClose] = 1 + height fs + 1 :=
      Nat.max_zero _
    rw [JSONValue.tokens, JSONValue.need, crest_cons (.objectOpen hexp), peak_begin hexp rfl, hclose]
    omega
  | .object ((k, v) :: o), hv => by
    have hvalue := crest_tokens (.keyColon none k :: fs) trivial v hv.2.2.1
    have hrest := crest_tokensMembers fs [(k, v)] o hv.2.2.2
    have hkey : peak (.objectOpen :: fs) (.string k) = 1 + height fs + 1 := rfl
    have hcolon : peak (.key none k :: fs) .keyColon = 2 + height fs + 1 := rfl
    rw [JSONValue.tokens, JSONValue.need, crest_cons (.objectOpen hexp), peak_begin hexp rfl,
      crest_cons (.key rfl), crest_cons .keyColon, hkey, hcolon,
      crest_append (run_tokens (.keyColon none k :: fs) hv.2.2.1 trivial), hvalue, plug,
      hrest, height, Frame.height]
    omega

theorem crest_tokensElements (fs : List Frame) (l₀ : List JSONValue) : ∀ l : List JSONValue,
    JSONValue.WellFormedElements l →
      crest (.listElements l₀ :: fs) (JSONValue.tokensElements l ++ [.keyBracketClose]) =
        height fs + max 4 (JSONValue.needElements l)
  | [], _ => by
    have hclose : crest (.listElements l₀ :: fs) [.keyBracketClose] = 2 + height fs + 2 :=
      Nat.max_zero _
    rw [JSONValue.tokensElements, JSONValue.needElements, List.nil_append, hclose]
    omega
  | v :: l, hv => by
    have hvalue := crest_tokens (.listComma l₀ :: fs) trivial v hv.1
    have hrest := crest_tokensElements fs (v :: l₀) l hv.2
    have hcomma : peak (.listElements l₀ :: fs) .keyComma = 2 + height fs + 1 := rfl
    rw [JSONValue.tokensElements, JSONValue.needElements, List.cons_append, List.append_assoc,
      crest_cons .listComma, hcomma,
      crest_append (run_tokens (.listComma l₀ :: fs) hv.1 trivial), hvalue, plug, hrest,
      height, Frame.height]
    omega

theorem crest_tokensMembers (fs : List Frame) (o₀ : List (List UInt8 × JSONValue)) :
    ∀ o : List (List UInt8 × JSONValue), JSONValue.WellFormedMembers o →
      crest (.objectPairs o₀ :: fs) (JSONValue.tokensMembers o ++ [.keyBraceClose]) =
        height fs + max 4 (JSONValue.needMembers o)
  | [], _ => by
    have hclose : crest (.objectPairs o₀ :: fs) [.keyBraceClose] = 2 + height fs + 2 :=
      Nat.max_zero _
    rw [JSONValue.tokensMembers, JSONValue.needMembers, List.nil_append, hclose]
    omega
  | (k, v) :: o, hv => by
    have hvalue := crest_tokens (.keyColon (some o₀) k :: fs) trivial v hv.2.1
    have hrest := crest_tokensMembers fs ((k, v) :: o₀) o hv.2.2
    have hcomma : peak (.objectPairs o₀ :: fs) .keyComma = 2 + height fs + 1 := rfl
    have hkey : peak (.objectComma o₀ :: fs) (.string k) = 3 + height fs + 1 := rfl
    have hcolon : peak (.key (some o₀) k :: fs) .keyColon = 4 + height fs + 1 := rfl
    rw [JSONValue.tokensMembers, JSONValue.needMembers, List.cons_append, List.cons_append,
      List.cons_append, List.append_assoc, crest_cons .objectComma, crest_cons (.key rfl),
      crest_cons .keyColon, hcomma, hkey, hcolon,
      crest_append (run_tokens (.keyColon (some o₀) k :: fs) hv.2.1 trivial), hvalue, plug,
      hrest, height, Frame.height]
    omega

end

/-- **A value fits on the stack** of a hundred entries if it needs no more than all but the first. -/
theorem fits_tokens_iff {v : JSONValue} (hv : v.WellFormed) : Fits v.tokens ↔ v.need ≤ limit := by
  rw [Fits, overflow_eq_none_iff, crest_tokens [] trivial v hv, height, Nat.zero_add]

end JSONParser

namespace JSONValue

open JSONParser JSONScanner

/-! ## 7. The round trip -/

/-- The reader gives the value back. -/
def ReadsBack (v : JSONValue) (text : List UInt8) : Prop :=
  ∃ message, readAndParseJSONFromString text [] = some (some v, message)

/-- A text with the tokens of a value is read back as the value if and only if they fit. -/
theorem readsBack_iff {v : JSONValue} (hv : v.WellFormed) {text : List UInt8}
    (h : Scans text v.tokens true) : ReadsBack v text ↔ v.need ≤ limit := by
  obtain ⟨message, hread⟩ := readAndParse_reads h []
  have hderives := Derives.top_value (derives_tokens v hv)
  rw [← fits_tokens_iff hv, ReadsBack]
  constructor
  · rintro ⟨message', hv'⟩
    by_cases hfits : Fits v.tokens
    · exact hfits
    · rw [hread, readAll_none_of_overflow hderives hfits] at hv'
      cases hv'
  · intro hfits
    rw [hread, (readAll_fits_iff hfits).mpr hderives]
    exact ⟨message, rfl⟩

theorem delimited_nil : Delimited [] := nofun

theorem scans_nil : Scans [] [] true := .eof rfl

theorem readsBack_printCompact_iff {v : JSONValue} (hv : v.WellFormed) :
    ReadsBack v (printCompact v) ↔ v.need ≤ limit := by
  have hscans := scans_printCompact v hv delimited_nil scans_nil
  rw [List.append_nil, List.append_nil] at hscans
  exact readsBack_iff hv hscans

theorem readsBack_pretty_iff {v : JSONValue} (hv : v.WellFormed) :
    ReadsBack v (pretty 0 v) ↔ v.need ≤ limit := by
  have hscans := scans_pretty 0 v hv delimited_nil scans_nil
  rw [List.append_nil, List.append_nil] at hscans
  exact readsBack_iff hv hscans

/-- **JSON that is printed is read back** as the value it was, from either form, if and only if the
value needs no more entries than the stack of the parser has. -/
theorem readsBack_printed_iff (v : JSONValue) (hv : v.WellFormed) :
    (ReadsBack v (printCompact v) ∧ ReadsBack v (pretty 0 v)) ↔ v.need ≤ limit := by
  rw [readsBack_printCompact_iff hv, readsBack_pretty_iff hv, and_self]

/-- A value with everything in it that has to be escaped. -/
theorem readsBack_printed_escapes :
    let v := list [integer (-1234567890),
      object [([], null), (bytes "\"\\\n", boolean true)], string [9, 10, 13, 39, 92, 255]]
    ReadsBack v (printCompact v) ∧ ReadsBack v (pretty 0 v) :=
  (readsBack_printed_iff _ (by decide +kernel)).mpr (by decide +kernel)

/-- Lists inside each other. -/
def nested : Nat → JSONValue
  | 0 => list []
  | n + 1 => list [nested n]

/-- Ninety-eight lists do not come back. -/
theorem not_readsBack_nested :
    (nested 97).WellFormed ∧ ¬ReadsBack (nested 97) (printCompact (nested 97)) := by
  have hv : (nested 97).WellFormed := by decide +kernel
  refine ⟨hv, ?_⟩
  rw [readsBack_printCompact_iff hv]
  decide +kernel

end JSONValue

end Emdros
