/-
# The MQL scanner (`mql.re`)

`MQLScanner::scan` returns one token.  It has three states, each a list of rules: the start of a
token, and the inside of a string in double or in single quotes.  The states are loops over the
rest of the text, from `tok` on; `cur` is what is left after a match.

`scan_encodeSTRINGstring` is the round trip of string literals.
-/
import Emdros.EMdF.StringFunc

namespace Emdros

namespace MQLScanner

open Lexer (Regex best bytes caseless oneOf literal sequence upTo plus)

/-! ## 1. Rules -/

/-- What `scan` returns, with the value it leaves in `yylval`.  `eof` is 0; a keyword or a sign is
known by the name of its token. -/
inductive Token where
  | eof
  | key (id : String)
  | identifier (name : List UInt8)
  | mark (name : List UInt8)
  | integer (value : Int)
  | string (value : List UInt8)
  | char (c : UInt8)
  deriving DecidableEq, Repr

/-- The keywords and signs, in the order of the rules. -/
def keywords : List (String × String) := [
  ("create", "T_KEY_CREATE"), ("update", "T_KEY_UPDATE"),
  ("unorderedgroup", "T_KEY_UNORDERED_GROUP"), ("select", "T_KEY_SELECT"), ("drop", "T_KEY_DROP"),
  ("get", "T_KEY_GET"), ("insert", "T_KEY_INSERT"), ("delete", "T_KEY_DELETE"),
  ("database", "T_KEY_DATABASE"), ("use", "T_KEY_USE"), ("initialize", "T_KEY_INITIALIZE"),
  ("vacuum", "T_KEY_VACUUM"), ("analyze", "T_KEY_ANALYZE"), ("begin", "T_KEY_BEGIN"),
  ("commit", "T_KEY_COMMIT"), ("abort", "T_KEY_ABORT"), ("transaction", "T_KEY_TRANSACTION"),
  ("type", "T_KEY_TYPE"), ("types", "T_KEY_TYPES"), ("object", "T_KEY_OBJECT"),
  ("objects", "T_KEY_OBJECTS"), ("list", "T_KEY_LIST"), ("of", "T_KEY_OF"), ("in", "T_KEY_IN"),
  ("indexes", "T_KEY_INDEXES"), ("index", "T_KEY_INDEX"), ("integer", "T_KEY_INTEGER"),
  ("string", "T_KEY_STRING"), ("ascii", "T_KEY_ASCII"), ("id_d", "T_KEY_ID_D"),
  ("id_ds", "T_KEY_ID_DS"), ("default", "T_KEY_DEFAULT"), ("computed", "T_KEY_COMPUTED"),
  ("add", "T_KEY_ADD"), ("remove", "T_KEY_REMOVE"), ("from", "T_KEY_FROM"), ("by", "T_KEY_BY"),
  ("enum", "T_KEY_ENUM"), ("enumeration", "T_KEY_ENUMERATION"),
  ("enumerations", "T_KEY_ENUMERATIONS"), ("constants", "T_KEY_CONSTANTS"),
  ("segment", "T_KEY_SEGMENT"), ("range", "T_KEY_RANGE"), ("single", "T_KEY_SINGLE"),
  ("multiple", "T_KEY_MULTIPLE"), ("focus", "T_KEY_FOCUS"), ("all", "T_KEY_ALL"),
  ("has", "T_KEY_HAS"), ("where", "T_KEY_WHERE"), ("having", "T_KEY_HAVING"),
  ("feature", "T_KEY_FEATURE"), ("features", "T_KEY_FEATURES"), ("aggregate", "T_KEY_AGGREGATE"),
  ("universe", "T_KEY_UNIVERSE"), ("substrate", "T_KEY_SUBSTRATE"), ("monads", "T_KEY_MONADS"),
  ("monad", "T_KEY_MONAD"), ("unique", "T_KEY_UNIQUE"), ("using", "T_KEY_USING"),
  ("with", "T_KEY_WITH"), ("without", "T_KEY_WITHOUT"), ("key", "T_KEY_KEY"),
  ("noretrieve", "T_KEY_NORETRIEVE"), ("retrieve", "T_KEY_RETRIEVE"), ("first", "T_KEY_FIRST"),
  ("last", "T_KEY_LAST"), ("or", "T_KEY_OR"), ("and", "T_KEY_AND"), ("not", "T_KEY_NOT"),
  ("exists", "T_KEY_EXISTS"), ("if", "T_KEY_IF"), ("notexist", "T_KEY_NOTEXIST"),
  ("notexists", "T_KEY_NOTEXISTS"), ("gap", "T_KEY_GAP"), ("gap?", "T_KEY_OPT_GAP"),
  ("..", "T_KEY_POWER"), ("between", "T_KEY_BETWEEN"), ("as", "T_KEY_AS"), ("nil", "T_KEY_NIL"),
  ("go", "T_KEY_GO"), ("returning", "T_KEY_RETURNING"), ("calculation", "T_KEY_CALCULATION"),
  ("min_m", "T_KEY_MIN_M"), ("max_m", "T_KEY_MAX_M"), ("min", "T_KEY_MIN"), ("max", "T_KEY_MAX"),
  ("sum", "T_KEY_SUM"), ("count", "T_KEY_COUNT"), ("flat", "T_KEY_FLAT"), ("full", "T_KEY_FULL"),
  ("on", "T_KEY_ON"), ("sheaf", "T_KEY_SHEAF"), ("at", "T_KEY_AT"), ("quit", "T_KEY_QUIT"),
  ("set", "T_KEY_SET"), ("sets", "T_KEY_SETS"), ("union", "T_KEY_UNION"),
  ("overlap", "T_KEY_OVERLAP"), ("part_of", "T_KEY_PART_OF"), ("starts_in", "T_KEY_STARTS_IN"),
  ("intersect", "T_KEY_INTERSECT"), ("difference", "T_KEY_DIFFERENCE"),
  ("replace", "T_KEY_REPLACE"), ("encoding", "T_KEY_ENCODING"), ("=", "T_KEY_EQUALS"),
  ("<", "T_KEY_LESS_THAN"), (">", "T_KEY_GREATER_THAN"), ("<>", "T_KEY_NOT_EQUAL"),
  ("<=", "T_KEY_LESS_THAN_OR_EQUAL"), ("=<", "T_KEY_LESS_THAN_OR_EQUAL"),
  (">=", "T_KEY_GREATER_THAN_OR_EQUAL"), ("=>", "T_KEY_GREATER_THAN_OR_EQUAL"),
  ("~", "T_KEY_TILDE"), ("!~", "T_KEY_NOT_TILDE"), ("[", "T_KEY_OPEN_SQUARE_BRACKET"),
  ("]", "T_KEY_CLOSE_SQUARE_BRACKET"), ("\x7b", "T_KEY_OPEN_BRACE"), ("\x7d", "T_KEY_CLOSE_BRACE"),
  ("(", "T_KEY_OPEN_BRACKET"), (")", "T_KEY_CLOSE_BRACKET"), (":=", "T_KEY_ASSIGN"),
  (":", "T_KEY_COLON"), (";", "T_KEY_SEMICOLON"), (",", "T_KEY_COMMA"), (".", "T_KEY_DOT"),
  ("*", "T_KEY_STAR"), ("-", "T_KEY_DASH"), ("!", "T_KEY_EXCLAMATION")]

/-- The actions of the first state. -/
inductive Action where
  | key (id : String)
  | identifier
  | mark
  | integer
  | stringdq
  | stringsq
  | skip
  | zero
  | dot
  deriving DecidableEq, Repr

/-- `[\001-\377]` without the newline. -/
def dot : Regex UInt8 := .cls fun c => c != 0 && c != 10

def zero : Regex UInt8 := oneOf [0]

def isLetter (c : UInt8) : Bool := (97 ≤ c && c ≤ 122) || (65 ≤ c && c ≤ 90) || c == 95

def isDigit (c : UInt8) : Bool := 48 ≤ c && c ≤ 57

def isHex (c : UInt8) : Bool := isDigit c || (97 ≤ c && c ≤ 102) || (65 ≤ c && c ≤ 70)

/-- `[a-zA-Z_][a-zA-Z0-9_]*`. -/
def identifier : Regex UInt8 :=
  .seq (.cls isLetter) (.star (.cls fun c => isLetter c || isDigit c))

/-- A keyword in letters of either case, or a sign. -/
def keyword (text : String) : Regex UInt8 := sequence ((bytes text).map caseless)

/-- The rules at the start of a token. -/
def scanRules : List (Regex UInt8 × Action) :=
  keywords.map (fun k => (keyword k.1, .key k.2)) ++ [
  (identifier, .identifier),
  (plus (.seq (oneOf [96]) identifier), .mark),
  (upTo (.cls isDigit) 9, .integer),
  (literal (bytes "\""), .stringdq),
  (literal (bytes "'"), .stringsq),
  (literal (bytes " "), .skip),
  (literal (bytes "\t"), .skip),
  (literal (bytes "\r"), .skip),
  (literal (bytes "\n"), .skip),
  (zero, .zero),
  (dot, .dot)]

/-- The actions inside a string in double quotes. -/
inductive DqAction where
  | close
  | push (c : UInt8)
  | octal
  | hex
  | zero
  | dot
  deriving DecidableEq, Repr

/-- The escapes that stand for one character. -/
def escapes : List (String × UInt8) := [
  ("\\n", 10), ("\\t", 9), ("\\v", 11), ("\\b", 8), ("\\a", 7), ("\\r", 13), ("\\f", 12),
  ("\\\\", 92), ("\\?", 63), ("\\'", 39), ("\\\"", 34)]

/-- The rules inside a string in double quotes. -/
def stringdqRules : List (Regex UInt8 × DqAction) :=
  (literal (bytes "\""), .close) ::
  escapes.map (fun e => (literal (bytes e.1), .push e.2)) ++ [
  (sequence [oneOf [92], .cls fun c => 48 ≤ c && c ≤ 51, .cls fun c => 48 ≤ c && c ≤ 55,
    .cls fun c => 48 ≤ c && c ≤ 55], .octal),
  (sequence [oneOf [92], oneOf [120], .cls isHex, .cls isHex], .hex),
  (zero, .zero),
  (dot, .dot),
  (literal (bytes "\n"), .push 10)]

/-- The byte that an action pushes, for the text it has matched. -/
def DqAction.pushed : DqAction → List UInt8 → Option UInt8
  | push c, _ => some c
  | octal, tok => some (octal2char (tok.drop 1))
  | hex, tok => some (hex2char (tok.getD 2 0) (tok.getD 3 0))
  | dot, tok => some (tok.getD 0 0)
  | close, _ => none
  | zero, _ => none

/-- The actions inside a string in single quotes. -/
inductive SqAction where
  | close
  | push
  | zero
  deriving DecidableEq, Repr

/-- The rules inside a string in single quotes. -/
def stringsqRules : List (Regex UInt8 × SqAction) := [
  (literal (bytes "'"), .close),
  (zero, .zero),
  (literal (bytes "\n"), .push),
  (.cls fun c => c != 0 && c != 10 && c != 39, .push)]

/-! ## 2. States -/

/-- The state `stringdq`.  At the end of the text, which is a zero byte that is not part of it, or
at a zero byte that is its last, the scanner returns 0; at any other zero byte control falls out of
the action, and the source does not say where it goes on. -/
def stringdq : Nat → List UInt8 → List UInt8 → Option (Token × List UInt8)
  | 0, _, _ => none
  | _ + 1, [], _ => some (.eof, [])
  | fuel + 1, c :: rest, str =>
    match best stringdqRules (c :: rest) with
    | none => none
    | some (n, action) =>
      let cur := (c :: rest).drop n
      match action with
      | .close => some (.string str, cur)
      | .zero => if cur = [] then some (.eof, []) else none
      | action =>
        match action.pushed ((c :: rest).take n) with
        | none => none
        | some x => stringdq fuel cur (str ++ [x])

/-- The state `stringsq`. -/
def stringsq : Nat → List UInt8 → List UInt8 → Option (Token × List UInt8)
  | 0, _, _ => none
  | _ + 1, [], _ => some (.eof, [])
  | fuel + 1, c :: rest, str =>
    match best stringsqRules (c :: rest) with
    | none => none
    | some (n, action) =>
      let cur := (c :: rest).drop n
      match action with
      | .close => some (.string str, cur)
      | .zero => if cur = [] then some (.eof, []) else none
      | .push => stringsq fuel cur (str ++ [c])

/-- The state at the start of a token. -/
def scanFrom : Nat → List UInt8 → Option (Token × List UInt8)
  | 0, _ => none
  | _ + 1, [] => some (.eof, [])
  | fuel + 1, c :: rest =>
    match best scanRules (c :: rest) with
    | none => none
    | some (n, action) =>
      let tok := (c :: rest).take n
      let cur := (c :: rest).drop n
      match action with
      | .key id => some (.key id, cur)
      | .identifier => some (.identifier tok, cur)
      | .mark => some (.mark tok, cur)
      | .integer => some (.integer (sz2longlong tok), cur)
      | .stringdq => stringdq fuel cur []
      | .stringsq => stringsq fuel cur []
      | .skip => scanFrom fuel cur
      | .zero => if cur = [] then some (.eof, []) else none
      | .dot => some (.char c, cur)

/-- `MQLScanner::scan`: the next token of a text, and the text after it.  Each match takes at least
a byte, so there are no more of them than the fuel allows. -/
def scan (text : List UInt8) : Option (Token × List UInt8) := scanFrom (text.length + 1) text

/-! ## 3. String literals -/

/-- A quote in front of any text opens a string: no other rule begins with one. -/
theorem best_quote (rest : List UInt8) : best scanRules (34 :: rest) = some (1, .stringdq) := by
  have hfixes : Lexer.fixes scanRules [34] .stringdq = true := by decide +kernel
  exact Lexer.best_of_fixes hfixes rest

/-- The pieces of a string that are one match, with what the match does. -/
def stringdqPieces : List (List UInt8 × DqAction) :=
  ([34], .close) :: ([10], .push 10) :: escapes.map fun e => (bytes e.1, .push e.2)

theorem fixes_stringdqPieces :
    stringdqPieces.all (fun p => Lexer.fixes stringdqRules p.1 p.2 && p.1 != []) = true ∧
      Lexer.decidesAfter (stringdqRules.take 13) (stringdqRules.drop 14) [92, 120] = true := by
  decide +kernel

/-- A piece is taken whole, whatever follows it. -/
theorem best_stringdqPiece {p : List UInt8 × DqAction} (hp : p ∈ stringdqPieces)
    (rest : List UInt8) :
    p.1 ≠ [] ∧ best stringdqRules (p.1 ++ rest) = some (p.1.length, p.2) := by
  have hall := List.all_eq_true.mp fixes_stringdqPieces.1 p hp
  rw [Bool.and_eq_true, bne_iff_ne] at hall
  exact ⟨hall.2, Lexer.best_of_fixes hall.1 rest⟩

theorem best_close (rest : List UInt8) : best stringdqRules (34 :: rest) = some (1, .close) :=
  (@best_stringdqPiece ([34], .close) (by simp [stringdqPieces]) rest).2

/-- **One match inside a string**, whatever follows it. -/
theorem stringdq_match {x c : UInt8} {xs rest : List UInt8} {action : DqAction}
    (hbest : best stringdqRules (x :: (xs ++ rest)) = some (xs.length + 1, action))
    (hpush : action.pushed (x :: xs) = some c) (hclose : action ≠ .close) (hzero : action ≠ .zero)
    (fuel : Nat) (str : List UInt8) :
    stringdq (fuel + 1) (x :: xs ++ rest) str = stringdq fuel rest (str ++ [c]) := by
  rw [List.cons_append, stringdq, hbest]
  have htake : (x :: (xs ++ rest)).take (xs.length + 1) = x :: xs := by simp
  have hdrop : (x :: (xs ++ rest)).drop (xs.length + 1) = rest := by simp
  cases action with
  | close => exact absurd rfl hclose
  | zero => exact absurd rfl hzero
  | _ => simp only [htake, hdrop, hpush]

/-- The escape of a character. -/
theorem stringdq_escape {e : String × UInt8} (he : e ∈ escapes) (fuel : Nat)
    (rest str : List UInt8) :
    stringdq (fuel + 1) (bytes e.1 ++ rest) str = stringdq fuel rest (str ++ [e.2]) := by
  have hpiece : (bytes e.1, DqAction.push e.2) ∈ stringdqPieces :=
    List.mem_cons_of_mem _ (List.mem_cons_of_mem _ (List.mem_map_of_mem he))
  obtain ⟨hne, hbest⟩ : bytes e.1 ≠ [] ∧
      best stringdqRules (bytes e.1 ++ rest) = some ((bytes e.1).length, .push e.2) :=
    best_stringdqPiece hpiece rest
  obtain ⟨x, xs, hx⟩ := List.exists_cons_of_ne_nil hne
  rw [hx] at hbest ⊢
  exact stringdq_match hbest rfl (by simp) (by simp) fuel str

theorem best_hex {a b : UInt8} (ha : isHex a = true) (hb : isHex b = true) (rest : List UInt8) :
    best stringdqRules (92 :: 120 :: a :: b :: rest) = some (4, .hex) := by
  have hpiece := fixes_stringdqPieces.2
  refine @Lexer.best_of_classes _ _ stringdqRules _ _ .hex [((fun x : UInt8 => [92].contains x), 92),
    ((fun x => [120].contains x), 120), (isHex, a), (isHex, b)] [92, 120] [a, b] rfl hpiece rfl ?_
    rest
  intro p hp
  simp only [List.mem_cons, List.not_mem_nil, or_false] at hp
  rcases hp with rfl | rfl | rfl | rfl
  · rfl
  · rfl
  · exact ha
  · exact hb

/-- A byte that begins no other match stands for itself. -/
theorem best_plain {c : UInt8} (hquote : c ≠ 34) (hbackslash : c ≠ 92) (hzero : c ≠ 0)
    (hline : c ≠ 10) (rest : List UInt8) :
    best stringdqRules (c :: rest) = some (1, .dot) := by
  have hdot : dot.longest (c :: rest) = some 1 := by
    rw [dot, Lexer.longest_cls]
    simp [hzero, hline]
  refine Lexer.best_of_heads (r := dot) (by simp [stringdqRules]) (fun p hp => ?_) hdot
  simp only [stringdqRules, escapes, List.map_cons, List.map_nil, List.mem_append, List.mem_cons,
    List.not_mem_nil, or_false] at hp
  rcases hp with (rfl | rfl | rfl | rfl | rfl | rfl | rfl | rfl | rfl | rfl | rfl | rfl) |
    rfl | rfl | rfl | rfl | rfl
  · exact .inr ⟨(· == 34), rfl, by simp [hquote]⟩
  iterate 11 exact .inr ⟨(· == 92), rfl, by simp [hbackslash]⟩
  · exact .inr ⟨_, rfl, by simp [hbackslash]⟩
  · exact .inr ⟨_, rfl, by simp [hbackslash]⟩
  · exact .inr ⟨_, rfl, by simp [hzero]⟩
  · exact .inl rfl
  · exact .inr ⟨(· == 10), rfl, by simp [hline]⟩

theorem stringdq_plain {c : UInt8} (hquote : c ≠ 34) (hbackslash : c ≠ 92) (hzero : c ≠ 0)
    (fuel : Nat) (rest str : List UInt8) :
    stringdq (fuel + 1) (c :: rest) str = stringdq fuel rest (str ++ [c]) := by
  by_cases hline : c = 10
  · have hbest := (@best_stringdqPiece ([10], .push 10) (by simp [stringdqPieces]) rest).2
    rw [hline]
    exact @stringdq_match 10 10 [] rest _ hbest rfl (by simp) (by simp) fuel str
  · exact @stringdq_match c c [] rest .dot (best_plain hquote hbackslash hzero hline rest) rfl
      (by simp) (by simp) fuel str

theorem lowerHex_spec (c : UInt8) : isHex (lowerHex (c &&& 15)) = true ∧
    hex2char (lowerHex (c >>> 4 &&& 15)) (lowerHex (c &&& 15)) = c := by
  have hall : ∀ n < 256, isHex (lowerHex (UInt8.ofNat n &&& 15)) = true ∧
      hex2char (lowerHex (UInt8.ofNat n >>> 4 &&& 15)) (lowerHex (UInt8.ofNat n &&& 15))
        = UInt8.ofNat n := by
    decide +kernel
  have h := hall c.toNat c.toNat_lt
  rwa [UInt8.ofNat_toNat] at h

theorem isHex_lowerHex (d : UInt8) : isHex (lowerHex (d &&& 15)) = true := (lowerHex_spec d).1

theorem hex2char_char2hex (c : UInt8) :
    hex2char (lowerHex (c >>> 4 &&& 15)) (lowerHex (c &&& 15)) = c :=
  (lowerHex_spec c).2

/-- **One encoded byte**, whatever follows it: one match of the scanner, which pushes it. -/
theorem stringdq_encodeSTRINGbyte (c : UInt8) (fuel : Nat) (rest str : List UInt8) :
    stringdq (fuel + 1) (encodeSTRINGbyte c ++ rest) str = stringdq fuel rest (str ++ [c]) := by
  rw [encodeSTRINGbyte]
  split
  · have hpush : DqAction.hex.pushed
        (92 :: 120 :: [lowerHex (c >>> 4 &&& 15), lowerHex (c &&& 15)]) = some c :=
      congrArg some (hex2char_char2hex c)
    exact stringdq_match (best_hex (isHex_lowerHex _) (isHex_lowerHex _) rest) hpush (by simp)
      (by simp) fuel str
  · rename_i hascii
    split
    · rename_i h
      rw [h]
      exact stringdq_escape (e := ("\\\\", 92)) (by decide) fuel rest str
    · rename_i hbackslash
      split
      · rename_i h
        rw [h]
        exact stringdq_escape (e := ("\\\"", 34)) (by decide) fuel rest str
      · rename_i hquote
        have hzero : c ≠ 0 := by
          rintro rfl
          exact hascii (.inl (by decide))
        exact stringdq_plain hquote hbackslash hzero fuel rest str

/-- The run over an encoded string, by induction on the bytes that are still to come. -/
theorem stringdq_encodeSTRINGstring (s rest : List UInt8) : ∀ (fuel : Nat) (str : List UInt8),
    s.length < fuel →
      stringdq fuel (encodeSTRINGstring s ++ 34 :: rest) str = some (.string (str ++ s), rest) := by
  induction s with
  | nil =>
    intro fuel str hfuel
    cases fuel with
    | zero => exact absurd hfuel (Nat.not_lt_zero _)
    | succ fuel =>
      rw [encodeSTRINGstring, List.flatMap_nil, List.nil_append, stringdq, best_close,
        List.append_nil]
      rfl
  | cons c s ih =>
    intro fuel str hfuel
    cases fuel with
    | zero => exact absurd hfuel (Nat.not_lt_zero _)
    | succ fuel =>
      rw [encodeSTRINGstring, List.flatMap_cons, List.append_assoc, stringdq_encodeSTRINGbyte]
      have hrun := ih fuel (str ++ [c]) (Nat.lt_of_succ_lt_succ hfuel)
      rw [encodeSTRINGstring] at hrun
      rw [hrun, List.append_assoc, List.singleton_append]

theorem length_encodeSTRINGstring (s : List UInt8) : s.length ≤ (encodeSTRINGstring s).length := by
  induction s with
  | nil => exact Nat.le_refl _
  | cons c s ih =>
    have hpos : 0 < (encodeSTRINGbyte c).length := by
      unfold encodeSTRINGbyte
      split
      · simp [char2hex]
      · split
        · decide
        · split
          · decide
          · exact Nat.one_pos
    rw [encodeSTRINGstring, List.flatMap_cons, List.length_append, List.length_cons]
    rw [encodeSTRINGstring] at ih
    omega

/-- An encoded string between double quotes, with fuel for each of its bytes. -/
theorem scanFrom_encodeSTRINGstring {fuel : Nat} {s : List UInt8} (hfuel : s.length < fuel)
    (t : List UInt8) :
    scanFrom (fuel + 1) (34 :: encodeSTRINGstring s ++ 34 :: t) = some (.string s, t) := by
  rw [List.cons_append, scanFrom, best_quote]
  exact stringdq_encodeSTRINGstring s t fuel [] hfuel

/-- **MQL string literals round-trip.**  Any bytes, encoded and put between double quotes, are
scanned as the string that they were, and the cursor is left at what follows the literal. -/
theorem scan_encodeSTRINGstring (s t : List UInt8) :
    scan (34 :: encodeSTRINGstring s ++ 34 :: t) = some (.string s, t) := by
  have hlen := length_encodeSTRINGstring s
  exact scanFrom_encodeSTRINGstring (by simp; omega) t

/-! ## 4. Integers -/

theorem isDigit_of_isDecimal {c : UInt8} (h : IsDecimal c) : isDigit c = true := by
  obtain ⟨d, hd, rfl⟩ := h
  have hall : ∀ d < 10, isDigit (UInt8.ofNat (48 + d)) = true := by decide
  exact hall d hd

/-- The rules before and after that of an integer. -/
def rulesBeforeInteger : List (Regex UInt8 × Action) :=
  keywords.map (fun k => (keyword k.1, .key k.2)) ++
    [(identifier, .identifier), (plus (.seq (oneOf [96]) identifier), .mark)]

def rulesAfterInteger : List (Regex UInt8 × Action) := [
  (literal (bytes "\""), .stringdq),
  (literal (bytes "'"), .stringsq),
  (literal (bytes " "), .skip),
  (literal (bytes "\t"), .skip),
  (literal (bytes "\r"), .skip),
  (literal (bytes "\n"), .skip),
  (zero, .zero),
  (dot, .dot)]

theorem scanRules_integer : scanRules
    = rulesBeforeInteger ++ (upTo (.cls isDigit) 9, .integer) :: rulesAfterInteger := by
  rw [rulesBeforeInteger, List.append_assoc]
  rfl

theorem decides_digit : ∀ d < 10,
    Lexer.decides rulesBeforeInteger rulesAfterInteger (UInt8.ofNat (48 + d)) = true := by
  decide +kernel

/-- **A token of one to ten digits** has the value that is written. -/
theorem scan_integer {text rest : List UInt8} (hne : text ≠ []) (hlen : text.length ≤ 10)
    (htext : ∀ c ∈ text, IsDecimal c) (hrest : ∀ c ∈ rest.head?, isDigit c = false) :
    scan (text ++ rest) = some (.integer (Radix.horner 10 0 (decimalDigits text)), rest) := by
  have hlongest : (upTo (.cls isDigit) 9).longest (text ++ rest) = some text.length :=
    Lexer.longest_upTo_of_ne_nil isDigit hrest hne hlen fun c hc => isDigit_of_isDecimal (htext c hc)
  cases text with
  | nil => exact absurd rfl hne
  | cons c text =>
    obtain ⟨d, hd, hc⟩ := htext c List.mem_cons_self
    have hdecides := decides_digit d hd
    rw [← hc] at hdecides
    have hbest : best scanRules (c :: (text ++ rest)) = some ((c :: text).length, .integer) := by
      rw [scanRules_integer]
      exact Lexer.best_of_decides hdecides (Nat.le_add_left 1 text.length) hlongest
    rw [scan, List.cons_append, scanFrom, hbest]
    simp only [← List.cons_append, List.take_left, List.drop_left, sz2longlong_decimal htext]

end MQLScanner

end Emdros
