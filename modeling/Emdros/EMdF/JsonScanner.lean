/-
# The JSON scanner (`json.re`)

`JSONScanner::scan` has two states, the start of a token and the inside of a string, each a list of
rules of which the longest match is taken.  It returns 0 at the end of the text, at a character that
begins no token, and at a string that is not closed; the three are kept apart in `Scanned`, so that
it can be said which of them the caller, who cannot, has met.

The rules are those of the generated scanner in the order of the source, and what a rule does is
kept apart from what it matches.  `Lexer` gives the meaning of such a list: the longest match, and
of several the first rule.

* `exists_match`: every byte begins a match of at least one byte, by the rules for a line end, a
  zero and any other byte.  Both states have these three.
* `scanFrom_shorter`: a token leaves less of the text, so the fuel is enough.
* `exists_scans`: a text without a zero byte has tokens, up to its end or to the first 0.
* `Scans.unique`: it has them in one way only.
-/
import Emdros.EMdF.StringFunc

namespace Emdros

namespace JSONScanner

open Lexer (Regex best bytes caseless oneOf literal sequence upTo)

/-! ## 1. Rules -/

/-- The tokens, with what the scanner puts into `yylval`. -/
inductive Token where
  | keyFalse
  | keyTrue
  | keyNull
  | keyBraceOpen
  | keyBraceClose
  | keyBracketOpen
  | keyBracketClose
  | keyColon
  | keyComma
  | integer (value : Int)
  | string (value : List UInt8)
  deriving DecidableEq, Repr

/-- The name that a token without a value was given by the constructor of the scanner. -/
def Token.szTokenName : Token → String
  | keyFalse => "false"
  | keyTrue => "true"
  | keyNull => "null"
  | keyBraceOpen => "\x7b"
  | keyBraceClose => "\x7d"
  | keyBracketOpen => "["
  | keyBracketClose => "]"
  | keyColon => ":"
  | keyComma => ","
  | integer _ => "*&$INTEGER$&*"
  | string _ => "*&$STRING$&*"

/-- `getTokenName`. -/
def Token.getTokenName : Token → List UInt8
  | string s => bytes "the string '" ++ s ++ bytes "'"
  | integer i => bytes "the integer " ++ longlong2string i
  | t => bytes "the token '" ++ bytes t.szTokenName ++ bytes "'"

/-- What the scanner has found: a token and the text after it, or one of its three reasons to
return 0. -/
inductive Scanned where
  | token (t : Token) (cur : List UInt8)
  | eof
  | stray
  | unterminated
  deriving DecidableEq, Repr

/-- The actions of the first state. -/
inductive Action where
  | key (t : Token)
  | integer
  | stringdq
  | skip
  | zero
  | dot
  deriving DecidableEq, Repr

/-- `[\001-\377]` without the newline. -/
def dot : Regex UInt8 := .cls fun c => c != 0 && c != 10

def zero : Regex UInt8 := oneOf [0]

def isDigit (c : UInt8) : Bool := 48 ≤ c && c ≤ 57

def isHex (c : UInt8) : Bool := isDigit c || (97 ≤ c && c ≤ 102) || (65 ≤ c && c ≤ 70)

/-- A word in letters of either case, or a sign. -/
def keyword (text : String) : Regex UInt8 := sequence ((bytes text).map caseless)

/-- `"-"?[0-9]{1,10}`. -/
def integer : Regex UInt8 := .seq (.alt (oneOf [45]) .eps) (upTo (.cls isDigit) 9)

/-- The rules at the start of a token. -/
def scanRules : List (Regex UInt8 × Action) := [
  (keyword "false", .key .keyFalse),
  (keyword "true", .key .keyTrue),
  (keyword "null", .key .keyNull),
  (literal (bytes "\x7b"), .key .keyBraceOpen),
  (literal (bytes "\x7d"), .key .keyBraceClose),
  (literal (bytes "["), .key .keyBracketOpen),
  (literal (bytes "]"), .key .keyBracketClose),
  (literal (bytes ":"), .key .keyColon),
  (literal (bytes ","), .key .keyComma),
  (integer, .integer),
  (literal (bytes "\""), .stringdq),
  (literal (bytes " "), .skip),
  (literal (bytes "\t"), .skip),
  (literal (bytes "\r"), .skip),
  (literal (bytes "\n"), .skip),
  (zero, .zero),
  (dot, .dot)]

/-- The actions inside a string. -/
inductive DqAction where
  | close
  | push (c : UInt8)
  | continued
  | hex
  | unicode
  | zero
  | dot
  deriving DecidableEq, Repr

/-- The escapes that stand for one character. -/
def escapes : List (String × UInt8) := [
  ("\\n", 10), ("\\t", 9), ("\\b", 8), ("\\r", 13), ("\\f", 12), ("\\\\", 92), ("\\?", 63),
  ("\\'", 39), ("\\\"", 34)]

/-- What follows a backslash in a line continuation: the ends of a line, in ASCII and in UTF-8. -/
def lineEnds : List (List UInt8) := [
  [10], [13, 10], [13], [0xe2, 0x80, 0xa8], [0xe2, 0x80, 0xa9]]

/-- The rules inside a string. -/
def stringdqRules : List (Regex UInt8 × DqAction) :=
  (literal (bytes "\""), .close) ::
  escapes.map (fun e => (literal (bytes e.1), .push e.2)) ++
  lineEnds.map (fun l => (literal (92 :: l), .continued)) ++ [
  (sequence [oneOf [92], oneOf [120], .cls isHex, .cls isHex], .hex),
  (sequence [oneOf [92], oneOf [117], .cls isHex, .cls isHex, .cls isHex, .cls isHex], .unicode),
  (zero, .zero),
  (dot, .dot),
  (literal (bytes "\n"), .push 10)]

/-- The bytes that an action appends to the string, for the text it has matched. -/
def DqAction.pushed : DqAction → List UInt8 → List UInt8
  | push c, _ => [c]
  | continued, _ => []
  | hex, tok => [hex2char (tok.getD 2 0) (tok.getD 3 0)]
  | unicode, tok => long2utf8 (hex2long (tok.drop 2))
  | dot, tok => [tok.getD 0 0]
  | close, _ => []
  | zero, _ => []

/-! ## 2. States -/

/-- The state `stringdq`.  At a zero byte inside the text control falls out of the action, and the
source does not say where it goes on. -/
def stringdq : Nat → List UInt8 → List UInt8 → Option Scanned
  | 0, _, _ => none
  | _ + 1, [], _ => some .unterminated
  | fuel + 1, c :: rest, str =>
    match best stringdqRules (c :: rest) with
    | none => none
    | some (n, action) =>
      let cur := (c :: rest).drop n
      match action with
      | .close => some (.token (.string str) cur)
      | .zero => if cur = [] then some .unterminated else none
      | action => stringdq fuel cur (str ++ action.pushed ((c :: rest).take n))

/-- The state at the start of a token. -/
def scanFrom : Nat → List UInt8 → Option Scanned
  | 0, _ => none
  | _ + 1, [] => some .eof
  | fuel + 1, c :: rest =>
    match best scanRules (c :: rest) with
    | none => none
    | some (n, action) =>
      let tok := (c :: rest).take n
      let cur := (c :: rest).drop n
      match action with
      | .key t => some (.token t cur)
      | .integer => some (.token (.integer (sz2longlong tok)) cur)
      | .stringdq => stringdq fuel cur []
      | .skip => scanFrom fuel cur
      | .zero => if cur = [] then some .eof else none
      | .dot => some .stray

/-- `JSONScanner::scan`.  Each match takes at least a byte, so there are no more of them than the
fuel allows. -/
def scan (text : List UInt8) : Option Scanned := scanFrom (text.length + 1) text

/-! ## 3. Whole texts -/

/-- What the calls of `scan` return on a text: the tokens before the first 0, and whether this was
the 0 at the end of the text. -/
inductive Scans : List UInt8 → List Token → Bool → Prop
  | eof {text} (h : scan text = some .eof) : Scans text [] true
  | stray {text} (h : scan text = some .stray) : Scans text [] false
  | unterminated {text} (h : scan text = some .unterminated) : Scans text [] false
  | token {text t cur T b} (h : scan text = some (.token t cur)) (rest : Scans cur T b) :
      Scans text (t :: T) b

theorem Scans.unique {text : List UInt8} {T T' : List Token} {b b' : Bool} (h : Scans text T b)
    (h' : Scans text T' b') : T' = T ∧ b' = b := by
  induction h generalizing T' b' with
  | eof h =>
    cases h' with
    | eof => exact ⟨rfl, rfl⟩
    | _ h' => cases h.symm.trans h'
  | stray h =>
    cases h' with
    | stray => exact ⟨rfl, rfl⟩
    | _ h' => cases h.symm.trans h'
  | unterminated h =>
    cases h' with
    | unterminated => exact ⟨rfl, rfl⟩
    | _ h' => cases h.symm.trans h'
  | token h _ ih =>
    cases h' with
    | token h' rest' =>
      cases h.symm.trans h'
      obtain ⟨hT, hb⟩ := ih rest'
      exact ⟨congrArg _ hT, hb⟩
    | _ h' => cases h.symm.trans h'

/-- A rule matches at every byte, and that of zero only at zero. -/
theorem exists_match {A : Type} {rules : List (Regex UInt8 × A)} {z : A}
    (hdot : ∃ a, (dot, a) ∈ rules) (hnl : ∃ a, (literal (bytes "\n"), a) ∈ rules)
    (hz : (zero, z) ∈ rules) (hzero : ∀ r, (r, z) ∈ rules → r = zero) (c : UInt8)
    (rest : List UInt8) :
    ∃ n action, best rules (c :: rest) = some (n, action) ∧ 1 ≤ n ∧ (c ≠ 0 → action ≠ z) := by
  have hmatch : ∃ p ∈ rules, p.1.longest (c :: rest) = some 1 := by
    by_cases hline : c = 10
    · obtain ⟨a, ha⟩ := hnl
      refine ⟨_, ha, ?_⟩
      rw [hline]
      exact Lexer.longest_cls (· == 10) 10 rest
    · by_cases hc : c = 0
      · refine ⟨_, hz, ?_⟩
        rw [hc]
        exact Lexer.longest_cls (fun x => [0].contains x) 0 rest
      · obtain ⟨a, ha⟩ := hdot
        refine ⟨_, ha, ?_⟩
        rw [dot, Lexer.longest_cls]
        simp [hc, hline]
  obtain ⟨p, hp, hlongest⟩ := hmatch
  obtain ⟨n, action, hbest, hn⟩ := Lexer.exists_best hp hlongest
  refine ⟨n, action, hbest, hn, ?_⟩
  rintro hc rfl
  obtain ⟨r, hr, hlongest⟩ := Lexer.exists_of_best hbest
  rw [hzero r hr, zero, oneOf, Lexer.longest_cls] at hlongest
  simp [hc] at hlongest

theorem best_stringdq (c : UInt8) (rest : List UInt8) :
    ∃ n action, best stringdqRules (c :: rest) = some (n, action) ∧ 1 ≤ n ∧
      (c ≠ 0 → action ≠ .zero) :=
  exists_match ⟨.dot, by simp [stringdqRules]⟩ ⟨.push 10, by simp [stringdqRules]⟩
    (by simp [stringdqRules]) (fun r hr => by simpa [stringdqRules, escapes, lineEnds] using hr)
    c rest

theorem best_scan (c : UInt8) (rest : List UInt8) :
    ∃ n action, best scanRules (c :: rest) = some (n, action) ∧ 1 ≤ n ∧
      (c ≠ 0 → action ≠ .zero) :=
  exists_match ⟨.dot, by simp [scanRules]⟩ ⟨.skip, by simp [scanRules]⟩ (by simp [scanRules])
    (fun r hr => by simpa [scanRules] using hr) c rest

theorem length_drop_lt {c : UInt8} {rest : List UInt8} {n : Nat} (hn : 1 ≤ n) :
    ((c :: rest).drop n).length < (c :: rest).length := by
  rw [List.length_drop, List.length_cons]
  omega

/-- A token takes at least one byte. -/
theorem stringdq_shorter : ∀ {fuel : Nat} {text str cur : List UInt8} {t : Token},
    stringdq fuel text str = some (.token t cur) → cur.length < text.length := by
  intro fuel
  induction fuel with
  | zero =>
    intro text str cur t h
    cases h
  | succ fuel ih =>
    intro text str cur t h
    cases text with
    | nil => cases h
    | cons c rest =>
      obtain ⟨n, action, hbest, hn, _⟩ := best_stringdq c rest
      rw [stringdq, hbest] at h
      cases action with
      | close =>
        cases h
        exact length_drop_lt hn
      | zero =>
        simp only at h
        split at h <;> cases h
      | _ => exact Nat.lt_trans (ih h) (length_drop_lt hn)

theorem scanFrom_shorter : ∀ {fuel : Nat} {text cur : List UInt8} {t : Token},
    scanFrom fuel text = some (.token t cur) → cur.length < text.length := by
  intro fuel
  induction fuel with
  | zero =>
    intro text cur t h
    cases h
  | succ fuel ih =>
    intro text cur t h
    cases text with
    | nil => cases h
    | cons c rest =>
      obtain ⟨n, action, hbest, hn, _⟩ := best_scan c rest
      rw [scanFrom, hbest] at h
      cases action with
      | key | integer =>
        cases h
        exact length_drop_lt hn
      | stringdq => exact Nat.lt_trans (stringdq_shorter h) (length_drop_lt hn)
      | skip => exact Nat.lt_trans (ih h) (length_drop_lt hn)
      | zero =>
        simp only at h
        split at h <;> cases h
      | dot => cases h

/-- There are no more tokens in a text than bytes. -/
theorem Scans.length_le {text : List UInt8} {T : List Token} {b : Bool} (h : Scans text T b) :
    T.length ≤ text.length := by
  induction h with
  | eof | stray | unterminated => exact Nat.zero_le _
  | token h _ ih => exact Nat.lt_of_le_of_lt ih (scanFrom_shorter h)

/-- What a call of `scan` on a text without a zero byte comes to: there is none after it either. -/
def Proceeds (r : Option Scanned) : Prop :=
  ∃ s, r = some s ∧ ∀ t cur, s = .token t cur → 0 ∉ cur

theorem Proceeds.token (t : Token) {cur : List UInt8} (h0 : 0 ∉ cur) :
    Proceeds (some (.token t cur)) := by
  refine ⟨_, rfl, ?_⟩
  rintro t' cur' ⟨⟩
  exact h0

theorem stringdq_proceeds : ∀ (fuel : Nat) (text str : List UInt8), 0 ∉ text →
    text.length < fuel → Proceeds (stringdq fuel text str) := by
  intro fuel
  induction fuel with
  | zero =>
    intro text str h0 hfuel
    exact absurd hfuel (Nat.not_lt_zero _)
  | succ fuel ih =>
    intro text str h0 hfuel
    cases text with
    | nil => exact ⟨_, rfl, nofun⟩
    | cons c rest =>
      have hc : c ≠ 0 := fun h => h0 (h ▸ List.mem_cons_self)
      obtain ⟨n, action, hbest, hn, hzero⟩ := best_stringdq c rest
      have hlt := Nat.lt_of_lt_of_le (length_drop_lt hn) (Nat.le_of_lt_succ hfuel)
      have h0' : 0 ∉ (c :: rest).drop n := fun hmem => h0 (List.mem_of_mem_drop hmem)
      rw [stringdq, hbest]
      cases action with
      | close => exact .token _ h0'
      | zero => exact absurd rfl (hzero hc)
      | _ => exact ih _ _ h0' hlt

theorem scanFrom_proceeds : ∀ (fuel : Nat) (text : List UInt8), 0 ∉ text →
    text.length < fuel → Proceeds (scanFrom fuel text) := by
  intro fuel
  induction fuel with
  | zero =>
    intro text h0 hfuel
    exact absurd hfuel (Nat.not_lt_zero _)
  | succ fuel ih =>
    intro text h0 hfuel
    cases text with
    | nil => exact ⟨_, rfl, nofun⟩
    | cons c rest =>
      have hc : c ≠ 0 := fun h => h0 (h ▸ List.mem_cons_self)
      obtain ⟨n, action, hbest, hn, hzero⟩ := best_scan c rest
      have hlt := Nat.lt_of_lt_of_le (length_drop_lt hn) (Nat.le_of_lt_succ hfuel)
      have h0' : 0 ∉ (c :: rest).drop n := fun hmem => h0 (List.mem_of_mem_drop hmem)
      rw [scanFrom, hbest]
      cases action with
      | key t => exact .token t h0'
      | integer => exact .token _ h0'
      | stringdq => exact stringdq_proceeds fuel _ [] h0' hlt
      | skip => exact ih _ h0' hlt
      | zero => exact absurd rfl (hzero hc)
      | dot => exact ⟨_, rfl, nofun⟩

/-- **The scanner is total** on texts without a zero byte. -/
theorem exists_scans : ∀ (n : Nat) (text : List UInt8), text.length ≤ n → 0 ∉ text →
    ∃ T b, Scans text T b := by
  intro n
  induction n with
  | zero =>
    intro text hlen h0
    rw [List.length_eq_zero_iff.mp (Nat.le_zero.mp hlen)]
    exact ⟨[], true, .eof rfl⟩
  | succ n ih =>
    intro text hlen h0
    obtain ⟨s, hs, hnext⟩ := scanFrom_proceeds _ text h0 (Nat.lt_succ_self text.length)
    cases s with
    | eof => exact ⟨[], true, .eof hs⟩
    | stray => exact ⟨[], false, .stray hs⟩
    | unterminated => exact ⟨[], false, .unterminated hs⟩
    | token t cur =>
      have hlt := scanFrom_shorter hs
      obtain ⟨T, b, hT⟩ := ih cur (Nat.le_of_lt_succ (Nat.lt_of_lt_of_le hlt hlen)) (hnext t cur rfl)
      exact ⟨t :: T, b, .token hs hT⟩

end JSONScanner

end Emdros
