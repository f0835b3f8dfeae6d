/-
# What the JSON parser has read

After each token the stack of the parser stands for a row of lists and objects that are open, one
inside the other: a `Frame` says how far the reading of one of them has come.  `read` is what a token
does to the frames, and `peak` the number of entries that the stack needs for it.

`parse_frames` shows that the parser does just this to its stack, as long as the entries fit, and
that it forgets everything where they do not.
-/
import Emdros.EMdF.JsonParser

namespace Emdros

namespace JSONParser

open JSONScanner (Token)

/-! ## 1. Frames -/

/-- How far the reading of a list or an object has come; its parts so far are in the reverse of
their order, and a pair after others has them with it.  `top` is a whole value. -/
inductive Frame where
  | top (v : JSONValue)
  | listOpen
  | listElements (l : List JSONValue)
  | listComma (l : List JSONValue)
  | objectOpen
  | objectPairs (o : List (List UInt8 × JSONValue))
  | objectComma (o : List (List UInt8 × JSONValue))
  | key (o : Option (List (List UInt8 × JSONValue))) (k : List UInt8)
  | keyColon (o : Option (List (List UInt8 × JSONValue))) (k : List UInt8)

/-- The entries of the stack for a frame. -/
def Frame.height : Frame → Nat
  | top _ => 1
  | listOpen | objectOpen => 1
  | listElements _ | objectPairs _ => 2
  | listComma _ | objectComma _ => 3
  | key none _ => 2
  | keyColon none _ => 3
  | key (some _) _ => 4
  | keyColon (some _) _ => 5

/-- The entries of the stack for all that is open. -/
def height : List Frame → Nat
  | [] => 0
  | f :: fs => f.height + height fs

/-- A value may come next. -/
def expects : List Frame → Prop
  | [] | .listOpen :: _ | .listComma _ :: _ | .keyColon _ _ :: _ => True
  | _ => False

/-- A value takes its place. -/
def plug (v : JSONValue) : List Frame → List Frame
  | [] => [.top v]
  | .listOpen :: fs => .listElements [v] :: fs
  | .listComma l :: fs => .listElements (v :: l) :: fs
  | .keyColon none k :: fs => .objectPairs [(k, v)] :: fs
  | .keyColon (some o) k :: fs => .objectPairs ((k, v) :: o) :: fs
  | fs => fs

/-- A value of one token. -/
def leaf : Token → Option JSONValue
  | .keyTrue => some (.boolean true)
  | .keyFalse => some (.boolean false)
  | .keyNull => some .null
  | .integer i => some (.integer i)
  | .string s => some (.string s)
  | _ => none

/-- A token where a value may come. -/
def begin (fs : List Frame) : Token → Option (List Frame)
  | .keyBracketOpen => some (.listOpen :: fs)
  | .keyBraceOpen => some (.objectOpen :: fs)
  | t => (leaf t).map fun v => plug v fs

/-- What a token does to the frames; `none` is a syntax error. -/
def read : List Frame → Token → Option (List Frame)
  | [], t => begin [] t
  | .listOpen :: fs, .keyBracketClose => some (plug (.ofListElements []) fs)
  | .listOpen :: fs, t => begin (.listOpen :: fs) t
  | .listElements l :: fs, .keyComma => some (.listComma l :: fs)
  | .listElements l :: fs, .keyBracketClose => some (plug (.ofListElements l) fs)
  | .listComma l :: fs, .keyBracketClose => some (plug (.ofListElements l) fs)
  | .listComma l :: fs, t => begin (.listComma l :: fs) t
  | .objectOpen :: fs, .string k => some (.key none k :: fs)
  | .objectOpen :: fs, .keyBraceClose => some (plug (.ofKeyValuePairs []) fs)
  | .objectPairs o :: fs, .keyComma => some (.objectComma o :: fs)
  | .objectPairs o :: fs, .keyBraceClose => some (plug (.ofKeyValuePairs o) fs)
  | .objectComma o :: fs, .string k => some (.key (some o) k :: fs)
  | .objectComma o :: fs, .keyBraceClose => some (plug (.ofKeyValuePairs o) fs)
  | .key o k :: fs, .keyColon => some (.keyColon o k :: fs)
  | .keyColon o k :: fs, t => begin (.keyColon o k :: fs) t
  | _, _ => none

/-- The number of entries that the stack needs for a token.  After an element or a pair the empty
`opt_comma` takes one before the token does, even where the token is an error. -/
def peak : List Frame → Token → Nat
  | .listElements l :: fs, .keyBracketClose => height (.listElements l :: fs) + 2
  | .listElements l :: fs, _ => height (.listElements l :: fs) + 1
  | .objectPairs o :: fs, .keyBraceClose => height (.objectPairs o :: fs) + 2
  | .objectPairs o :: fs, _ => height (.objectPairs o :: fs) + 1
  | fs, t => if (read fs t).isSome then height fs + 1 else height fs

/-- The entries that fit above the first one. -/
def limit : Nat := 99

/-! ## 2. The stack of the parser -/

/-- An entry of the stack. -/
abbrev Entry := Lemon.Entry State Rule Minor

def listOpenEntry : Entry := ⟨.state .listOpen, .token (some .keyBracketOpen)⟩

def objectOpenEntry : Entry := ⟨.state .objectOpen, .token (some .keyBraceOpen)⟩

/-- What is under a key. -/
def keyEntries : Option (List (List UInt8 × JSONValue)) → List Entry
  | none => [objectOpenEntry]
  | some o => [⟨.state .objectComma, .token (some .keyComma)⟩, ⟨.state .objectPairs, .pairs o⟩,
      objectOpenEntry]

/-- The entries of a frame, the top in front. -/
def Frame.entries : Frame → List Entry
  | top v => [⟨.state .topValue, .value v⟩]
  | listOpen => [listOpenEntry]
  | listElements l => [⟨.state .listElements, .elements l⟩, listOpenEntry]
  | listComma l => [⟨.state .listComma, .token (some .keyComma)⟩,
      ⟨.state .listElements, .elements l⟩, listOpenEntry]
  | objectOpen => [objectOpenEntry]
  | objectPairs o => [⟨.state .objectPairs, .pairs o⟩, objectOpenEntry]
  | objectComma o => keyEntries (some o)
  | key o k => ⟨.state .key, .token (some (.string k))⟩ :: keyEntries o
  | keyColon o k => ⟨.state .keyColon, .token (some .keyColon)⟩ ::
      ⟨.state .key, .token (some (.string k))⟩ :: keyEntries o

/-- The stack for the frames, when no reduction is pending. -/
def stack (fs : List Frame) : List Entry := fs.flatMap Frame.entries

@[simp] theorem stack_cons (f : Frame) (fs : List Frame) :
    stack (f :: fs) = f.entries ++ stack fs := rfl

theorem length_stack (fs : List Frame) : (stack fs).length = height fs := by
  induction fs with
  | nil => rfl
  | cons f fs ih =>
    rw [stack_cons, List.length_append, ih, height]
    cases f with
    | key o k => cases o <;> rfl
    | keyColon o k => cases o <;> rfl
    | _ => rfl

/-- What is open was opened where a value may come, and a whole value stands alone. -/
def Nested : List Frame → Prop
  | [] => True
  | .top _ :: fs => fs = []
  | _ :: fs => expects fs ∧ Nested fs

/-- The stack stands for the frames, but for pending reductions. -/
def Represents (pEE : JSONExecEnv) (st : List Entry) (fs : List Frame) : Prop :=
  ∃ k ≤ 4, tables.Settles pEE k st (stack fs)

theorem Represents.of_stack (pEE : JSONExecEnv) (fs : List Frame) :
    Represents pEE (stack fs) fs := ⟨0, Nat.zero_le _, .refl _⟩

/-- **A value takes its place**: where one is expected, the tables shift it and reduce it into what
is open. -/
theorem settles_value {fs : List Frame} (h : expects fs) (v : JSONValue) (pEE : JSONExecEnv) :
    ∃ q no, tables.stateno (stack fs) = .state q ∧ gotoAction q .json_value = some no ∧
      ∃ k ≤ 2, tables.Settles pEE k (⟨no, .value v⟩ :: stack fs) (stack (plug v fs)) := by
  cases fs with
  | nil => exact ⟨_, _, rfl, rfl, 0, by decide, .refl _⟩
  | cons f fs =>
    cases f with
    | listOpen => exact ⟨_, _, rfl, rfl, 1, by decide, .step rfl (by decide) rfl (.refl _)⟩
    | listComma l => exact ⟨_, _, rfl, rfl, 1, by decide, .step rfl (by decide) rfl (.refl _)⟩
    | keyColon o k =>
      cases o with
      | none =>
        exact ⟨_, _, rfl, rfl, 2, by decide,
          .step rfl (by decide) rfl (.step rfl (by decide) rfl (.refl _))⟩
      | some o =>
        exact ⟨_, _, rfl, rfl, 2, by decide,
          .step rfl (by decide) rfl (.step rfl (by decide) rfl (.refl _))⟩
    | _ => exact h.elim

/-- The rule `u` makes a value of the symbol `x`. -/
structure Makes (u : Rule) (x : NonTerm) : Prop where
  goto : ∀ q, gotoAction q x = some (.pending u)
  lhs : u.lhs = .json_value
  nrhs : u.nrhs = 1
  act : ∀ v pEE, act u [.value v] pEE = some (.value v, pEE)

theorem makes_object : Makes .valueObject .json_object :=
  ⟨fun q => by cases q <;> rfl, rfl, rfl, fun _ _ => rfl⟩

theorem makes_list : Makes .valueList .json_list :=
  ⟨fun q => by cases q <;> rfl, rfl, rfl, fun _ _ => rfl⟩

theorem makes_boolean : Makes .valueBoolean .json_boolean :=
  ⟨fun q => by cases q <;> rfl, rfl, rfl, fun _ _ => rfl⟩

theorem makes_string : Makes .valueString .json_string :=
  ⟨fun q => by cases q <;> rfl, rfl, rfl, fun _ _ => rfl⟩

theorem makes_integer : Makes .valueInteger .json_integer :=
  ⟨fun q => by cases q <;> rfl, rfl, rfl, fun _ _ => rfl⟩

theorem makes_null : Makes .valueNull .json_null :=
  ⟨fun q => by cases q <;> rfl, rfl, rfl, fun _ _ => rfl⟩

/-- **What reduces to a value takes its place**: `args` are the entries of the right-hand side of
`r`. -/
theorem represents_reduced {fs : List Frame} (h : expects fs) {v : JSONValue} {r u : Rule}
    (args : List Entry) {pEE : JSONExecEnv} (hmakes : Makes u r.lhs)
    (top : tables.stateno (args ++ stack fs) = .pending r) (hlen : r.nrhs = args.length)
    (hpos : args ≠ [])
    (hact : act r (args.reverse.map Lemon.Entry.minor) pEE = some (.value v, pEE)) :
    Represents pEE (args ++ stack fs) (plug v fs) := by
  obtain ⟨q, no, hq, hno, k, hk, hrest⟩ := settles_value h v pEE
  have hreduce : tables.reduce r (args ++ stack fs) pEE =
      some (⟨.pending u, .value v⟩ :: stack fs, pEE) :=
    Lemon.Tables.reduce_append hlen hact hq (hmakes.goto q)
  have hvalue : tables.reduce u ([⟨.pending u, .value v⟩] ++ stack fs) pEE =
      some (⟨no, .value v⟩ :: stack fs, pEE) := by
    refine Lemon.Tables.reduce_append hmakes.nrhs (hmakes.act v pEE) hq ?_
    rw [← hno, ← hmakes.lhs]
    rfl
  have hrhs : tables.nrhs r ≠ 0 := by
    intro h0
    have h0' : r.nrhs = 0 := h0
    rw [hlen, List.length_eq_zero_iff] at h0'
    exact hpos h0'
  have hrhs' : tables.nrhs u ≠ 0 := by
    intro h0
    have h0' : u.nrhs = 0 := h0
    rw [hmakes.nrhs] at h0'
    cases h0'
  exact ⟨k + 2, by omega, .step top hrhs hreduce (.step rfl hrhs' hvalue hrest)⟩

/-! ## 3. One token -/

/-- The end of the input is taken, and an error is not forgotten. -/
def Ends (p : Parser) : Prop :=
  ∀ pEE : JSONExecEnv, ∃ p' pEE', parse none p pEE = some (p', pEE') ∧
    (pEE.bSyntaxError = true → pEE'.bSyntaxError = true)

/-- What one token does to the parser: it forgets everything where the stack is too small for it,
and otherwise the stack stands for the frames with the token read, unless the token is an error. -/
def Follows (fs : List Frame) (t : Token) (pEE : JSONExecEnv)
    (r : Option (Parser × JSONExecEnv)) : Prop :=
  ∃ p pEE', r = some (p, pEE') ∧
    if limit < peak fs t then p.yystack = [] ∧ p.yyerrcnt ≤ 0 ∧ pEE' = pEE
    else
      match read fs t with
      | some fs' => Represents pEE p.yystack fs' ∧ p.yyerrcnt ≤ 0 ∧ pEE' = pEE
      | none => pEE'.bSyntaxError = true ∧ Ends p

section

variable {fs : List Frame} {t : Token} {n : Int} {pEE : JSONExecEnv} {m : Nat} {st : List Entry}

theorem full_iff : tables.full st ↔ limit < st.length + 1 := Iff.rfl

/-- A token that is shifted. -/
theorem follows_shift {fs' : List Frame} {no : Lemon.StateNo State Rule}
    {a : Lemon.Action State Rule} (hn : n ≤ 0)
    (hact : tables.findShiftAction (some t) (tables.stateno st) = a)
    (ha : (∃ q, a = .shift q ∧ no = .state q) ∨ ∃ r, a = .shiftReduce r ∧ no = .pending r)
    (hread : read fs t = some fs') (hpeak : peak fs t = st.length + 1)
    (hrep : Represents pEE (⟨no, .token (some t)⟩ :: st) fs') :
    Follows fs t pEE (tables.parse (m + 1) (some t) ⟨st, n⟩ pEE) := by
  have hparse : tables.parse (m + 1) (some t) ⟨st, n⟩ pEE =
      some (⟨tables.shift st no (.token (some t)), n - 1⟩, pEE) := by
    rcases ha with ⟨q, rfl, rfl⟩ | ⟨r, rfl, rfl⟩
    · rw [Lemon.Tables.parse, hact]
      rfl
    · rw [Lemon.Tables.parse, hact]
      rfl
  have hn' : n - 1 ≤ 0 := Int.le_trans (Int.sub_le_self n (by decide)) hn
  refine ⟨_, _, hparse, ?_⟩
  rw [hpeak, hread]
  split
  · rename_i hfull
    exact ⟨if_pos (full_iff.mpr hfull), hn', rfl⟩
  · rename_i hroom
    have hshift : tables.shift st no (.token (some t)) = ⟨no, .token (some t)⟩ :: st :=
      if_neg fun h => hroom (full_iff.mp h)
    rw [hshift]
    exact ⟨hrep, hn', rfl⟩

theorem ends_of_error (h : tables.findShiftAction none (tables.stateno st) = .error) :
    Ends ⟨st, n⟩ := by
  intro pEE
  refine ⟨⟨[], -1⟩, { (if n ≤ 0 then syntaxError none pEE else pEE) with bSyntaxError := true },
    ?_, fun _ => rfl⟩
  rw [parse, Lemon.Tables.parse, h]
  rfl

theorem ends_top (v : JSONValue) : Ends ⟨stack [.top v], n⟩ := by
  intro pEE
  exact ⟨⟨[], -1⟩, { pEE with m_pTopValue := some v }, rfl, id⟩

/-- A token that is refused. -/
theorem follows_error (hn : n ≤ 0)
    (hact : tables.findShiftAction (some t) (tables.stateno st) = .error)
    (hread : read fs t = none) (hpeak : ¬limit < peak fs t) (hends : Ends ⟨st, 3⟩) :
    Follows fs t pEE (tables.parse (m + 1) (some t) ⟨st, n⟩ pEE) := by
  have hparse : tables.parse (m + 1) (some t) ⟨st, n⟩ pEE =
      some (⟨st, 3⟩, syntaxError (some t) pEE) := by
    rw [Lemon.Tables.parse, hact]
    simp only [Lemon.Tables.error, if_pos hn]
    rfl
  refine ⟨_, _, hparse, ?_⟩
  rw [if_neg hpeak, hread]
  exact ⟨rfl, hends⟩

/-- The rule of the empty `opt_comma` needs an entry, whatever the token is. -/
theorem parse_noComma {lookahead : Option Token}
    (hact : tables.findShiftAction lookahead (tables.stateno st) = .reduce .noComma)
    {q q' : State} (hq : tables.stateno st = .state q)
    (hgoto : gotoAction q .opt_comma = some (.state q')) :
    tables.parse (m + 1) lookahead ⟨st, n⟩ pEE =
      if tables.full st then some (⟨[], n⟩, pEE)
      else tables.parse m lookahead ⟨⟨.state q', .optComma 0⟩ :: st, n⟩ pEE := by
  have hreduce : tables.reduce .noComma ([] ++ st) pEE =
      some (⟨.state q', .optComma 0⟩ :: st, pEE) :=
    Lemon.Tables.reduce_append rfl rfl hq hgoto
  have hrhs : tables.nrhs .noComma = 0 := rfl
  rw [List.nil_append] at hreduce
  rw [Lemon.Tables.parse, hact]
  simp only [hrhs, true_and, hreduce]

/-- The rule of the other `opt_comma` takes the place of the comma. -/
theorem parse_comma {lookahead : Option Token} {c : Entry}
    (hact : tables.findShiftAction lookahead c.stateno = .reduce .comma)
    {q q' : State} (hq : tables.stateno st = .state q)
    (hgoto : gotoAction q .opt_comma = some (.state q')) :
    tables.parse (m + 1) lookahead ⟨c :: st, n⟩ pEE =
      tables.parse m lookahead ⟨⟨.state q', .optComma 0⟩ :: st, n⟩ pEE := by
  have hreduce : tables.reduce .comma ([c] ++ st) pEE =
      some (⟨.state q', .optComma 0⟩ :: st, pEE) :=
    Lemon.Tables.reduce_append rfl rfl hq hgoto
  have hact' : tables.findShiftAction lookahead (tables.stateno (c :: st)) = .reduce .comma := hact
  have hrhs : tables.nrhs .comma ≠ 0 := Nat.one_ne_zero
  rw [List.singleton_append] at hreduce
  rw [Lemon.Tables.parse, hact']
  simp only [hrhs, false_and, if_false, hreduce]

theorem follows_noComma (hn : n ≤ 0)
    (hact : tables.findShiftAction (some t) (tables.stateno st) = .reduce .noComma)
    {q q' : State} (hq : tables.stateno st = .state q)
    (hgoto : gotoAction q .opt_comma = some (.state q')) (hpeak : st.length + 1 ≤ peak fs t)
    (hnext : st.length + 1 ≤ limit → Follows fs t pEE
      (tables.parse m (some t) ⟨⟨.state q', .optComma 0⟩ :: st, n⟩ pEE)) :
    Follows fs t pEE (tables.parse (m + 1) (some t) ⟨st, n⟩ pEE) := by
  rw [parse_noComma hact hq hgoto]
  by_cases hfull : tables.full st
  · have hover : limit < peak fs t := Nat.lt_of_lt_of_le (full_iff.mp hfull) hpeak
    refine ⟨_, _, if_pos hfull, ?_⟩
    rw [if_pos hover]
    exact ⟨rfl, hn, rfl⟩
  · rw [if_neg hfull]
    exact hnext (Nat.not_lt.mp fun h => hfull (full_iff.mpr h))

theorem follows_comma {c : Entry}
    (hact : tables.findShiftAction (some t) c.stateno = .reduce .comma)
    {q q' : State} (hq : tables.stateno st = .state q)
    (hgoto : gotoAction q .opt_comma = some (.state q'))
    (hnext : Follows fs t pEE
      (tables.parse m (some t) ⟨⟨.state q', .optComma 0⟩ :: st, n⟩ pEE)) :
    Follows fs t pEE (tables.parse (m + 1) (some t) ⟨c :: st, n⟩ pEE) := by
  rw [parse_comma hact hq hgoto]
  exact hnext

/-- A value of one token. -/
theorem represents_leaf {v : JSONValue} {r u : Rule} (h : expects fs) (hmakes : Makes u r.lhs)
    (hlen : r.nrhs = 1) (hact : act r [.token (some t)] pEE = some (.value v, pEE)) :
    Represents pEE (⟨.pending r, .token (some t)⟩ :: stack fs) (plug v fs) :=
  represents_reduced h [⟨.pending r, .token (some t)⟩] hmakes rfl hlen (List.cons_ne_nil _ _) hact

/-- A token that begins a value, or is one, where one is expected. -/
theorem follows_begin {fs' : List Frame} (hn : n ≤ 0) (h : expects fs)
    (hact : ∀ a, valueAction t = some a →
      tables.findShiftAction (some t) (tables.stateno (stack fs)) = a)
    (hread : read fs t = some fs') (hbegin : begin fs t = some fs')
    (hpeak : peak fs t = (stack fs).length + 1) :
    Follows fs t pEE (tables.parse (m + 1) (some t) ⟨stack fs, n⟩ pEE) := by
  cases t with
  | keyBracketOpen =>
    cases hbegin
    exact follows_shift hn (hact _ rfl) (Or.inl ⟨_, rfl, rfl⟩) hread hpeak
      (.of_stack pEE (.listOpen :: fs))
  | keyBraceOpen =>
    cases hbegin
    exact follows_shift hn (hact _ rfl) (Or.inl ⟨_, rfl, rfl⟩) hread hpeak
      (.of_stack pEE (.objectOpen :: fs))
  | keyTrue =>
    cases hbegin
    exact follows_shift hn (hact _ rfl) (Or.inr ⟨_, rfl, rfl⟩) hread hpeak
      (represents_leaf h makes_boolean rfl rfl)
  | keyFalse =>
    cases hbegin
    exact follows_shift hn (hact _ rfl) (Or.inr ⟨_, rfl, rfl⟩) hread hpeak
      (represents_leaf h makes_boolean rfl rfl)
  | keyNull =>
    cases hbegin
    exact follows_shift hn (hact _ rfl) (Or.inr ⟨_, rfl, rfl⟩) hread hpeak
      (represents_leaf h makes_null rfl rfl)
  | integer i =>
    cases hbegin
    exact follows_shift hn (hact _ rfl) (Or.inr ⟨_, rfl, rfl⟩) hread hpeak
      (represents_leaf h makes_integer rfl rfl)
  | string x =>
    cases hbegin
    exact follows_shift hn (hact _ rfl) (Or.inr ⟨_, rfl, rfl⟩) hread hpeak
      (represents_leaf h makes_string rfl rfl)
  | _ => cases hbegin

theorem begin_eq_none (h : begin fs t = none) : valueAction t = none := by
  cases t with
  | _ => first | rfl | cases h

/-- A token where a value is expected and nothing else. -/
theorem follows_value (hn : n ≤ 0) (h : expects fs) (hroom : height fs ≤ limit)
    (hact : tables.findShiftAction (some t) (tables.stateno (stack fs)) =
      (valueAction t).getD .error)
    (hread : read fs t = begin fs t)
    (hpeak : peak fs t = if (read fs t).isSome then height fs + 1 else height fs)
    (hend : tables.findShiftAction none (tables.stateno (stack fs)) = .error) :
    Follows fs t pEE (tables.parse (m + 1) (some t) ⟨stack fs, n⟩ pEE) := by
  cases hb : begin fs t with
  | some fs' =>
    rw [hb] at hread
    rw [hread] at hpeak
    refine follows_begin hn h ?_ hread hb (by rw [hpeak, length_stack]; rfl)
    intro a ha
    rw [hact, ha]
    rfl
  | none =>
    rw [hb] at hread
    rw [hread] at hpeak
    rw [begin_eq_none hb] at hact
    refine follows_error hn hact hread ?_ (ends_of_error hend)
    rw [hpeak]
    exact Nat.not_lt.mpr hroom

end

/-- **One token.**  The parser, whatever reductions it has pending, does to its stack what `read`
does to the frames. -/
theorem parse_frames {fs : List Frame} (hnest : Nested fs) (hroom : height fs ≤ limit)
    {st : List Entry} {n : Int} {pEE : JSONExecEnv} (hrep : Represents pEE st fs) (hn : n ≤ 0)
    (t : Token) : Follows fs t pEE (parse (some t) ⟨st, n⟩ pEE) := by
  obtain ⟨k, hk, hsettles⟩ := hrep
  obtain ⟨m, hm⟩ : ∃ m, 6 = (m + 2) + k := ⟨4 - k, by omega⟩
  rw [parse, hm, Lemon.Tables.parse_settles hsettles]
  cases fs with
  | nil => exact follows_value hn trivial hroom rfl rfl rfl rfl
  | cons f fs =>
    cases f with
    | top v =>
      rw [hnest]
      exact follows_error hn rfl rfl (Nat.not_lt.mpr (hnest ▸ hroom)) (ends_top v)
    | listOpen =>
      cases t with
      | keyBracketClose =>
        refine follows_shift hn rfl (Or.inr ⟨_, rfl, rfl⟩) rfl ?_ ?_
        · rw [length_stack]
          rfl
        · exact represents_reduced hnest.1 [⟨.pending .listEmpty, .token (some .keyBracketClose)⟩,
            listOpenEntry] makes_list rfl rfl (List.cons_ne_nil _ _) rfl
      | _ => exact follows_value hn trivial hroom rfl rfl rfl rfl
    | listElements l =>
      cases t with
      | keyComma =>
        refine follows_shift hn rfl (Or.inl ⟨_, rfl, rfl⟩) rfl ?_
          (.of_stack pEE (.listComma l :: fs))
        rw [length_stack]
        rfl
      | keyBracketClose =>
        refine follows_noComma hn rfl rfl rfl ?_ fun _ => ?_
        · rw [length_stack]
          exact Nat.le_succ _
        · refine follows_shift hn rfl (Or.inr ⟨_, rfl, rfl⟩) rfl ?_ ?_
          · rw [List.length_cons, length_stack]
            rfl
          · exact represents_reduced hnest.1 [⟨.pending .list, .token (some .keyBracketClose)⟩,
              ⟨.state .listEnd, .optComma 0⟩, ⟨.state .listElements, .elements l⟩, listOpenEntry]
              makes_list rfl rfl (List.cons_ne_nil _ _) rfl
      | _ =>
        refine follows_noComma hn rfl rfl rfl ?_ fun hfits =>
          follows_error hn rfl rfl ?_ (ends_of_error rfl)
        · rw [length_stack]
          exact Nat.le_refl _
        · rw [length_stack] at hfits
          exact Nat.not_lt.mpr hfits
    | listComma l =>
      cases t with
      | keyBracketClose =>
        refine follows_comma rfl rfl rfl (follows_shift hn rfl (Or.inr ⟨_, rfl, rfl⟩) rfl ?_ ?_)
        · change height (.listComma l :: fs) + 1 = (stack (.listElements l :: fs)).length + 1 + 1
          rw [length_stack, height, height, Frame.height, Frame.height, Nat.add_right_comm 2]
        · exact represents_reduced hnest.1 [⟨.pending .list, .token (some .keyBracketClose)⟩,
            ⟨.state .listEnd, .optComma 0⟩, ⟨.state .listElements, .elements l⟩, listOpenEntry]
            makes_list rfl rfl (List.cons_ne_nil _ _) rfl
      | keyBraceClose | keyColon | keyComma =>
        exact follows_comma rfl rfl rfl
          (follows_error hn rfl rfl (Nat.not_lt.mpr hroom) (ends_of_error rfl))
      | _ =>
        refine follows_begin hn trivial ?_ rfl rfl ?_
        · rintro a ⟨⟩
          rfl
        · rw [length_stack]
          rfl
    | objectOpen =>
      cases t with
      | string x =>
        refine follows_shift hn rfl (Or.inl ⟨_, rfl, rfl⟩) rfl ?_
          (.of_stack pEE (.key none x :: fs))
        rw [length_stack]
        rfl
      | keyBraceClose =>
        refine follows_shift hn rfl (Or.inr ⟨_, rfl, rfl⟩) rfl ?_ ?_
        · rw [length_stack]
          rfl
        · exact represents_reduced hnest.1 [⟨.pending .objectEmpty, .token (some .keyBraceClose)⟩,
            objectOpenEntry] makes_object rfl rfl (List.cons_ne_nil _ _) rfl
      | _ => exact follows_error hn rfl rfl (Nat.not_lt.mpr hroom) (ends_of_error rfl)
    | objectPairs o =>
      cases t with
      | keyComma =>
        refine follows_shift hn rfl (Or.inl ⟨_, rfl, rfl⟩) rfl ?_
          (.of_stack pEE (.objectComma o :: fs))
        rw [length_stack]
        rfl
      | keyBraceClose =>
        refine follows_noComma hn rfl rfl rfl ?_ fun _ => ?_
        · rw [length_stack]
          exact Nat.le_succ _
        · refine follows_shift hn rfl (Or.inr ⟨_, rfl, rfl⟩) rfl ?_ ?_
          · rw [List.length_cons, length_stack]
            rfl
          · exact represents_reduced hnest.1 [⟨.pending .object, .token (some .keyBraceClose)⟩,
              ⟨.state .objectEnd, .optComma 0⟩, ⟨.state .objectPairs, .pairs o⟩, objectOpenEntry]
              makes_object rfl rfl (List.cons_ne_nil _ _) rfl
      | _ =>
        refine follows_noComma hn rfl rfl rfl ?_ fun hfits =>
          follows_error hn rfl rfl ?_ (ends_of_error rfl)
        · rw [length_stack]
          exact Nat.le_refl _
        · rw [length_stack] at hfits
          exact Nat.not_lt.mpr hfits
    | objectComma o =>
      cases t with
      | string x =>
        refine follows_shift hn rfl (Or.inl ⟨_, rfl, rfl⟩) rfl ?_
          (.of_stack pEE (.key (some o) x :: fs))
        rw [length_stack]
        rfl
      | keyBraceClose =>
        refine follows_comma rfl rfl rfl (follows_shift hn rfl (Or.inr ⟨_, rfl, rfl⟩) rfl ?_ ?_)
        · change height (.objectComma o :: fs) + 1 = (stack (.objectPairs o :: fs)).length + 1 + 1
          rw [length_stack, height, height, Frame.height, Frame.height, Nat.add_right_comm 2]
        · exact represents_reduced hnest.1 [⟨.pending .object, .token (some .keyBraceClose)⟩,
            ⟨.state .objectEnd, .optComma 0⟩, ⟨.state .objectPairs, .pairs o⟩, objectOpenEntry]
            makes_object rfl rfl (List.cons_ne_nil _ _) rfl
      | _ =>
        exact follows_comma rfl rfl rfl
          (follows_error hn rfl rfl (Nat.not_lt.mpr hroom) (ends_of_error rfl))
    | key o x =>
      cases t with
      | keyColon =>
        refine follows_shift hn rfl (Or.inl ⟨_, rfl, rfl⟩) rfl ?_
          (.of_stack pEE (.keyColon o x :: fs))
        rw [length_stack]
        rfl
      | _ => exact follows_error hn rfl rfl (Nat.not_lt.mpr hroom) (ends_of_error rfl)
    | keyColon o x => exact follows_value hn trivial hroom rfl rfl rfl rfl

/-! ## 4. What holds of the frames -/

theorem nested_nil : Nested [] := trivial

theorem nested_plug {fs : List Frame} (hnest : Nested fs) (h : expects fs) (v : JSONValue) :
    Nested (plug v fs) := by
  cases fs with
  | nil => rfl
  | cons f fs =>
    cases f with
    | listOpen | listComma l => exact hnest
    | keyColon o k => cases o <;> exact hnest
    | _ => exact h.elim

/-- The elements of a list that may be closed. -/
def Frame.elements : Frame → Option (List JSONValue)
  | listOpen => some []
  | listElements l => some l
  | listComma l => some l
  | _ => none

/-- The pairs of an object that may be closed. -/
def Frame.pairs : Frame → Option (List (List UInt8 × JSONValue))
  | objectOpen => some []
  | objectPairs o => some o
  | objectComma o => some o
  | _ => none

/-- The pairs before a key, where one may come. -/
def Frame.beforeKey : Frame → Option (Option (List (List UInt8 × JSONValue)))
  | objectOpen => some none
  | objectComma o => some (some o)
  | _ => none

/-- What a token can do to the frames. -/
inductive Reads : List Frame → Token → List Frame → Prop
  | leaf {fs t v} (h : expects fs) (hleaf : leaf t = some v) : Reads fs t (plug v fs)
  | listOpen {fs} (h : expects fs) : Reads fs .keyBracketOpen (.listOpen :: fs)
  | listComma {fs l} : Reads (.listElements l :: fs) .keyComma (.listComma l :: fs)
  | listClose {f fs l} (h : f.elements = some l) :
      Reads (f :: fs) .keyBracketClose (plug (.ofListElements l) fs)
  | objectOpen {fs} (h : expects fs) : Reads fs .keyBraceOpen (.objectOpen :: fs)
  | key {f fs o k} (h : f.beforeKey = some o) : Reads (f :: fs) (.string k) (.key o k :: fs)
  | keyColon {fs o k} : Reads (.key o k :: fs) .keyColon (.keyColon o k :: fs)
  | objectComma {fs o} : Reads (.objectPairs o :: fs) .keyComma (.objectComma o :: fs)
  | objectClose {f fs o} (h : f.pairs = some o) :
      Reads (f :: fs) .keyBraceClose (plug (.ofKeyValuePairs o) fs)

theorem Reads.of_begin {fs fs' : List Frame} {t : Token} (h : expects fs)
    (hbegin : begin fs t = some fs') : Reads fs t fs' := by
  cases t with
  | keyBracketOpen =>
    cases hbegin
    exact .listOpen h
  | keyBraceOpen =>
    cases hbegin
    exact .objectOpen h
  | keyTrue | keyFalse | keyNull | integer | string =>
    cases hbegin
    exact .leaf h rfl
  | _ => cases hbegin

/-- **What a token can do**, from the cases of `read`. -/
theorem Reads.of_read {fs fs' : List Frame} {t : Token} (h : read fs t = some fs') :
    Reads fs t fs' := by
  unfold read at h
  split at h
  · exact .of_begin trivial h
  · cases h
    exact .listClose rfl
  · exact .of_begin trivial h
  · cases h
    exact .listComma
  · cases h
    exact .listClose rfl
  · cases h
    exact .listClose rfl
  · exact .of_begin trivial h
  · cases h
    exact .key rfl
  · cases h
    exact .objectClose rfl
  · cases h
    exact .objectComma
  · cases h
    exact .objectClose rfl
  · cases h
    exact .key rfl
  · cases h
    exact .objectClose rfl
  · cases h
    exact .keyColon
  · exact .of_begin trivial h
  · cases h

theorem read_of_begin {fs fs' : List Frame} {t : Token} (h : expects fs)
    (hbegin : begin fs t = some fs') : read fs t = some fs' := by
  cases fs with
  | nil => exact hbegin
  | cons f fs =>
    cases f with
    | keyColon o k => exact hbegin
    | listOpen | listComma l =>
      cases t with
      | keyBracketClose => cases hbegin
      | _ => exact hbegin
    | _ => exact h.elim

/-- The converse: `Reads` says no more than `read` does. -/
theorem Reads.read {fs fs' : List Frame} {t : Token} (h : Reads fs t fs') :
    JSONParser.read fs t = some fs' := by
  cases h with
  | @leaf fs t v hexp hleaf =>
    refine read_of_begin hexp ?_
    cases t with
    | keyBracketOpen | keyBraceOpen => cases hleaf
    | _ => exact congrArg (Option.map fun v => plug v fs) hleaf
  | listOpen hexp => exact read_of_begin hexp rfl
  | objectOpen hexp => exact read_of_begin hexp rfl
  | listComma | objectComma | keyColon => rfl
  | @listClose f fs l hl =>
    cases f with
    | listOpen | listElements | listComma =>
      cases hl
      rfl
    | _ => cases hl
  | @objectClose f fs o ho =>
    cases f with
    | objectOpen | objectPairs | objectComma =>
      cases ho
      rfl
    | _ => cases ho
  | @key f fs o k hk =>
    cases f with
    | objectOpen | objectComma =>
      cases hk
      rfl
    | _ => cases hk

/-- A token leaves the frames nested. -/
theorem Reads.nested {fs fs' : List Frame} {t : Token} (h : Reads fs t fs') (hnest : Nested fs) :
    Nested fs' := by
  cases h with
  | leaf hexp hleaf => exact nested_plug hnest hexp _
  | listOpen hexp => exact ⟨hexp, hnest⟩
  | listComma => exact hnest
  | @listClose f fs l hl =>
    cases f with
    | listOpen | listElements | listComma => exact nested_plug hnest.2 hnest.1 _
    | _ => cases hl
  | objectOpen hexp => exact ⟨hexp, hnest⟩
  | @key f fs o k hk =>
    cases f with
    | objectOpen | objectComma => exact hnest
    | _ => cases hk
  | keyColon => exact hnest
  | objectComma => exact hnest
  | @objectClose f fs o ho =>
    cases f with
    | objectOpen | objectPairs | objectComma => exact nested_plug hnest.2 hnest.1 _
    | _ => cases ho

theorem height_plug {fs : List Frame} (h : expects fs) (v : JSONValue) :
    height (plug v fs) ≤ height fs + 1 := by
  cases fs with
  | nil => exact Nat.le_refl _
  | cons f fs =>
    cases f with
    | listOpen | listComma l => simp only [plug, height, Frame.height]; omega
    | keyColon o k => cases o <;> simp only [plug, height, Frame.height] <;> omega
    | _ => exact h.elim

theorem Reads.height_le {fs fs' : List Frame} {t : Token} (h : Reads fs t fs')
    (hnest : Nested fs) : height fs' ≤ height fs + 1 := by
  cases h with
  | leaf hexp hleaf => exact height_plug hexp _
  | listOpen | objectOpen => exact Nat.le_of_eq (Nat.add_comm 1 _)
  | listComma | objectComma => simp only [height, Frame.height]; omega
  | @keyColon fs o k => cases o <;> simp only [height, Frame.height] <;> omega
  | @listClose f fs l hl =>
    cases f with
    | listOpen | listElements | listComma =>
      have hplug := height_plug hnest.1 (.ofListElements l)
      simp only [height, Frame.height]
      omega
    | _ => cases hl
  | @objectClose f fs o ho =>
    cases f with
    | objectOpen | objectPairs | objectComma =>
      have hplug := height_plug hnest.1 (.ofKeyValuePairs o)
      simp only [height, Frame.height]
      omega
    | _ => cases ho
  | @key f fs o k hk =>
    cases f with
    | objectOpen | objectComma =>
      cases hk
      simp only [height, Frame.height]
      omega
    | _ => cases hk

theorem height_lt_peak {fs fs' : List Frame} {t : Token} (h : read fs t = some fs') :
    height fs + 1 ≤ peak fs t := by
  unfold peak
  split
  · exact Nat.le_succ _
  · exact Nat.le_refl _
  · exact Nat.le_succ _
  · exact Nat.le_refl _
  · rw [h]
    exact Nat.le_refl _

/-! ## 5. A whole text -/

/-- What the parser makes of the tokens: after a token that does not fit it begins anew. -/
def readAll : List Frame → List Token → Option JSONValue
  | [.top v], [] => some v
  | _, [] => none
  | fs, t :: T =>
    if limit < peak fs t then readAll [] T
    else
      match read fs t with
      | some fs' => readAll fs' T
      | none => none

/-- The value that `parseJSON` takes out of the environment. -/
def result (pEE : JSONExecEnv) : Option JSONValue :=
  if pEE.bSyntaxError then none else pEE.m_pTopValue

section

variable {st : List Entry} {n : Int} {pEE : JSONExecEnv} {m : Nat}

theorem end_error (h : tables.findShiftAction none (tables.stateno st) = .error) :
    ∃ p' pEE', tables.parse (m + 1) none ⟨st, n⟩ pEE = some (p', pEE') ∧ result pEE' = none := by
  refine ⟨⟨[], -1⟩, { (if n ≤ 0 then syntaxError none pEE else pEE) with bSyntaxError := true },
    ?_, rfl⟩
  rw [Lemon.Tables.parse, h]
  rfl

theorem end_noComma (htop : pEE.m_pTopValue = none)
    (hact : tables.findShiftAction none (tables.stateno st) = .reduce .noComma)
    {q q' : State} (hq : tables.stateno st = .state q)
    (hgoto : gotoAction q .opt_comma = some (.state q'))
    (hend : tables.findShiftAction none (.state q') = .error) :
    ∃ p' pEE', tables.parse (m + 2) none ⟨st, n⟩ pEE = some (p', pEE') ∧ result pEE' = none := by
  rw [parse_noComma hact hq hgoto]
  by_cases hfull : tables.full st
  · refine ⟨_, _, if_pos hfull, ?_⟩
    rw [result, htop, ite_self]
  · rw [if_neg hfull]
    exact end_error hend

theorem end_comma {c : Entry} (hact : tables.findShiftAction none c.stateno = .reduce .comma)
    {q q' : State} (hq : tables.stateno st = .state q)
    (hgoto : gotoAction q .opt_comma = some (.state q'))
    (hend : tables.findShiftAction none (.state q') = .error) :
    ∃ p' pEE', tables.parse (m + 2) none ⟨c :: st, n⟩ pEE = some (p', pEE') ∧
      result pEE' = none := by
  rw [parse_comma hact hq hgoto]
  exact end_error hend

end

/-- **The end of the input** leaves a value where the tokens were one, and nothing else. -/
theorem parse_end {fs : List Frame} (hnest : Nested fs) {st : List Entry} {n : Int}
    {pEE : JSONExecEnv} (hrep : Represents pEE st fs) (herr : pEE.bSyntaxError = false)
    (htop : pEE.m_pTopValue = none) :
    ∃ p' pEE', parse none ⟨st, n⟩ pEE = some (p', pEE') ∧ result pEE' = readAll fs [] := by
  obtain ⟨k, hk, hsettles⟩ := hrep
  obtain ⟨m, hm⟩ : ∃ m, 6 = (m + 2) + k := ⟨4 - k, by omega⟩
  rw [parse, hm, Lemon.Tables.parse_settles hsettles]
  cases fs with
  | nil => exact end_error rfl
  | cons f fs =>
    cases f with
    | top v =>
      have hfs : fs = [] := hnest
      rw [hfs]
      refine ⟨⟨[], -1⟩, { pEE with m_pTopValue := some v }, rfl, ?_⟩
      rw [result, herr]
      rfl
    | listElements l => exact end_noComma htop rfl rfl rfl rfl
    | objectPairs o => exact end_noComma htop rfl rfl rfl rfl
    | listComma l => exact end_comma rfl rfl rfl rfl
    | objectComma o => exact end_comma rfl rfl rfl rfl
    | _ => exact end_error rfl

theorem readAll_cons (fs : List Frame) (t : Token) (T : List Token) :
    readAll fs (t :: T) =
      if limit < peak fs t then readAll [] T
      else
        match read fs t with
        | some fs' => readAll fs' T
        | none => none := by
  rw [readAll]

/-- After an error the loop ends with the next token, whatever it is. -/
theorem jjparseLoop_error {text : List UInt8} {T : List Token} {b : Bool}
    (h : JSONScanner.Scans text T b) {p : Parser} {pEE : JSONExecEnv}
    (herr : pEE.bSyntaxError = true) (fuel : Nat) :
    jjparseLoop (fuel + 1) text p pEE = some (p, pEE) := by
  rw [jjparseLoop]
  cases h with
  | eof h | stray h | unterminated h => rw [jjlex, h]
  | token h _ =>
    rw [jjlex, h]
    exact if_pos herr

/-- The loop of `jjparse`, by induction on what the scanner finds: the tokens are read up to the
first error, and then the end of the input is. -/
theorem jjparseLoop_reads {text : List UInt8} {T : List Token} {b : Bool}
    (h : JSONScanner.Scans text T b) : ∀ {fs : List Frame} {st : List Entry} {n : Int}
      {pEE : JSONExecEnv} {fuel : Nat}, Nested fs → height fs ≤ limit → Represents pEE st fs →
      n ≤ 0 → pEE.bSyntaxError = false → pEE.m_pTopValue = none → T.length < fuel →
      ∃ p pEE' p' pEE'', jjparseLoop fuel text ⟨st, n⟩ pEE = some (p, pEE') ∧
        parse none p pEE' = some (p', pEE'') ∧ result pEE'' = readAll fs T := by
  have hlast : ∀ {text : List UInt8}, jjlex text = some none → ∀ {fs : List Frame}
      {st : List Entry} {n : Int} {pEE : JSONExecEnv} {fuel : Nat}, Nested fs →
      Represents pEE st fs → pEE.bSyntaxError = false → pEE.m_pTopValue = none → 0 < fuel →
      ∃ p pEE' p' pEE'', jjparseLoop fuel text ⟨st, n⟩ pEE = some (p, pEE') ∧
        parse none p pEE' = some (p', pEE'') ∧ result pEE'' = readAll fs [] := by
    intro text hlex fs st n pEE fuel hnest hrep herr htop hfuel
    obtain ⟨p', pEE', hparse, hresult⟩ := parse_end (n := n) hnest hrep herr htop
    obtain ⟨fuel, rfl⟩ := Nat.exists_eq_succ_of_ne_zero (Nat.ne_of_gt hfuel)
    refine ⟨⟨st, n⟩, pEE, p', pEE', ?_, hparse, hresult⟩
    rw [jjparseLoop, hlex]
  induction h with
  | eof h =>
    intro fs st n pEE fuel hnest _ hrep _ herr htop hfuel
    exact hlast (by rw [jjlex, h]) hnest hrep herr htop hfuel
  | stray h =>
    intro fs st n pEE fuel hnest _ hrep _ herr htop hfuel
    exact hlast (by rw [jjlex, h]) hnest hrep herr htop hfuel
  | unterminated h =>
    intro fs st n pEE fuel hnest _ hrep _ herr htop hfuel
    exact hlast (by rw [jjlex, h]) hnest hrep herr htop hfuel
  | @token text t cur T b h hrest ih =>
    intro fs st n pEE fuel hnest hroom hrep hn herr htop hfuel
    obtain ⟨fuel, rfl⟩ := Nat.exists_eq_succ_of_ne_zero (Nat.ne_of_gt (Nat.zero_lt_of_lt hfuel))
    have hlex : jjlex text = some (some (t, cur)) := by rw [jjlex, h]
    obtain ⟨⟨st', n'⟩, pEE', hparse, hfollows⟩ := parse_frames hnest hroom hrep hn t
    have hloop : jjparseLoop (fuel + 1) text ⟨st, n⟩ pEE =
        jjparseLoop fuel cur ⟨st', n'⟩ pEE' := by
      rw [jjparseLoop, hlex]
      simp only [herr, hparse, Bool.false_eq_true, if_false]
    have hfuel' : T.length < fuel := Nat.lt_of_succ_lt_succ hfuel
    rw [hloop, readAll_cons]
    by_cases hover : limit < peak fs t
    · rw [if_pos hover] at hfollows ⊢
      obtain ⟨hempty, hn', rfl⟩ := hfollows
      have hst : st' = stack [] := hempty
      have hrep' : Represents pEE' st' [] := hst ▸ .of_stack pEE' []
      exact ih nested_nil (Nat.zero_le _) hrep' hn' herr htop hfuel'
    · rw [if_neg hover] at hfollows ⊢
      cases hread : read fs t with
      | some fs' =>
        rw [hread] at hfollows
        obtain ⟨hrep', hn', rfl⟩ := hfollows
        have hreads := Reads.of_read hread
        have hle := hreads.height_le hnest
        have hpeak := height_lt_peak hread
        exact ih (hreads.nested hnest) (by omega) hrep' hn' herr htop hfuel'
      | none =>
        rw [hread] at hfollows
        obtain ⟨herr', hends⟩ := hfollows
        obtain ⟨p'', pEE'', hend, hkeep⟩ := hends pEE'
        obtain ⟨fuel, rfl⟩ := Nat.exists_eq_succ_of_ne_zero
          (Nat.ne_of_gt (Nat.zero_lt_of_lt hfuel'))
        refine ⟨_, _, p'', pEE'', jjparseLoop_error hrest herr' fuel, hend, ?_⟩
        exact if_pos (hkeep herr')

/-- **The reader on a text**: `readAll` of its tokens. -/
theorem readAndParse_reads {text : List UInt8} {T : List Token} {b : Bool}
    (h : JSONScanner.Scans text T b) (error_message : List UInt8) :
    ∃ message, readAndParseJSONFromString text error_message = some (readAll [] T, message) := by
  have hrep : Represents .init [] [] := .of_stack .init []
  have hn : (-1 : Int) ≤ 0 := by decide
  obtain ⟨p, pEE, p', pEE', hloop, hend, hresult⟩ := jjparseLoop_reads h nested_nil
    (Nat.zero_le _) hrep hn rfl rfl (Nat.lt_succ_of_le h.length_le)
  have hloop' : jjparseLoop (text.length + 1) text Lemon.Tables.init
      { ({ JSONExecEnv.init with m_pError := [] } : JSONExecEnv) with bSyntaxError := false } =
      some (p, pEE) := hloop
  rw [readAndParseJSONFromString, parseJSON, jjparse, hloop']
  simp only [hend]
  rw [result] at hresult
  cases herr : pEE'.bSyntaxError with
  | true =>
    rw [herr, if_pos rfl] at hresult
    rw [← hresult]
    exact ⟨_, rfl⟩
  | false =>
    rw [herr] at hresult
    rw [← hresult]
    exact ⟨_, rfl⟩

end JSONParser

end Emdros
