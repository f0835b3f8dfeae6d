/-
# Scanners that take the longest match

A scanner made by a generator is a list of rules, each a regular expression with an action.  At
each step it takes the rule that matches the longest piece of what is left of the text, and of
several such rules the first.

The expressions are matched by derivatives.  `Settled` says that the characters read so far have
decided an expression, whatever comes after them; `best_append` is how facts about a single token
are carried to any text that begins with it.
-/

universe u v

namespace Lexer

/-- Regular expressions over a type of characters; `cls` takes one character of a class. -/
inductive Regex (β : Type u) where
  | empty
  | eps
  | cls (c : β → Bool)
  | seq (r s : Regex β)
  | alt (r s : Regex β)
  | star (r : Regex β)

namespace Regex

variable {β : Type u}

/-- The empty text is in the language. -/
def nullable : Regex β → Bool
  | empty => false
  | eps => true
  | cls _ => false
  | seq r s => r.nullable && s.nullable
  | alt r s => r.nullable || s.nullable
  | star _ => true

/-- `seq`, simplified where its first part says all. -/
def seqOf : Regex β → Regex β → Regex β
  | empty, _ => empty
  | eps, s => s
  | r, s => seq r s

/-- `alt`, with an empty side left out. -/
def altOf : Regex β → Regex β → Regex β
  | empty, s => s
  | r, empty => r
  | r, s => alt r s

/-- What may follow a character. -/
def deriv (x : β) : Regex β → Regex β
  | empty => empty
  | eps => empty
  | cls c => if c x then eps else empty
  | seq r s =>
    if r.nullable then altOf (seqOf (deriv x r) s) (deriv x s) else seqOf (deriv x r) s
  | alt r s => altOf (deriv x r) (deriv x s)
  | star r => seqOf (deriv x r) (star r)

/-- The expression for no text at all. -/
def isEmpty : Regex β → Bool
  | empty => true
  | _ => false

/-- The length of the longest match at the beginning of a text. -/
def longest (r : Regex β) : List β → Option Nat
  | [] => if r.nullable then some 0 else none
  | x :: xs =>
    if r.isEmpty then none
    else
      match (deriv x r).longest xs with
      | some n => some (n + 1)
      | none => if r.nullable then some 0 else none

/-- No more characters are needed to know the longest match. -/
def settled (r : Regex β) : List β → Bool
  | [] =>
    match r with
    | empty => true
    | eps => true
    | _ => false
  | x :: xs => if r.isEmpty then true else (deriv x r).settled xs

@[simp] theorem longest_empty (xs : List β) : (empty : Regex β).longest xs = none := by
  cases xs <;> rfl

@[simp] theorem longest_eps (xs : List β) : (eps : Regex β).longest xs = some 0 := by
  cases xs with
  | nil => rfl
  | cons x xs => simp [longest, isEmpty, deriv, nullable]

/-- **A settled expression** has the same longest match in any continuation. -/
theorem longest_append {xs : List β} (rest : List β) : ∀ {r : Regex β}, r.settled xs = true →
    r.longest (xs ++ rest) = r.longest xs := by
  induction xs with
  | nil =>
    intro r h
    cases r with
    | empty => simp
    | eps => simp
    | _ => cases h
  | cons x xs ih =>
    intro r h
    rw [settled] at h
    rw [List.cons_append, longest, longest]
    split
    · rfl
    · rename_i hne
      rw [if_neg hne] at h
      rw [ih h]

end Regex

variable {β : Type u} {α : Type v}

/-- The longest match of all the rules, and the action of the first rule that has it. -/
def best : List (Regex β × α) → List β → Option (Nat × α)
  | [], _ => none
  | (r, a) :: rules, xs =>
    match r.longest xs, best rules xs with
    | none, b => b
    | some n, none => some (n, a)
    | some n, some (m, b) => if m > n then some (m, b) else some (n, a)

/-- **A token that settles every rule** is taken from any text that begins with it. -/
theorem best_append {xs : List β} (rest : List β) {rules : List (Regex β × α)}
    (h : ∀ p ∈ rules, p.1.settled xs = true) : best rules (xs ++ rest) = best rules xs := by
  induction rules with
  | nil => rfl
  | cons p rules ih =>
    rw [best, best, Regex.longest_append rest (h p List.mem_cons_self),
      ih fun q hq => h q (List.mem_cons_of_mem _ hq)]

/-- The rules take a piece of text as a whole, for one action, whatever follows it. -/
def fixes [DecidableEq α] (rules : List (Regex β × α)) (piece : List β) (a : α) : Bool :=
  rules.all (fun p => p.1.settled piece) && best rules piece == some (piece.length, a)

theorem best_of_fixes [DecidableEq α] {rules : List (Regex β × α)} {piece : List β} {a : α}
    (h : fixes rules piece a = true) (rest : List β) :
    best rules (piece ++ rest) = some (piece.length, a) := by
  rw [fixes, Bool.and_eq_true, List.all_eq_true, beq_iff_eq] at h
  rw [best_append rest h.1, h.2]

/-- What is taken is a match of one of the rules. -/
theorem exists_of_best {rules : List (Regex β × α)} {xs : List β} {n : Nat} {a : α}
    (h : best rules xs = some (n, a)) : ∃ r, (r, a) ∈ rules ∧ r.longest xs = some n := by
  induction rules generalizing n a with
  | nil => cases h
  | cons p rules ih =>
    obtain ⟨r, b⟩ := p
    rw [best] at h
    split at h
    · obtain ⟨r', hmem, hr'⟩ := ih h
      exact ⟨r', List.mem_cons_of_mem _ hmem, hr'⟩
    · rename_i hr _
      cases h
      exact ⟨r, List.mem_cons_self, hr⟩
    · rename_i hr hb
      split at h
      · cases h
        obtain ⟨r', hmem, hr'⟩ := ih hb
        exact ⟨r', List.mem_cons_of_mem _ hmem, hr'⟩
      · cases h
        exact ⟨r, List.mem_cons_self, hr⟩

/-- Where a rule matches, a match that is no shorter is taken. -/
theorem exists_best {rules : List (Regex β × α)} {xs : List β} {p : Regex β × α} {n : Nat}
    (hp : p ∈ rules) (h : p.1.longest xs = some n) :
    ∃ m b, best rules xs = some (m, b) ∧ n ≤ m := by
  induction rules with
  | nil => cases hp
  | cons q rules ih =>
    obtain ⟨r, a⟩ := q
    rw [best]
    rcases List.mem_cons.mp hp with rfl | hp
    · rw [h]
      cases best rules xs with
      | none => exact ⟨n, a, rfl, Nat.le_refl n⟩
      | some b =>
        by_cases hlt : b.1 > n
        · exact ⟨b.1, b.2, if_pos hlt, Nat.le_of_lt hlt⟩
        · exact ⟨n, a, if_neg hlt, Nat.le_refl n⟩
    · obtain ⟨m, b, hb, hle⟩ := ih hp
      rw [hb]
      cases r.longest xs with
      | none => exact ⟨m, b, rfl, hle⟩
      | some k =>
        by_cases hlt : m > k
        · exact ⟨m, b, if_pos hlt, hle⟩
        · exact ⟨k, a, if_neg hlt, Nat.le_trans hle (Nat.not_lt.mp hlt)⟩

/-- A rule is taken where none before it matches and none after it matches more. -/
theorem best_of_longest {before after : List (Regex β × α)} {r : Regex β} {a : α} {xs : List β}
    {n : Nat} (hbefore : ∀ p ∈ before, p.1.longest xs = none) (h : r.longest xs = some n)
    (hafter : ∀ p ∈ after, ∀ m, p.1.longest xs = some m → m ≤ n) :
    best (before ++ (r, a) :: after) xs = some (n, a) := by
  induction before with
  | nil =>
    rw [List.nil_append, best, h]
    cases hb : best after xs with
    | none => rfl
    | some p =>
      obtain ⟨r', hmem, hr'⟩ := exists_of_best hb
      exact if_neg (Nat.not_lt.mpr (hafter _ hmem _ hr'))
  | cons p before ih =>
    rw [List.cons_append, best, hbefore p List.mem_cons_self]
    exact ih fun q hq => hbefore q (List.mem_cons_of_mem _ hq)

/-- After the piece no rule before one matches, and none after it goes on. -/
def decidesAfter (before after : List (Regex β × α)) (piece : List β) : Bool :=
  before.all (fun p => p.1.settled piece && p.1.longest piece == none) &&
    after.all fun p =>
      p.1.settled piece && match p.1.longest piece with | none => true | some m => m ≤ piece.length

theorem best_of_decidesAfter {before after : List (Regex β × α)} {r : Regex β} {a : α}
    {piece : List β} (hpiece : decidesAfter before after piece = true) {xs : List β} {n : Nat}
    (hn : piece.length ≤ n) (h : r.longest (piece ++ xs) = some n) :
    best (before ++ (r, a) :: after) (piece ++ xs) = some (n, a) := by
  rw [decidesAfter, Bool.and_eq_true, List.all_eq_true, List.all_eq_true] at hpiece
  obtain ⟨hbefore, hafter⟩ := hpiece
  refine best_of_longest (fun p hp => ?_) h fun p hp m hm => ?_
  · have hp' := hbefore p hp
    rw [Bool.and_eq_true, beq_iff_eq] at hp'
    rw [Regex.longest_append xs hp'.1, hp'.2]
  · have hp' := hafter p hp
    rw [Bool.and_eq_true] at hp'
    rw [Regex.longest_append xs hp'.1] at hm
    rw [hm] at hp'
    exact Nat.le_trans (of_decide_eq_true hp'.2) hn

/-- At the character no rule before one matches, and none after it goes on. -/
def decides (before after : List (Regex β × α)) (x : β) : Bool :=
  before.all (fun p => p.1.settled [x] && p.1.longest [x] == none) &&
    after.all fun p =>
      p.1.settled [x] && match p.1.longest [x] with | none => true | some m => m ≤ 1

theorem best_of_decides {before after : List (Regex β × α)} {r : Regex β} {a : α} {x : β}
    (hx : decides before after x = true) {xs : List β} {n : Nat} (hn : 1 ≤ n)
    (h : r.longest (x :: xs) = some n) :
    best (before ++ (r, a) :: after) (x :: xs) = some (n, a) :=
  best_of_decidesAfter (show decidesAfter before after [x] = true from hx) hn h

/-- The class of the first character, where an expression begins with one. -/
def Regex.head : Regex β → Option (β → Bool)
  | .cls c => some c
  | .seq (.cls c) _ => some c
  | _ => none

/-- An expression does not match where its first character does not. -/
theorem longest_of_head {r : Regex β} {c : β → Bool} {x : β} (h : r.head = some c)
    (hx : c x = false) (xs : List β) : r.longest (x :: xs) = none := by
  have hempty : r.deriv x = .empty ∧ r.nullable = false := by
    cases r with
    | cls d =>
      cases h
      simp [Regex.deriv, Regex.nullable, hx]
    | seq r s =>
      cases r with
      | cls d =>
        cases h
        simp [Regex.deriv, Regex.nullable, Regex.seqOf, hx]
      | _ => cases h
    | _ => cases h
  rw [Regex.longest, hempty.1, hempty.2, Regex.longest_empty]
  simp

/-- A rule is taken where the first character of every other rule is another. -/
theorem best_of_heads {rules : List (Regex β × α)} {r : Regex β} {a : α} {x : β} {xs : List β}
    {n : Nat} (hmem : (r, a) ∈ rules)
    (hothers : ∀ p ∈ rules, p = (r, a) ∨ ∃ c, p.1.head = some c ∧ c x = false)
    (h : r.longest (x :: xs) = some n) : best rules (x :: xs) = some (n, a) := by
  obtain ⟨m, b, hb, -⟩ := exists_best hmem h
  obtain ⟨r', hr', hm⟩ := exists_of_best hb
  rcases hothers _ hr' with heq | ⟨c, hc, hx⟩
  · cases heq
    rw [h] at hm
    cases hm
    exact hb
  · rw [longest_of_head hc hx xs] at hm
    cases hm

/-- A class matches one character. -/
theorem longest_cls (c : β → Bool) (x : β) (xs : List β) :
    (Regex.cls c).longest (x :: xs) = if c x then some 1 else none := by
  rw [Regex.longest, Regex.deriv]
  by_cases hx : c x
  · simp [Regex.isEmpty, hx]
  · simp [Regex.isEmpty, hx, Regex.nullable]

/-! ## Expressions -/

/-- One of the characters. -/
def oneOf [BEq β] (cs : List β) : Regex β := .cls fun x => cs.contains x

/-- The given characters, one after the other. -/
def literal [BEq β] (cs : List β) : Regex β :=
  cs.foldr (fun c r => Regex.seqOf (.cls fun x => x == c) r) .eps

/-- One expression after the other. -/
def sequence (rs : List (Regex β)) : Regex β := rs.foldr Regex.seqOf .eps

/-- Classes one after the other match their characters, by induction on the classes. -/
theorem longest_sequence (rest : List β) {ps : List ((β → Bool) × β)}
    (h : ∀ p ∈ ps, p.1 p.2 = true) :
    (sequence (ps.map fun p => .cls p.1)).longest (ps.map Prod.snd ++ rest) = some ps.length := by
  induction ps with
  | nil => exact Regex.longest_eps rest
  | cons p ps ih =>
    have hp := h p List.mem_cons_self
    have hderiv : (sequence (.cls p.1 :: ps.map fun p => .cls p.1)).deriv p.2 =
        sequence (ps.map fun p => .cls p.1) := by
      simp [sequence, Regex.seqOf, Regex.deriv, Regex.nullable, hp]
    rw [List.map_cons, List.map_cons, List.cons_append, Regex.longest, hderiv,
      ih fun q hq => h q (List.mem_cons_of_mem p hq)]
    rfl

/-- Classes are one match, after a piece that decides for them. -/
theorem best_of_classes {rules before after : List (Regex β × α)} {a : α}
    {ps : List ((β → Bool) × β)} {piece tail : List β}
    (hrules : rules = before ++ (sequence (ps.map fun p => .cls p.1), a) :: after)
    (hpiece : decidesAfter before after piece = true) (hps : ps.map Prod.snd = piece ++ tail)
    (hclasses : ∀ p ∈ ps, p.1 p.2 = true) (rest : List β) :
    best rules (piece ++ (tail ++ rest)) = some (ps.length, a) := by
  have hlongest := longest_sequence rest hclasses
  have hlen : piece.length ≤ ps.length := by
    have h := congrArg List.length hps
    rw [List.length_map, List.length_append] at h
    omega
  rw [hps, List.append_assoc] at hlongest
  rw [hrules]
  exact best_of_decidesAfter hpiece hlen hlongest

/-- From one to `n + 1` times. -/
def upTo (r : Regex β) : Nat → Regex β
  | 0 => r
  | n + 1 => Regex.seqOf r (.alt (upTo r n) .eps)

/-- At least once. -/
def plus (r : Regex β) : Regex β := Regex.seqOf r (.star r)

/-- Repetition takes all there is, as long as it is not too much. -/
theorem longest_upTo (c : β → Bool) {rest : List β} (hrest : ∀ x ∈ rest.head?, c x = false) :
    ∀ {n : Nat} {xs : List β}, xs.length ≤ n + 1 → (∀ x ∈ xs, c x = true) →
      (Regex.alt (upTo (.cls c) n) .eps).longest (xs ++ rest) = some xs.length := by
  have hderiv : ∀ (n : Nat) (x : β), (Regex.alt (upTo (.cls c) n) .eps).deriv x =
      if c x then (match n with | 0 => .eps | n + 1 => .alt (upTo (.cls c) n) .eps)
      else .empty := by
    intro n x
    cases n with
    | zero => by_cases hx : c x <;> simp [upTo, Regex.deriv, Regex.altOf, hx]
    | succ n =>
      by_cases hx : c x <;>
        simp [upTo, Regex.seqOf, Regex.deriv, Regex.nullable, Regex.altOf, hx]
  intro n
  induction n with
  | zero =>
    intro xs hlen hxs
    cases xs with
    | nil =>
      cases rest with
      | nil => rfl
      | cons x rest =>
        have hx := hrest x rfl
        rw [List.nil_append, Regex.longest, hderiv]
        simp [Regex.isEmpty, Regex.nullable, hx]
    | cons x xs =>
      have hnil : xs = [] := List.length_eq_zero_iff.mp (Nat.le_zero.mp (Nat.le_of_succ_le_succ hlen))
      rw [List.cons_append, Regex.longest, hderiv]
      simp [Regex.isEmpty, hxs x List.mem_cons_self, hnil]
  | succ n ih =>
    intro xs hlen hxs
    cases xs with
    | nil =>
      cases rest with
      | nil => rfl
      | cons x rest =>
        have hx := hrest x rfl
        rw [List.nil_append, Regex.longest, hderiv]
        simp [Regex.isEmpty, Regex.nullable, hx]
    | cons x xs =>
      have hxs' := ih (Nat.le_of_succ_le_succ hlen) fun y hy => hxs y (List.mem_cons_of_mem _ hy)
      rw [List.cons_append, Regex.longest, hderiv]
      simp [Regex.isEmpty, hxs x List.mem_cons_self, hxs']

/-- ...but at least once. -/
theorem longest_upTo_of_ne_nil (c : β → Bool) {rest : List β}
    (hrest : ∀ x ∈ rest.head?, c x = false) {n : Nat} {xs : List β} (hne : xs ≠ [])
    (hlen : xs.length ≤ n + 2) (hxs : ∀ x ∈ xs, c x = true) :
    (upTo (.cls c) (n + 1)).longest (xs ++ rest) = some xs.length := by
  cases xs with
  | nil => exact absurd rfl hne
  | cons x xs =>
    have hx := hxs x List.mem_cons_self
    have hmore : (Regex.alt (upTo (.cls c) n) .eps).longest (xs ++ rest) = some xs.length :=
      longest_upTo c hrest (Nat.le_of_succ_le_succ hlen)
        fun y hy => hxs y (List.mem_cons_of_mem x hy)
    rw [List.cons_append, upTo, Regex.longest]
    simp [Regex.seqOf, Regex.isEmpty, Regex.deriv, Regex.nullable, hx, hmore]

/-- A literal matches itself. -/
theorem prefix_of_longest_literal [BEq β] [LawfulBEq β] {w xs : List β} {n : Nat}
    (h : (literal w).longest xs = some n) : n = w.length ∧ w <+: xs := by
  induction w generalizing xs n with
  | nil =>
    have hzero : n = 0 := by simpa [literal] using h.symm
    exact ⟨hzero, List.nil_prefix⟩
  | cons c w ih =>
    cases xs with
    | nil => cases h
    | cons x xs =>
      have hliteral : literal (c :: w) = Regex.seq (.cls fun x => x == c) (literal w) := rfl
      rw [hliteral, Regex.longest] at h
      by_cases hx : x = c
      · subst hx
        have hderiv : (Regex.seq (.cls fun y => y == x) (literal w)).deriv x = literal w := by
          simp [Regex.deriv, Regex.nullable, Regex.seqOf]
        rw [hderiv] at h
        cases hw : (literal w).longest xs with
        | none => simp [hw, Regex.isEmpty, Regex.nullable] at h
        | some m =>
          obtain ⟨rfl, hpre⟩ := ih hw
          have hn : w.length + 1 = n := by simpa [hw, Regex.isEmpty] using h
          exact ⟨hn.symm, (List.prefix_cons_inj x).mpr hpre⟩
      · have hderiv : (Regex.seq (.cls fun y => y == c) (literal w)).deriv x = .empty := by
          simp [Regex.deriv, Regex.nullable, Regex.seqOf, hx]
        rw [hderiv] at h
        simp [Regex.isEmpty, Regex.nullable] at h

/-- Repetition of a class takes all there is. -/
theorem longest_star (c : β → Bool) (xs : List β) :
    (Regex.star (.cls c)).longest xs = some (xs.takeWhile c).length := by
  induction xs with
  | nil => rfl
  | cons x xs ih =>
    rw [Regex.longest]
    by_cases hx : c x
    · simp [Regex.deriv, Regex.seqOf, Regex.isEmpty, hx, ih]
    · simp [Regex.deriv, Regex.seqOf, Regex.isEmpty, Regex.nullable, hx]

/-- ...and with a first character of its own. -/
theorem longest_seq_star (c d : β → Bool) (x : β) (xs : List β) :
    (Regex.seq (.cls c) (.star (.cls d))).longest (x :: xs) =
      if c x then some ((xs.takeWhile d).length + 1) else none := by
  rw [Regex.longest]
  by_cases hx : c x
  · simp [Regex.deriv, Regex.seqOf, Regex.isEmpty, Regex.nullable, hx, longest_star]
  · simp [Regex.deriv, Regex.seqOf, Regex.isEmpty, Regex.nullable, hx]

/-- The bytes of a text in ASCII. -/
def bytes (s : String) : List UInt8 := s.toList.map fun c => UInt8.ofNat c.toNat

/-- Either case of a letter; any other character stands for itself. -/
def caseless (c : UInt8) : Regex UInt8 :=
  if 97 ≤ c ∧ c ≤ 122 then oneOf [c, c - 32] else oneOf [c]

end Lexer
