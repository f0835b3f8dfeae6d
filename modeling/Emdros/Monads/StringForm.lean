/-
# The string form of a set of monads (`SetOfMonads::toString`, `SetOfMonads::fromString`)

`toString` prints the elements between braces with commas between them, and an element as its one
monad or as its borders with a hyphen.  `fromString` is a machine that reads one character after
the other and never rejects one.  What the one prints the other reads, digit by digit, number by
number, element by element.

The machine holds the two borders of an element that is being read, `-1` where none has been, and
the set so far.  `run_first` and `run_last` follow it through a number, `run_putme` through an
element and `run_putElements` through all of them: there the set so far becomes the set with the
element added, and adding the elements of a set in order to the empty one gives the set again.
-/
import Emdros.Monads.Store

namespace Emdros

/-! ## 1. Printing -/

/-- What `ostream <<` prints of a monad. -/
def monadString (m : Int) : List Char := (toString m).toList

/-- `putme`. -/
def MonadSetElement.putme (e : MonadSetElement) : List Char :=
  if e.firstM = e.lastM then monadString e.firstM
  else monadString e.firstM ++ '-' :: monadString e.lastM

namespace SetOfMonads

/-- The loop of `putme`. -/
def putElements : List MonadSetElement → List Char
  | [] => []
  | [e] => e.putme
  | e :: rest => e.putme ++ ',' :: ' ' :: putElements rest

/-- `toString()`, which uses `putme`. -/
def toString (s : SetOfMonads) : List Char :=
  [' ', '\x7b', ' '] ++ (putElements s.monadMs ++ [' ', '\x7d', ' '])

/-! ## 2. Numbers -/

/-- A monad that is not negative is printed with digits. -/
theorem monadString_natCast (n : Nat) : monadString n = Nat.toDigits 10 n := Nat.toList_repr

namespace FromString

theorem isDigit_toNat {c : Char} (hc : c.isDigit = true) : 48 ≤ c.toNat ∧ c.toNat ≤ 57 := by
  simp only [Char.isDigit, Bool.and_eq_true, decide_eq_true_eq, ge_iff_le, UInt32.le_iff_toNat_le]
    at hc
  exact hc

theorem isDigit_ne {c d : Char} (hc : c.isDigit = true) (hd : d.isDigit = false) : c ≠ d := by
  rintro rfl
  rw [hc] at hd
  cases hd

/-- A digit is appended to the number that is being read. -/
theorem step_digit (v : FromString) {c : Char} (hc : c.isDigit = true) :
    v.step c = match v.state with
      | .kFirst => some { v with first := digit v.first c }
      | .kLast => some { v with last := digit v.last c }
      | _ => some v := by
  unfold step
  rw [if_neg (isDigit_ne hc (by decide)), if_neg (isDigit_ne hc (by decide)),
    if_neg (isDigit_ne hc (by decide)), if_neg (isDigit_ne hc (by decide))]
  exact if_pos hc

/-- Digits after the first. -/
theorem foldl_digit (cs : List Char) : ∀ acc : Nat, (∀ c ∈ cs, c.isDigit = true) →
    cs.foldl digit (acc : Int) = (Nat.ofDigitChars 10 cs acc : Nat) := by
  induction cs with
  | nil =>
    intro acc _
    simp
  | cons c cs ih =>
    intro acc hcs
    have hc := isDigit_toNat (hcs c List.mem_cons_self)
    have hone : digit (acc : Int) c = ((10 * acc + (c.toNat - '0'.toNat) : Nat) : Int) := by
      have hzero : '0'.toNat = 48 := rfl
      rw [digit, if_neg (by omega), hzero]
      omega
    rw [List.foldl_cons, hone, ih _ fun d hd => hcs d (List.mem_cons_of_mem c hd),
      Nat.ofDigitChars_cons]

/-- **A number is read back.**  `-1` stands for a number of which nothing has been read. -/
theorem foldl_digit_monadString (n : Nat) : (monadString n).foldl digit (-1) = n := by
  rw [monadString_natCast]
  have hdigits : ∀ c ∈ Nat.toDigits 10 n, c.isDigit = true := fun c hc =>
    Nat.isDigit_of_mem_toDigits (by decide) (by decide) hc
  have hvalue := Nat.ofDigitChars_ten_toDigits (n := n)
  cases hcs : Nat.toDigits 10 n with
  | nil => exact absurd hcs Nat.toDigits_ne_nil
  | cons c cs =>
    rw [hcs] at hdigits hvalue
    have hc := isDigit_toNat (hdigits c List.mem_cons_self)
    have hone : digit (-1) c = ((c.toNat - '0'.toNat : Nat) : Int) := by
      have hzero : '0'.toNat = 48 := rfl
      rw [digit, if_pos rfl, hzero]
      omega
    rw [List.foldl_cons, hone, foldl_digit cs _ fun d hd => hdigits d (List.mem_cons_of_mem c hd),
      ← hvalue, Nat.ofDigitChars_cons, Nat.mul_zero, Nat.zero_add]

theorem isDigit_monadString {n : Nat} {c : Char} (hc : c ∈ monadString n) : c.isDigit = true := by
  rw [monadString_natCast] at hc
  exact Nat.isDigit_of_mem_toDigits (by decide) (by decide) hc

/-- Digits in the state in which the first number is read. -/
theorem run_first (last : Int) (som : SetOfMonads) (cs : List Char) : ∀ first : Int,
    (∀ c ∈ cs, c.isDigit = true) →
      Machine.run step ⟨.kFirst, first, last, som⟩ cs
        = some ⟨.kFirst, cs.foldl digit first, last, som⟩ := by
  induction cs with
  | nil => exact fun _ _ => rfl
  | cons c cs ih =>
    intro first hcs
    have hstep := step_digit ⟨.kFirst, first, last, som⟩ (hcs c List.mem_cons_self)
    rw [Machine.run_cons, hstep, Option.bind_some, List.foldl_cons]
    exact ih _ fun d hd => hcs d (List.mem_cons_of_mem c hd)

/-- Digits in the state in which the last number is read. -/
theorem run_last (first : Int) (som : SetOfMonads) (cs : List Char) : ∀ last : Int,
    (∀ c ∈ cs, c.isDigit = true) →
      Machine.run step ⟨.kLast, first, last, som⟩ cs
        = some ⟨.kLast, first, cs.foldl digit last, som⟩ := by
  induction cs with
  | nil => exact fun _ _ => rfl
  | cons c cs ih =>
    intro last hcs
    have hstep := step_digit ⟨.kLast, first, last, som⟩ (hcs c List.mem_cons_self)
    rw [Machine.run_cons, hstep, Option.bind_some, List.foldl_cons]
    exact ih _ fun d hd => hcs d (List.mem_cons_of_mem c hd)

/-! ## 3. Elements -/

/-- The state before an element. -/
def before (som : SetOfMonads) : FromString := ⟨.kFirst, -1, -1, som⟩

/-- The state after an element is one that `,` and `}` add it from. -/
theorem run_putme {e : MonadSetElement} (h : InRange e) (som : SetOfMonads) :
    ∃ v, Machine.run step (before som) e.putme = some v ∧ v.flush = some (som.addMSE e) := by
  have hfl := e.first_le_last
  obtain ⟨n, hn⟩ := Int.eq_ofNat_of_zero_le h.1
  obtain ⟨k, hk⟩ := Int.eq_ofNat_of_zero_le (le_trans h.1 hfl)
  have hfirst : Machine.run step (before som) (monadString e.firstM)
      = some ⟨.kFirst, e.firstM, -1, som⟩ := by
    have hread : (monadString e.firstM).foldl digit (-1) = e.firstM := by
      rw [hn]
      exact foldl_digit_monadString n
    have hrun := run_first (-1) som (monadString e.firstM) (-1) fun c hc =>
      isDigit_monadString (n := n) (hn ▸ hc)
    rw [hread] at hrun
    exact hrun
  unfold MonadSetElement.putme
  split
  · rename_i heq
    refine ⟨_, hfirst, ?_⟩
    have hsingle : MonadSetElement.single e.firstM = e := MonadSetElement.ext_bounds rfl heq
    change (if e.firstM ≠ -1 then some (som.addMonad e.firstM) else some som) = _
    rw [if_pos (by omega), addMonad, hsingle]
  · rename_i hne
    refine ⟨⟨.kLast, e.firstM, e.lastM, som⟩, ?_, ?_⟩
    · have hread : (monadString e.lastM).foldl digit (-1) = e.lastM := by
        rw [hk]
        exact foldl_digit_monadString k
      have hrun := run_last e.firstM som (monadString e.lastM) (-1) fun c hc =>
        isDigit_monadString (n := k) (hk ▸ hc)
      rw [hread] at hrun
      rw [Machine.run_append, hfirst, Option.bind_some, Machine.run_cons]
      exact hrun
    · change (if e.firstM ≠ -1 ∧ e.lastM ≠ -1 then som.add e.firstM e.lastM else some som) = _
      rw [if_pos (by omega), add, MonadSetElement.range_of_le hfl]
      rfl

/-- **The elements are added one after the other**, up to the brace. -/
theorem run_putElements : ∀ (l : List MonadSetElement) (som : SetOfMonads), (∀ e ∈ l, InRange e) →
    ∃ v, Machine.run step (before som) (putElements l ++ [' ', '\x7d', ' ']) = some v ∧
      v.som = l.foldl addMSE som
  | [], som, _ => ⟨_, rfl, rfl⟩
  | [e], som, hin => by
    obtain ⟨v, hrun, hflush⟩ := run_putme (hin e List.mem_cons_self) som
    refine ⟨{ v with state := .kFinished, som := som.addMSE e }, ?_, rfl⟩
    rw [putElements, Machine.run_append, hrun, Option.bind_some]
    have hblank : v.step ' ' = some v := rfl
    have hbrace : v.step '\x7d' = v.flush.map fun som => { v with state := .kFinished, som := som } :=
      rfl
    rw [Machine.run_cons, hblank, Option.bind_some, Machine.run_cons, hbrace, hflush]
    rfl
  | e :: e' :: rest, som, hin => by
    obtain ⟨v, hrun, hflush⟩ := run_putme (hin e List.mem_cons_self) som
    obtain ⟨v', hrun', hsom⟩ := run_putElements (e' :: rest) (som.addMSE e)
      fun f hf => hin f (List.mem_cons_of_mem e hf)
    refine ⟨v', ?_, hsom⟩
    have hcomma : v.step ',' = v.flush.map before := rfl
    have hblank : (before (som.addMSE e)).step ' ' = some (before (som.addMSE e)) := rfl
    rw [putElements, List.append_assoc, Machine.run_append, hrun, Option.bind_some,
      List.cons_append, List.cons_append, Machine.run_cons, hcomma, hflush, Option.map_some,
      Option.bind_some, Machine.run_cons, hblank, Option.bind_some, hrun']
    · exact fun h => by cases h

end FromString

/-! ## 4. The round trip -/

/-- What is printed is read back, whatever was in the set that reads it. -/
theorem fromString_toString (r : SetOfMonads) {s : SetOfMonads} (h : s.RepInv) :
    r.fromString s.toString = some s := by
  obtain ⟨v, hrun, hsom⟩ := FromString.run_putElements s.monadMs empty h.inRange
  have hstart : Machine.run FromString.step FromString.start s.toString = some v := by
    rw [toString, Machine.run_append]
    exact hrun
  rw [fromString, hstart, Option.map_some, hsom, h.foldl_addMSE]

/-- **The human-readable form loses nothing**: it is read back, it tells sets apart, and it is
printed again from what has been read. -/
theorem stringForm_lossless {s : SetOfMonads} (h : s.RepInv) :
    (∀ r : SetOfMonads, ∃ t, r.fromString s.toString = some t ∧ t.equal s = true ∧
      t.toString = s.toString) ∧
      ∀ t : SetOfMonads, t.RepInv → t.toString = s.toString → t.equal s = true := by
  have hequal : s.equal s = true := (equal_iff h h).mpr rfl
  refine ⟨fun r => ⟨s, fromString_toString r h, hequal, rfl⟩, fun t ht hts => ?_⟩
  have hread := fromString_toString empty ht
  rw [hts, fromString_toString empty h] at hread
  cases hread
  exact hequal

/-- A singleton, a range and the greatest monad there is. -/
theorem stringForm_lossless_three :
    ∃ t, empty.fromString (toString ⟨[⟨1, 1, by decide⟩, ⟨3, 5, by decide⟩,
        ⟨2100000000, 2100000000, by decide⟩], 1, 2100000000⟩) = some t ∧
      t.equal ⟨[⟨1, 1, by decide⟩, ⟨3, 5, by decide⟩, ⟨2100000000, 2100000000, by decide⟩],
        1, 2100000000⟩ = true ∧
      t.toString = toString ⟨[⟨1, 1, by decide⟩, ⟨3, 5, by decide⟩,
        ⟨2100000000, 2100000000, by decide⟩], 1, 2100000000⟩ :=
  (stringForm_lossless
    (s := ⟨[⟨1, 1, by decide⟩, ⟨3, 5, by decide⟩, ⟨2100000000, 2100000000, by decide⟩],
      1, 2100000000⟩) (by decide)).1 empty

end SetOfMonads

end Emdros
