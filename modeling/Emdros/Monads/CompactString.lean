/-
# Compact strings (`toCompactString`, `fromCompactString` and their `FM` variants)

A compact string lists the bounds of the elements as differences in base 64, the digit `d`
being the character `'0' + d`, with leading zeros left out.  `'z'` stands before the last monad
of a range and `'y'` between two elements.  The `FM` variant leaves out the first monad of the
set, which its reader is given, and the first `'z'` with it.

The decoders are modelled with checked 32-bit arithmetic: `checked` is `none` for a value that
does not fit, so that a decoder that returns a set has not overflowed anywhere.
-/
import Emdros.Base.Radix
import Emdros.Monads.SetAlgebra
import Mathlib.Data.Int.Bitwise
import Mathlib.Tactic.IntervalCases

namespace Emdros

open SpanList

namespace SetOfMonads

/-! ## 1. The encoders -/

/-- `d + '0'`. -/
def digitChar (d : Int) : Char := Char.ofNat (d + '0'.toNat).toNat

/-- The digits `m5` to `m0`: each is `(m >> shift) & 0x3f`. -/
def digits (m : Int) : List Int :=
  [30, 24, 18, 12, 6, 0].map fun shift => m / 2 ^ shift % 64

/-- One digit of `num2string`, with `bBegun`: leading zeros are not written. -/
def num2stringDigit (v : List Char × Bool) (d : Int) : List Char × Bool :=
  if d > 0 || v.2 then (v.1 ++ [digitChar d], true) else v

/-- `num2string`: append a number to `result`. -/
def num2string (result : List Char) (m : Int) : List Char :=
  ((digits m).foldl num2stringDigit (result, false)).1

/-- The loop of `toCompactString`. -/
def toCompactLoop (result : List Char) (prev : Int) : List MonadSetElement → List Char
  | [] => result
  | mse :: rest =>
    let result := num2string result (mse.firstM - prev)
    let prev := mse.firstM
    let (result, prev) :=
      if mse.lastM ≠ mse.firstM then (num2string (result ++ ['z']) (mse.lastM - prev), mse.lastM)
      else (result, prev)
    toCompactLoop (if rest ≠ [] then result ++ ['y'] else result) prev rest

def toCompactString (s : SetOfMonads) : List Char := toCompactLoop [] 0 s.monadMs

/-- The loop of `toCompactStringFM`. -/
def toCompactLoopFM (isNotFirst : Bool) (result : List Char) (prev : Int) :
    List MonadSetElement → List Char
  | [] => result
  | mse :: rest =>
    let result := if isNotFirst then num2string result (mse.firstM - prev) else result
    let prev := mse.firstM
    let (result, prev) :=
      if mse.lastM ≠ mse.firstM then
        let result := if isNotFirst then result ++ ['z'] else result
        (num2string result (mse.lastM - prev), mse.lastM)
      else (result, prev)
    if rest ≠ [] then toCompactLoopFM true (result ++ ['y']) prev rest
    else toCompactLoopFM isNotFirst result prev rest

def toCompactStringFM (s : SetOfMonads) : List Char :=
  if s.isEmpty then ['z', 'z'] else toCompactLoopFM false [] s.first s.monadMs

/-! ## 2. The decoders -/

/-- A value of a 32-bit `int`; `none` when it overflows. -/
def checked (n : Int) : Option Int := if -2 ^ 31 ≤ n ∧ n < 2 ^ 31 then some n else none

/-- `c - '0'`. -/
def charDigit (c : Char) : Int := c.toNat - '0'.toNat

/-- `cur = (cur<<6) + (c - '0')`. -/
def addDigit (cur : Int) (c : Char) : Option Int :=
  (checked (cur * 64)).bind fun shifted => checked (shifted + charDigit c)

/-- `number <<= 6; number |= c - '0'`. -/
def orDigit (number : Int) (c : Char) : Option Int :=
  (checked (number * 64)).bind fun shifted => checked (shifted.lor (charDigit c))

/-- The local variables of `fromCompactString`, and the set being added to. -/
structure FromCompact where
  prev : Int
  firstM : Int
  cur : Int
  lastSeparator : Char
  som : SetOfMonads

/-- The body of the loop of `fromCompactString`. -/
def FromCompact.step (v : FromCompact) (c : Char) : Option FromCompact :=
  if c = 'y' then
    if v.lastSeparator = 'y' then
      (checked (v.cur + v.prev)).map fun firstM =>
        { prev := firstM, firstM := firstM, cur := 0, lastSeparator := c,
          som := v.som.addMonad firstM }
    else if v.lastSeparator = 'z' then
      (checked (v.cur + v.prev)).bind fun lastM =>
        (v.som.add v.firstM lastM).map fun som =>
          { prev := lastM, firstM := v.firstM, cur := 0, lastSeparator := c, som := som }
    else some { v with lastSeparator := c }
  else if c = 'z' then
    (checked (v.cur + v.prev)).map fun firstM =>
      { prev := firstM, firstM := firstM, cur := 0, lastSeparator := c, som := v.som }
  else (addDigit v.cur c).map fun cur => { v with cur := cur }

/-- What `fromCompactString` does after its loop. -/
def FromCompact.finish (v : FromCompact) : Option SetOfMonads :=
  if v.lastSeparator = 'y' then (checked (v.cur + v.prev)).map v.som.addMonad
  else if v.lastSeparator = 'z' then (checked (v.cur + v.prev)).bind (v.som.add v.firstM)
  else some v.som

/-- `fromCompactString`: add to `s` from a compact string. -/
def fromCompactString (s : SetOfMonads) (inStr : List Char) : Option SetOfMonads :=
  if inStr.isEmpty then some s
  else
    (Machine.run FromCompact.step
      { prev := 0, firstM := 0, cur := 0, lastSeparator := 'y', som := s } inStr).bind
        FromCompact.finish

/-- The two inner loops of `fromCompactStringFM`: read a number up to a separator or the end.
The loop for a last monad puts the separator back; `c` is the last character read. -/
def readNumber (putBack : Bool) (number : Int) (c : Char) : List Char →
    Option (Int × Char × List Char)
  | [] => some (number, c, [])
  | c' :: rest =>
    if c' = 'z' ∨ c' = 'y' then some (number, c', if putBack then c' :: rest else rest)
    else (orDigit number c').bind fun number => readNumber putBack number c' rest

/-- The outer loop of `fromCompactStringFM`, on the part of the string from `i` on.  Every round
reads a character, so the length of the string and one more is fuel enough. -/
def fromCompactLoopFM : Nat → Bool → Char → Int → Int → SetOfMonads → List Char →
    Option SetOfMonads
  | 0, _, _, _, _, _, _ => none
  | _ + 1, _, _, _, _, som, [] => some som
  | fuel + 1, isNotFirst, c, prev, firstM, som, c' :: rest =>
    (if isNotFirst then readNumber false 0 c (c' :: rest)
      else some (firstM, c, c' :: rest)).bind fun (firstM, c, rest) =>
    (checked (firstM + prev)).bind fun firstM =>
      if rest = [] then
        fromCompactLoopFM fuel isNotFirst c firstM firstM (som.addMonad firstM) rest
      else if c = 'z' ∨ isNotFirst = false then
        (readNumber true 0 c rest).bind fun (lastM, c, rest) =>
        (checked (lastM + firstM)).bind fun lastM =>
        (som.add firstM lastM).bind fun som =>
          match rest with
          | [] => fromCompactLoopFM fuel true c lastM firstM som []
          | c :: rest => fromCompactLoopFM fuel true c lastM firstM som rest
      else if c = 'y' then
        fromCompactLoopFM fuel true c firstM firstM (som.addMonad firstM) rest
      else fromCompactLoopFM fuel true c firstM firstM som rest

/-- `fromCompactStringFM`: add to `s` from a compact string without its first monad. -/
def fromCompactStringFM (s : SetOfMonads) (inStr : List Char) (firstMonad : Int) :
    Option SetOfMonads :=
  if inStr = ['z', 'z'] then some s
  else match inStr with
    | [] => some (s.addMonad firstMonad)
    | c :: rest =>
      fromCompactLoopFM (rest.length + 2) false c firstMonad 0 s (c :: rest)

/-! ## 3. Numerals -/

/-- The digits that `num2string` writes. -/
def numeral (m : Int) : List Int := (digits m).dropWhile fun d => decide (d = 0)

/-- The characters that `num2string` appends. -/
def numString (m : Int) : List Char := (numeral m).map digitChar

theorem digits_range {m d : Int} (hd : d ∈ digits m) : 0 ≤ d ∧ d < 64 := by
  obtain ⟨shift, -, rfl⟩ := List.mem_map.mp hd
  omega

theorem numeral_range {m d : Int} (hd : d ∈ numeral m) : 0 ≤ d ∧ d < 64 :=
  digits_range ((List.dropWhile_sublist _).subset hd)

/-- The digits of a number that fits are its base 64 numeral. -/
theorem horner_digits {m : Int} (h₁ : 0 ≤ m) (h₂ : m < 2 ^ 36) :
    Radix.horner 64 0 (digits m) = m := by
  simp only [digits, List.map_cons, List.map_nil, Radix.horner_cons, Radix.horner_nil]
  omega

theorem horner_numeral {m : Int} (h₁ : 0 ≤ m) (h₂ : m ≤ maxMonad) :
    Radix.horner 64 0 (numeral m) = m := by
  rw [numeral, Radix.horner_dropWhile]
  exact horner_digits h₁ (by simp only [maxMonad] at h₂; omega)

theorem foldl_num2stringDigit_begun : ∀ (ds : List Int) (r : List Char),
    ds.foldl num2stringDigit (r, true) = (r ++ ds.map digitChar, true)
  | [], r => by simp
  | d :: ds, r => by
    rw [List.foldl_cons, num2stringDigit, if_pos (by simp), foldl_num2stringDigit_begun ds]
    simp

theorem foldl_num2stringDigit : ∀ (ds : List Int) (r : List Char), (∀ d ∈ ds, 0 ≤ d) →
    (ds.foldl num2stringDigit (r, false)).1
      = r ++ (ds.dropWhile fun d => decide (d = 0)).map digitChar
  | [], r, _ => by simp
  | d :: ds, r, hds => by
    have hd := hds d List.mem_cons_self
    by_cases h0 : d = 0
    · rw [List.foldl_cons, num2stringDigit, if_neg (by simp [h0]),
        List.dropWhile_cons_of_pos (by simpa using h0)]
      exact foldl_num2stringDigit ds r fun d' hd' => hds d' (List.mem_cons_of_mem d hd')
    · rw [List.foldl_cons, num2stringDigit, if_pos (by simp; omega),
        foldl_num2stringDigit_begun, List.dropWhile_cons_of_neg (by simpa using h0)]
      simp

/-- `num2string` appends the numeral without leading zeros. -/
theorem num2string_eq (r : List Char) (m : Int) : num2string r m = r ++ numString m :=
  foldl_num2stringDigit (digits m) r fun _ hd => (digits_range hd).1

theorem numString_ne_nil {m : Int} (h₁ : 1 ≤ m) (h₂ : m ≤ maxMonad) : numString m ≠ [] := by
  intro hnil
  have h := horner_numeral (by omega) h₂
  rw [List.map_eq_nil_iff.mp hnil, Radix.horner_nil] at h
  omega

/-- A digit's character: it can be read back, and is no separator. -/
theorem digitChar_spec {d : Int} (h₁ : 0 ≤ d) (h₂ : d < 64) :
    charDigit (digitChar d) = d ∧ digitChar d ≠ 'y' ∧ digitChar d ≠ 'z' := by
  have key : ∀ k : Fin 64, charDigit (digitChar (k.val : Int)) = k.val ∧
      digitChar (k.val : Int) ≠ 'y' ∧ digitChar (k.val : Int) ≠ 'z' := by decide
  have := key ⟨d.toNat, by omega⟩
  simpa only [Int.toNat_of_nonneg h₁] using this

theorem checked_of_range {n : Int} (h₁ : 0 ≤ n) (h₂ : n ≤ 2 ^ 31 - 1) : checked n = some n :=
  if_pos ⟨by omega, by omega⟩

theorem checked_of_monad {n : Int} (h₁ : 0 ≤ n) (h₂ : n ≤ maxMonad) : checked n = some n :=
  checked_of_range h₁ (by simp only [maxMonad] at h₂; omega)

theorem addDigit_digitChar (v d : Int) (hv : 0 ≤ v) (h₁ : 0 ≤ d) (h₂ : d < 64)
    (htop : v * 64 + d ≤ 2 ^ 31 - 1) : addDigit v (digitChar d) = some (v * 64 + d) := by
  rw [addDigit, checked_of_range (by omega) (by omega), Option.bind_some,
    (digitChar_spec h₁ h₂).1, checked_of_range (by omega) htop]

/-- The digit fills the bits that the shift has cleared. -/
theorem shifted_lor {v d : Int} (hv : 0 ≤ v) (h₁ : 0 ≤ d) (h₂ : d < 64) :
    (v * 64).lor d = v * 64 + d := by
  obtain ⟨n, rfl⟩ := Int.eq_ofNat_of_zero_le hv
  obtain ⟨k, rfl⟩ := Int.eq_ofNat_of_zero_le h₁
  have h := Nat.shiftLeft_add_eq_or_of_lt (b := k) (i := 6) (by omega) n
  rw [Nat.shiftLeft_eq] at h
  have hcast : ((n : Int) * 64).lor k = ((n * 2 ^ 6 ||| k : Nat) : Int) := rfl
  rw [hcast, ← h]
  push_cast
  rfl

theorem orDigit_digitChar (v d : Int) (hv : 0 ≤ v) (h₁ : 0 ≤ d) (h₂ : d < 64)
    (htop : v * 64 + d ≤ 2 ^ 31 - 1) : orDigit v (digitChar d) = some (v * 64 + d) := by
  rw [orDigit, checked_of_range (by omega) (by omega), Option.bind_some,
    (digitChar_spec h₁ h₂).1, shifted_lor hv h₁ h₂, checked_of_range (by omega) htop]

/-! ## 4. The strings -/

/-- The characters written for one element after `prev`. -/
def elementString (prev : Int) (e : MonadSetElement) : List Char :=
  numString (e.firstM - prev) ++
    if e.lastM ≠ e.firstM then 'z' :: numString (e.lastM - e.firstM) else []

/-- The characters written for a list of elements after `prev`. -/
def encodeFrom (prev : Int) : List MonadSetElement → List Char
  | [] => []
  | e :: rest =>
    elementString prev e ++ if rest ≠ [] then 'y' :: encodeFrom e.lastM rest else []

theorem toCompactLoop_eq : ∀ (l : List MonadSetElement) (r : List Char) (prev : Int),
    toCompactLoop r prev l = r ++ encodeFrom prev l
  | [], r, prev => by simp [toCompactLoop, encodeFrom]
  | e :: rest, r, prev => by
    simp only [toCompactLoop, toCompactLoop_eq rest, num2string_eq, encodeFrom, elementString]
    by_cases hone : e.lastM = e.firstM
    · cases rest with
      | nil => simp [hone, encodeFrom]
      | cons e' rest => simp [hone]
    · cases rest with
      | nil => simp [hone, encodeFrom]
      | cons e' rest => simp [hone]

/-- Past its first element the `FM` encoder writes what the other one writes. -/
theorem toCompactLoopFM_eq : ∀ (l : List MonadSetElement) (r : List Char) (prev : Int),
    toCompactLoopFM true r prev l = r ++ encodeFrom prev l
  | [], r, prev => by simp [toCompactLoopFM, encodeFrom]
  | e :: rest, r, prev => by
    simp only [toCompactLoopFM, toCompactLoopFM_eq rest, num2string_eq, encodeFrom,
      elementString, if_true]
    by_cases hone : e.lastM = e.firstM
    · cases rest with
      | nil => simp [hone, encodeFrom]
      | cons e' rest => simp [hone]
    · cases rest with
      | nil => simp [hone, encodeFrom]
      | cons e' rest => simp [hone]

/-- What the `FM` encoder writes for a set with elements. -/
theorem toCompactLoopFM_first (e : MonadSetElement) (rest : List MonadSetElement) (prev : Int) :
    toCompactLoopFM false [] prev (e :: rest)
      = (if e.lastM ≠ e.firstM then numString (e.lastM - e.firstM) else []) ++
        if rest ≠ [] then 'y' :: encodeFrom e.lastM rest else [] := by
  simp only [toCompactLoopFM, toCompactLoopFM_eq rest, num2string_eq]
  by_cases hone : e.lastM = e.firstM
  · cases rest with
    | nil => simp [hone, toCompactLoopFM]
    | cons e' rest => simp [hone]
  · cases rest with
    | nil => simp [hone, toCompactLoopFM]
    | cons e' rest => simp [hone]

/-- What a decoder may expect of the elements that follow `prev`. -/
structure Follows (prev : Int) (l : List MonadSetElement) : Prop where
  nonneg : 0 ≤ prev
  sep : Sep l
  lower : ∀ e ∈ l, prev < e.firstM
  upper : ∀ e ∈ l, e.lastM ≤ maxMonad

theorem Follows.tail {prev : Int} {e : MonadSetElement} {rest : List MonadSetElement}
    (h : Follows prev (e :: rest)) : Follows e.lastM rest where
  nonneg := by
    have h₁ := h.nonneg
    have h₂ := h.lower e List.mem_cons_self
    have h₃ := e.first_le_last
    omega
  sep := (sep_cons.mp h.sep).2
  lower := by
    intro r hr
    have := (sep_cons.mp h.sep).1 r hr
    simp only [MonadSetElement.spanned_lo, MonadSetElement.spanned_hi] at this
    omega
  upper := fun r hr => h.upper r (List.mem_cons_of_mem e hr)

/-- The differences written for the first of the elements are within range. -/
theorem Follows.head {prev : Int} {e : MonadSetElement} {rest : List MonadSetElement}
    (h : Follows prev (e :: rest)) :
    0 ≤ prev ∧ 1 ≤ e.firstM - prev ∧ e.firstM - prev ≤ maxMonad ∧ e.firstM ≤ maxMonad ∧
      e.lastM - e.firstM ≤ maxMonad ∧ 0 ≤ e.firstM ∧ e.lastM ≤ maxMonad := by
  have h₁ := h.nonneg
  have h₂ := h.lower e List.mem_cons_self
  have h₃ := e.first_le_last
  have h₄ := h.upper e List.mem_cons_self
  omega

theorem elementString_ne_nil {prev : Int} {e : MonadSetElement} {rest : List MonadSetElement}
    (h : Follows prev (e :: rest)) : elementString prev e ≠ [] := by
  obtain ⟨-, h₁, h₂, -⟩ := h.head
  intro hnil
  exact numString_ne_nil h₁ h₂ (List.append_eq_nil_iff.mp hnil).1

/-- Every element takes at least one character. -/
theorem length_encodeFrom : ∀ {l : List MonadSetElement} {prev : Int}, Follows prev l →
    l.length ≤ (encodeFrom prev l).length
  | [], _, _ => Nat.zero_le _
  | e :: rest, prev, h => by
    have h₁ : 1 ≤ (elementString prev e).length :=
      List.length_pos_iff.mpr (elementString_ne_nil h)
    have h₂ := length_encodeFrom h.tail
    rw [encodeFrom, List.length_append, List.length_cons]
    cases rest with
    | nil => simp only [List.length_nil]; omega
    | cons e' rest =>
      rw [if_pos (List.cons_ne_nil e' rest)]
      simp only [List.length_cons] at h₂ ⊢
      omega

/-! ## 5. `fromCompactString` -/

/-- Characters that are no separators change `cur` only. -/
theorem run_digits : ∀ (cs : List Char) (v : FromCompact), (∀ c ∈ cs, c ≠ 'y' ∧ c ≠ 'z') →
    Machine.run FromCompact.step v cs
      = (cs.foldlM addDigit v.cur).map fun cur => { v with cur := cur }
  | [], v, _ => rfl
  | c :: cs, v, hcs => by
    obtain ⟨hy, hz⟩ := hcs c List.mem_cons_self
    rw [Machine.run_cons, FromCompact.step, if_neg hy, if_neg hz, List.foldlM_cons]
    cases addDigit v.cur c with
    | none => rfl
    | some cur =>
      exact run_digits cs { v with cur := cur } fun c' hc' => hcs c' (List.mem_cons_of_mem c hc')

theorem numString_noSeparator {m : Int} : ∀ c ∈ numString m, c ≠ 'y' ∧ c ≠ 'z' := by
  intro c hc
  obtain ⟨d, hd, rfl⟩ := List.mem_map.mp hc
  obtain ⟨h₁, h₂⟩ := numeral_range hd
  exact (digitChar_spec h₁ h₂).2

/-- Reading a number. -/
theorem run_numString {v : FromCompact} {m : Int} (hcur : v.cur = 0) (h₁ : 0 ≤ m)
    (h₂ : m ≤ maxMonad) :
    Machine.run FromCompact.step v (numString m) = some { v with cur := m } := by
  have hm := horner_numeral h₁ h₂
  rw [run_digits _ _ numString_noSeparator, hcur, numString,
    Radix.foldlM_digits (b := 64) (t := 2 ^ 31 - 1) (by decide) addDigit_digitChar (le_refl 0)
      (fun d hd => numeral_range hd) (by rw [hm]; simp only [maxMonad] at h₂; omega), hm]
  rfl

/-- Adding the range between the bounds of an element adds the element. -/
theorem add_element (s : SetOfMonads) (e : MonadSetElement) :
    s.add e.firstM e.lastM = some (s.addMSE e) := by
  rw [add, MonadSetElement.range_of_le e.first_le_last]
  rfl

theorem addMonad_element (s : SetOfMonads) {e : MonadSetElement} (h : e.lastM = e.firstM) :
    s.addMonad e.firstM = s.addMSE e := by
  have : MonadSetElement.single e.firstM = e := MonadSetElement.ext_bounds rfl h.symm
  rw [addMonad, this]

/-- **Reading one element**: at the end of the string it is added, and before a `'y'` it is
added and becomes the element that the next one is relative to. -/
theorem run_elementString (firstM : Int) (som : SetOfMonads) {prev : Int} {e : MonadSetElement}
    {rest : List MonadSetElement} (h : Follows prev (e :: rest)) :
    ∃ v, Machine.run FromCompact.step ⟨prev, firstM, 0, 'y', som⟩ (elementString prev e) = some v ∧
      v.finish = some (som.addMSE e) ∧
      ∃ firstM', v.step 'y' = some ⟨e.lastM, firstM', 0, 'y', som.addMSE e⟩ := by
  obtain ⟨h₀, h₁, h₂, h₃, h₄, h₅, h₆⟩ := h.head
  have hfl := e.first_le_last
  have hsum : e.firstM - prev + prev = e.firstM := by omega
  have hread := run_numString (v := ⟨prev, firstM, 0, 'y', som⟩) rfl (by omega) h₂
  rw [elementString, Machine.run_append, hread, Option.bind_some]
  by_cases hone : e.lastM = e.firstM
  · rw [if_neg (not_not.mpr hone)]
    refine ⟨_, rfl, ?_, e.firstM, ?_⟩
    · simp only [FromCompact.finish, if_true, hsum, checked_of_monad h₅ h₃, Option.map_some,
        addMonad_element som hone]
    · simp only [FromCompact.step, if_true, hsum, checked_of_monad h₅ h₃, Option.map_some,
        addMonad_element som hone, hone]
  · have hsum' : e.lastM - e.firstM + e.firstM = e.lastM := by omega
    have hz : FromCompact.step ⟨prev, firstM, e.firstM - prev, 'y', som⟩ 'z'
        = some ⟨e.firstM, e.firstM, 0, 'z', som⟩ := by
      simp [FromCompact.step, hsum, checked_of_monad h₅ h₃]
    rw [if_pos hone, Machine.run_cons, hz, Option.bind_some,
      run_numString rfl (by omega) h₄]
    refine ⟨_, rfl, ?_, e.firstM, ?_⟩
    · simp [FromCompact.finish, hsum', checked_of_monad (by omega) h₆, add_element]
    · simp [FromCompact.step, hsum', checked_of_monad (by omega) h₆, add_element]

/-- **Reading a list of elements.** -/
theorem run_encodeFrom : ∀ {l : List MonadSetElement} {prev firstM : Int} {som : SetOfMonads},
    l ≠ [] → Follows prev l →
      (Machine.run FromCompact.step ⟨prev, firstM, 0, 'y', som⟩ (encodeFrom prev l)).bind
        FromCompact.finish = some (l.foldl addMSE som)
  | [], _, _, _, hne, _ => absurd rfl hne
  | [e], prev, firstM, som, _, h => by
    obtain ⟨v, hrun, hfin, -⟩ := run_elementString firstM som h
    rw [encodeFrom, if_neg (by simp), List.append_nil, hrun, Option.bind_some, hfin]
    rfl
  | e :: e' :: rest, prev, firstM, som, _, h => by
    obtain ⟨v, hrun, -, firstM', hstep⟩ := run_elementString firstM som h
    rw [encodeFrom, if_pos (List.cons_ne_nil e' rest), Machine.run_append, hrun,
      Option.bind_some, Machine.run_cons, hstep, Option.bind_some, List.foldl_cons]
    exact run_encodeFrom (List.cons_ne_nil e' rest) h.tail

/-! ## 6. `fromCompactStringFM` -/

/-- Reading a number up to what follows it. -/
theorem readNumber_digits (putBack : Bool) (tail : List Char) : ∀ (ds : List Int) (v : Int)
    (c : Char), 0 ≤ v → (∀ d ∈ ds, 0 ≤ d ∧ d < 64) → Radix.horner 64 v ds ≤ 2 ^ 31 - 1 →
      ∃ c', readNumber putBack v c (ds.map digitChar ++ tail)
        = readNumber putBack (Radix.horner 64 v ds) c' tail
  | [], v, c, _, _, _ => ⟨c, rfl⟩
  | d :: ds, v, c, hv, hds, htop => by
    obtain ⟨h₁, h₂⟩ := hds d List.mem_cons_self
    have hds' : ∀ d' ∈ ds, 0 ≤ d' ∧ d' < 64 := fun d' hd' => hds d' (List.mem_cons_of_mem d hd')
    obtain ⟨-, hy, hz⟩ := digitChar_spec h₁ h₂
    have hle := Radix.le_horner (b := 64) (by decide) ds (v * 64 + d) (by omega)
      fun d' hd' => (hds' d' hd').1
    rw [Radix.horner_cons] at htop
    obtain ⟨c', hc'⟩ := readNumber_digits putBack tail ds (v * 64 + d) (digitChar d) (by omega)
      hds' htop
    refine ⟨c', ?_⟩
    rw [List.map_cons, List.cons_append, readNumber, if_neg (not_or.mpr ⟨hz, hy⟩),
      orDigit_digitChar v d hv h₁ h₂ (by omega), Option.bind_some, Radix.horner_cons]
    exact hc'

theorem readNumber_numString (putBack : Bool) (tail : List Char) {m : Int} (c : Char)
    (h₁ : 0 ≤ m) (h₂ : m ≤ maxMonad) :
    ∃ c', readNumber putBack 0 c (numString m ++ tail) = readNumber putBack m c' tail := by
  have hm := horner_numeral h₁ h₂
  have := readNumber_digits putBack tail (numeral m) 0 c (le_refl 0)
    (fun d hd => numeral_range hd) (by rw [hm]; simp only [maxMonad] at h₂; omega)
  rwa [hm] at this

/-- The end of the round that reads a last monad: `tail` is what follows the element. -/
theorem fromCompactLoopFM_last {fuel : Nat} {c : Char} {som : SetOfMonads}
    {e : MonadSetElement} {rest : List MonadSetElement}
    (h₅ : 0 ≤ e.firstM) (h₆ : e.lastM ≤ maxMonad)
    (ih : ∀ c', fromCompactLoopFM fuel true c' e.lastM e.firstM (som.addMSE e)
      (encodeFrom e.lastM rest) = some (rest.foldl addMSE (som.addMSE e)))
    (hrest : rest = [] → encodeFrom e.lastM rest = []) :
    ((readNumber true 0 c (numString (e.lastM - e.firstM) ++
        if rest ≠ [] then 'y' :: encodeFrom e.lastM rest else [])).bind fun (lastM, c, tail) =>
      (checked (lastM + e.firstM)).bind fun lastM =>
      (som.add e.firstM lastM).bind fun som =>
        match tail with
        | [] => fromCompactLoopFM fuel true c lastM e.firstM som []
        | c :: tail => fromCompactLoopFM fuel true c lastM e.firstM som tail)
      = some (rest.foldl addMSE (som.addMSE e)) := by
  have hfl := e.first_le_last
  have hsum : e.lastM - e.firstM + e.firstM = e.lastM := by omega
  have hlast : checked e.lastM = some e.lastM := checked_of_monad (by omega) h₆
  obtain ⟨c', hc'⟩ := readNumber_numString true
    (if rest ≠ [] then 'y' :: encodeFrom e.lastM rest else [])
    (m := e.lastM - e.firstM) c (by omega) (by omega)
  rw [hc']
  by_cases hnil : rest = []
  · rw [if_neg (not_not.mpr hnil), readNumber]
    have := ih c'
    rw [hrest hnil] at this
    simp only [Option.bind_some, hsum, hlast, add_element]
    exact this
  · rw [if_pos hnil, readNumber, if_pos (Or.inr rfl)]
    simp only [Option.bind_some, hsum, hlast, add_element, if_true]
    exact ih 'y'

/-- **Reading a list of elements**, past the first. -/
theorem fromCompactLoopFM_spec : ∀ (l : List MonadSetElement) (fuel : Nat) (c : Char)
    (prev firstM : Int) (som : SetOfMonads), Follows prev l → l.length < fuel →
      fromCompactLoopFM fuel true c prev firstM som (encodeFrom prev l)
        = some (l.foldl addMSE som)
  | [], fuel + 1, _, _, _, _, _, _ => rfl
  | e :: rest, fuel + 1, c, prev, firstM, som, h, hfuel => by
    obtain ⟨h₀, h₁, h₂, h₃, h₄, h₅, h₆⟩ := h.head
    have ih := fun c' firstM' => fromCompactLoopFM_spec rest fuel c' e.lastM firstM'
      (som.addMSE e) h.tail (by simpa using hfuel)
    have hsum : e.firstM - prev + prev = e.firstM := by omega
    have hfirst : checked e.firstM = some e.firstM := checked_of_monad h₅ h₃
    obtain ⟨c₀, cs, hcs⟩ := List.exists_cons_of_ne_nil (l := encodeFrom prev (e :: rest)) (by
      rw [encodeFrom]
      exact fun hnil => elementString_ne_nil h (List.append_eq_nil_iff.mp hnil).1)
    rw [hcs, fromCompactLoopFM, if_pos rfl, ← hcs, encodeFrom, elementString, List.append_assoc]
    obtain ⟨c', hc'⟩ := readNumber_numString false
      ((if e.lastM ≠ e.firstM then 'z' :: numString (e.lastM - e.firstM) else []) ++
        if rest ≠ [] then 'y' :: encodeFrom e.lastM rest else []) c (by omega) h₂
    rw [hc']
    by_cases hone : e.lastM = e.firstM
    · rw [if_neg (not_not.mpr hone), List.nil_append]
      have hadd : som.addMonad e.firstM = som.addMSE e := addMonad_element som hone
      rw [hone] at ih
      cases rest with
      | nil =>
        simp only [ne_eq, not_true_eq_false, if_false, readNumber, Option.bind_some, hsum, hfirst,
          if_true, hadd]
        exact ih c' e.firstM
      | cons e' rest =>
        have hne : encodeFrom e.lastM (e' :: rest) ≠ [] := by
          rw [encodeFrom]
          exact fun hnil => elementString_ne_nil h.tail (List.append_eq_nil_iff.mp hnil).1
        rw [hone] at hne
        have hsep : ¬ ('y' = 'z' ∨ true = false) := by decide
        simp only [ne_eq, List.cons_ne_nil, not_false_eq_true, if_true, readNumber, or_true,
          Option.bind_some, hsum, hfirst, hone, hadd, Bool.false_eq_true, if_false]
        rw [if_neg hne, if_neg hsep]
        exact ih 'y' e.firstM
    · rw [if_pos hone, List.cons_append, readNumber, if_pos (Or.inl rfl)]
      have hne : numString (e.lastM - e.firstM) ++
          (if rest ≠ [] then 'y' :: encodeFrom e.lastM rest else []) ≠ [] := by
        have hfl := e.first_le_last
        intro hnil
        exact numString_ne_nil (by omega) h₄ (List.append_eq_nil_iff.mp hnil).1
      simp only [Bool.false_eq_true, if_false, Option.bind_some, hsum, hfirst, if_neg hne,
        true_or, if_true]
      refine fromCompactLoopFM_last h₅ h₆ (fun c' => ih c' e.firstM) ?_
      rintro rfl
      rfl

/-! ## 7. The codecs are lossless -/

/-- The elements of a set of positive monads follow `0`. -/
theorem RepInv.follows {s : SetOfMonads} (h : s.RepInv) (hpos : ∀ e ∈ s.monadMs, 1 ≤ e.firstM) :
    Follows 0 s.monadMs where
  nonneg := le_refl 0
  sep := h.sep
  lower := fun e he => by
    have := hpos e he
    omega
  upper := fun e he => (h.inRange e he).2

/-- `fromCompactString` reads back what `toCompactString` writes. -/
theorem fromCompactString_toCompactString {s : SetOfMonads} (h : s.RepInv)
    (hpos : ∀ e ∈ s.monadMs, 1 ≤ e.firstM) :
    empty.fromCompactString s.toCompactString = some s := by
  rw [toCompactString, toCompactLoop_eq, List.nil_append, fromCompactString]
  by_cases hnil : s.monadMs = []
  · rw [h.eq_setBounds, hnil]
    rfl
  · have hfollows := h.follows hpos
    have hlen := length_encodeFrom hfollows
    have hpos' := List.length_pos_iff.mpr hnil
    rw [if_neg (by rw [List.isEmpty_iff_length_eq_zero]; omega), run_encodeFrom hnil hfollows,
      h.foldl_addMSE]

/-- `fromCompactStringFM` reads back what `toCompactStringFM` writes, given the first monad. -/
theorem fromCompactStringFM_toCompactStringFM {s : SetOfMonads} (h : s.RepInv)
    (hpos : ∀ e ∈ s.monadMs, 1 ≤ e.firstM) :
    empty.fromCompactStringFM s.toCompactStringFM s.first = some s := by
  unfold toCompactStringFM
  split
  · rename_i hempty
    rw [fromCompactStringFM, if_pos rfl, h.eq_setBounds, isEmpty_iff.mp hempty]
    rfl
  · rename_i hsome
    obtain ⟨e, rest, hl⟩ := List.exists_cons_of_ne_nil
      (fun hnil => hsome (isEmpty_iff.mpr hnil))
    have hfirst : s.first = e.firstM := h.first_eq e (by rw [hl]; rfl)
    have hfollows := h.follows hpos
    have hrebuild := h.foldl_addMSE
    rw [hl] at hfollows hrebuild
    obtain ⟨-, h₁, -, h₃, h₄, h₅, h₆⟩ := hfollows.head
    have hfl := e.first_le_last
    have hchecked : checked (0 + e.firstM) = some e.firstM := by
      rw [Int.zero_add]
      exact checked_of_monad h₅ h₃
    have hlen := length_encodeFrom hfollows.tail
    rw [hl, hfirst, toCompactLoopFM_first]
    rw [List.foldl_cons] at hrebuild
    -- the string, according to whether the first element is a range and is followed by others
    by_cases hone : e.lastM = e.firstM
    · rw [if_neg (not_not.mpr hone), List.nil_append]
      have hadd : empty.addMonad e.firstM = empty.addMSE e := addMonad_element empty hone
      cases rest with
      | nil =>
        rw [if_neg (by simp), fromCompactStringFM.eq_def, if_neg (by simp), hadd]
        exact congrArg some hrebuild
      | cons e' rest =>
        rw [if_pos (List.cons_ne_nil e' rest), fromCompactStringFM.eq_def, if_neg (by simp)]
        simp only [fromCompactLoopFM, Bool.false_eq_true, if_false, Option.bind_some, hchecked,
          List.cons_ne_nil, or_true, if_true, readNumber]
        have hadd' : empty.add e.firstM e.firstM = some (empty.addMSE e) := by
          have := add_element empty e
          rwa [hone] at this
        rw [hadd', Option.bind_some, ← hrebuild]
        have hloop := fromCompactLoopFM_spec (e' :: rest)
          ((encodeFrom e.lastM (e' :: rest)).length + 1) 'y' e.lastM e.firstM (empty.addMSE e)
          hfollows.tail (by omega)
        rw [hone] at hloop ⊢
        exact hloop
    · rw [if_pos hone]
      obtain ⟨c, cs, hcs⟩ := List.exists_cons_of_ne_nil
        (numString_ne_nil (m := e.lastM - e.firstM) (by omega) h₄)
      have hc := numString_noSeparator c (hcs ▸ List.mem_cons_self)
      rw [fromCompactStringFM.eq_def, hcs, List.cons_append, if_neg (by
        intro heq
        exact hc.2 (List.cons.inj heq).1)]
      have hlen' : rest.length ≤ (cs ++
          if rest ≠ [] then 'y' :: encodeFrom e.lastM rest else []).length := by
        rw [List.length_append]
        cases rest with
        | nil => exact Nat.zero_le _
        | cons e' rest =>
          rw [if_pos (List.cons_ne_nil e' rest)]
          simp only [List.length_cons] at hlen ⊢
          omega
      simp only [fromCompactLoopFM, Bool.false_eq_true, if_false, Option.bind_some, hchecked,
        List.cons_ne_nil, or_true, if_true]
      rw [← List.cons_append, ← hcs, ← hrebuild]
      refine fromCompactLoopFM_last h₅ h₆ (fun c' => fromCompactLoopFM_spec rest _ c' e.lastM _ _
        hfollows.tail (Nat.lt_succ_of_le hlen')) ?_
      rintro rfl
      rfl

/-- **The two compact-string codecs are lossless**, and neither decoder overflows on what the
encoder wrote. -/
theorem compactStrings_lossless {s : SetOfMonads} (h : s.RepInv)
    (hpos : ∀ e ∈ s.monadMs, 1 ≤ e.firstM) :
    empty.fromCompactString s.toCompactString = some s ∧
      empty.fromCompactStringFM s.toCompactStringFM s.first = some s :=
  ⟨fromCompactString_toCompactString h hpos, fromCompactStringFM_toCompactStringFM h hpos⟩

/-- `{5, 70-200, 4096}`, with a single first monad and a number of three digits. -/
theorem compactStrings_lossless_example :
    empty.fromCompactString (setBounds [⟨5, 5, by decide⟩, ⟨70, 200, by decide⟩,
        ⟨4096, 4096, by decide⟩]).toCompactString
      = some (setBounds [⟨5, 5, by decide⟩, ⟨70, 200, by decide⟩, ⟨4096, 4096, by decide⟩]) ∧
    empty.fromCompactStringFM (setBounds [⟨5, 5, by decide⟩, ⟨70, 200, by decide⟩,
        ⟨4096, 4096, by decide⟩]).toCompactStringFM (setBounds [⟨5, 5, by decide⟩,
        ⟨70, 200, by decide⟩, ⟨4096, 4096, by decide⟩]).first
      = some (setBounds [⟨5, 5, by decide⟩, ⟨70, 200, by decide⟩, ⟨4096, 4096, by decide⟩]) :=
  compactStrings_lossless (by decide) (by decide)

end SetOfMonads

end Emdros
