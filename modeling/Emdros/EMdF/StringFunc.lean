/-
# String functions (`string_func.h`, `string_func.cpp`)

The functions on byte strings that printers and scanners share: hexadecimal digits, numbers, and
the escapes of MQL and JSON strings.  A `std::string` is a list of bytes.

A number is printed from its last digit on, by remainders that follow the sign, so the digits come
out of a table with the zero in the middle.  It is read from its first digit on.  Only what the
scanners need of the two is proved here, that a run of digits is read as the number in base ten
(`sz2longlong_decimal`) and that the loop that prints leaves such a run (`longlong2szLoop_digits`);
`DecimalConversion` has the whole round trip, with the least number that fails it.

* `long2utf8_eq`: the bytes of a code point are those of UTF-8, wherever there is a character.
* `strcmpNocase`: the comparison that takes capital letters of ASCII for small ones.
-/
import Mathlib
import Emdros.Base.Lexer
import Emdros.Base.Radix

namespace Emdros

open Lexer (bytes)

/-! ## 1. Digits -/

/-- The value of a hexadecimal digit, and 0 for anything else. -/
def hexDigit (c : UInt8) : UInt8 :=
  if 97 ≤ c ∧ c ≤ 102 then c - 87         -- 'a' .. 'f'
  else if 65 ≤ c ∧ c ≤ 70 then c - 55     -- 'A' .. 'F'
  else if 48 ≤ c ∧ c ≤ 57 then c - 48     -- '0' .. '9'
  else 0

/-- `hex2char(a, b)`. -/
def hex2char (a b : UInt8) : UInt8 := hexDigit a * 16 + hexDigit b

/-- `"0123456789abcdef"[d]`. -/
def lowerHex (d : UInt8) : UInt8 := if d < 10 then 48 + d else 87 + d

/-- `char2hex`. -/
def char2hex (c : UInt8) : List UInt8 := [lowerHex (c >>> 4 &&& 15), lowerHex (c &&& 15)]

/-- `octal2char`. -/
def octal2char (o : List UInt8) : UInt8 :=
  o.foldl (fun result c => (result <<< 3) + if 48 ≤ c ∧ c ≤ 55 then c - 48 else 0) 0

/-- The digits of `sz2longlong`, up to the first byte that is none. -/
def sz2longlongDigits (result : Int) : List UInt8 → Int
  | [] => result
  | c :: rest =>
    if 48 ≤ c ∧ c ≤ 57 then sz2longlongDigits (result * 10 + (c.toNat - 48)) rest else result

/-- `sz2longlong`, on a text without white space in front. -/
def sz2longlong : List UInt8 → Int
  | [] => 0
  | c :: rest =>
    if c = 45 then -sz2longlongDigits 0 rest          -- '-'
    else if c = 43 then sz2longlongDigits 0 rest      -- '+'
    else sz2longlongDigits 0 (c :: rest)

/-- The loop of `longlong2szNonReversing`: the digits are written from the end of the buffer, of
which `room` bytes are left. -/
def longlong2szLoop : Nat → Int → List UInt8 → List UInt8
  | 0, _, p => p
  | room + 1, v, p =>
    let tmp := v
    let v := v.tdiv 10
    let p := (bytes "9876543210123456789").getD (9 + (tmp - v * 10)).toNat 0 :: p
    if v = 0 then p else longlong2szLoop room v p

/-- `longlong2string`; the buffer has thirty bytes, and the last is the terminating zero. -/
def longlong2string (l : Int) : List UInt8 :=
  let szResult := longlong2szLoop 29 l []
  if l < 0 then 45 :: szResult else szResult

/-- `hex2long`. -/
def hex2long (str : List UInt8) : Nat :=
  str.foldl (fun result c => (result <<< 4) ||| (hexDigit c).toNat) 0

/-- `long2utf8`. -/
def long2utf8 (c : Nat) : List UInt8 :=
  if c < 0x80 then [UInt8.ofNat c]
  else if c < 0x800 then
    [UInt8.ofNat (0xC0 + ((c >>> 6) &&& 0x1F)), UInt8.ofNat (0x80 + (c &&& 0x3F))]
  else if c < 0x10000 then
    [UInt8.ofNat (0xE0 + ((c >>> 12) &&& 0x0F)), UInt8.ofNat (0x80 + ((c >>> 6) &&& 0x3F)),
      UInt8.ofNat (0x80 + (c &&& 0x3F))]
  else
    [UInt8.ofNat (0xF0 + ((c >>> 18) &&& 0x07)), UInt8.ofNat (0x80 + ((c >>> 12) &&& 0x3F)),
      UInt8.ofNat (0x80 + ((c >>> 6) &&& 0x3F)), UInt8.ofNat (0x80 + (c &&& 0x3F))]

/-! ## 2. Escapes -/

/-- One byte of `encodeSTRINGstring`. -/
def encodeSTRINGbyte (c : UInt8) : List UInt8 :=
  if c < 0x20 ∨ c ≥ 0x80 then bytes "\\x" ++ char2hex c
  else if c = 92 then bytes "\\\\"
  else if c = 34 then bytes "\\\""
  else [c]

/-- `encodeSTRINGstring`. -/
def encodeSTRINGstring (str : List UInt8) : List UInt8 := str.flatMap encodeSTRINGbyte

/-- One byte of `escapeJSONChars`. -/
def escapeJSONbyte (c : UInt8) : List UInt8 :=
  if c = 34 then bytes "\\\""
  else if c = 92 then bytes "\\\\"
  else if c = 8 then bytes "\\b"
  else if c = 12 then bytes "\\f"
  else if c = 10 then bytes "\\n"
  else if c = 13 then bytes "\\r"
  else if c = 9 then bytes "\\t"
  else [c]

/-- `escapeJSONChars(input, false)`. -/
def escapeJSONChars (input : List UInt8) : List UInt8 := input.flatMap escapeJSONbyte

/-! ## 3. Numbers are read back -/

theorem getD_digits : ∀ k < 19, (bytes "9876543210123456789").getD k 0 =
    UInt8.ofNat (48 + ((k : Int) - 9).natAbs) := by decide +kernel

/-- The digit of a remainder, whose sign is that of the number. -/
theorem digit_tmod (v : Int) :
    (bytes "9876543210123456789").getD (9 + (v - v.tdiv 10 * 10)).toNat 0 =
      UInt8.ofNat (48 + v.natAbs % 10) := by
  have hmod : v - v.tdiv 10 * 10 = v.tmod 10 := by
    rw [Int.tmod_def, Int.mul_comm]
  have habs : (v.tmod 10).natAbs = v.natAbs % 10 := Int.natAbs_tmod v 10
  have hlt : (v.tmod 10).natAbs < 10 := habs ▸ Nat.mod_lt _ (by decide)
  rw [hmod, getD_digits _ (by omega), ← habs]
  congr 3
  omega

theorem toNat_digit {d : Nat} (hd : d < 10) : (UInt8.ofNat (48 + d)).toNat = 48 + d := by
  rw [UInt8.toNat_ofNat']
  omega

/-- `c` is a decimal digit. -/
def IsDecimal (c : UInt8) : Prop := ∃ d < 10, c = UInt8.ofNat (48 + d)

theorem sz2longlongDigits_cons (r : Int) {d : Nat} (hd : d < 10) (rest : List UInt8) :
    sz2longlongDigits r (UInt8.ofNat (48 + d) :: rest) = sz2longlongDigits (r * 10 + d) rest := by
  have hn := toNat_digit hd
  rw [sz2longlongDigits, if_pos, hn]
  · congr 1
    omega
  · rw [UInt8.le_iff_toNat_le, UInt8.le_iff_toNat_le, hn]
    constructor
    · exact Nat.le_add_right 48 d
    · exact Nat.le_of_lt_succ (Nat.add_lt_add_left hd 48)

/-- The digits of a text, as numbers. -/
def decimalDigits (text : List UInt8) : List Int := text.map fun c => (c.toNat : Int) - 48

/-- Digits are read as a numeral. -/
theorem sz2longlongDigits_decimal : ∀ {text : List UInt8} (r : Int), (∀ c ∈ text, IsDecimal c) →
    sz2longlongDigits r text = Radix.horner 10 r (decimalDigits text)
  | [], _, _ => rfl
  | c :: text, r, h => by
    obtain ⟨d, hd, rfl⟩ := h c List.mem_cons_self
    rw [sz2longlongDigits_cons r hd,
      sz2longlongDigits_decimal _ fun c hc => h c (List.mem_cons_of_mem _ hc)]
    rw [decimalDigits, decimalDigits, List.map_cons, Radix.horner_cons, toNat_digit hd]
    congr 2
    omega

theorem sz2longlong_decimal {text : List UInt8} (h : ∀ c ∈ text, IsDecimal c) :
    sz2longlong text = Radix.horner 10 0 (decimalDigits text) := by
  cases text with
  | nil => rfl
  | cons c text =>
    have hsign : ∀ d < 10, UInt8.ofNat (48 + d) ≠ 45 ∧ UInt8.ofNat (48 + d) ≠ 43 := by decide
    obtain ⟨d, hd, hc⟩ := h c List.mem_cons_self
    rw [sz2longlong, if_neg (hc ▸ (hsign d hd).1), if_neg (hc ▸ (hsign d hd).2)]
    exact sz2longlongDigits_decimal 0 h

theorem tdiv_eq_zero_iff (v : Int) : v.tdiv 10 = 0 ↔ v.natAbs < 10 := by
  have hquot : (v.tdiv 10).natAbs = v.natAbs / 10 := Int.natAbs_tdiv v 10
  rw [← Int.natAbs_eq_zero, hquot, Nat.div_eq_zero_iff]
  omega

/-- What the loop of `longlong2szNonReversing` puts in front of `p`, by induction on the number of
digits. -/
theorem longlong2szLoop_digits : ∀ {n room : Nat} {v : Int} (p : List UInt8), n < room →
    v.natAbs < 10 ^ (n + 1) → ∃ ds, longlong2szLoop room v p = ds ++ p ∧ ds ≠ [] ∧
      ds.length ≤ n + 1 ∧ (∀ c ∈ ds, IsDecimal c) ∧ ∀ (r : Int) (rest : List UInt8),
        sz2longlongDigits r (ds ++ rest) =
          sz2longlongDigits (r * 10 ^ ds.length + v.natAbs) rest := by
  intro n
  induction n with
  | zero =>
    intro room v p hroom hv
    obtain ⟨room, rfl⟩ := Nat.exists_eq_succ_of_ne_zero (Nat.ne_of_gt hroom)
    have hlt : v.natAbs < 10 := hv
    have hquot : v.tdiv 10 = 0 := (tdiv_eq_zero_iff v).mpr hlt
    refine ⟨[UInt8.ofNat (48 + v.natAbs % 10)], ?_, List.cons_ne_nil _ _, Nat.le_refl _, ?_, ?_⟩
    · rw [longlong2szLoop, digit_tmod, if_pos hquot]
      rfl
    · intro c hc
      rw [List.mem_singleton] at hc
      exact ⟨_, Nat.mod_lt _ (by decide), hc⟩
    · intro r rest
      rw [List.singleton_append, sz2longlongDigits_cons r (Nat.mod_lt _ (by decide)),
        Nat.mod_eq_of_lt hlt]
      rfl
  | succ n ih =>
    intro room v p hroom hv
    obtain ⟨room, rfl⟩ := Nat.exists_eq_succ_of_ne_zero (Nat.ne_of_gt (Nat.zero_lt_of_lt hroom))
    have hmod : v.natAbs % 10 < 10 := Nat.mod_lt _ (by decide)
    rw [longlong2szLoop, digit_tmod]
    split
    · rename_i hquot
      refine ⟨[UInt8.ofNat (48 + v.natAbs % 10)], rfl, List.cons_ne_nil _ _,
        Nat.le_add_left 1 _, ?_, ?_⟩
      · intro c hc
        rw [List.mem_singleton] at hc
        exact ⟨_, hmod, hc⟩
      · intro r rest
        have hlt : v.natAbs < 10 := (tdiv_eq_zero_iff v).mp hquot
        rw [List.singleton_append, sz2longlongDigits_cons r hmod, Nat.mod_eq_of_lt hlt]
        rfl
    · have hquot : (v.tdiv 10).natAbs = v.natAbs / 10 := Int.natAbs_tdiv v 10
      have hlt : (v.tdiv 10).natAbs < 10 ^ (n + 1) := by
        rw [hquot]
        rw [Nat.pow_succ] at hv
        exact Nat.div_lt_of_lt_mul (by rwa [Nat.mul_comm])
      obtain ⟨ds, hloop, hne, hlen, hds, hread⟩ :=
        ih (UInt8.ofNat (48 + v.natAbs % 10) :: p) (Nat.lt_of_succ_lt_succ hroom) hlt
      refine ⟨ds ++ [UInt8.ofNat (48 + v.natAbs % 10)], ?_, by simp, ?_, ?_, ?_⟩
      · rw [hloop, List.append_assoc]
        rfl
      · rw [List.length_append]
        exact Nat.succ_le_succ hlen
      · intro c hc
        rcases List.mem_append.mp hc with hc | hc
        · exact hds c hc
        · rw [List.mem_singleton] at hc
          exact ⟨_, hmod, hc⟩
      · intro r rest
        rw [List.append_assoc, hread, List.singleton_append, sz2longlongDigits_cons _ hmod,
          List.length_append, List.length_singleton, Int.pow_succ, hquot]
        congr 1
        have hdiv := Nat.div_add_mod v.natAbs 10
        rw [Int.add_mul, Int.mul_assoc]
        omega

/-! ## 4. UTF-8 -/

/-- `long2utf8` writes every character in UTF-8. -/
theorem long2utf8_eq (c : Char) : long2utf8 c.toNat = String.utf8EncodeChar c := by
  have h5 : ∀ x : Nat, x &&& 0x1F = x % 32 := fun x => Nat.and_two_pow_sub_one_eq_mod x 5
  have h6 : ∀ x : Nat, x &&& 0x3F = x % 64 := fun x => Nat.and_two_pow_sub_one_eq_mod x 6
  have h4 : ∀ x : Nat, x &&& 0x0F = x % 16 := fun x => Nat.and_two_pow_sub_one_eq_mod x 4
  have h3 : ∀ x : Nat, x &&& 0x07 = x % 8 := fun x => Nat.and_two_pow_sub_one_eq_mod x 3
  unfold long2utf8 String.utf8EncodeChar Char.toNat
  simp only [h3, h4, h5, h6, Nat.shiftRight_eq_div_pow, Nat.reducePow]
  generalize c.val.toNat = v
  by_cases h1 : v < 0x80
  · rw [if_pos h1, if_pos (show v ≤ 127 by omega)]
  rw [if_neg h1, if_neg (show ¬v ≤ 127 by omega)]
  by_cases h2 : v < 0x800
  · rw [if_pos h2, if_pos (show v ≤ 2047 by omega), Nat.add_comm 0xC0, Nat.add_comm 0x80]
  rw [if_neg h2, if_neg (show ¬v ≤ 2047 by omega)]
  by_cases h3 : v < 0x10000
  · rw [if_pos h3, if_pos (show v ≤ 65535 by omega)]
    simp only [Nat.add_comm]
  · rw [if_neg h3, if_neg (show ¬v ≤ 65535 by omega)]
    simp only [Nat.add_comm]

/-! ## 5. Comparison -/

/-- `strcmp_nocase(str1, str2)`, where letters are those of ASCII. -/
def strcmpNocase : List UInt8 → List UInt8 → Int
  | p :: str1, q :: str2 =>
    let tolop := if 65 ≤ p ∧ p ≤ 90 then p + 32 else p
    let toloq := if 65 ≤ q ∧ q ≤ 90 then q + 32 else q
    if tolop ≠ toloq then if tolop.toInt8 < toloq.toInt8 then -1 else 1
    else strcmpNocase str1 str2
  | str1, str2 =>
    if str2.length = str1.length then 0 else if str1.length < str2.length then -1 else 1

end Emdros
