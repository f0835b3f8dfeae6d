/-
# Strings escaped as Unicode (`escape_UTF8_string_with_slashu`, `escapeJSONChars`)

`escapeJSONChars(s, true)` reads the escaped string as UTF-8 and writes what is not ASCII with
`\u`.  Two things go wrong.  The reader extends the sign of a byte, so that a continuation byte
where a character should begin is looked up behind the end of `emdrosUtf8Trans`; and the writer
writes five or six digits for a character above U+FFFF, where the scanner reads four.

`escape_isSome_iff` and `scan_escaped_iff` say that this is all: `slashu_iff`.
-/
import Mathlib
import Emdros.EMdF.JsonOutput
import Emdros.EMdF.JsonRoundTrip

namespace Emdros

open Lexer (bytes)
open String (utf8EncodeChar)

namespace SlashU

open JSONScanner

/-! ## 1. The functions -/

/-- `emdrosUtf8Trans`. -/
def emdrosUtf8Trans : List UInt8 := [
  0x00, 0x01, 0x02, 0x03, 0x04, 0x05, 0x06, 0x07,
  0x08, 0x09, 0x0a, 0x0b, 0x0c, 0x0d, 0x0e, 0x0f,
  0x10, 0x11, 0x12, 0x13, 0x14, 0x15, 0x16, 0x17,
  0x18, 0x19, 0x1a, 0x1b, 0x1c, 0x1d, 0x1e, 0x1f,
  0x00, 0x01, 0x02, 0x03, 0x04, 0x05, 0x06, 0x07,
  0x08, 0x09, 0x0a, 0x0b, 0x0c, 0x0d, 0x0e, 0x0f,
  0x00, 0x01, 0x02, 0x03, 0x04, 0x05, 0x06, 0x07,
  0x00, 0x01, 0x02, 0x03, 0x00, 0x01, 0x00, 0x00]

/-- A `char`, which is signed, as an `unsigned int`. -/
def unsignedOfChar (c : UInt8) : UInt32 := c.toInt8.toInt32.toUInt32

/-- The inner loop of `EMDROS_READ_UTF8_CPLUSPLUS`; the list is what is left of `instr`. -/
def readTail (c : UInt32) : List UInt8 → UInt32 × List UInt8
  | [] => (c, [])
  | b :: instr =>
    if unsignedOfChar b &&& 0xc0 = 0x80 then
      readTail ((c <<< 6) + (0x3f &&& unsignedOfChar b)) instr
    else
      (c, b :: instr)

/-- The end of `EMDROS_READ_UTF8_CPLUSPLUS`: what is no character is replaced. -/
def replaceInvalid (c : UInt32) : UInt32 :=
  if c < 0x80 ∨ c &&& 0xFFFFF800 = 0xD800 ∨ c &&& 0xFFFFFFFE = 0xFFFE then 0xFFFD else c

/-- `EMDROS_READ_UTF8_CPLUSPLUS`: the character, and what is left; nothing where `instr` or the
table is read outside. -/
def readUTF8 : List UInt8 → Option (UInt32 × List UInt8)
  | [] => none
  | b :: instr =>
    let c := unsignedOfChar b
    if c ≥ 0xc0 then
      (emdrosUtf8Trans[((c - 0xc0) &&& 0xFF).toNat]?).map fun t =>
        let (c, instr) := readTail t.toUInt32 instr
        (replaceInvalid c, instr)
    else
      some (c, instr)

/-- `"0123456789abcdef"[(c >> n) & 0x0F]`. -/
def hexDigitAt (c n : Nat) : UInt8 := lowerHex (UInt8.ofNat ((c >>> n) &&& 0x0F))

/-- `codepoint2slashu`. -/
def codepoint2slashu (c : Nat) : List UInt8 :=
  [92, 117] ++ (if c > 0x000FFFFF then [hexDigitAt c 20] else []) ++
    (if c > 0x0000FFFF then [hexDigitAt c 16] else []) ++
    [hexDigitAt c 12, hexDigitAt c 8, hexDigitAt c 4, hexDigitAt c 0]

/-- What is written for a character. -/
def written (c : UInt32) : List UInt8 :=
  if c < 0x80 then [c.toUInt8] else codepoint2slashu c.toNat

theorem length_readTail_le (c : UInt32) (instr : List UInt8) :
    (readTail c instr).2.length ≤ instr.length := by
  induction instr generalizing c with
  | nil => exact le_rfl
  | cons b instr ih =>
    rw [readTail]
    split
    · exact (ih _).trans (Nat.le_succ _)
    · exact le_rfl

/-- Reading a character moves on. -/
theorem length_readUTF8_lt {instr instr' : List UInt8} {c : UInt32}
    (h : readUTF8 instr = some (c, instr')) : instr'.length < instr.length := by
  cases instr with
  | nil => cases h
  | cons b instr =>
    rw [readUTF8] at h
    dsimp only at h
    split at h
    · obtain ⟨t, -, ht⟩ := Option.map_eq_some_iff.mp h
      have hle := length_readTail_le t.toUInt32 instr
      have hrest : (readTail t.toUInt32 instr).2 = instr' := congrArg Prod.snd ht
      rw [← hrest]
      exact Nat.lt_succ_of_le hle
    · cases h
      exact Nat.lt_succ_self _

/-- `escape_UTF8_string_with_slashu`. -/
def escapeUTF8StringWithSlashu (instr : List UInt8) : Option (List UInt8) :=
  if instr = [] then some []
  else
    match _hread : readUTF8 instr with
    | none => none
    | some (c, instr') => (escapeUTF8StringWithSlashu instr').map (written c ++ ·)
termination_by instr.length
decreasing_by exact length_readUTF8_lt ‹_›

/-- `escapeJSONChars`. -/
def escapeJSONChars (input : List UInt8) (bEscapeAsUnicode : Bool) : Option (List UInt8) :=
  if bEscapeAsUnicode then escapeUTF8StringWithSlashu (Emdros.escapeJSONChars input)
  else some (Emdros.escapeJSONChars input)

/-! ## 2. Where the table is read outside -/

/-- A byte that continues a character. -/
def IsContinuation (b : UInt8) : Prop := 0x80 ≤ b ∧ b < 0xC0

instance (b : UInt8) : Decidable (IsContinuation b) :=
  inferInstanceAs (Decidable (0x80 ≤ b ∧ b < 0xC0))

/-- How a `char` is widened: a byte is ASCII, or it continues a character, or it begins one. -/
def Widened (b : UInt8) : Prop :=
  b < 0x80 ∧ unsignedOfChar b = b.toUInt32 ∧ unsignedOfChar b < 0x80 ∨
    IsContinuation b ∧ unsignedOfChar b ≥ 0xc0 ∧
      64 ≤ ((unsignedOfChar b - 0xc0) &&& 0xFF).toNat ∨
    0xC0 ≤ b ∧ unsignedOfChar b ≥ 0xc0 ∧
      ((unsignedOfChar b - 0xc0) &&& 0xFF).toNat = b.toNat - 0xC0

instance (b : UInt8) : Decidable (Widened b) := inferInstanceAs (Decidable (_ ∨ _ ∨ _))

theorem unsignedOfChar_spec (b : UInt8) :
    (unsignedOfChar b &&& 0xc0 = 0x80 ↔ IsContinuation b) ∧ Widened b := by
  have hall : ∀ n < 256, (unsignedOfChar (UInt8.ofNat n) &&& 0xc0 = 0x80 ↔
      IsContinuation (UInt8.ofNat n)) ∧ Widened (UInt8.ofNat n) := by
    decide +kernel
  have h := hall b.toNat b.toNat_lt
  rwa [UInt8.ofNat_toNat] at h

theorem isContinuation_iff (b : UInt8) :
    unsignedOfChar b &&& 0xc0 = 0x80 ↔ IsContinuation b :=
  (unsignedOfChar_spec b).1

theorem unsignedOfChar_cases (b : UInt8) : Widened b := (unsignedOfChar_spec b).2

theorem readTail_snd (c : UInt32) (instr : List UInt8) :
    (readTail c instr).2 = instr.dropWhile fun b => decide (IsContinuation b) := by
  induction instr generalizing c with
  | nil => rfl
  | cons b instr ih =>
    rw [readTail]
    simp only [isContinuation_iff]
    split
    · rename_i hb
      rw [ih, List.dropWhile_cons_of_pos (by simpa using hb)]
    · rename_i hb
      rw [List.dropWhile_cons_of_neg (by simpa using hb)]

/-- A continuation byte follows a byte that is not ASCII. -/
def Follows (a b : UInt8) : Prop := IsContinuation b → 0x80 ≤ a

/-- No continuation byte stands at the beginning or directly after a byte of ASCII. -/
def Led (s : List UInt8) : Prop := (∀ b ∈ s.head?, ¬ IsContinuation b) ∧ s.IsChain Follows

theorem led_cons_of_lt {b : UInt8} (hb : b < 0x80) (s : List UInt8) : Led (b :: s) ↔ Led s := by
  have hhead : ¬ IsContinuation b := fun h => absurd hb (UInt8.not_lt.mpr h.1)
  have hfollows : ∀ d, Follows b d ↔ ¬ IsContinuation d := by
    intro d
    constructor
    · intro h hd
      exact absurd hb (UInt8.not_lt.mpr (h hd))
    · intro hd h
      exact absurd h hd
  rw [Led, Led, List.isChain_cons]
  simp only [List.head?_cons, Option.mem_some, forall_eq', hfollows]
  exact and_iff_right hhead

/-- After a byte that is not ASCII, the continuation bytes may be dropped. -/
theorem isChain_cons_iff {a : UInt8} (ha : 0x80 ≤ a) (s : List UInt8) :
    (a :: s).IsChain Follows ↔ Led (s.dropWhile fun b => decide (IsContinuation b)) := by
  induction s generalizing a with
  | nil =>
    refine iff_of_true (List.isChain_singleton a) ⟨fun b hb => ?_, List.isChain_nil⟩
    cases hb
  | cons b s ih =>
    have hfollows : Follows a b := fun _ => ha
    rw [List.isChain_cons_cons, and_iff_right hfollows]
    by_cases hb : IsContinuation b
    · rw [List.dropWhile_cons_of_pos (by simpa using hb)]
      exact ih hb.1
    · rw [List.dropWhile_cons_of_neg (by simpa using hb), Led]
      refine (and_iff_right ?_).symm
      intro d hd
      cases hd
      exact hb

theorem led_cons_of_le {b : UInt8} (hb : 0xC0 ≤ b) (s : List UInt8) :
    Led (b :: s) ↔ Led (s.dropWhile fun b => decide (IsContinuation b)) := by
  have hhead : ¬ IsContinuation b := fun h => absurd h.2 (UInt8.not_lt.mpr hb)
  rw [← isChain_cons_iff (UInt8.le_trans (by decide : (0x80 : UInt8) ≤ 0xC0) hb), Led]
  refine and_iff_right ?_
  intro d hd
  cases hd
  exact hhead

theorem escape_nil : escapeUTF8StringWithSlashu [] = some [] := by
  rw [escapeUTF8StringWithSlashu, if_pos rfl]

theorem escape_of_readUTF8 {instr instr' : List UInt8} {c : UInt32}
    (h : readUTF8 instr = some (c, instr')) :
    escapeUTF8StringWithSlashu instr =
      (escapeUTF8StringWithSlashu instr').map (written c ++ ·) := by
  have hne : instr ≠ [] := by
    rintro rfl
    cases h
  rw [escapeUTF8StringWithSlashu, if_neg hne]
  split
  · rename_i hread
    rw [h] at hread
    cases hread
  · rename_i hread
    rw [h] at hread
    cases hread
    rfl

theorem escape_of_readUTF8_eq_none {instr : List UInt8} (hne : instr ≠ [])
    (h : readUTF8 instr = none) : escapeUTF8StringWithSlashu instr = none := by
  rw [escapeUTF8StringWithSlashu, if_neg hne]
  split
  · rfl
  · rename_i hread
    rw [h] at hread
    cases hread

theorem readUTF8_of_lt {b : UInt8} (hb : b < 0x80) (instr : List UInt8) :
    readUTF8 (b :: instr) = some (b.toUInt32, instr) := by
  rcases unsignedOfChar_cases b with ⟨-, heq, hlt⟩ | ⟨h, -, -⟩ | ⟨h, -, -⟩
  · have hge : ¬ unsignedOfChar b ≥ 0xc0 := by
      rw [ge_iff_le, UInt32.not_le]
      exact UInt32.lt_trans hlt (by decide)
    rw [readUTF8]
    dsimp only
    rw [if_neg hge, heq]
  · exact absurd hb (UInt8.not_lt.mpr h.1)
  · exact absurd hb (UInt8.not_lt.mpr (UInt8.le_trans (by decide) h))

/-- A byte that begins a character is looked up inside the table. -/
theorem readUTF8_of_le {b : UInt8} (hb : 0xC0 ≤ b) (instr : List UInt8) :
    ∃ t, emdrosUtf8Trans[b.toNat - 0xC0]? = some t ∧ readUTF8 (b :: instr) =
      some (replaceInvalid (readTail t.toUInt32 instr).1, (readTail t.toUInt32 instr).2) := by
  rcases unsignedOfChar_cases b with ⟨h, -, -⟩ | ⟨h, -, -⟩ | ⟨-, hge, hindex⟩
  · exact absurd h (UInt8.not_lt.mpr (UInt8.le_trans (by decide) hb))
  · exact absurd h.2 (UInt8.not_lt.mpr hb)
  · have hlt : b.toNat - 0xC0 < emdrosUtf8Trans.length := by
      have hbyte := b.toNat_lt
      change b.toNat - 0xC0 < 64
      omega
    have hget := List.getElem?_eq_getElem hlt
    refine ⟨emdrosUtf8Trans[b.toNat - 0xC0], hget, ?_⟩
    rw [readUTF8]
    dsimp only
    rw [if_pos hge, hindex, hget, Option.map_some]

theorem readUTF8_of_isContinuation {b : UInt8} (hb : IsContinuation b) (instr : List UInt8) :
    readUTF8 (b :: instr) = none := by
  rcases unsignedOfChar_cases b with ⟨h, -, -⟩ | ⟨-, hge, hindex⟩ | ⟨h, -, -⟩
  · exact absurd h (UInt8.not_lt.mpr hb.1)
  · rw [readUTF8]
    dsimp only
    rw [if_pos hge, List.getElem?_eq_none hindex, Option.map_none]
  · exact absurd hb.2 (UInt8.not_lt.mpr h)

/-- **Nothing is read outside** the text and the table exactly when no continuation byte stands
where a character should begin; by induction on the length of the text. -/
theorem escape_isSome_iff (instr : List UInt8) :
    escapeUTF8StringWithSlashu instr ≠ none ↔ Led instr := by
  induction hn : instr.length using Nat.strong_induction_on generalizing instr with
  | _ n ih =>
    cases instr with
    | nil =>
      refine iff_of_true (by rw [escape_nil]; exact Option.some_ne_none _) ⟨?_, List.isChain_nil⟩
      intro b hb
      cases hb
    | cons b s =>
      rw [List.length_cons] at hn
      by_cases hlt : b < 0x80
      · rw [escape_of_readUTF8 (readUTF8_of_lt hlt s), Ne, Option.map_eq_none_iff,
          led_cons_of_lt hlt]
        exact ih s.length (by omega) s rfl
      · by_cases hcont : IsContinuation b
        · rw [escape_of_readUTF8_eq_none (List.cons_ne_nil _ _) (readUTF8_of_isContinuation hcont s)]
          refine iff_of_false (not_not_intro rfl) fun h => ?_
          exact h.1 b rfl hcont
        · have hge : 0xC0 ≤ b := by
            rw [IsContinuation, not_and, UInt8.not_lt] at hcont
            exact hcont (UInt8.not_lt.mp hlt)
          obtain ⟨t, -, hread⟩ := readUTF8_of_le hge s
          have hle := length_readTail_le t.toUInt32 s
          rw [escape_of_readUTF8 hread, Ne, Option.map_eq_none_iff, led_cons_of_le hge,
            ← readTail_snd t.toUInt32 s]
          exact ih _ (by omega) _ rfl

/-! ## 3. Reading a character -/

/-- A continuation byte adds six bits. -/
theorem readTail_cons (c : UInt32) {k : Nat} (hk : k < 64) (instr : List UInt8) :
    readTail c (UInt8.ofNat (k + 128) :: instr) =
      readTail (UInt32.ofNat (c.toNat * 64 + k)) instr := by
  have hbyte : ∀ k < 64, unsignedOfChar (UInt8.ofNat (k + 128)) &&& 0xc0 = 0x80 ∧
      (0x3f &&& unsignedOfChar (UInt8.ofNat (k + 128))) = UInt32.ofNat k := by decide +kernel
  obtain ⟨hcont, hbits⟩ := hbyte k hk
  rw [readTail, if_pos hcont, hbits]
  congr 1
  rw [← UInt32.toNat_inj, UInt32.toNat_add, UInt32.toNat_shiftLeft, UInt32.toNat_ofNat',
    UInt32.toNat_ofNat', Nat.shiftLeft_eq]
  change (c.toNat * 64 % 2 ^ 32 + k % 2 ^ 32) % 2 ^ 32 = (c.toNat * 64 + k) % 2 ^ 32
  omega

theorem readTail_stop (c : UInt32) {s : List UInt8} (hs : ∀ b ∈ s.head?, ¬ IsContinuation b) :
    readTail c s = (c, s) := by
  cases s with
  | nil => rfl
  | cons b s =>
    rw [readTail, if_neg]
    rw [isContinuation_iff]
    exact hs b rfl

/-- A character that is not ASCII, and not one of the two at the end of the plane, is kept. -/
theorem replaceInvalid_eq {c : Char} (hc : 128 ≤ c.toNat) (h₁ : c.toNat ≠ 0xFFFE)
    (h₂ : c.toNat ≠ 0xFFFF) : replaceInvalid (UInt32.ofNat c.toNat) = UInt32.ofNat c.toNat := by
  have hvalid : c.toNat < 0xD800 ∨ 0xDFFF < c.toNat ∧ c.toNat < 0x110000 := c.valid
  generalize c.toNat = n at hc h₁ h₂ hvalid ⊢
  have hn : n < 2 ^ 32 := by omega
  have htoNat : (UInt32.ofNat n).toNat = n := by
    rw [UInt32.toNat_ofNat', Nat.mod_eq_of_lt hn]
  -- The two masks ask for the value of the bits above the eleventh and above the first.
  have hmask : ∀ k m : Nat, (n &&& (2 ^ (32 - k) - 1) * 2 ^ k) = m * 2 ^ k → k ≤ 32 →
      n / 2 ^ k = m := by
    intro k m h hk
    have hshift : (n &&& (2 ^ (32 - k) - 1) * 2 ^ k) >>> k = (m * 2 ^ k) >>> k := by rw [h]
    rw [Nat.shiftRight_and_distrib, Nat.shiftRight_eq_div_pow, Nat.shiftRight_eq_div_pow,
      Nat.shiftRight_eq_div_pow, Nat.mul_div_cancel _ (Nat.two_pow_pos k),
      Nat.mul_div_cancel _ (Nat.two_pow_pos k), Nat.and_two_pow_sub_one_eq_mod,
      Nat.mod_eq_of_lt] at hshift
    · exact hshift
    · rw [Nat.div_lt_iff_lt_mul (Nat.two_pow_pos k), ← Nat.pow_add, Nat.sub_add_cancel hk]
      exact hn
  rw [replaceInvalid, if_neg]
  rintro (h | h | h)
  · rw [UInt32.lt_iff_toNat_lt, htoNat] at h
    change n < 0x80 at h
    omega
  · rw [← UInt32.toNat_inj, UInt32.toNat_and, htoNat] at h
    have hdiv := hmask 11 27 h (by decide)
    omega
  · rw [← UInt32.toNat_inj, UInt32.toNat_and, htoNat] at h
    have hdiv := hmask 1 32767 h (by decide)
    omega

/-- The first byte of a character, as the table translates it. -/
theorem emdrosUtf8Trans_eq :
    (∀ i < 32, emdrosUtf8Trans[i]? = some (UInt8.ofNat i)) ∧
      (∀ i < 16, emdrosUtf8Trans[i + 32]? = some (UInt8.ofNat i)) ∧
      ∀ i < 8, emdrosUtf8Trans[i + 48]? = some (UInt8.ofNat i) := by
  decide

/-- A character of two bytes or more, whatever follows it but a continuation byte. -/
theorem readUTF8_char {c : Char} (hc : 128 ≤ c.toNat) (h₁ : c.toNat ≠ 0xFFFE)
    (h₂ : c.toNat ≠ 0xFFFF) {s : List UInt8} (hs : ∀ b ∈ s.head?, ¬ IsContinuation b) :
    readUTF8 (utf8EncodeChar c ++ s) = some (UInt32.ofNat c.toNat, s) := by
  have hinvalid := replaceInvalid_eq hc h₁ h₂
  have hvalid : c.toNat < 0xD800 ∨ 0xDFFF < c.toNat ∧ c.toNat < 0x110000 := c.valid
  obtain ⟨htwo, hthree, hfour⟩ := emdrosUtf8Trans_eq
  -- What the first byte and the bits of the others give.
  have hread : ∀ (i d : Nat) (tail : List UInt8), 192 ≤ d → d < 256 → i < 64 →
      emdrosUtf8Trans[d - 192]? = some (UInt8.ofNat i) →
      readTail (UInt32.ofNat i) tail = (UInt32.ofNat c.toNat, s) →
      readUTF8 (UInt8.ofNat d :: tail) = some (UInt32.ofNat c.toNat, s) := by
    intro i d tail hd hd' hi htable htail
    have htoNat : (UInt8.ofNat d).toNat = d := by
      rw [UInt8.toNat_ofNat', Nat.mod_eq_of_lt hd']
    have hle : 0xC0 ≤ UInt8.ofNat d := by
      rw [UInt8.le_iff_toNat_le, htoNat]
      exact hd
    obtain ⟨t, ht, hread⟩ := readUTF8_of_le hle tail
    rw [htoNat] at ht
    have hsame : t.toUInt32 = UInt32.ofNat i := by
      have hti : t = UInt8.ofNat i := Option.some.inj (ht.symm.trans htable)
      have hall : ∀ i < 64, (UInt8.ofNat i).toUInt32 = UInt32.ofNat i := by decide
      rw [hti, hall i hi]
    rw [hread, hsame, htail]
    exact congrArg (fun x => some (x, s)) hinvalid
  have hbits : ∀ (m k : Nat) (tail : List UInt8), m < 2 ^ 20 → k < 64 →
      readTail (UInt32.ofNat m) (UInt8.ofNat (k + 128) :: tail) =
        readTail (UInt32.ofNat (m * 64 + k)) tail := by
    intro m k tail hm hk
    rw [readTail_cons _ hk, UInt32.toNat_ofNat', Nat.mod_eq_of_lt (by omega)]
  unfold utf8EncodeChar
  dsimp only
  change 128 ≤ c.val.toNat at hc
  change c.val.toNat < 0xD800 ∨ 0xDFFF < c.val.toNat ∧ c.val.toNat < 0x110000 at hvalid
  rw [Char.toNat] at hread ⊢
  generalize c.val.toNat = n at *
  rw [if_neg (by omega)]
  split
  · have htable := htwo (n / 64) (by omega)
    simp only [List.cons_append, List.nil_append]
    refine hread (n / 64) _ _ (by omega) (by omega) (by omega) ?_ ?_
    · rwa [show n / 64 % 32 + 192 - 192 = n / 64 by omega]
    · rw [hbits _ _ _ (by omega) (by omega), readTail_stop _ hs]
      congr 2
      omega
  · split
    · have htable := hthree (n / 4096) (by omega)
      simp only [List.cons_append, List.nil_append]
      refine hread (n / 4096) _ _ (by omega) (by omega) (by omega) ?_ ?_
      · rwa [show n / 4096 % 16 + 224 - 192 = n / 4096 + 32 by omega]
      · rw [hbits _ _ _ (by omega) (by omega), hbits _ _ _ (by omega) (by omega),
          readTail_stop _ hs]
        congr 2
        omega
    · have htable := hfour (n / 262144) (by omega)
      simp only [List.cons_append, List.nil_append]
      refine hread (n / 262144) _ _ (by omega) (by omega) (by omega) ?_ ?_
      · rwa [show n / 262144 % 8 + 240 - 192 = n / 262144 + 48 by omega]
      · rw [hbits _ _ _ (by omega) (by omega), hbits _ _ _ (by omega) (by omega),
          hbits _ _ _ (by omega) (by omega), readTail_stop _ hs]
        congr 2
        omega

/-! ## 4. What is written -/

/-- The escaped form of a character before it is read as UTF-8. -/
def escapedForm (c : Char) : List UInt8 := Emdros.escapeJSONChars (utf8EncodeChar c)

/-- What becomes of it. -/
def slashuForm (c : Char) : List UInt8 :=
  if c.toNat < 128 then escapeJSONbyte (UInt8.ofNat c.toNat) else codepoint2slashu c.toNat

theorem escapeJSONbyte_of_le {b : UInt8} (h : 128 ≤ b.toNat) : escapeJSONbyte b = [b] := by
  have hne : ∀ d : UInt8, d.toNat < 128 → b ≠ d := by
    rintro d hd rfl
    omega
  simp [escapeJSONbyte, hne]

/-- ASCII is escaped with ASCII. -/
theorem escapeJSONbyte_ascii {b : UInt8} (hb : b < 0x80) :
    escapeJSONbyte b ≠ [] ∧ ∀ d ∈ escapeJSONbyte b, d < 0x80 := by
  have hall : ["\\\"", "\\\\", "\\b", "\\f", "\\n", "\\r", "\\t"].all
      (fun s => (bytes s).all (fun d => decide (d < 0x80)) && bytes s != []) = true := by decide
  have htexts : ∀ s ∈ ["\\\"", "\\\\", "\\b", "\\f", "\\n", "\\r", "\\t"],
      bytes s ≠ [] ∧ ∀ d ∈ bytes s, d < 0x80 := by
    intro s hs
    have h := List.all_eq_true.mp hall s hs
    rw [Bool.and_eq_true, List.all_eq_true, bne_iff_ne] at h
    exact ⟨h.2, fun d hd => by simpa using h.1 d hd⟩
  unfold escapeJSONbyte
  repeat' split
  iterate 7 exact htexts _ (by simp)
  simpa using hb

theorem ofNat_lt_0x80 {n : Nat} (hn : n < 128) : UInt8.ofNat n < 0x80 := by
  rw [UInt8.lt_iff_toNat_lt, UInt8.toNat_ofNat', Nat.mod_eq_of_lt (by omega)]
  exact hn

theorem escapedForm_of_lt {c : Char} (hc : c.toNat < 128) :
    escapedForm c = escapeJSONbyte (UInt8.ofNat c.toNat) := by
  rcases EMdFOutput.utf8EncodeChar_cases c with ⟨-, h⟩ | ⟨h, -⟩
  · rw [escapedForm, h, Emdros.escapeJSONChars, List.flatMap_singleton]
  · omega

theorem escapedForm_of_le {c : Char} (hc : 128 ≤ c.toNat) : escapedForm c = utf8EncodeChar c := by
  rcases EMdFOutput.utf8EncodeChar_cases c with ⟨h, -⟩ | ⟨-, hbytes⟩
  · omega
  · rw [escapedForm, Emdros.escapeJSONChars]
    calc (utf8EncodeChar c).flatMap escapeJSONbyte
        = (utf8EncodeChar c).flatMap fun b => [b] :=
          List.flatMap_congr fun b hb => escapeJSONbyte_of_le (hbytes b hb)
      _ = utf8EncodeChar c := List.flatMap_singleton' _

theorem escapeJSONChars_flatMap (chars : List Char) :
    Emdros.escapeJSONChars (chars.flatMap utf8EncodeChar) = chars.flatMap escapedForm :=
  List.flatMap_assoc

/-- No character begins with a continuation byte. -/
theorem head_escapedForm (c : Char) (s : List UInt8) :
    ∀ b ∈ (escapedForm c ++ s).head?, ¬ IsContinuation b := by
  have hlead : ∀ n < 256, 192 ≤ n → ¬ IsContinuation (UInt8.ofNat n) := by
    intro n hn hle hcont
    have hlt := UInt8.lt_iff_toNat_lt.mp hcont.2
    rw [UInt8.toNat_ofNat', Nat.mod_eq_of_lt (by omega)] at hlt
    exact absurd hlt (Nat.not_lt.mpr hle)
  intro b hb
  by_cases hc : c.toNat < 128
  · obtain ⟨hne, hascii⟩ := escapeJSONbyte_ascii (ofNat_lt_0x80 hc)
    rw [escapedForm_of_lt hc, List.head?_append_of_ne_nil _ hne] at hb
    intro hcont
    exact absurd (hascii b (List.mem_of_mem_head? hb)) (UInt8.not_lt.mpr hcont.1)
  · rw [escapedForm_of_le (Nat.le_of_not_lt hc)] at hb
    unfold utf8EncodeChar at hb
    dsimp only at hb
    change ¬ c.val.toNat < 128 at hc
    rw [if_neg (by omega)] at hb
    split at hb
    · cases hb
      exact hlead _ (by omega) (by omega)
    · split at hb <;> cases hb <;> exact hlead _ (by omega) (by omega)

theorem head_flatMap_escapedForm (chars : List Char) :
    ∀ b ∈ (chars.flatMap escapedForm).head?, ¬ IsContinuation b := by
  cases chars with
  | nil =>
    intro b hb
    cases hb
  | cons c chars =>
    rw [List.flatMap_cons]
    exact head_escapedForm c _

/-- ASCII is passed on, by induction on the bytes. -/
theorem escape_ascii {bs : List UInt8} (s : List UInt8) (hbs : ∀ b ∈ bs, b < 0x80) :
    escapeUTF8StringWithSlashu (bs ++ s) = (escapeUTF8StringWithSlashu s).map (bs ++ ·) := by
  induction bs with
  | nil =>
    rw [List.nil_append]
    exact Option.map_id'.symm
  | cons b bs ih =>
    have hb := hbs b List.mem_cons_self
    have hwritten : written b.toUInt32 = [b] := by
      have hlt : b.toUInt32 < 0x80 := by
        rw [UInt32.lt_iff_toNat_lt, UInt8.toNat_toUInt32]
        exact UInt8.lt_iff_toNat_lt.mp hb
      rw [written, if_pos hlt]
      simp
    rw [List.cons_append, escape_of_readUTF8 (readUTF8_of_lt hb _), hwritten,
      ih fun d hd => hbs d (List.mem_cons_of_mem _ hd), Option.map_map]
    rfl

/-- **What the escaped string becomes**, by induction on its characters. -/
theorem escape_flatMap {chars : List Char}
    (hchars : ∀ c ∈ chars, c.toNat ≠ 0xFFFE ∧ c.toNat ≠ 0xFFFF) :
    escapeUTF8StringWithSlashu (chars.flatMap escapedForm) = some (chars.flatMap slashuForm) := by
  induction chars with
  | nil => exact escape_nil
  | cons c chars ih =>
    have hrest := ih fun d hd => hchars d (List.mem_cons_of_mem _ hd)
    rw [List.flatMap_cons, List.flatMap_cons, slashuForm]
    by_cases hc : c.toNat < 128
    · have hascii := (escapeJSONbyte_ascii (ofNat_lt_0x80 hc)).2
      rw [if_pos hc, escapedForm_of_lt hc, escape_ascii _ hascii, hrest, Option.map_some]
    · have hle := Nat.le_of_not_lt hc
      obtain ⟨h₁, h₂⟩ := hchars c List.mem_cons_self
      have hread := readUTF8_char hle h₁ h₂ (head_flatMap_escapedForm chars)
      have htoNat : (UInt32.ofNat c.toNat).toNat = c.toNat := by
        have hlt : c.toNat < 2 ^ 32 := c.val.toNat_lt
        rw [UInt32.toNat_ofNat', Nat.mod_eq_of_lt hlt]
      have hwritten : written (UInt32.ofNat c.toNat) = codepoint2slashu c.toNat := by
        rw [written, if_neg, htoNat]
        rw [UInt32.lt_iff_toNat_lt, htoNat]
        exact hc
      rw [if_neg hc, escapedForm_of_le hle, escape_of_readUTF8 hread, hwritten, hrest,
        Option.map_some]

/-! ## 5. What the scanner reads -/

/-- `\u` and four digits are one match, which pushes the character. -/
theorem stringdq_unicode {a b c d : UInt8} (ha : isHex a = true) (hb : isHex b = true)
    (hc : isHex c = true) (hd : isHex d = true) (fuel : Nat) (rest str : List UInt8) :
    stringdq (fuel + 1) (92 :: 117 :: a :: b :: c :: d :: rest) str =
      stringdq fuel rest (str ++ long2utf8 (hex2long [a, b, c, d])) := by
  have hpiece : Lexer.decidesAfter (stringdqRules.take 16) (stringdqRules.drop 17)
      [92, 117] = true := by decide +kernel
  have hclasses : ∀ p ∈ [((fun x : UInt8 => [92].contains x), (92 : UInt8)),
      ((fun x => [117].contains x), 117), (isHex, a), (isHex, b), (isHex, c), (isHex, d)],
      p.1 p.2 = true := by
    intro p hp
    simp only [List.mem_cons, List.not_mem_nil, or_false] at hp
    rcases hp with rfl | rfl | rfl | rfl | rfl | rfl
    · rfl
    · rfl
    · exact ha
    · exact hb
    · exact hc
    · exact hd
  have hbest : Lexer.best stringdqRules (92 :: 117 :: a :: b :: c :: d :: rest) =
      some (6, .unicode) :=
    @Lexer.best_of_classes _ _ stringdqRules _ _ .unicode _ [92, 117] [a, b, c, d] rfl hpiece rfl
      hclasses rest
  rw [stringdq, hbest]
  rfl

/-- One of the digits that `codepoint2slashu` writes. -/
theorem hexDigitAt_spec (c n : Nat) : isHex (hexDigitAt c n) = true ∧
    (hexDigit (hexDigitAt c n)).toNat = c / 2 ^ n % 16 ∧ hexDigitAt c n ≠ 0 ∧
    escapeJSONbyte (hexDigitAt c n) = [hexDigitAt c n] := by
  have hall : ∀ d < 16, isHex (lowerHex (UInt8.ofNat d)) = true ∧
      (hexDigit (lowerHex (UInt8.ofNat d))).toNat = d ∧ lowerHex (UInt8.ofNat d) ≠ 0 ∧
      escapeJSONbyte (lowerHex (UInt8.ofNat d)) = [lowerHex (UInt8.ofNat d)] := by decide +kernel
  have hbits : (c >>> n) &&& 0x0F = c / 2 ^ n % 16 := by
    rw [Nat.shiftRight_eq_div_pow]
    exact Nat.and_two_pow_sub_one_eq_mod _ 4
  rw [hexDigitAt, hbits]
  exact hall _ (Nat.mod_lt _ (by decide))

/-- Four digits in a row. -/
theorem hex2long_hexDigitAt (c n : Nat) :
    hex2long [hexDigitAt c (n + 12), hexDigitAt c (n + 8), hexDigitAt c (n + 4), hexDigitAt c n] =
      c / 2 ^ n % 65536 := by
  have hstep : ∀ r d : Nat, d < 16 → (r <<< 4) ||| d = r * 16 + d := by
    intro r d hd
    rw [← Nat.shiftLeft_add_eq_or_of_lt (show d < 2 ^ 4 from hd), Nat.shiftLeft_eq]
  have hdigit : ∀ m, (hexDigit (hexDigitAt c (n + m))).toNat = c / 2 ^ n / 2 ^ m % 16 := by
    intro m
    rw [(hexDigitAt_spec c (n + m)).2.1, Nat.pow_add, Nat.div_div_eq_div_mul]
  have h0 := hdigit 0
  rw [Nat.add_zero, Nat.pow_zero, Nat.div_one] at h0
  rw [hex2long]
  simp only [List.foldl_cons, List.foldl_nil, hdigit, h0]
  rw [hstep _ _ (Nat.mod_lt _ (by decide)), hstep _ _ (Nat.mod_lt _ (by decide)),
    hstep _ _ (Nat.mod_lt _ (by decide)), hstep _ _ (Nat.mod_lt _ (by decide))]
  omega

/-- What the scanner makes of a character: of five or six digits it takes four. -/
def readForm (c : Char) : List UInt8 :=
  if c.toNat ≤ 0xFFFF then utf8EncodeChar c
  else if c.toNat ≤ 0xFFFFF then long2utf8 (c.toNat / 16) ++ [hexDigitAt c.toNat 0]
  else long2utf8 (c.toNat / 256) ++ [hexDigitAt c.toNat 4, hexDigitAt c.toNat 0]

/-- A digit that is left over stands for itself. -/
theorem stringdq_hexDigitAt (c n fuel : Nat) (rest str : List UInt8) :
    stringdq (fuel + 1) (hexDigitAt c n :: rest) str =
      stringdq fuel rest (str ++ [hexDigitAt c n]) := by
  obtain ⟨-, -, hne, hself⟩ := hexDigitAt_spec c n
  have h := stringdq_escapeJSONbyte hne fuel rest str
  rwa [hself] at h

/-- `\u` and the first four of the digits. -/
theorem stringdq_codepoint (c n fuel : Nat) (rest str : List UInt8) :
    stringdq (fuel + 1) (92 :: 117 :: hexDigitAt c (n + 12) :: hexDigitAt c (n + 8) ::
        hexDigitAt c (n + 4) :: hexDigitAt c n :: rest) str =
      stringdq fuel rest (str ++ long2utf8 (c / 2 ^ n % 65536)) := by
  rw [stringdq_unicode (hexDigitAt_spec c _).1 (hexDigitAt_spec c _).1 (hexDigitAt_spec c _).1
    (hexDigitAt_spec c _).1, hex2long_hexDigitAt]

/-- The matches for one character. -/
theorem stringdq_slashuForm {c : Char} (hc : c.toNat ≠ 0) : ∃ n ≤ (slashuForm c).length,
    ∀ (fuel : Nat) (rest str : List UInt8),
      stringdq (fuel + n) (slashuForm c ++ rest) str = stringdq fuel rest (str ++ readForm c) := by
  have hvalid : c.toNat < 0xD800 ∨ 0xDFFF < c.toNat ∧ c.toNat < 0x110000 := c.valid
  rw [slashuForm]
  by_cases hascii : c.toNat < 128
  · have hne : UInt8.ofNat c.toNat ≠ 0 := by
      intro h
      have hzero := congrArg UInt8.toNat h
      rw [UInt8.toNat_ofNat', Nat.mod_eq_of_lt (by omega)] at hzero
      exact hc hzero
    have hlen : 1 ≤ (escapeJSONbyte (UInt8.ofNat c.toNat)).length :=
      List.length_pos_of_ne_nil (escapeJSONbyte_ascii (ofNat_lt_0x80 hascii)).1
    have hread : readForm c = [UInt8.ofNat c.toNat] := by
      rw [readForm, if_pos (by omega)]
      rcases EMdFOutput.utf8EncodeChar_cases c with ⟨-, h⟩ | ⟨h, -⟩
      · exact h
      · omega
    rw [if_pos hascii, hread]
    exact ⟨1, hlen, fun fuel rest str => stringdq_escapeJSONbyte hne fuel rest str⟩
  · rw [if_neg hascii, codepoint2slashu, readForm]
    by_cases h4 : c.toNat ≤ 0xFFFF
    · rw [if_neg (by omega), if_neg (by omega), if_pos h4]
      refine ⟨1, by simp, fun fuel rest str => ?_⟩
      have hvalue : c.toNat / 2 ^ 0 % 65536 = c.toNat := by omega
      have hread := stringdq_codepoint c.toNat 0 fuel rest str
      rw [hvalue, long2utf8_eq] at hread
      exact hread
    · by_cases h5 : c.toNat ≤ 0xFFFFF
      · rw [if_neg (by omega), if_pos (by omega), if_neg h4, if_pos h5]
        refine ⟨2, by simp, fun fuel rest str => ?_⟩
        have hvalue : c.toNat / 2 ^ 4 % 65536 = c.toNat / 16 := by omega
        have hread := stringdq_codepoint c.toNat 4 (fuel + 1) (hexDigitAt c.toNat 0 :: rest) str
        rw [hvalue, stringdq_hexDigitAt, List.append_assoc] at hread
        exact hread
      · rw [if_pos (by omega), if_pos (by omega), if_neg h4, if_neg h5]
        refine ⟨3, by simp, fun fuel rest str => ?_⟩
        have hvalue : c.toNat / 2 ^ 8 % 65536 = c.toNat / 256 := by omega
        have hread := stringdq_codepoint c.toNat 8 (fuel + 1 + 1)
          (hexDigitAt c.toNat 4 :: hexDigitAt c.toNat 0 :: rest) str
        rw [hvalue, stringdq_hexDigitAt, stringdq_hexDigitAt, List.append_assoc,
          List.append_assoc] at hread
        exact hread

/-- The run over a string, by induction on its characters. -/
theorem stringdq_flatMap {chars : List Char} (hchars : ∀ c ∈ chars, c.toNat ≠ 0) :
    ∃ n ≤ (chars.flatMap slashuForm).length, ∀ (fuel : Nat) (rest str : List UInt8),
      stringdq (fuel + n) (chars.flatMap slashuForm ++ rest) str =
        stringdq fuel rest (str ++ chars.flatMap readForm) := by
  induction chars with
  | nil =>
    refine ⟨0, le_rfl, fun fuel rest str => ?_⟩
    rw [List.flatMap_nil, List.flatMap_nil, List.append_nil]
    rfl
  | cons c chars ih =>
    obtain ⟨n, hn, hfirst⟩ := stringdq_slashuForm (hchars c List.mem_cons_self)
    obtain ⟨m, hm, hrest⟩ := ih fun d hd => hchars d (List.mem_cons_of_mem _ hd)
    refine ⟨m + n, ?_, fun fuel rest str => ?_⟩
    · rw [List.flatMap_cons, List.length_append]
      omega
    · rw [List.flatMap_cons, List.flatMap_cons, List.append_assoc, ← Nat.add_assoc, hfirst, hrest,
        List.append_assoc]

theorem scan_flatMap {chars : List Char} (hchars : ∀ c ∈ chars, c.toNat ≠ 0) :
    scan (34 :: (chars.flatMap slashuForm ++ [34])) =
      some (.token (.string (chars.flatMap readForm)) []) := by
  obtain ⟨n, hn, hrun⟩ := stringdq_flatMap hchars
  have hfuel : (34 :: (chars.flatMap slashuForm ++ [34])).length =
      (chars.flatMap slashuForm).length - n + 1 + 1 + n := by
    rw [List.length_cons, List.length_append, List.length_singleton]
    omega
  rw [scan, scanFrom, best_quote, hfuel]
  have hclose := hrun ((chars.flatMap slashuForm).length - n + 1 + 1) [34] []
  refine Eq.trans hclose ?_
  rw [stringdq, best_close]
  rfl

/-! ## 6. What comes back -/

/-- Three bytes for a character of two and four digits that begins with neither zero. -/
theorem head_long2utf8 {n : Nat} (h : 0x1000 ≤ n) (h' : n ≤ 0xFFFF) :
    ∃ b ∈ (long2utf8 n).head?, b.toNat < 0xF0 := by
  have hbits : (n >>> 12) &&& 0x0F = n / 4096 % 16 := by
    rw [Nat.shiftRight_eq_div_pow]
    exact Nat.and_two_pow_sub_one_eq_mod _ 4
  rw [long2utf8, if_neg (by omega), if_neg (by omega), if_pos (by omega)]
  refine ⟨_, rfl, ?_⟩
  rw [hbits, UInt8.toNat_ofNat']
  omega

/-- A character above U+FFFF comes back with another first byte. -/
theorem head_readForm {c : Char} (hc : 0xFFFF < c.toNat) :
    (∃ b ∈ (readForm c).head?, b.toNat < 0xF0) ∧ ∃ b ∈ (utf8EncodeChar c).head?, 0xF0 ≤ b.toNat := by
  have hvalid : c.toNat < 0xD800 ∨ 0xDFFF < c.toNat ∧ c.toNat < 0x110000 := c.valid
  constructor
  · rw [readForm, if_neg (by omega)]
    split
    · obtain ⟨b, hb, hlt⟩ := head_long2utf8 (n := c.toNat / 16) (by omega) (by omega)
      refine ⟨b, ?_, hlt⟩
      rw [List.head?_append, Option.mem_def.mp hb]
      rfl
    · obtain ⟨b, hb, hlt⟩ := head_long2utf8 (n := c.toNat / 256) (by omega) (by omega)
      refine ⟨b, ?_, hlt⟩
      rw [List.head?_append, Option.mem_def.mp hb]
      rfl
  · change 0xFFFF < c.val.toNat at hc
    change c.val.toNat < 0xD800 ∨ 0xDFFF < c.val.toNat ∧ c.val.toNat < 0x110000 at hvalid
    unfold utf8EncodeChar
    dsimp only
    rw [if_neg (by omega), if_neg (by omega), if_neg (by omega)]
    refine ⟨_, rfl, ?_⟩
    rw [UInt8.toNat_ofNat']
    omega

/-- By induction on the characters: the first one above U+FFFF makes the difference. -/
theorem flatMap_readForm_iff {chars : List Char} :
    chars.flatMap readForm = chars.flatMap utf8EncodeChar ↔ ∀ c ∈ chars, c.toNat ≤ 0xFFFF := by
  induction chars with
  | nil => exact iff_of_true rfl fun c hc => absurd hc List.not_mem_nil
  | cons c chars ih =>
    rw [List.flatMap_cons, List.flatMap_cons, List.forall_mem_cons]
    by_cases hc : c.toNat ≤ 0xFFFF
    · have hread : readForm c = utf8EncodeChar c := if_pos hc
      rw [hread, List.append_cancel_left_eq, ih]
      exact (and_iff_right hc).symm
    · refine iff_of_false (fun heq => ?_) fun h => hc h.1
      obtain ⟨⟨b, hb, hlt⟩, d, hd, hge⟩ := head_readForm (Nat.lt_of_not_le hc)
      have hhead := congrArg List.head? heq
      rw [List.head?_append, List.head?_append, Option.mem_def.mp hb, Option.mem_def.mp hd,
        Option.some_or, Option.some_or, Option.some_inj] at hhead
      rw [hhead] at hlt
      omega

/-- **Unicode escapes are read back** for strings of characters up to U+FFFF. -/
theorem scan_escaped_iff {chars : List Char}
    (hchars : ∀ c ∈ chars, c.toNat ≠ 0 ∧ c.toNat ≠ 0xFFFE ∧ c.toNat ≠ 0xFFFF) :
    (∃ text, escapeJSONChars (chars.flatMap utf8EncodeChar) true = some text ∧
      scan (34 :: (text ++ [34])) =
        some (.token (.string (chars.flatMap utf8EncodeChar)) [])) ↔
      ∀ c ∈ chars, c.toNat ≤ 0xFFFF := by
  have htext : escapeJSONChars (chars.flatMap utf8EncodeChar) true =
      some (chars.flatMap slashuForm) := by
    rw [escapeJSONChars, if_pos rfl, escapeJSONChars_flatMap]
    exact escape_flatMap fun c hc => (hchars c hc).2
  have hscan := scan_flatMap fun c hc => (hchars c hc).1
  rw [← flatMap_readForm_iff, htext]
  constructor
  · rintro ⟨text, heq, hback⟩
    rw [← Option.some.inj heq, hscan] at hback
    simpa using hback
  · intro heq
    exact ⟨_, rfl, by rw [hscan, heq]⟩

/-- **Escaping as Unicode.**  Nothing is read outside exactly when no continuation byte stands at
the beginning of the text or directly after a byte of ASCII; and a string is read back exactly
when it has no character above U+FFFF. -/
theorem slashu_iff (instr : List UInt8) {chars : List Char}
    (hchars : ∀ c ∈ chars, c.toNat ≠ 0 ∧ c.toNat ≠ 0xFFFE ∧ c.toNat ≠ 0xFFFF) :
    (escapeUTF8StringWithSlashu instr ≠ none ↔ Led instr) ∧
    ((∃ text, escapeJSONChars (chars.flatMap utf8EncodeChar) true = some text ∧
      scan (34 :: (text ++ [34])) =
        some (.token (.string (chars.flatMap utf8EncodeChar)) [])) ↔
      ∀ c ∈ chars, c.toNat ≤ 0xFFFF) :=
  ⟨escape_isSome_iff instr, scan_escaped_iff hchars⟩

/-- The byte 128 alone, and the character U+00E9. -/
theorem slashu_iff_accent : (escapeUTF8StringWithSlashu [128] ≠ none ↔ Led [128]) ∧
    ((∃ text, escapeJSONChars ([Char.ofNat 0xE9].flatMap utf8EncodeChar) true = some text ∧
      scan (34 :: (text ++ [34])) =
        some (.token (.string ([Char.ofNat 0xE9].flatMap utf8EncodeChar)) [])) ↔
      ∀ c ∈ [Char.ofNat 0xE9], c.toNat ≤ 0xFFFF) :=
  slashu_iff [128] (by simp)

/-- The table is read outside for the byte 128, and U+1F600 is not read back. -/
theorem not_slashu : escapeUTF8StringWithSlashu [128] = none ∧
    ¬ ∃ text, escapeJSONChars ([Char.ofNat 0x1F600].flatMap utf8EncodeChar) true = some text ∧
      scan (34 :: (text ++ [34])) =
        some (.token (.string ([Char.ofNat 0x1F600].flatMap utf8EncodeChar)) []) := by
  constructor
  · exact escape_of_readUTF8_eq_none (List.cons_ne_nil _ _)
      (readUTF8_of_isContinuation (by decide) [])
  · rw [scan_escaped_iff (by simp)]
    simp

end SlashU

end Emdros
