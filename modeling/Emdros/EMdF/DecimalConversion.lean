/-
# Decimal conversion in `char` buffers (`string_func.h`, `string_func.cpp`)

`longlong2szNonReversing` fills its buffer from the end, `longlong2sz` from the front and then
reverses what it has written; `sz2longlong` reads a number up to the first byte that is no digit.
All three are modelled on buffers, where an access outside has no result, and with `long long`
arithmetic, where a value outside the 64-bit range has none.

Both writers write the decimal form of every `long long`.  The reader collects the digits before
it applies the sign, so that it needs 2^63 for the least `long long`: this is the one number that
is not read back without an overflow (`decimal_conversion_iff`).
-/
import Mathlib
import Emdros.Base.CharBuffer
import Emdros.EMdF.StringFunc

namespace Emdros

open Lexer (bytes)

namespace LongLong

open CharBuffer

/-! ## 1. The functions -/

/-- The result of an operation on `long long`, when it is one. -/
def longlong (i : Int) : Option Int := if -2 ^ 63 ≤ i ∧ i < 2 ^ 63 then some i else none

/-- `"9876543210123456789" [9+(tmp - v*10)]`. -/
def mirrorDigit (tmp v : Int) : Option UInt8 := do
  load (bytes "9876543210123456789") (9 + (← longlong (tmp - (← longlong (v * 10)))))

/-- What is left of a number gets smaller. -/
theorem natAbs_tdiv_lt {v : Int} (h : v.tdiv 10 ≠ 0) : (v.tdiv 10).natAbs < v.natAbs := by
  have hquot : (v.tdiv 10).natAbs = v.natAbs / 10 := Int.natAbs_tdiv v 10
  omega

/-- The loop of `longlong2szNonReversing`. -/
def longlong2szNonReversingLoop (v : Int) (szBuffer : List UInt8) (p : Int)
    (pStringLength : Nat) : Option (List UInt8 × Int × Nat) := do
  let tmp := v
  let v := v.tdiv 10
  let szBuffer ← store szBuffer p (← mirrorDigit tmp v)
  if v = 0 then
    some (szBuffer, p - 1, pStringLength + 1)
  else
    longlong2szNonReversingLoop v szBuffer (p - 1) (pStringLength + 1)
termination_by v.natAbs
decreasing_by exact natAbs_tdiv_lt ‹_›

/-- `longlong2szNonReversing`: the buffer, where the text starts in it, and its length. -/
def longlong2szNonReversing (l : Int) (szBuffer : List UInt8) :
    Option (List UInt8 × Int × Nat) := do
  let p : Int := szBuffer.length - 1
  let szBuffer ← store szBuffer p 0
  let (szBuffer, p, pStringLength) ← longlong2szNonReversingLoop l szBuffer (p - 1) 0
  if l < 0 then
    some (← store szBuffer p 45, p, pStringLength + 1)      -- '-'
  else
    some (szBuffer, p + 1, pStringLength)

/-- The first loop of `longlong2sz`. -/
def longlong2szFill (v : Int) (szResult : List UInt8) (p : Int) : Option (List UInt8 × Int) := do
  let tmp := v
  let v := v.tdiv 10
  let szResult ← store szResult p (← mirrorDigit tmp v)
  if v = 0 then some (szResult, p + 1) else longlong2szFill v szResult (p + 1)
termination_by v.natAbs
decreasing_by exact natAbs_tdiv_lt ‹_›

/-- `longlong2sz`; the text starts at the front of the buffer. -/
def longlong2sz (l : Int) (szResult : List UInt8) : Option (List UInt8) := do
  let (szResult, p) ← longlong2szFill l szResult 0
  let (szResult, p) ← if l < 0 then do pure (← store szResult p 45, p + 1) else pure (szResult, p)
  let szResult ← store szResult p 0
  reverseBetween szResult 0 (p - 1)

/-- `is_whitespace`. -/
def isWhitespace (c : UInt8) : Bool := c = 32 || c = 10 || c = 9 || c = 13

/-- The loop of `sz2longlong`; `p` is what is left of the buffer. -/
def sz2longlongLoop (result : Int) : List UInt8 → Option Int
  | [] => none
  | c :: p =>
    if c = 0 then some result
    else
      let c := c.toInt8.toInt - 48
      if c < 0 ∨ c > 9 then some result
      else do
        let result ← longlong (result * 10)
        let result ← longlong (result + c)
        sz2longlongLoop result p

/-- `sz2longlong`. -/
def sz2longlong (szBuffer : List UInt8) : Option Int := do
  match szBuffer.dropWhile isWhitespace with
  | [] => none
  | c :: p =>
    if c = 45 then longlong (-(← sz2longlongLoop 0 p))      -- '-'
    else if c = 43 then sz2longlongLoop 0 p                 -- '+'
    else sz2longlongLoop 0 (c :: p)

/-- The decimal form of a number. -/
def decimal (l : Int) : List UInt8 := bytes (toString l)

/-! ## 2. Decimal digits -/

/-- The digits of a number that is not negative. -/
def natDecimal (n : Nat) : List UInt8 := bytes (toString n)

theorem bytes_digitChar : ∀ d < 10, UInt8.ofNat (Nat.digitChar d).toNat = UInt8.ofNat (48 + d) := by
  decide

theorem natDecimal_of_lt {n : Nat} (h : n < 10) : natDecimal n = [UInt8.ofNat (48 + n)] := by
  rw [natDecimal, bytes, Nat.toString_eq_repr, Nat.toList_repr, Nat.toDigits_of_lt_base h,
    List.map_singleton, bytes_digitChar n h]

theorem natDecimal_of_le {n : Nat} (h : 10 ≤ n) :
    natDecimal n = natDecimal (n / 10) ++ [UInt8.ofNat (48 + n % 10)] := by
  rw [natDecimal, natDecimal, bytes, bytes, Nat.toString_eq_repr, Nat.toString_eq_repr,
    Nat.toList_repr, Nat.toList_repr, Nat.toDigits_of_base_le (by decide) h, List.map_append,
    List.map_singleton, bytes_digitChar _ (Nat.mod_lt _ (by decide))]

theorem length_natDecimal_le_iff {n k : Nat} (hk : 0 < k) :
    (natDecimal n).length ≤ k ↔ n < 10 ^ k := by
  rw [natDecimal, bytes, Nat.toString_eq_repr, Nat.toList_repr, List.length_map,
    Nat.length_toDigits_le_iff (by decide) hk]

theorem decimal_of_nonneg {l : Int} (h : 0 ≤ l) : decimal l = natDecimal l.natAbs := by
  have htoNat : l.toNat = l.natAbs := by omega
  rw [decimal, natDecimal, Int.toString_eq_repr, Int.repr_eq_if, if_pos h, htoNat]
  rfl

theorem decimal_of_neg {l : Int} (h : l < 0) : decimal l = 45 :: natDecimal l.natAbs := by
  have htoNat : (-l).toNat = l.natAbs := by omega
  have hneg : ¬ 0 ≤ l := by omega
  rw [decimal, natDecimal, Int.toString_eq_repr, Int.repr_eq_if, if_neg hneg, htoNat, bytes, bytes,
    String.toList_append, List.map_append]
  rfl

/-- By induction on the number, one digit after the other. -/
theorem isDecimal_of_mem {n : Nat} {c : UInt8} : c ∈ natDecimal n → IsDecimal c := by
  induction n using Nat.strong_induction_on with
  | _ n ih =>
    intro hc
    rcases Nat.lt_or_ge n 10 with hlt | hge
    · rw [natDecimal_of_lt hlt, List.mem_singleton] at hc
      exact ⟨n, hlt, hc⟩
    · rw [natDecimal_of_le hge, List.mem_append, List.mem_singleton] at hc
      rcases hc with hc | hc
      · exact ih (n / 10) (by omega) hc
      · exact ⟨n % 10, Nat.mod_lt _ (by decide), hc⟩

theorem natDecimal_ne_nil (n : Nat) : natDecimal n ≠ [] := by
  rcases Nat.lt_or_ge n 10 with hlt | hge
  · rw [natDecimal_of_lt hlt]
    exact List.cons_ne_nil _ _
  · rw [natDecimal_of_le hge]
    exact List.append_ne_nil_of_right_ne_nil _ (List.cons_ne_nil _ _)

theorem ne_zero_of_mem {n : Nat} {c : UInt8} (hc : c ∈ natDecimal n) : c ≠ 0 := by
  have hdigit : ∀ d < 10, UInt8.ofNat (48 + d) ≠ 0 := by decide
  obtain ⟨d, hd, rfl⟩ := isDecimal_of_mem hc
  exact hdigit d hd

theorem decimal_ne_zero {l : Int} {c : UInt8} (hc : c ∈ decimal l) : c ≠ 0 := by
  rcases Int.lt_or_le l 0 with hneg | hnonneg
  · rw [decimal_of_neg hneg] at hc
    rcases List.mem_cons.mp hc with rfl | hc
    · decide
    · exact ne_zero_of_mem hc
  · rw [decimal_of_nonneg hnonneg] at hc
    exact ne_zero_of_mem hc

/-! ## 3. The writers -/

/-- `l` is a `long long`. -/
def IsLongLong (l : Int) : Prop := -2 ^ 63 ≤ l ∧ l < 2 ^ 63

theorem longlong_of_isLongLong {i : Int} (h : IsLongLong i) : longlong i = some i := if_pos h

theorem IsLongLong.tdiv {v : Int} (h : IsLongLong v) : IsLongLong (v.tdiv 10) := by
  have hquot : (v.tdiv 10).natAbs = v.natAbs / 10 := Int.natAbs_tdiv v 10
  obtain ⟨hlow, hhigh⟩ := h
  constructor <;> omega

/-- Nothing overflows, and the index is one of the table's. -/
theorem mirrorDigit_eq {v : Int} (h : IsLongLong v) :
    mirrorDigit v (v.tdiv 10) = some (UInt8.ofNat (48 + v.natAbs % 10)) := by
  have htable : ∀ k < 19, (bytes "9876543210123456789")[k]? =
      some ((bytes "9876543210123456789").getD k 0) := by decide
  have hmod : v - v.tdiv 10 * 10 = v.tmod 10 := by rw [Int.tmod_def, Int.mul_comm]
  have habs : (v.tmod 10).natAbs = v.natAbs % 10 := Int.natAbs_tmod v 10
  have hlt : (v.tmod 10).natAbs < 10 := habs ▸ Nat.mod_lt _ (by decide)
  have hdigit := digit_tmod v
  obtain ⟨hlow, hhigh⟩ := h
  have hdivle : (v.tdiv 10 * 10).natAbs ≤ v.natAbs := by
    rw [Int.natAbs_mul, Int.natAbs_tdiv]
    exact Nat.div_mul_le_self _ _
  have hmul : longlong (v.tdiv 10 * 10) = some (v.tdiv 10 * 10) :=
    longlong_of_isLongLong ⟨by omega, by omega⟩
  have hsub : longlong (v - v.tdiv 10 * 10) = some (v - v.tdiv 10 * 10) :=
    longlong_of_isLongLong ⟨by omega, by omega⟩
  simp only [mirrorDigit, hmul, hsub, Option.bind_eq_bind, Option.bind_some]
  rw [load, if_pos (by omega), htable _ (by omega), hdigit]

/-- The loop of `longlong2szNonReversing` fills the room in front of `ys` from the right, by
induction on the number that is left. -/
theorem longlong2szNonReversingLoop_eq (xs : List UInt8) (n : Nat) :
    ∀ {v : Int} {room ys : List UInt8} {p : Int} {k : Nat}, v.natAbs = n → IsLongLong v →
      room.length = (natDecimal n).length → p = xs.length + room.length - 1 →
      longlong2szNonReversingLoop v (xs ++ room ++ ys) p k =
        some (xs ++ natDecimal n ++ ys, (xs.length : Int) - 1, k + room.length) := by
  induction n using Nat.strong_induction_on with
  | _ n ih =>
    intro v room ys p k hn hv hroom hp
    have hquot : (v.tdiv 10).natAbs = v.natAbs / 10 := Int.natAbs_tdiv v 10
    have hne : room ≠ [] := by
      rintro rfl
      exact natDecimal_ne_nil n (List.length_eq_zero_iff.mp hroom.symm)
    obtain ⟨room, c, rfl⟩ := (List.eq_nil_or_concat' room).resolve_left hne
    rw [List.length_append, List.length_singleton] at hroom hp
    have hsplit : xs ++ (room ++ [c]) ++ ys = (xs ++ room) ++ c :: ys := by simp
    have hpos : p = (xs ++ room).length := by
      rw [List.length_append]
      omega
    rw [longlong2szNonReversingLoop, mirrorDigit_eq hv, hsplit]
    simp only [Option.bind_eq_bind, Option.bind_some]
    rw [store_append_cons hpos, Option.bind_some]
    rcases Nat.lt_or_ge n 10 with hlt | hge
    · have hroom0 : room = [] := by
        rw [natDecimal_of_lt hlt, List.length_singleton] at hroom
        exact List.length_eq_zero_iff.mp (by omega)
      subst hroom0
      rw [if_pos ((tdiv_eq_zero_iff v).mpr (by omega)), natDecimal_of_lt hlt, hn,
        Nat.mod_eq_of_lt hlt, hp]
      simp
    · have hlen := hroom
      rw [natDecimal_of_le hge, List.length_append, List.length_singleton] at hlen
      have hstop : v.tdiv 10 ≠ 0 := by
        rw [Ne, tdiv_eq_zero_iff]
        omega
      rw [if_neg hstop, ih (n / 10) (by omega) (by omega) hv.tdiv (by omega)
        (by omega), natDecimal_of_le hge, hn]
      simp only [List.append_assoc, List.singleton_append, List.length_append,
        List.length_singleton]
      congr 3
      omega

theorem length_natDecimal_le {l : Int} (h : IsLongLong l) : (natDecimal l.natAbs).length ≤ 19 := by
  obtain ⟨hlow, hhigh⟩ := h
  rw [length_natDecimal_le_iff (by decide)]
  omega

/-- **`longlong2szNonReversing` writes the decimal form**, at the end of its buffer. -/
theorem longlong2szNonReversing_eq {l : Int} (hl : IsLongLong l) (szBuffer : List UInt8)
    (hlen : szBuffer.length = 30) :
    ∃ xs : List UInt8, longlong2szNonReversing l szBuffer =
      some (xs ++ decimal l ++ [0], (xs.length : Int), (decimal l).length) := by
  have hdigits := length_natDecimal_le hl
  obtain ⟨buffer, last, rfl, hbuffer, hlast⟩ := exists_split szBuffer (m := 29) (n := 1) hlen
  obtain ⟨c, rfl⟩ := List.length_eq_one_iff.mp hlast
  obtain ⟨xs, room, rfl, hxs, hroom⟩ := exists_split buffer
    (m := 29 - (natDecimal l.natAbs).length) (n := (natDecimal l.natAbs).length) (by omega)
  have hend : ((xs ++ room ++ [c]).length : Int) - 1 = (xs ++ room).length := by
    rw [List.length_append, List.length_singleton]
    omega
  rw [longlong2szNonReversing, hend, store_append_cons rfl]
  simp only [Option.bind_eq_bind, Option.bind_some]
  rw [longlong2szNonReversingLoop_eq xs l.natAbs rfl hl hroom
    (by rw [List.length_append]; omega)]
  simp only [Option.bind_some]
  rcases Int.lt_or_le l 0 with hneg | hnonneg
  · have hne : xs ≠ [] := by
      rintro rfl
      rw [List.length_nil] at hxs
      omega
    obtain ⟨xs, d, rfl⟩ := (List.eq_nil_or_concat' xs).resolve_left hne
    have hpos : ((xs ++ [d]).length : Int) - 1 = xs.length := by
      rw [List.length_append, List.length_singleton]
      omega
    have hsplit : xs ++ [d] ++ natDecimal l.natAbs ++ [0] =
        xs ++ d :: (natDecimal l.natAbs ++ [0]) := by simp
    refine ⟨xs, ?_⟩
    rw [if_pos hneg, hpos, hsplit, store_append_cons rfl, Option.bind_some, decimal_of_neg hneg,
      List.length_cons, hroom, Nat.zero_add, List.append_assoc, List.cons_append]
  · refine ⟨xs, ?_⟩
    rw [if_neg (not_lt.mpr hnonneg), decimal_of_nonneg hnonneg, hroom, Nat.zero_add,
      Int.sub_add_cancel]

/-- The first loop of `longlong2sz` fills the room after `xs` from the left. -/
theorem longlong2szFill_eq (n : Nat) :
    ∀ {v : Int} (xs ys : List UInt8) {room : List UInt8} {p : Int}, v.natAbs = n → IsLongLong v →
      room.length = (natDecimal n).length → p = xs.length →
      longlong2szFill v (xs ++ room ++ ys) p =
        some (xs ++ (natDecimal n).reverse ++ ys, p + room.length) := by
  induction n using Nat.strong_induction_on with
  | _ n ih =>
    intro v xs ys room p hn hv hroom hp
    have hquot : (v.tdiv 10).natAbs = v.natAbs / 10 := Int.natAbs_tdiv v 10
    obtain _ | ⟨c, room⟩ := room
    · exact absurd (List.length_eq_zero_iff.mp hroom.symm) (natDecimal_ne_nil n)
    rw [List.length_cons] at hroom
    have hsplit : xs ++ (c :: room) ++ ys = xs ++ c :: (room ++ ys) := by simp
    rw [longlong2szFill, mirrorDigit_eq hv, hsplit]
    simp only [Option.bind_eq_bind, Option.bind_some]
    rw [store_append_cons hp, Option.bind_some]
    rcases Nat.lt_or_ge n 10 with hlt | hge
    · have hroom0 : room = [] := by
        rw [natDecimal_of_lt hlt, List.length_singleton] at hroom
        exact List.length_eq_zero_iff.mp (by omega)
      subst hroom0
      rw [if_pos ((tdiv_eq_zero_iff v).mpr (by omega)), natDecimal_of_lt hlt, hn,
        Nat.mod_eq_of_lt hlt]
      simp
    · rw [natDecimal_of_le hge, List.length_append, List.length_singleton] at hroom
      have hstop : v.tdiv 10 ≠ 0 := by
        rw [Ne, tdiv_eq_zero_iff]
        omega
      have hsplit' : xs ++ UInt8.ofNat (48 + v.natAbs % 10) :: (room ++ ys) =
          (xs ++ [UInt8.ofNat (48 + v.natAbs % 10)]) ++ room ++ ys := by simp
      rw [if_neg hstop, hsplit', ih (n / 10) (by omega) _ _ (by omega) hv.tdiv (by omega)
        (by rw [List.length_append, List.length_singleton]; omega), natDecimal_of_le hge, hn,
        List.length_cons]
      simp only [List.append_assoc, List.reverse_append, List.reverse_singleton,
        List.cons_append, List.nil_append]
      congr 2
      omega

/-- **`longlong2sz` writes the same**, at the front of its buffer. -/
theorem longlong2sz_eq {l : Int} (hl : IsLongLong l) (szResult : List UInt8)
    (hlen : szResult.length = 30) :
    ∃ ys : List UInt8, longlong2sz l szResult = some (decimal l ++ 0 :: ys) := by
  have hdigits := length_natDecimal_le hl
  obtain ⟨room, rest, rfl, hroom, hrest⟩ := exists_split szResult
    (m := (natDecimal l.natAbs).length) (n := 30 - (natDecimal l.natAbs).length) (by omega)
  obtain ⟨c, d, ys, rfl⟩ : ∃ c d ys, rest = c :: d :: ys := by
    obtain _ | ⟨c, _ | ⟨d, ys⟩⟩ := rest
    · rw [List.length_nil] at hrest
      omega
    · rw [List.length_singleton] at hrest
      omega
    · exact ⟨c, d, ys, rfl⟩
  have hfill := longlong2szFill_eq l.natAbs [] (c :: d :: ys) (p := 0) rfl hl hroom rfl
  rw [List.nil_append, List.nil_append, Int.zero_add] at hfill
  rw [longlong2sz, hfill]
  simp only [Option.bind_eq_bind, Option.bind_some, Option.pure_def]
  rcases Int.lt_or_le l 0 with hneg | hnonneg
  · have hpos : (room.length : Int) = (natDecimal l.natAbs).reverse.length := by
      rw [List.length_reverse, hroom]
    have hpos' : (room.length : Int) + 1 = ((natDecimal l.natAbs).reverse ++ [45]).length := by
      rw [List.length_append, hpos]
      rfl
    have hsplit : (natDecimal l.natAbs).reverse ++ 45 :: d :: ys =
        ((natDecimal l.natAbs).reverse ++ [45]) ++ d :: ys := by simp
    refine ⟨ys, ?_⟩
    rw [if_pos hneg, store_append_cons hpos, Option.bind_some, hsplit, store_append_cons hpos',
      Option.bind_some]
    have hreverse := reverseBetween_eq ((natDecimal l.natAbs).reverse ++ [45]) []
      (0 :: ys) (q := 0) (p := (room.length : Int) + 1 - 1) rfl
      (by rw [hpos', List.length_nil, Nat.cast_zero, Int.zero_add])
    rw [List.nil_append, List.nil_append] at hreverse
    rw [hreverse, decimal_of_neg hneg]
    simp
  · have hpos : (room.length : Int) = (natDecimal l.natAbs).reverse.length := by
      rw [List.length_reverse, hroom]
    refine ⟨d :: ys, ?_⟩
    rw [if_neg (not_lt.mpr hnonneg), store_append_cons hpos, Option.bind_some]
    have hreverse := reverseBetween_eq (natDecimal l.natAbs).reverse [] (0 :: d :: ys)
      (q := 0) (p := (room.length : Int) - 1) rfl
      (by rw [hpos, List.length_nil, Nat.cast_zero, Int.zero_add])
    rw [List.nil_append, List.nil_append] at hreverse
    rw [hreverse, decimal_of_nonneg hnonneg]
    simp

/-! ## 4. The reader -/

theorem horner_natDecimal (n : Nat) : Radix.horner 10 0 (decimalDigits (natDecimal n)) = n := by
  induction n using Nat.strong_induction_on with
  | _ n ih =>
    rcases Nat.lt_or_ge n 10 with hlt | hge
    · rw [natDecimal_of_lt hlt, decimalDigits, List.map_singleton, toNat_digit hlt,
        Radix.horner_cons, Radix.horner_nil]
      omega
    · have hdigit := ih (n / 10) (by omega)
      rw [natDecimal_of_le hge, decimalDigits, List.map_append, List.map_singleton,
        toNat_digit (Nat.mod_lt _ (by decide)), Radix.horner, List.foldl_append]
      rw [decimalDigits, Radix.horner] at hdigit
      rw [hdigit, List.foldl_cons, List.foldl_nil]
      omega

theorem decimalDigits_nonneg {ds : List UInt8} (hds : ∀ c ∈ ds, IsDecimal c) :
    ∀ d ∈ decimalDigits ds, 0 ≤ d := by
  intro d hd
  obtain ⟨c, hc, rfl⟩ := List.mem_map.mp hd
  obtain ⟨k, hk, rfl⟩ := hds c hc
  rw [toNat_digit hk]
  omega

/-- **The reader overflows exactly when the magnitude is no `long long`**, by induction on the
digits: the value never gets smaller, so that an overflow on the way is one at the end. -/
theorem sz2longlongLoop_eq {ds : List UInt8} (ys : List UInt8) : ∀ {r : Int},
    (∀ c ∈ ds, IsDecimal c) → 0 ≤ r → r < 2 ^ 63 →
    sz2longlongLoop r (ds ++ 0 :: ys) =
      if Radix.horner 10 r (decimalDigits ds) < 2 ^ 63 then
        some (Radix.horner 10 r (decimalDigits ds)) else none := by
  induction ds with
  | nil =>
    intro r _ _ hr
    rw [List.nil_append, sz2longlongLoop, if_pos rfl, decimalDigits, List.map_nil,
      Radix.horner_nil, if_pos hr]
  | cons c ds ih =>
    intro r hds hnonneg hr
    have hbyte : ∀ d < 10, UInt8.ofNat (48 + d) ≠ 0 ∧
        (UInt8.ofNat (48 + d)).toInt8.toInt - 48 = d := by decide
    have hrest : ∀ c ∈ ds, IsDecimal c := fun c hc => hds c (List.mem_cons_of_mem _ hc)
    obtain ⟨d, hd, rfl⟩ := hds _ List.mem_cons_self
    obtain ⟨hzero, hdigit⟩ := hbyte d hd
    have hvalue : ((UInt8.ofNat (48 + d)).toNat : Int) - 48 = d := by
      rw [toNat_digit hd]
      omega
    have hle := Radix.le_horner (b := 10) (by decide) (decimalDigits ds) (r * 10 + d) (by omega)
      (decimalDigits_nonneg hrest)
    rw [List.cons_append, sz2longlongLoop, if_neg hzero]
    simp only [hdigit]
    rw [if_neg (by omega), decimalDigits, List.map_cons, hvalue, Radix.horner_cons, ← decimalDigits]
    rcases Int.lt_or_le (r * 10 + d) (2 ^ 63) with hlt | hge
    · have hmul : longlong (r * 10) = some (r * 10) := longlong_of_isLongLong ⟨by omega, by omega⟩
      have hadd : longlong (r * 10 + d) = some (r * 10 + d) :=
        longlong_of_isLongLong ⟨by omega, hlt⟩
      rw [hmul, Option.bind_eq_bind, Option.bind_some, hadd, Option.bind_some,
        ih hrest (by omega) hlt]
    · have hover : longlong (r * 10 + d) = none := if_neg (by omega)
      rw [if_neg (by omega)]
      rcases Int.lt_or_le (r * 10) (2 ^ 63) with hlt | hge'
      · have hmul : longlong (r * 10) = some (r * 10) :=
          longlong_of_isLongLong ⟨by omega, hlt⟩
        rw [hmul, Option.bind_eq_bind, Option.bind_some, hover]
        rfl
      · have hmul : longlong (r * 10) = none := if_neg (by omega)
        rw [hmul]
        rfl

theorem sz2longlong_of_head {c : UInt8} {p : List UInt8} (h : isWhitespace c = false) :
    sz2longlong (c :: p) = if c = 45 then (sz2longlongLoop 0 p).bind fun r => longlong (-r)
      else if c = 43 then sz2longlongLoop 0 p else sz2longlongLoop 0 (c :: p) := by
  rw [sz2longlong, List.dropWhile_cons_of_neg (by rw [h]; exact Bool.false_ne_true)]
  rfl

/-- **What is read back**: every number but the least `long long`. -/
theorem sz2longlong_decimal (ys : List UInt8) {l : Int} (hl : IsLongLong l) :
    sz2longlong (decimal l ++ 0 :: ys) = if l = -2 ^ 63 then none else some l := by
  have hloop := sz2longlongLoop_eq (r := 0) ys (fun c => isDecimal_of_mem (n := l.natAbs))
    le_rfl (by decide)
  rw [horner_natDecimal] at hloop
  obtain ⟨hlow, hhigh⟩ := hl
  rcases Int.lt_or_le l 0 with hneg | hnonneg
  · rw [decimal_of_neg hneg, List.cons_append, sz2longlong_of_head (by decide), if_pos rfl, hloop]
    split
    · have hneg' : longlong (-(l.natAbs : Int)) = some l := by
        rw [longlong_of_isLongLong ⟨by omega, by omega⟩]
        congr 1
        omega
      rw [if_neg (by omega), Option.bind_some, hneg']
    · rw [if_pos (by omega)]
      rfl
  · obtain ⟨c, ds, hds⟩ := List.exists_cons_of_ne_nil (natDecimal_ne_nil l.natAbs)
    have hbyte : ∀ d < 10, isWhitespace (UInt8.ofNat (48 + d)) = false ∧
        UInt8.ofNat (48 + d) ≠ 45 ∧ UInt8.ofNat (48 + d) ≠ 43 := by decide
    obtain ⟨d, hd, hc⟩ := isDecimal_of_mem (n := l.natAbs) (c := c) (by rw [hds]; simp)
    obtain ⟨hspace, hminus, hplus⟩ := hbyte d hd
    rw [← hc] at hspace hminus hplus
    rw [decimal_of_nonneg hnonneg]
    rw [hds] at hloop ⊢
    rw [List.cons_append] at hloop ⊢
    rw [sz2longlong_of_head hspace, if_neg hminus, if_neg hplus, hloop, if_pos (by omega),
      if_neg (by omega)]
    congr 1
    omega

/-! ## 5. Conversion there and back -/

theorem isLongLong_toInt (l : Int64) : IsLongLong l.toInt := ⟨l.le_toInt, l.toInt_lt⟩

/-- **Decimal conversion.**  Both writers write the decimal form of every `long long` into thirty
bytes, and the reader reads it back from either buffer: but not that of the least one, since its
magnitude overflows. -/
theorem decimal_conversion_iff (l : Int64) (szBuffer szResult : Vector UInt8 30) :
    (∃ b p n, longlong2szNonReversing l.toInt szBuffer.toList = some (b, p, n) ∧
      stringAt b p = some (decimal l.toInt) ∧ n = (decimal l.toInt).length ∧
      ∃ b', longlong2sz l.toInt szResult.toList = some b' ∧
        stringAt b' 0 = some (decimal l.toInt) ∧
        sz2longlong (b.drop p.toNat) = some l.toInt ∧ sz2longlong b' = some l.toInt) ↔
      l ≠ Int64.minValue := by
  have hl := isLongLong_toInt l
  have hleast : l.toInt = -2 ^ 63 ↔ l = Int64.minValue := by
    rw [← Int64.toInt_inj]
    rfl
  obtain ⟨xs, hwrite⟩ := longlong2szNonReversing_eq hl szBuffer.toList (by simp)
  obtain ⟨ys, hwrite'⟩ := longlong2sz_eq hl szResult.toList (by simp)
  have hread : sz2longlong ((xs ++ decimal l.toInt ++ [0]).drop (xs.length : Int).toNat) =
      if l.toInt = -2 ^ 63 then none else some l.toInt := by
    have hdrop : (xs ++ decimal l.toInt ++ [0]).drop (xs.length : Int).toNat =
        decimal l.toInt ++ 0 :: [] := by simp
    rw [hdrop, sz2longlong_decimal [] hl]
  constructor
  · rintro ⟨b, p, n, hb, -, -, -, -, -, hback, -⟩ rfl
    obtain ⟨rfl, rfl, rfl⟩ : xs ++ decimal Int64.minValue.toInt ++ [0] = b ∧
        (xs.length : Int) = p ∧ (decimal Int64.minValue.toInt).length = n := by
      rw [hwrite, Option.some_inj, Prod.mk.injEq, Prod.mk.injEq] at hb
      exact hb
    rw [hread, if_pos (hleast.mpr rfl)] at hback
    exact absurd hback (Option.some_ne_none _).symm
  · intro hne
    have hne' : ¬ l.toInt = -2 ^ 63 := fun h => hne (hleast.mp h)
    refine ⟨_, _, _, hwrite, stringAt_append _ _ rfl (fun c => decimal_ne_zero), rfl, _, hwrite',
      ?_, ?_, ?_⟩
    · have hfront := stringAt_append [] ys (p := 0) rfl
        (fun c => decimal_ne_zero (l := l.toInt) (c := c))
      rwa [List.nil_append] at hfront
    · rw [hread, if_neg hne']
    · rw [sz2longlong_decimal ys hl, if_neg hne']

/-- The least `long long` is written, and reading it back overflows. -/
theorem not_reads_back_minValue : ¬ ∃ b p n,
    longlong2szNonReversing Int64.minValue.toInt (Vector.replicate 30 0).toList = some (b, p, n) ∧
      sz2longlong (b.drop p.toNat) = some Int64.minValue.toInt := by
  rintro ⟨b, p, n, hb, hback⟩
  obtain ⟨xs, hwrite⟩ := longlong2szNonReversing_eq (isLongLong_toInt Int64.minValue)
    (Vector.replicate 30 0).toList rfl
  rw [hwrite, Option.some_inj, Prod.mk.injEq, Prod.mk.injEq] at hb
  obtain ⟨rfl, rfl, -⟩ := hb
  have hdrop : (xs ++ decimal Int64.minValue.toInt ++ [0]).drop (xs.length : Int).toNat =
      decimal Int64.minValue.toInt ++ 0 :: [] := by simp
  rw [hdrop, sz2longlong_decimal [] (isLongLong_toInt Int64.minValue), if_pos (by decide)] at hback
  exact absurd hback (Option.some_ne_none _).symm

end LongLong

end Emdros
