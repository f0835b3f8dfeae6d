/-
# The arithmetic of a power block

`monad_m` has 32 bits and `MAX_MONAD` is 2100000000, so that the sum of two monads need not fit.
`R_block_string2_power_block` adds the limits of the power block to the monad after a straw: the
lower one to find where the next block may start, and the upper one to find where it may not start
any more.  The second sum is clamped to the end of the substrate, but only once it is there.

`powerBlockMonads_exact_iff` says for which straws the two sums are those of the integers;
`powerBlockMonads_eq` is the case in which they are what `rBlockString2PowerBlock` works with.
-/
import Emdros.MQL.Literals
import Emdros.MQL.PowerBlocks
import Emdros.Monads.SetAlgebra

namespace Emdros
namespace PowerArithmetic

open SetOfMonads

/-! ## 1. What is computed for a straw -/

/-- `R_restrict(SOM, monad, result)`, with a difference of 32 bits. -/
def rRestrictMonadM (som : SetOfMonads) (monad : Int) : SetOfMonads :=
  let mm1 := narrow (monad - 1)
  if som.first ≤ mm1 then som.removeRange som.first mm1 else som

/-- The monads that `R_block_string2_power_block` computes for a straw.  There is an upper limit
only where there is something of the universe and of the substrate left. -/
@[ext] structure PowerBlockMonads where
  strawlastPlus1 : Int
  strawlastPlus1PlusLimitLow : Int
  upperLimit : Option Int
  deriving DecidableEq, Repr

/-- What `R_block_string2_power_block` computes before it asks for start monads, for a straw whose
last monad is `strawLast`.  Every sum is cast to 32 bits, as the machine does. -/
def powerBlockMonads (U Su : SetOfMonads) (maxRange : Int) (power : Power) (strawLast : Int) :
    PowerBlockMonads :=
  let limitHigh := min power.limitHigh maxRange
  let limitLow := min power.limitLow limitHigh
  let strawlastPlus1 := narrow (strawLast + 1)
  let strawlastPlus1PlusLimitLow := narrow (strawlastPlus1 + limitLow)
  let Uping := rRestrictMonadM U strawlastPlus1PlusLimitLow
  let Suping := rRestrictMonadM Su strawlastPlus1PlusLimitLow
  { strawlastPlus1, strawlastPlus1PlusLimitLow,
    upperLimit :=
      if !Uping.isEmpty && !Suping.isEmpty then
        if limitHigh = maxMonad then some Suping.last
        else
          let upperLimit := narrow (strawlastPlus1 + limitHigh)
          some (if upperLimit > Suping.last then Suping.last else upperLimit)
      else none }

/-- The monads are those of the integers. -/
structure PowerBlockMonads.IsExact (m : PowerBlockMonads) (Su : SetOfMonads) (maxRange : Int)
    (power : Power) (strawLast : Int) : Prop where
  strawlastPlus1_eq : m.strawlastPlus1 = strawLast + 1
  limitLow_eq : m.strawlastPlus1PlusLimitLow
    = strawLast + 1 + min power.limitLow (min power.limitHigh maxRange)
  upperLimit_eq : ∀ u, m.upperLimit = some u → u
    = min (strawLast + 1 + min power.limitHigh maxRange)
        (rRestrictMonadM Su m.strawlastPlus1PlusLimitLow).last

/-! ## 2. When the sums fit -/

/-- The sum of a straw's end and the lower limit has 32 bits.  Where monads are left from there on,
so has the sum with the upper limit; `MAX_MONAD` is not added, but stands for the end of the
substrate, which must not be further away than that. -/
structure SumsFit (U Su : SetOfMonads) (maxRange : Int) (power : Power) (strawLast : Int) :
    Prop where
  low : -2147483648 ≤ strawLast + 1 + power.low maxRange ∧
    strawLast + 1 + power.low maxRange < 2147483648
  high : (rRestrictMonadM U (strawLast + 1 + power.low maxRange)).monadMs ≠ [] →
    (rRestrictMonadM Su (strawLast + 1 + power.low maxRange)).monadMs ≠ [] →
      if power.high maxRange = maxMonad then
        (rRestrictMonadM Su (strawLast + 1 + power.low maxRange)).last
          ≤ strawLast + 1 + maxMonad
      else strawLast + 1 + power.high maxRange < 2147483648

section Sums

variable {U Su : SetOfMonads} {maxRange strawLast : Int} {power : Power}

theorem rRestrictMonadM_eq (som : SetOfMonads) {monad : Int} (hlow : -2147483648 < monad)
    (hhigh : monad ≤ 2147483648) : rRestrictMonadM som monad = rRestrict som monad := by
  have hmm1 : narrow (monad - 1) = monad - 1 := narrow_eq_iff.mpr ⟨by omega, by omega⟩
  rw [rRestrictMonadM, hmm1]
  rfl

/-- What is left of a set of monads is one too. -/
theorem rRestrictMonadM_repInv {som : SetOfMonads} (h : som.RepInv) (monad : Int) :
    (rRestrictMonadM som monad).RepInv := by
  unfold rRestrictMonadM
  dsimp only
  split
  · rename_i hle
    exact (removeRange_spec h hle).1
  · exact h

theorem last_le_maxMonad {som : SetOfMonads} (h : som.RepInv) : som.last ≤ maxMonad := by
  by_cases hne : som.monadMs = []
  · rw [last, (h.empty_eq hne).2]
    decide
  · exact (inRange_of_mem_cover h.inRange (h.isGreatest_last hne).1).2

theorem Power.low_le_high : power.low maxRange ≤ power.high maxRange := min_le_right _ _

theorem Power.high_le : power.high maxRange ≤ maxRange := min_le_right _ _

/-- A straw ends at or before `MAX_MONAD`, so that the monad after it fits. -/
theorem narrow_strawLast (hlow : -2147483648 ≤ strawLast) (hhigh : strawLast ≤ maxMonad) :
    narrow (strawLast + 1) = strawLast + 1 := by
  unfold maxMonad at hhigh
  exact narrow_eq_iff.mpr ⟨by omega, by omega⟩

/-- A sum of two monads that does not fit is cast to a negative number. -/
theorem narrow_neg_of_ge {i : Int} (hlow : 2147483648 ≤ i) (hhigh : i < 4294967296) :
    narrow i < 0 := by
  have h : narrow (i - 4294967296) = i - 4294967296 :=
    narrow_eq_iff.mpr ⟨by omega, by omega⟩
  have hcast : narrow i = narrow (i - 4294967296) := by
    unfold narrow
    exact (Int.sub_bmod_right i 4294967296).symm
  rw [hcast, h]
  omega

/-- The clamp undoes a sum that is too large, but not one that is cast to a negative number. -/
theorem clamp_eq_iff {i last : Int} (hlast : 0 ≤ last) (hlastMax : last < 2147483648)
    (hlow : -2147483648 ≤ i) (hhigh : i < 4294967296) :
    (if narrow i > last then last else narrow i) = min i last ↔ i < 2147483648 := by
  constructor
  · intro h
    by_contra hi
    have hneg : narrow i < 0 := narrow_neg_of_ge (by omega) hhigh
    rw [if_neg (by omega), min_eq_right (by omega)] at h
    omega
  · intro hi
    have hi' : narrow i = i := narrow_eq_iff.mpr ⟨hlow, hi⟩
    rw [hi']
    split
    · exact (min_eq_right (by omega)).symm
    · exact (min_eq_left (by omega)).symm

end Sums

section Sums

variable {maxRange strawLast : Int} {power : Power} (U Su : SetOfMonads)

theorem powerBlockMonads_strawlastPlus1 (hlow : -2147483648 ≤ strawLast)
    (hhigh : strawLast ≤ maxMonad) :
    (powerBlockMonads U Su maxRange power strawLast).strawlastPlus1 = strawLast + 1 :=
  narrow_strawLast hlow hhigh

theorem powerBlockMonads_limitLow (hlow : -2147483648 ≤ strawLast)
    (hhigh : strawLast ≤ maxMonad) :
    (powerBlockMonads U Su maxRange power strawLast).strawlastPlus1PlusLimitLow
      = narrow (strawLast + 1 + power.low maxRange) := by
  have h := narrow_strawLast hlow hhigh
  simp only [powerBlockMonads, h]
  rfl

/-- The upper limit, once the lower one fits. -/
theorem powerBlockMonads_upperLimit (hlow : -2147483648 ≤ strawLast)
    (hhigh : strawLast ≤ maxMonad) {lower : Int}
    (hlower : narrow (strawLast + 1 + power.low maxRange) = lower) :
    (powerBlockMonads U Su maxRange power strawLast).upperLimit =
      if (rRestrictMonadM U lower).monadMs ≠ [] ∧ (rRestrictMonadM Su lower).monadMs ≠ [] then
        some (if power.high maxRange = maxMonad then (rRestrictMonadM Su lower).last
          else if narrow (strawLast + 1 + power.high maxRange) > (rRestrictMonadM Su lower).last
          then (rRestrictMonadM Su lower).last
          else narrow (strawLast + 1 + power.high maxRange))
      else none := by
  have h := narrow_strawLast hlow hhigh
  have hlower' : narrow (strawLast + 1 + min power.limitLow (min power.limitHigh maxRange))
      = lower := hlower
  simp only [powerBlockMonads, h, hlower', Power.high]
  by_cases hU : (rRestrictMonadM U lower).monadMs = []
  · simp [isEmpty, hU]
  by_cases hSu : (rRestrictMonadM Su lower).monadMs = []
  · simp [isEmpty, hSu]
  by_cases hmax : min power.limitHigh maxRange = maxMonad
  · simp [isEmpty, hU, hSu, hmax]
  · simp [isEmpty, hU, hSu, hmax]

variable {U Su}

/-- The upper limit is that of the integers, once the lower one fits. -/
theorem upperLimit_eq_iff {last : Int} (hlast : 0 ≤ last) (hlastMax : last ≤ maxMonad)
    (hmaxRange : maxRange ≤ maxMonad) (hhigh : strawLast ≤ maxMonad)
    (hfits : -2147483648 ≤ strawLast + 1 + power.low maxRange) :
    (if power.high maxRange = maxMonad then last
      else if narrow (strawLast + 1 + power.high maxRange) > last then last
      else narrow (strawLast + 1 + power.high maxRange))
        = min (strawLast + 1 + power.high maxRange) last ↔
      if power.high maxRange = maxMonad then last ≤ strawLast + 1 + maxMonad
      else strawLast + 1 + power.high maxRange < 2147483648 := by
  have hlimits : power.low maxRange ≤ power.high maxRange := Power.low_le_high
  have hle : power.high maxRange ≤ maxRange := Power.high_le
  unfold maxMonad at hlastMax hmaxRange hhigh
  by_cases hmax : power.high maxRange = maxMonad
  · rw [if_pos hmax, if_pos hmax, hmax]
    exact eq_comm.trans min_eq_right_iff
  · rw [if_neg hmax, if_neg hmax]
    exact clamp_eq_iff hlast (by omega) (by omega) (by omega)

/-! ## 3. The straws for which they do -/

/-- **The monads of a power block are those of the integers exactly for the straws whose sums
fit.** -/
theorem powerBlockMonads_exact_iff (hSu : Su.RepInv) (hmaxRange : maxRange ≤ maxMonad)
    (hlow : -2147483648 ≤ strawLast) (hhigh : strawLast ≤ maxMonad) :
    (powerBlockMonads U Su maxRange power strawLast).IsExact Su maxRange power strawLast ↔
      SumsFit U Su maxRange power strawLast := by
  have hlimitLow : (powerBlockMonads U Su maxRange power strawLast).strawlastPlus1PlusLimitLow
      = narrow (strawLast + 1 + power.low maxRange) := powerBlockMonads_limitLow U Su hlow hhigh
  have hrest := rRestrictMonadM_repInv hSu (strawLast + 1 + power.low maxRange)
  constructor
  · intro h
    have hfits : narrow (strawLast + 1 + power.low maxRange)
        = strawLast + 1 + power.low maxRange := by
      rw [← hlimitLow]
      exact h.limitLow_eq
    have hbounds := narrow_eq_iff.mp hfits
    refine ⟨hbounds, fun hU hS => ?_⟩
    have hupper := powerBlockMonads_upperLimit U Su hlow hhigh hfits
    rw [if_pos ⟨hU, hS⟩] at hupper
    have hexact := h.upperLimit_eq _ hupper
    rw [hlimitLow, hfits] at hexact
    exact (upperLimit_eq_iff hrest.bounds_inRange.2 (last_le_maxMonad hrest) hmaxRange hhigh
      hbounds.1).mp hexact
  · intro h
    have hfits := narrow_eq_iff.mpr h.low
    refine ⟨powerBlockMonads_strawlastPlus1 U Su hlow hhigh, hlimitLow.trans hfits, fun u hu => ?_⟩
    have hupper := powerBlockMonads_upperLimit U Su hlow hhigh hfits
    rw [hlimitLow, hfits]
    rw [hu] at hupper
    split at hupper
    · rename_i hne
      rw [Option.some.inj hupper]
      exact (upperLimit_eq_iff hrest.bounds_inRange.2 (last_le_maxMonad hrest) hmaxRange hhigh
        h.low.1).mpr (h.high hne.1 hne.2)
    · exact absurd hupper (Option.some_ne_none u)

/-- The monads `1` to `last`. -/
def upTo (last : Nat) (h : 1 ≤ (last : Int)) : SetOfMonads := empty.addMSE ⟨1, last, h⟩

theorem upTo_repInv {last : Nat} (h : 1 ≤ (last : Int)) (hmax : (last : Int) ≤ maxMonad) :
    (upTo last h).RepInv := (addMSE_spec repInv_empty ⟨by simp, hmax⟩).1

theorem powerBlockMonads_exact_iff_upTo :
    (powerBlockMonads (upTo 30 (by decide)) (upTo 30 (by decide)) maxMonad ⟨0, 10⟩ 5).IsExact
        (upTo 30 (by decide)) maxMonad ⟨0, 10⟩ 5 ↔
      SumsFit (upTo 30 (by decide)) (upTo 30 (by decide)) maxMonad ⟨0, 10⟩ 5 :=
  powerBlockMonads_exact_iff (upTo_repInv (by decide) (by decide)) le_rfl (by decide) (by decide)

/-- **`.. <= 2000000000` after a straw that ends at 1000000000.**  The upper limit is negative, so
that no start monad is tried, although the substrate has 1100000000 monads left. -/
theorem not_powerBlockMonads_exact :
    ¬ ∀ (U Su : SetOfMonads) (maxRange : Int) (p : PowerSyntax) (strawLast : Int),
      U.RepInv → Su.RepInv → (∀ m ∈ U.mem, 1 ≤ m) → (∀ m ∈ Su.mem, 1 ≤ m) → 0 ≤ maxRange →
        maxRange ≤ maxMonad → p.build.weed = true → -1 ≤ strawLast → strawLast ≤ maxMonad →
          (powerBlockMonads U Su maxRange p.build strawLast).IsExact Su maxRange p.build
            strawLast := by
  intro h
  have hrepInv : (upTo 2100000000 (by decide)).RepInv := upTo_repInv (by decide) (by decide)
  have hmem : ∀ m ∈ (upTo 2100000000 (by decide)).mem, 1 ≤ m := by
    intro m hm
    exact (hrepInv.isLeast_first (by decide)).2 hm
  have hexact := h (upTo 2100000000 (by decide)) (upTo 2100000000 (by decide)) maxMonad
    (.lessThanOrEqual 2000000000) 1000000000 hrepInv hrepInv hmem hmem (by decide) le_rfl
    (by decide +kernel) (by decide) (by decide)
  have hupper := hexact.upperLimit_eq (-1294967295) (by decide +kernel)
  revert hupper
  decide +kernel

/-! ## 4. What follows for the evaluation -/

/-- A limit that leaves room above `MAX_MONAD` is safe after every straw. -/
theorem sumsFit_of_high_le (hlow : 0 ≤ power.low maxRange) (hhigh : power.high maxRange ≤ 47483646)
    (hstraw : -1 ≤ strawLast) (hstrawMax : strawLast ≤ maxMonad) :
    SumsFit U Su maxRange power strawLast := by
  have hlimits : power.low maxRange ≤ power.high maxRange := Power.low_le_high
  unfold maxMonad at hstrawMax
  refine ⟨⟨by omega, by omega⟩, fun _ _ => ?_⟩
  rw [if_neg (by unfold maxMonad; omega)]
  omega

/-- `..` without limits is safe after every straw, as `MAX_MONAD` is not added. -/
theorem sumsFit_unrestricted (hSu : Su.RepInv) (hstraw : -1 ≤ strawLast)
    (hstrawMax : strawLast ≤ maxMonad) :
    SumsFit U Su maxMonad PowerSyntax.unrestricted.build strawLast := by
  have hlow : PowerSyntax.unrestricted.build.low maxMonad = 0 := rfl
  have hhigh : PowerSyntax.unrestricted.build.high maxMonad = maxMonad := rfl
  have hlast := last_le_maxMonad (rRestrictMonadM_repInv hSu (strawLast + 1 + 0))
  unfold maxMonad at hstrawMax
  refine ⟨by rw [hlow]; omega, fun _ _ => ?_⟩
  rw [if_pos hhigh, hlow]
  omega

/-- **Where the sums fit, `rBlockString2PowerBlock` works with the same monads.** -/
theorem powerBlockMonads_eq {straw : Straw} (hlow : -2147483648 ≤ straw.last)
    (hhigh : straw.last ≤ maxMonad) (hstrict : -2147483648 < straw.last + 1 + power.low maxRange)
    (hfit : SumsFit U Su maxRange power straw.last) (hSu : Su.RepInv)
    (hmaxRange : maxRange ≤ maxMonad) :
    powerBlockMonads U Su maxRange power straw.last =
      { strawlastPlus1 := straw.last + 1,
        strawlastPlus1PlusLimitLow := straw.last + 1 + power.low maxRange,
        upperLimit :=
          if !(rRestrict U (straw.last + 1 + power.low maxRange)).isEmpty &&
              !(rRestrict Su (straw.last + 1 + power.low maxRange)).isEmpty then
            some (upperLimit Su maxRange power straw)
          else none } := by
  have hfits := narrow_eq_iff.mpr hfit.low
  have hrestrict (som : SetOfMonads) := rRestrictMonadM_eq som hstrict (le_of_lt hfit.low.2)
  have hupper := powerBlockMonads_upperLimit U Su hlow hhigh hfits
  refine PowerBlockMonads.ext ?_ ?_ ?_
  · exact powerBlockMonads_strawlastPlus1 U Su hlow hhigh
  · exact (powerBlockMonads_limitLow U Su hlow hhigh).trans hfits
  · rw [hupper, hrestrict, hrestrict]
    by_cases hne : (rRestrict U (straw.last + 1 + power.low maxRange)).monadMs ≠ [] ∧
        (rRestrict Su (straw.last + 1 + power.low maxRange)).monadMs ≠ []
    · have hleft : (!(rRestrict U (straw.last + 1 + power.low maxRange)).isEmpty &&
          !(rRestrict Su (straw.last + 1 + power.low maxRange)).isEmpty) = true := by
        simpa [isEmpty] using hne
      dsimp only
      rw [if_pos hne, if_pos hleft, upperLimit]
      by_cases hmax : power.high maxRange = maxMonad
      · rw [if_pos hmax, if_pos hmax]
      · rw [if_neg hmax, if_neg hmax]
        have hrest := rRestrictMonadM_repInv hSu (straw.last + 1 + power.low maxRange)
        rw [hrestrict] at hrest
        have hclamp := (upperLimit_eq_iff hrest.bounds_inRange.2 (last_le_maxMonad hrest) hmaxRange
          hhigh hfit.low.1).mpr
        have hsum := hfit.high (by rw [hrestrict]; exact hne.1) (by rw [hrestrict]; exact hne.2)
        rw [if_neg hmax] at hsum
        rw [if_neg hmax, if_neg hmax] at hclamp
        exact congrArg some (hclamp hsum)
    · rw [if_neg hne, if_neg]
      simpa [isEmpty] using hne

end Sums

end PowerArithmetic
end Emdros
