/-
# Random levels (`SkipList::randomLevel` in `inst.cpp`, `SkipList::random` in `inst.h`)

The level of a new node is the number of zero bits in front of the next one bit of a supply, which
is filled up with 30 bits of a linear congruential generator whenever it is used up.  Nothing but
the generator keeps the loop from running for ever: its multiplier and its increment are odd, so of
two numbers in a row one is odd, and the lowest bit is the first that is used.

`randomLevel_terminates` says how long the loop runs, from any state.
-/
import Mathlib.Data.BitVec
import Mathlib.Logic.Function.Iterate
import Emdros.EMdF.SkipList

namespace Emdros

/-! ## 1. The loop -/

/-- The fields of a `SkipList` that `randomLevel` uses. -/
structure RandomBits where
  rand : BitVec 64
  randomBits : BitVec 32
  randomsLeft : Int
  deriving DecidableEq

namespace RandomBits

/-- `BITS_TO_USE_FROM_RANDOM`. -/
def bitsToUseFromRandom : Int := 30

/-- The number after `m_rand`. -/
def next (rand : BitVec 64) : BitVec 64 := rand * 1103515245 + 12345

/-- `m_randomBits = random()`. -/
def refill (s : RandomBits) : RandomBits where
  rand := next s.rand
  randomBits := (next s.rand).setWidth 32
  randomsLeft := bitsToUseFromRandom

/-- The constructor of `SkipList`. -/
def new : RandomBits where
  rand := next 278081371
  randomBits := (next 278081371).setWidth 32
  randomsLeft := bitsToUseFromRandom / 3

/-- `b`, the lowest bit of `m_randomBits`. -/
def b (s : RandomBits) : Bool := s.randomBits.getLsbD 0

/-- The rest of a round: a bit is used up. -/
def shift (s : RandomBits) : RandomBits :=
  let s := { s with
    randomBits := s.randomBits.sshiftRight 1
    randomsLeft := s.randomsLeft - 1 }
  if s.randomsLeft = 0 then s.refill else s

/-- The `do`-loop; `level` is an `int`. -/
def loop : Nat → BitVec 32 → RandomBits → Option (BitVec 32 × RandomBits)
  | 0, _, _ => none
  | fuel + 1, level, s =>
    if s.b then some (level, s.shift) else loop fuel (level + 1) s.shift

/-- What is returned for the level that was counted. -/
def capped (level : BitVec 32) : Int :=
  if level.toInt > (maxLevel : Int) then (maxLevel : Int) else level.toInt

def randomLevel (fuel : Nat) (s : RandomBits) : Option (Int × RandomBits) :=
  (loop fuel 0 s).map fun r => (capped r.1, r.2)

/-! ## 2. Zero bits -/

variable {s : RandomBits}

theorem loop_of_b (hb : s.b = true) (fuel : Nat) (level : BitVec 32) :
    loop (fuel + 1) level s = some (level, s.shift) := by
  rw [loop, if_pos hb]

theorem loop_of_not_b (hb : s.b = false) (fuel : Nat) (level : BitVec 32) :
    loop (fuel + 1) level s = loop fuel (level + 1) s.shift := by
  rw [loop, hb]
  simp

theorem refill_left (s : RandomBits) : s.refill.randomsLeft = 30 := rfl

theorem shift_last (h : s.randomsLeft = 1) : s.shift = s.refill := by
  simp [shift, h, refill]

theorem shift_of_lt (h : 1 < s.randomsLeft) :
    s.shift.randomsLeft = s.randomsLeft - 1 ∧ s.shift.rand = s.rand := by
  have hne : ¬ s.randomsLeft - 1 = 0 := by omega
  simp [shift, hne]

/-- What is left of the supply after one bit. -/
theorem shift_bounds (h : 1 ≤ s.randomsLeft) :
    (1 ≤ s.shift.randomsLeft ∧ s.shift.randomsLeft ≤ max 30 (s.randomsLeft - 1)) ∧
      (s.shift.rand = s.rand ∨ s.shift.rand = next s.rand) := by
  by_cases hlast : s.randomsLeft = 1
  · rw [shift_last hlast]
    exact ⟨⟨by rw [refill_left]; decide, le_max_left _ _⟩, Or.inr rfl⟩
  · obtain ⟨hleft, hrand⟩ := @shift_of_lt s (by omega)
    rw [hleft]
    exact ⟨⟨by omega, le_max_right _ _⟩, Or.inl hrand⟩

/-- The loop ends within a number of rounds, after some zero bits and some refills. -/
def Ends (s : RandomBits) (rounds refills zeros : Nat) (left : Int) : Prop :=
  ∃ (n k z : Nat) (t : RandomBits), n ≤ rounds ∧ k ≤ refills ∧ z ≤ zeros ∧
    (∀ (fuel : Nat) (level : BitVec 32),
      loop (n + fuel) level s = some (level + BitVec.ofNat 32 z, t)) ∧
    t.rand = next^[k] s.rand ∧ 1 ≤ t.randomsLeft ∧ t.randomsLeft ≤ max 30 left

theorem ends_of_b (h : 1 ≤ s.randomsLeft) (hb : s.b = true) :
    Ends s 1 1 0 (s.randomsLeft - 1) := by
  obtain ⟨hleft, hrand⟩ := shift_bounds h
  have hloop : ∀ fuel level,
      loop (1 + fuel) level s = some (level + BitVec.ofNat 32 0, s.shift) := by
    intro fuel level
    rw [Nat.add_comm, loop_of_b hb]
    simp
  rcases hrand with hrand | hrand
  · exact ⟨1, 0, 0, s.shift, le_rfl, by omega, le_rfl, hloop, hrand, hleft⟩
  · exact ⟨1, 1, 0, s.shift, le_rfl, le_rfl, le_rfl, hloop, hrand, hleft⟩

/-- From a state that is reached over zero bits, the loop goes on. -/
theorem Ends.after {t : RandomBits} {rounds refills zeros n z k : Nat} {left left' : Int}
    (h : Ends t rounds refills zeros left) (hleft : left ≤ max 30 left')
    (hloop : ∀ (fuel : Nat) (level : BitVec 32),
      loop (n + fuel) level s = loop fuel (level + BitVec.ofNat 32 z) t)
    (hrand : t.rand = next^[k] s.rand) :
    Ends s (n + rounds) (k + refills) (z + zeros) left' := by
  obtain ⟨n', k', z', u, hn, hk, hz, hu, hurand, hone, hmax⟩ := h
  refine ⟨n + n', k + k', z + z', u, by omega, by omega, by omega, fun fuel level => ?_, ?_, hone,
    by omega⟩
  · rw [Nat.add_assoc, hloop, hu, BitVec.add_assoc, BitVec.ofNat_add]
  · rw [hurand, hrand, Nat.add_comm, Function.iterate_add_apply]

/-- **One supply**, by induction on the bits in it: the loop ends, or all are zero. -/
theorem ends_or_refill : ∀ (n : Nat) {s : RandomBits}, s.randomsLeft = n + 1 →
    Ends s (n + 1) 1 n n ∨
      (∀ (fuel : Nat) (level : BitVec 32),
        loop (n + 1 + fuel) level s = loop fuel (level + BitVec.ofNat 32 (n + 1)) s.refill) := by
  intro n
  induction n with
  | zero =>
    intro s hs
    cases hb : s.b with
    | true =>
      refine Or.inl ?_
      have hends := ends_of_b (by omega) hb
      rwa [show s.randomsLeft - 1 = (0 : Nat) by omega] at hends
    | false =>
      refine Or.inr fun fuel level => ?_
      rw [Nat.add_comm, Nat.zero_add, loop_of_not_b hb, shift_last (by omega)]
      rfl
  | succ n ih =>
    intro s hs
    cases hb : s.b with
    | true =>
      refine Or.inl ?_
      obtain ⟨m, k, z, t, hm, hk, hz, hrest⟩ := ends_of_b (by omega) hb
      rw [show s.randomsLeft - 1 = (n + 1 : Nat) by omega] at hrest
      exact ⟨m, k, z, t, by omega, hk, by omega, hrest⟩
    | false =>
      obtain ⟨hleft, hrand⟩ := @shift_of_lt s (by omega)
      have hone : ∀ (fuel : Nat) (level : BitVec 32),
          loop (1 + fuel) level s = loop fuel (level + BitVec.ofNat 32 1) s.shift := by
        intro fuel level
        rw [Nat.add_comm, loop_of_not_b hb]
        rfl
      have hrefill : s.shift.refill = s.refill := by simp [refill, hrand]
      rcases @ih s.shift (by omega) with hends | hzero
      · refine Or.inl ?_
        have hafter : Ends s (1 + (n + 1)) (0 + 1) (1 + n) (n + 1 : Nat) :=
          hends.after (by omega) hone hrand
        rwa [Nat.add_comm 1 (n + 1), Nat.zero_add, Nat.add_comm 1 n] at hafter
      · refine Or.inr fun fuel level => ?_
        rw [show n + 1 + 1 + fuel = 1 + (n + 1 + fuel) by omega, hone, hzero, hrefill,
          BitVec.add_assoc, ← BitVec.ofNat_add, Nat.add_comm 1 (n + 1)]

/-! ## 3. The generator -/

/-- **The lowest bit alternates**, since the multiplier and the increment are odd. -/
theorem next_lowest (rand : BitVec 64) : (next rand).getLsbD 0 = !rand.getLsbD 0 := by
  have hmod : (next rand).toNat % 2 = (rand.toNat + 1) % 2 := by
    rw [next, BitVec.toNat_add, BitVec.toNat_mul]
    have h₁ : (1103515245 : BitVec 64).toNat = 1103515245 := by decide
    have h₂ : (12345 : BitVec 64).toNat = 12345 := by decide
    rw [h₁, h₂]
    omega
  rw [BitVec.getLsbD, BitVec.getLsbD, Nat.testBit_zero, Nat.testBit_zero, hmod]
  rcases Nat.mod_two_eq_zero_or_one rand.toNat with h | h <;> simp [Nat.add_mod, h]

theorem refill_b (s : RandomBits) : s.refill.b = !s.rand.getLsbD 0 := by
  rw [b, refill, BitVec.getLsbD_setWidth, next_lowest]
  simp

theorem ends_of_even (h : s.rand.getLsbD 0 = false) : Ends s.refill 1 1 0 29 := by
  have hb : s.refill.b = true := by rw [refill_b, h]; rfl
  exact ends_of_b (by rw [refill_left]; decide) hb

/-- After a refill there is at most one more before a one bit is found. -/
theorem ends_refill (s : RandomBits) : Ends s.refill 31 2 30 29 := by
  cases h : s.rand.getLsbD 0 with
  | false =>
    obtain ⟨n, k, z, t, hn, hk, hz, hrest⟩ := ends_of_even h
    exact ⟨n, k, z, t, by omega, by omega, by omega, hrest⟩
  | true =>
    rcases @ends_or_refill 29 s.refill rfl with hends | hzero
    · obtain ⟨n, k, z, t, hn, hk, hz, hrest⟩ := hends
      exact ⟨n, k, z, t, by omega, by omega, by omega, hrest⟩
    · have hodd : s.refill.rand.getLsbD 0 = false := by
        rw [refill, next_lowest, h]
        rfl
      have hends := ends_of_even hodd
      have hafter : Ends s.refill (30 + 1) (1 + 1) (30 + 0) 29 := hends.after (by omega) hzero rfl
      obtain ⟨n, k, z, t, hn, hk, hz, hrest⟩ := hafter
      exact ⟨n, k, z, t, by omega, by omega, by omega, hrest⟩

/-- **The loop ends** from every state. -/
theorem ends (h : 1 ≤ s.randomsLeft) :
    Ends s (s.randomsLeft.toNat + 31) 3 (s.randomsLeft.toNat + 30) (s.randomsLeft - 1) := by
  obtain ⟨n, hn⟩ : ∃ n : Nat, s.randomsLeft = n + 1 := ⟨(s.randomsLeft - 1).toNat, by omega⟩
  rcases ends_or_refill n hn with hends | hzero
  · obtain ⟨m, k, z, t, hm, hk, hz, hrest⟩ := hends
    rw [show s.randomsLeft - 1 = (n : Int) by omega]
    exact ⟨m, k, z, t, by omega, by omega, by omega, hrest⟩
  · have hafter : Ends s (n + 1 + 31) (1 + 2) (n + 1 + 30) (s.randomsLeft - 1) :=
      (ends_refill s).after (by omega) hzero rfl
    obtain ⟨m, k, z, t, hm, hk, hz, hrest⟩ := hafter
    exact ⟨m, k, z, t, by omega, by omega, by omega, hrest⟩

/-! ## 4. `randomLevel` -/

/-- **`randomLevel` returns** from every state: after at most three refills, with a level that the
list has as long as the zero bits can be counted in an `int`, and with a supply that is not empty
and not larger than that of a refill or of the state before. -/
theorem randomLevel_terminates (s : RandomBits) (h : 1 ≤ s.randomsLeft) :
    ∃ level t, (∃ rounds, ∀ fuel ≥ rounds, randomLevel fuel s = some (level, t)) ∧
      (∃ refills ≤ 3, t.rand = next^[refills] s.rand) ∧
      (s.randomsLeft ≤ 2147483617 → 0 ≤ level ∧ level ≤ maxLevel) ∧
      1 ≤ t.randomsLeft ∧ t.randomsLeft ≤ max 30 (s.randomsLeft - 1) := by
  obtain ⟨n, k, z, t, hn, hk, hz, hloop, hrand, hleft⟩ := ends h
  refine ⟨capped (BitVec.ofNat 32 z), t, ⟨n, fun fuel hfuel => ?_⟩, ⟨k, hk, hrand⟩,
    fun hfits => ?_, hleft⟩
  · obtain ⟨extra, rfl⟩ := Nat.exists_eq_add_of_le hfuel
    have hzero : (0 : BitVec 32) + BitVec.ofNat 32 z = BitVec.ofNat 32 z := by simp
    rw [randomLevel, hloop, hzero]
    rfl
  · have hlevel : (BitVec.ofNat 32 z).toInt = z := by
      have hmod : (BitVec.ofNat 32 z).toNat = z := by
        rw [BitVec.toNat_ofNat]
        omega
      rw [BitVec.toInt_eq_toNat_of_lt (by omega), hmod]
    rw [capped, hlevel]
    split
    · exact ⟨by decide, le_rfl⟩
    · exact ⟨by omega, by omega⟩

theorem randomLevel_terminates_new :
    ∃ level t, (∃ rounds, ∀ fuel ≥ rounds, randomLevel fuel new = some (level, t)) ∧
      (∃ refills ≤ 3, t.rand = next^[refills] new.rand) ∧
      (new.randomsLeft ≤ 2147483617 → 0 ≤ level ∧ level ≤ maxLevel) ∧
      1 ≤ t.randomsLeft ∧ t.randomsLeft ≤ max 30 (new.randomsLeft - 1) :=
  randomLevel_terminates new (by decide)

/-- A supply of a hundred bits of which the lowest is one: ninety-nine are left. -/
theorem randomLevel_leaves_more : ¬ ∀ s : RandomBits, 1 ≤ s.randomsLeft →
    ∃ level t fuel, randomLevel fuel s = some (level, t) ∧
      (∃ refills ≤ 3, t.rand = next^[refills] s.rand) ∧
      (0 ≤ level ∧ level ≤ maxLevel) ∧ 1 ≤ t.randomsLeft ∧ t.randomsLeft ≤ 30 := by
  intro hall
  obtain ⟨level, t, fuel, hlevel, -, -, -, hleft⟩ := hall ⟨0, 1, 100⟩ (by decide)
  cases fuel with
  | zero => cases hlevel
  | succ fuel =>
    rw [randomLevel, loop_of_b rfl] at hlevel
    cases hlevel
    exact absurd hleft (by decide)

example : 1 ≤ new.randomsLeft ∧ new.randomsLeft ≤ 30 := by decide

end RandomBits

end Emdros
