/-
# Positional numerals, most significant digit first

`horner b acc ds` reads the digits `ds` in base `b` after the value `acc`.  What a numeral
codec with a bounded accumulator needs:

* `horner_dropWhile`: leading zeros can be left out;
* `le_horner`: the value never decreases while digits are read, so a bound on the final value
  bounds every intermediate one;
* `foldlM_digits`: reading with a step that fails beyond a bound gives the value whenever the
  value is within the bound.
-/
import Mathlib.Data.List.Basic
import Mathlib.Data.Option.Basic
import Mathlib.Tactic.Linarith

namespace Radix

/-- Read digits in base `b` after `acc`. -/
def horner (b acc : Int) (ds : List Int) : Int := ds.foldl (fun v d => v * b + d) acc

@[simp] theorem horner_nil (b acc : Int) : horner b acc [] = acc := rfl

@[simp] theorem horner_cons (b acc d : Int) (ds : List Int) :
    horner b acc (d :: ds) = horner b (acc * b + d) ds := rfl

/-- Leading zeros do not count. -/
theorem horner_dropWhile (b : Int) : ∀ ds : List Int,
    horner b 0 (ds.dropWhile fun d => decide (d = 0)) = horner b 0 ds
  | [] => rfl
  | d :: ds => by
    by_cases hd : d = 0
    · rw [List.dropWhile_cons_of_pos (by simpa using hd), horner_dropWhile b ds, hd, horner_cons,
        Int.zero_mul, Int.zero_add]
    · rw [List.dropWhile_cons_of_neg (by simpa using hd)]

/-- The value does not decrease while digits are read. -/
theorem le_horner {b : Int} (hb : 1 ≤ b) : ∀ (ds : List Int) (acc : Int), 0 ≤ acc →
    (∀ d ∈ ds, 0 ≤ d) → acc ≤ horner b acc ds
  | [], _, _, _ => le_refl _
  | d :: ds, acc, hacc, hds => by
    have hd := hds d List.mem_cons_self
    have hstep : acc ≤ acc * b + d := by nlinarith
    have ih := le_horner hb ds (acc * b + d) (by omega)
      (fun d' hd' => hds d' (List.mem_cons_of_mem d hd'))
    rw [horner_cons]
    omega

/-- **Bounded reading.**  A step that yields `v * b + d` as long as this does not exceed `t`
reads a numeral whose value does not exceed `t`. -/
theorem foldlM_digits {α : Type*} {b t : Int} (hb : 1 ≤ b) {step : Int → α → Option Int}
    {char : Int → α} (hstep : ∀ v d, 0 ≤ v → 0 ≤ d → d < b → v * b + d ≤ t →
      step v (char d) = some (v * b + d)) :
    ∀ {ds : List Int} {acc : Int}, 0 ≤ acc → (∀ d ∈ ds, 0 ≤ d ∧ d < b) →
      horner b acc ds ≤ t → (ds.map char).foldlM step acc = some (horner b acc ds)
  | [], _, _, _, _ => rfl
  | d :: ds, acc, hacc, hds, htop => by
    obtain ⟨h₁, h₂⟩ := hds d List.mem_cons_self
    have hds' : ∀ d' ∈ ds, 0 ≤ d' ∧ d' < b := fun d' hd' => hds d' (List.mem_cons_of_mem d hd')
    have hnext : 0 ≤ acc * b + d := by nlinarith
    have hle := le_horner hb ds _ hnext (fun d' hd' => (hds' d' hd').1)
    rw [horner_cons] at htop ⊢
    rw [List.map_cons, List.foldlM_cons, hstep acc d hacc h₁ h₂ (by omega)]
    exact foldlM_digits hb hstep hnext hds' htop

end Radix
