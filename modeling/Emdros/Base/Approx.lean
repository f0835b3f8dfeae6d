/-
# One-sided approximations under a polarity

A filter may be weaker than what it stands for, never stronger; under a complement it is the
other way round.  `Approx positive a c` says that `c` bounds `a` from above (`positive`) or from
below.  The rules say how the operations of a Boolean algebra treat such bounds, and which
operand of a meet or a join may be left out under which polarity.
-/
import Mathlib.Order.BooleanAlgebra.Basic

variable {α : Type*} {positive : Bool}

/-- `c` bounds `a` from above if `positive`, else from below. -/
def Approx [LE α] : Bool → α → α → Prop
  | true, a, c => a ≤ c
  | false, a, c => c ≤ a

namespace Approx

theorem refl [Preorder α] (a : α) : Approx positive a a := by
  cases positive with
  | true => exact le_refl a
  | false => exact le_refl a

theorem compl [BooleanAlgebra α] {a c : α} (h : Approx (!positive) a c) :
    Approx positive aᶜ cᶜ := by
  cases positive with
  | true => exact compl_le_compl h
  | false => exact compl_le_compl h

theorem inf [Lattice α] {a b c d : α} (h₁ : Approx positive a c) (h₂ : Approx positive b d) :
    Approx positive (a ⊓ b) (c ⊓ d) := by
  cases positive with
  | true => exact inf_le_inf h₁ h₂
  | false => exact inf_le_inf h₁ h₂

theorem sup [Lattice α] {a b c d : α} (h₁ : Approx positive a c) (h₂ : Approx positive b d) :
    Approx positive (a ⊔ b) (c ⊔ d) := by
  cases positive with
  | true => exact sup_le_sup h₁ h₂
  | false => exact sup_le_sup h₁ h₂

/-- From above, either operand of a meet may be left out... -/
theorem inf_left [Lattice α] {a c : α} (h : Approx true a c) (b : α) : Approx true (a ⊓ b) c :=
  inf_le_left.trans h

theorem inf_right [Lattice α] {b d : α} (h : Approx true b d) (a : α) : Approx true (a ⊓ b) d :=
  inf_le_right.trans h

/-- ...and from below, either operand of a join. -/
theorem sup_left [Lattice α] {a c : α} (h : Approx false a c) (b : α) : Approx false (a ⊔ b) c :=
  le_sup_of_le_left h

theorem sup_right [Lattice α] {b d : α} (h : Approx false b d) (a : α) :
    Approx false (a ⊔ b) d :=
  le_sup_of_le_right h

end Approx
