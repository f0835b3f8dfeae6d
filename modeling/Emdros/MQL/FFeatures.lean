/-
# Feature constraints and their pre-queries (`mql_query.cpp`, `mql_R.cpp`)

The constraints `[Word number = sg AND NOT (case = acc OR ...)]` of an object block are checked
twice.  `R_ffeatures` checks them against each object; before that, the backend filters the
objects with the `EMdFFFeatures` that `makeConstraints` builds from those comparisons which it
can express.  The classes `EMdFFFactor`, `EMdFFTerm` and `EMdFFFeatures` are the same grammar over
the backend's comparisons, so both are one family of trees over a type of comparisons.

A comparison that the backend cannot express is left out, or takes with it all that is joined to
it, depending on the number of `NOT`s around it.  `makeConstraints_approx` is the invariant:
what is built in a positive context lets through everything that satisfies the constraint, and
what is built in a negative context nothing else.
-/
import Emdros.Base.Approx

namespace Emdros

universe u v w

/-! ## 1. Trees -/

mutual

/-- `ffactor ::= "NOT" ffactor | "(" ffeatures ")" | feature_comparison`. -/
inductive FFactor (C : Type u) : Type u where
  | not (ffactor : FFactor C)
  | parenthesis (ffeatures : FFeatures C)
  | comparison (featureComparison : C)

/-- `fterm ::= ffactor | fterm "AND" ffactor`. -/
inductive FTerm (C : Type u) : Type u where
  | ffactor (ffactor : FFactor C)
  | and (fterm : FTerm C) (ffactor : FFactor C)

/-- `ffeatures ::= fterm | ffeatures "OR" fterm`. -/
inductive FFeatures (C : Type u) : Type u where
  | fterm (fterm : FTerm C)
  | or (ffeatures : FFeatures C) (fterm : FTerm C)

end

/-- `EMdFDB::getEMdFFTerm(fterm, ffactor)`, where `fterm` may be null. -/
def getEMdFFTerm {E : Type u} : Option (FTerm E) → FFactor E → FTerm E
  | none, ffactor => .ffactor ffactor
  | some fterm, ffactor => .and fterm ffactor

/-- `EMdFDB::getEMdFFFeatures(ffeatures, fterm)`, where `ffeatures` may be null. -/
def getEMdFFFeatures {E : Type u} : Option (FFeatures E) → FTerm E → FFeatures E
  | none, fterm => .fterm fterm
  | some ffeatures, fterm => .or ffeatures fterm

/-! ## 2. What a tree means -/

section Eval

variable {C : Type u} (holds : C → Bool)

mutual

/-- A tree read as a Boolean combination of its comparisons. -/
def FFactor.eval : FFactor C → Bool
  | .not ffactor => (ffactor.eval)ᶜ
  | .parenthesis ffeatures => ffeatures.eval
  | .comparison c => holds c

def FTerm.eval : FTerm C → Bool
  | .ffactor ffactor => ffactor.eval
  | .and fterm ffactor => fterm.eval ⊓ ffactor.eval

def FFeatures.eval : FFeatures C → Bool
  | .fterm fterm => fterm.eval
  | .or ffeatures fterm => ffeatures.eval ⊔ fterm.eval

end

end Eval

@[simp] theorem eval_getEMdFFTerm_none {E : Type u} (holds : E → Bool) (B : FFactor E) :
    (getEMdFFTerm none B).eval holds = B.eval holds := by
  rw [getEMdFFTerm, FTerm.eval]

@[simp] theorem eval_getEMdFFTerm_some {E : Type u} (holds : E → Bool) (A : FTerm E)
    (B : FFactor E) :
    (getEMdFFTerm (some A) B).eval holds = A.eval holds ⊓ B.eval holds := by
  rw [getEMdFFTerm, FTerm.eval]

@[simp] theorem eval_getEMdFFFeatures_none {E : Type u} (holds : E → Bool) (B : FTerm E) :
    (getEMdFFFeatures none B).eval holds = B.eval holds := by
  rw [getEMdFFFeatures, FFeatures.eval]

@[simp] theorem eval_getEMdFFFeatures_some {E : Type u} (holds : E → Bool) (A : FFeatures E)
    (B : FTerm E) :
    (getEMdFFFeatures (some A) B).eval holds = A.eval holds ⊔ B.eval holds := by
  rw [getEMdFFFeatures, FFeatures.eval]

/-! ## 3. `R_ffeatures` -/

section Retrieval

variable {C : Type u} {O : Type v} {S : Type w} (compare : C → O → S → Bool)
  (pObj : O) (pNonParentORDSolution : S)

mutual

/-- `R_ffactor`; `compare` is `R_feature_comparison`. -/
def rFfactor : FFactor C → Bool
  | .not ffactor => !rFfactor ffactor
  | .parenthesis ffeatures => rFfeatures ffeatures
  | .comparison c => compare c pObj pNonParentORDSolution

/-- `R_fterm`. -/
def rFterm : FTerm C → Bool
  | .ffactor ffactor => rFfactor ffactor
  | .and fterm ffactor => if !rFterm fterm then false else rFfactor ffactor

/-- `R_ffeatures` of a tree. -/
def rFfeatures : FFeatures C → Bool
  | .fterm fterm => rFterm fterm
  | .or ffeatures fterm => if rFfeatures ffeatures then true else rFterm fterm

end

mutual

theorem rFfactor_eq : ∀ f : FFactor C,
    rFfactor compare pObj pNonParentORDSolution f
      = f.eval fun c => compare c pObj pNonParentORDSolution
  | .not f => by
    rw [rFfactor, FFactor.eval, rFfactor_eq f]
    rfl
  | .parenthesis f => by rw [rFfactor, FFactor.eval, rFfeatures_eq f]
  | .comparison c => by rw [rFfactor, FFactor.eval]

theorem rFterm_eq : ∀ f : FTerm C,
    rFterm compare pObj pNonParentORDSolution f
      = f.eval fun c => compare c pObj pNonParentORDSolution
  | .ffactor f => by rw [rFterm, FTerm.eval, rFfactor_eq f]
  | .and A B => by
    rw [rFterm, FTerm.eval, rFterm_eq A, rFfactor_eq B]
    cases A.eval fun c => compare c pObj pNonParentORDSolution with
    | true => exact (top_inf_eq _).symm
    | false => exact (bot_inf_eq _).symm

/-- Cutting the evaluation short does not change its value. -/
theorem rFfeatures_eq : ∀ f : FFeatures C,
    rFfeatures compare pObj pNonParentORDSolution f
      = f.eval fun c => compare c pObj pNonParentORDSolution
  | .fterm f => by rw [rFfeatures, FFeatures.eval, rFterm_eq f]
  | .or A B => by
    rw [rFfeatures, FFeatures.eval, rFfeatures_eq A, rFterm_eq B]
    cases A.eval fun c => compare c pObj pNonParentORDSolution with
    | true => exact (top_sup_eq _).symm
    | false => exact (bot_sup_eq _).symm

end

end Retrieval

/-! ## 4. `makeConstraints` -/

section MakeConstraints

variable {C : Type u} {E : Type v}

/-- `FTerm::makeConstraints` on a conjunction, given the constraints of its parts. -/
def andConstraints (bContextIsPositive : Bool) (A : Option (FTerm E)) (B : Option (FFactor E)) :
    Option (FTerm E) :=
  if !bContextIsPositive then
    -- `AND` works like `OR`: leaving one out would miss objects
    match A, B with
    | some A, some B => some (getEMdFFTerm (some A) B)
    | _, _ => none
  else
    match A, B with
    | none, none => none
    | none, some B => some (getEMdFFTerm none B)
    | some A, none => some A
    | some A, some B => some (getEMdFFTerm (some A) B)

/-- `FFeatures::makeConstraints` on a disjunction, given the constraints of its parts. -/
def orConstraints (bContextIsPositive : Bool) (A : Option (FFeatures E)) (B : Option (FTerm E)) :
    Option (FFeatures E) :=
  if bContextIsPositive then
    match A, B with
    | some A, some B => some (getEMdFFFeatures (some A) B)
    | _, _ => none
  else
    -- `OR` works like `AND`
    match A, B with
    | none, none => none
    | some A, none => some A
    | none, some B => some (getEMdFFFeatures none B)
    | some A, some B => some (getEMdFFFeatures (some A) B)

variable (comparison : Bool → C → Option E)

mutual

/-- `FFactor::makeConstraints`; `comparison` is `FeatureComparison::makeConstraints`. -/
def FFactor.makeConstraints : Bool → Bool → FFactor C → Option (FFactor E)
  | bContextIsPositive, _, .not ffactor =>
    (ffactor.makeConstraints (!bContextIsPositive) true).map fun f => .not f
  | bContextIsPositive, bContextHasBeenNegative, .parenthesis ffeatures =>
    (ffeatures.makeConstraints bContextIsPositive bContextHasBeenNegative).map
      fun f => .parenthesis f
  | _, bContextHasBeenNegative, .comparison c =>
    (comparison bContextHasBeenNegative c).map fun e => .comparison e

/-- `FTerm::makeConstraints`. -/
def FTerm.makeConstraints : Bool → Bool → FTerm C → Option (FTerm E)
  | bContextIsPositive, bContextHasBeenNegative, .ffactor ffactor =>
    (ffactor.makeConstraints bContextIsPositive bContextHasBeenNegative).map
      fun f => getEMdFFTerm none f
  | bContextIsPositive, bContextHasBeenNegative, .and fterm ffactor =>
    andConstraints bContextIsPositive
      (fterm.makeConstraints bContextIsPositive bContextHasBeenNegative)
      (ffactor.makeConstraints bContextIsPositive bContextHasBeenNegative)

/-- `FFeatures::makeConstraints`. -/
def FFeatures.makeConstraints : Bool → Bool → FFeatures C → Option (FFeatures E)
  | bContextIsPositive, bContextHasBeenNegative, .fterm fterm =>
    (fterm.makeConstraints bContextIsPositive bContextHasBeenNegative).map
      fun t => getEMdFFFeatures none t
  | bContextIsPositive, bContextHasBeenNegative, .or ffeatures fterm =>
    orConstraints bContextIsPositive
      (ffeatures.makeConstraints bContextIsPositive bContextHasBeenNegative)
      (fterm.makeConstraints bContextIsPositive bContextHasBeenNegative)

end

/-- `getEMdFConstraints`. -/
def FFeatures.getEMdFConstraints (f : FFeatures C) : Option (FFeatures E) :=
  f.makeConstraints comparison true false

end MakeConstraints

/-! ## 5. The invariant -/

section Soundness

variable {C : Type u} {E : Type v}

/-- What is built, if anything, approximates. -/
def Filters {T : Type w} (eval : T → Bool) (positive value : Bool) (constraint : Option T) :
    Prop :=
  ∀ t, constraint = some t → Approx positive value (eval t)

theorem Filters.map {T : Type*} {U : Type*} {eval : T → Bool} {eval' : U → Bool}
    {positive positive' value value' : Bool} {constraint : Option T} {f : T → U}
    (h : Filters eval positive value constraint)
    (hf : ∀ t, Approx positive value (eval t) → Approx positive' value' (eval' (f t))) :
    Filters eval' positive' value' (constraint.map f) := by
  intro u hu
  obtain ⟨t, ht, rfl⟩ := Option.map_eq_some_iff.mp hu
  exact hf t (h t ht)

theorem andConstraints_filters {holds : E → Bool} {positive a b : Bool} {A : Option (FTerm E)}
    {B : Option (FFactor E)} (hA : Filters (FTerm.eval holds) positive a A)
    (hB : Filters (FFactor.eval holds) positive b B) :
    Filters (FTerm.eval holds) positive (a ⊓ b) (andConstraints positive A B) := by
  intro t ht
  cases positive with
  | false =>
    cases A with
    | none => cases ht
    | some A =>
      cases B with
      | none => cases ht
      | some B =>
        cases ht
        rw [eval_getEMdFFTerm_some]
        exact (hA A rfl).inf (hB B rfl)
  | true =>
    cases A with
    | none =>
      cases B with
      | none => cases ht
      | some B =>
        cases ht
        rw [eval_getEMdFFTerm_none]
        exact (hB B rfl).inf_right a
    | some A =>
      cases B with
      | none =>
        cases ht
        exact (hA _ rfl).inf_left b
      | some B =>
        cases ht
        rw [eval_getEMdFFTerm_some]
        exact (hA A rfl).inf (hB B rfl)

theorem orConstraints_filters {holds : E → Bool} {positive a b : Bool}
    {A : Option (FFeatures E)} {B : Option (FTerm E)}
    (hA : Filters (FFeatures.eval holds) positive a A)
    (hB : Filters (FTerm.eval holds) positive b B) :
    Filters (FFeatures.eval holds) positive (a ⊔ b) (orConstraints positive A B) := by
  intro t ht
  cases positive with
  | true =>
    cases A with
    | none => cases ht
    | some A =>
      cases B with
      | none => cases ht
      | some B =>
        cases ht
        rw [eval_getEMdFFFeatures_some]
        exact (hA A rfl).sup (hB B rfl)
  | false =>
    cases A with
    | none =>
      cases B with
      | none => cases ht
      | some B =>
        cases ht
        rw [eval_getEMdFFFeatures_none]
        exact (hB B rfl).sup_right a
    | some A =>
      cases B with
      | none =>
        cases ht
        exact (hA _ rfl).sup_left b
      | some B =>
        cases ht
        rw [eval_getEMdFFFeatures_some]
        exact (hA A rfl).sup (hB B rfl)

variable {comparison : Bool → C → Option E} {holds : C → Bool} {holdsE : E → Bool}

/-- A comparison that the backend can express is expressed by an equivalent one. -/
def Expresses (comparison : Bool → C → Option E) (holds : C → Bool) (holdsE : E → Bool) : Prop :=
  ∀ negative c e, comparison negative c = some e → holdsE e = holds c

mutual

theorem FFactor.makeConstraints_approx (h : Expresses comparison holds holdsE) :
    ∀ (f : FFactor C) (positive negative : Bool),
      Filters (FFactor.eval holdsE) positive (f.eval holds)
        (f.makeConstraints comparison positive negative)
  | .not f, positive, negative => by
    have ih := FFactor.makeConstraints_approx h f (!positive) true
    rw [FFactor.makeConstraints, FFactor.eval]
    refine ih.map fun t ht => ?_
    rw [FFactor.eval]
    exact ht.compl
  | .parenthesis f, positive, negative => by
    have ih := FFeatures.makeConstraints_approx h f positive negative
    rw [FFactor.makeConstraints, FFactor.eval]
    refine ih.map fun t ht => ?_
    rw [FFactor.eval]
    exact ht
  | .comparison c, positive, negative => by
    intro t ht
    rw [FFactor.makeConstraints] at ht
    obtain ⟨e, he, rfl⟩ := Option.map_eq_some_iff.mp ht
    rw [FFactor.eval, FFactor.eval, h negative c e he]
    exact Approx.refl _

theorem FTerm.makeConstraints_approx (h : Expresses comparison holds holdsE) :
    ∀ (f : FTerm C) (positive negative : Bool),
      Filters (FTerm.eval holdsE) positive (f.eval holds)
        (f.makeConstraints comparison positive negative)
  | .ffactor f, positive, negative => by
    have ih := FFactor.makeConstraints_approx h f positive negative
    rw [FTerm.makeConstraints, FTerm.eval]
    refine ih.map fun t ht => ?_
    rw [eval_getEMdFFTerm_none]
    exact ht
  | .and A B, positive, negative => by
    rw [FTerm.makeConstraints, FTerm.eval]
    exact andConstraints_filters (FTerm.makeConstraints_approx h A positive negative)
      (FFactor.makeConstraints_approx h B positive negative)

/-- **The invariant**, over the three kinds of nodes at once: an over-approximation in a
positive context, an under-approximation in a negative one. -/
theorem FFeatures.makeConstraints_approx (h : Expresses comparison holds holdsE) :
    ∀ (f : FFeatures C) (positive negative : Bool),
      Filters (FFeatures.eval holdsE) positive (f.eval holds)
        (f.makeConstraints comparison positive negative)
  | .fterm f, positive, negative => by
    have ih := FTerm.makeConstraints_approx h f positive negative
    rw [FFeatures.makeConstraints, FFeatures.eval]
    refine ih.map fun t ht => ?_
    rw [eval_getEMdFFFeatures_none]
    exact ht
  | .or A B, positive, negative => by
    rw [FFeatures.makeConstraints, FFeatures.eval]
    exact orConstraints_filters (FFeatures.makeConstraints_approx h A positive negative)
      (FTerm.makeConstraints_approx h B positive negative)

end

/-- **Pre-queries are sound.**  Whichever comparisons the backend can express, an object that
satisfies the feature constraints satisfies the constraint sent to the backend, if one is. -/
theorem getEMdFConstraints_sound {O : Type*} {S : Type*} (compare : C → O → S → Bool)
    (backend : E → O → Bool)
    (hcomparison : ∀ negative c e, comparison negative c = some e →
      ∀ pObj pNonParentORDSolution, backend e pObj = compare c pObj pNonParentORDSolution)
    (f : FFeatures C) (pObj : O) (pNonParentORDSolution : S)
    (hR : rFfeatures compare pObj pNonParentORDSolution f = true) :
    f.getEMdFConstraints comparison = none ∨
      ∃ constraints, f.getEMdFConstraints comparison = some constraints ∧
        constraints.eval (fun e => backend e pObj) = true := by
  cases hc : f.getEMdFConstraints comparison with
  | none => exact Or.inl rfl
  | some constraints =>
    have happrox := FFeatures.makeConstraints_approx
      (fun negative c e he => hcomparison negative c e he pObj pNonParentORDSolution)
      f true false constraints hc
    rw [← rFfeatures_eq, hR] at happrox
    exact Or.inr ⟨constraints, rfl, top_le_iff.mp happrox⟩

/-- `a AND NOT (b OR c)` where the backend cannot express `b`: the constraint is
`a AND NOT (c)`.  Comparisons are bits of the object. -/
theorem getEMdFConstraints_sound_example :
    let f : FFeatures Nat := .fterm (.and (.ffactor (.comparison 0))
      (.not (.parenthesis (.or (.fterm (.ffactor (.comparison 1))) (.ffactor (.comparison 2))))))
    let comparison : Bool → Nat → Option Nat := fun _ c => if c = 1 then none else some c
    f.getEMdFConstraints comparison = none ∨
      ∃ constraints, f.getEMdFConstraints comparison = some constraints ∧
        constraints.eval (fun e => Nat.testBit 1 e) = true := by
  refine getEMdFConstraints_sound (fun c o (_ : Unit) => Nat.testBit o c)
    (fun e o => Nat.testBit o e) ?_ _ 1 () (by decide)
  intro _ c e he pObj _
  by_cases hc : c = 1
  · rw [if_pos hc] at he
    cases he
  · rw [if_neg hc] at he
    cases he
    rfl

end Soundness

end Emdros
