/-
# Gaps in sets of integers

A gap of a set is a maximal stretch of integers that are missing between two members.
`closeGaps k A` is `A` with all its gaps shorter than `k` filled in.  This is the least superset of
`A` that has no gap shorter than `k` (`subset_closeGaps`, `gapsFrom_closeGaps` and
`closeGaps_subset`), so `closeGaps k` is a closure operator, and it grows with `k`.

Nothing here is about a particular program.
-/
import Mathlib

namespace IntGaps

variable {A B : Set ℤ} {a b c d k x u v : ℤ}

/-! ## 1. Gaps -/

/-- From `a` to `b` everything is missing, and the integers beside are members. -/
structure IsGap (A : Set ℤ) (a b : ℤ) : Prop where
  le : a ≤ b
  before : a - 1 ∈ A
  after : b + 1 ∈ A
  missing : ∀ x, a ≤ x → x ≤ b → x ∉ A

/-- A gap that has an integer of another does not start before it. -/
theorem IsGap.start_le (h : IsGap A a b) (h' : IsGap A c d) (hcx : c ≤ x) (hxb : x ≤ b) :
    c ≤ a := by
  by_contra hlt
  exact h.missing (c - 1) (by omega) (by omega) h'.before

/-- ...and does not end after it. -/
theorem IsGap.le_end (h : IsGap A a b) (h' : IsGap A c d) (hax : a ≤ x) (hxd : x ≤ d) :
    b ≤ d := by
  by_contra hlt
  exact h.missing (d + 1) (by omega) (by omega) h'.after

/-- **Two gaps that share an integer are one.** -/
theorem IsGap.unique (h : IsGap A a b) (h' : IsGap A c d) (hax : a ≤ x) (hxb : x ≤ b)
    (hcx : c ≤ x) (hxd : x ≤ d) : a = c ∧ b = d :=
  ⟨le_antisymm (h'.start_le h hax hxd) (h.start_le h' hcx hxb),
    le_antisymm (h.le_end h' hax hxd) (h'.le_end h hcx hxb)⟩

/-- **What is missing between two members lies in a gap** between them. -/
theorem exists_isGap (hu : u ∈ A) (hv : v ∈ A) (hux : u < x) (hxv : x < v) (hx : x ∉ A) :
    ∃ a b, IsGap A a b ∧ u < a ∧ a ≤ x ∧ x ≤ b ∧ b < v := by
  classical
  obtain ⟨p, ⟨hp, hpx⟩, hgreatest⟩ := Int.exists_greatest_of_bdd (P := fun z => z ∈ A ∧ z < x)
    ⟨x, fun z hz => hz.2.le⟩ ⟨u, hu, hux⟩
  obtain ⟨q, ⟨hq, hxq⟩, hleast⟩ := Int.exists_least_of_bdd (P := fun z => z ∈ A ∧ x < z)
    ⟨x, fun z hz => hz.2.le⟩ ⟨v, hv, hxv⟩
  have hup : u ≤ p := hgreatest u ⟨hu, hux⟩
  have hqv : q ≤ v := hleast v ⟨hv, hxv⟩
  refine ⟨p + 1, q - 1, ⟨by omega, ?_, ?_, ?_⟩, by omega, by omega, by omega, by omega⟩
  · rwa [add_sub_cancel_right]
  · rwa [sub_add_cancel]
  · intro z hpz hzq hz
    rcases lt_trichotomy z x with hlt | rfl | hgt
    · have := hgreatest z ⟨hz, hlt⟩
      omega
    · exact hx hz
    · have := hleast z ⟨hz, hgt⟩
      omega

/-- The integers in the gaps. -/
def gaps (A : Set ℤ) : Set ℤ := {x | ∃ a b, IsGap A a b ∧ a ≤ x ∧ x ≤ b}

theorem disjoint_gaps : Disjoint A (gaps A) := by
  rw [Set.disjoint_left]
  rintro x hx ⟨a, b, hgap, hax, hxb⟩
  exact hgap.missing x hax hxb hx

/-- A set and its gaps are all that lies between its ends. -/
theorem union_gaps (hu : IsLeast A u) (hv : IsGreatest A v) : A ∪ gaps A = Set.Icc u v := by
  ext x
  constructor
  · rintro (hx | ⟨a, b, hgap, hax, hxb⟩)
    · exact ⟨hu.2 hx, hv.2 hx⟩
    · have := hu.2 hgap.before
      have := hv.2 hgap.after
      exact ⟨by omega, by omega⟩
  · rintro ⟨hux, hxv⟩
    by_cases hx : x ∈ A
    · exact Or.inl hx
    · have hux' : u < x := lt_of_le_of_ne hux fun h => hx (h ▸ hu.1)
      have hxv' : x < v := lt_of_le_of_ne hxv fun h => hx (h ▸ hv.1)
      obtain ⟨a, b, hgap, -, hax, hxb, -⟩ := exists_isGap hu.1 hv.1 hux' hxv' hx
      exact Or.inr ⟨a, b, hgap, hax, hxb⟩

/-! ## 2. Closing short gaps -/

/-- All gaps have at least `k` integers. -/
def GapsFrom (k : ℤ) (A : Set ℤ) : Prop := ∀ a b, IsGap A a b → k ≤ b - a + 1

/-- The set with its gaps of less than `k` integers filled in. -/
def closeGaps (k : ℤ) (A : Set ℤ) : Set ℤ :=
  A ∪ {x | ∃ a b, IsGap A a b ∧ b - a + 1 < k ∧ a ≤ x ∧ x ≤ b}

theorem subset_closeGaps : A ⊆ closeGaps k A := Set.subset_union_left

/-- **The gaps that are left** are the long ones. -/
theorem isGap_closeGaps_iff : IsGap (closeGaps k A) a b ↔ IsGap A a b ∧ k ≤ b - a + 1 := by
  constructor
  · intro h
    have hmissing : ∀ x, a ≤ x → x ≤ b → x ∉ A := fun x hax hxb hx =>
      h.missing x hax hxb (subset_closeGaps hx)
    -- the integers beside it are not in a gap that was filled, which would not end there
    have hbefore : a - 1 ∈ A := by
      rcases h.before with hmem | ⟨c, d, hgap, hshort, hc, hd⟩
      · exact hmem
      · rcases eq_or_lt_of_le hd with heq | hlt
        · exact absurd (subset_closeGaps (by simpa [← heq] using hgap.after))
            (h.missing a le_rfl h.le)
        · exact absurd (Or.inr ⟨c, d, hgap, hshort, by omega, by omega⟩)
            (h.missing a le_rfl h.le)
    have hafter : b + 1 ∈ A := by
      rcases h.after with hmem | ⟨c, d, hgap, hshort, hc, hd⟩
      · exact hmem
      · rcases eq_or_lt_of_le hc with heq | hlt
        · exact absurd (subset_closeGaps (by simpa [heq] using hgap.before))
            (h.missing b h.le le_rfl)
        · exact absurd (Or.inr ⟨c, d, hgap, hshort, by omega, by omega⟩)
            (h.missing b h.le le_rfl)
    have hgap : IsGap A a b := ⟨h.le, hbefore, hafter, hmissing⟩
    refine ⟨hgap, not_lt.mp fun hshort => ?_⟩
    exact h.missing a le_rfl h.le (Or.inr ⟨a, b, hgap, hshort, le_rfl, h.le⟩)
  · rintro ⟨h, hlong⟩
    refine ⟨h.le, subset_closeGaps h.before, subset_closeGaps h.after, ?_⟩
    rintro x hax hxb (hx | ⟨c, d, hgap, hshort, hcx, hxd⟩)
    · exact h.missing x hax hxb hx
    · obtain ⟨rfl, rfl⟩ := h.unique hgap hax hxb hcx hxd
      omega

theorem gapsFrom_closeGaps : GapsFrom k (closeGaps k A) := fun _ _ h => (isGap_closeGaps_iff.mp h).2

/-- A superset without short gaps has what is in the short gaps. -/
theorem closeGaps_subset (hAB : A ⊆ B) (hB : GapsFrom k B) : closeGaps k A ⊆ B := by
  rintro x (hx | ⟨a, b, hgap, hshort, hax, hxb⟩)
  · exact hAB hx
  · by_contra hx
    obtain ⟨c, d, hgap', hac, -, -, hdb⟩ :=
      exists_isGap (hAB hgap.before) (hAB hgap.after) (by omega) (by omega) hx
    have := hB c d hgap'
    omega

/-- It stays between the ends of the set. -/
theorem closeGaps_subset_Icc (hu : u ∈ lowerBounds A) (hv : v ∈ upperBounds A) :
    closeGaps k A ⊆ Set.Icc u v := by
  rintro x (hx | ⟨a, b, hgap, -, hax, hxb⟩)
  · exact ⟨hu hx, hv hx⟩
  · have := hu hgap.before
    have := hv hgap.after
    exact ⟨by omega, by omega⟩

/-- Closing gaps is a closure. -/
def gapClosure (k : ℤ) : ClosureOperator (Set ℤ) :=
  ClosureOperator.mk' (closeGaps k)
    (fun _ _ hAB => closeGaps_subset (hAB.trans subset_closeGaps) gapsFrom_closeGaps)
    (fun _ => subset_closeGaps)
    fun _ => closeGaps_subset subset_rfl gapsFrom_closeGaps

theorem closeGaps_closeGaps : closeGaps k (closeGaps k A) = closeGaps k A :=
  (gapClosure k).idempotent A

/-- More gaps are short for a greater bound. -/
theorem closeGaps_mono {k' : ℤ} (h : k ≤ k') : closeGaps k A ⊆ closeGaps k' A :=
  closeGaps_subset subset_closeGaps fun a b hgap => le_trans h (gapsFrom_closeGaps a b hgap)

end IntGaps
