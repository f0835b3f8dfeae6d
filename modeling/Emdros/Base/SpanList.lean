/-
# Sorted lists of disjoint integer spans

A set of integers can be stored as a list of closed spans `[lo, hi]`.  The list is SEPARATED
when every span ends at least two before any later span starts, so that no two of them
overlap or touch.  This file develops the facts an implementation of such a set needs, over
any record type that carries the two bounds:

* `cover L`: the integers the list stands for;
* `Sep.canonical`: two separated lists with the same cover have the same spans, so the
  representation is canonical;
* `Sep.isLeast_head` and `Sep.isGreatest_last`: the outermost bounds are the extreme members.
-/
import Mathlib

/-- A record with a non-empty closed span of integers. -/
class Spanned (ρ : Type*) where
  /-- The first integer of the span. -/
  lo : ρ → Int
  /-- The last integer of the span. -/
  hi : ρ → Int
  /-- The span is not empty. -/
  lo_le_hi : ∀ r, lo r ≤ hi r

namespace SpanList

open Spanned

variable {ρ : Type*} [Spanned ρ]

/-! ## 1. Cover and separation -/

/-- The integers of one span. -/
def points (r : ρ) : Set Int := {m | lo r ≤ m ∧ m ≤ hi r}

/-- The integers covered by a list of spans. -/
def cover (L : List ρ) : Set Int := {m | ∃ r ∈ L, lo r ≤ m ∧ m ≤ hi r}

/-- Every span ends at least two before any later one starts. -/
def Sep (L : List ρ) : Prop := L.Pairwise fun a b => hi a + 1 < lo b

@[simp] theorem mem_points {r : ρ} {m : Int} : m ∈ points r ↔ lo r ≤ m ∧ m ≤ hi r := Iff.rfl

theorem mem_cover {L : List ρ} {m : Int} : m ∈ cover L ↔ ∃ r ∈ L, lo r ≤ m ∧ m ≤ hi r :=
  Iff.rfl

@[simp] theorem cover_nil : cover ([] : List ρ) = ∅ := by
  ext m; simp [mem_cover]

@[simp] theorem mem_cover_cons {a : ρ} {L : List ρ} {m : Int} :
    m ∈ cover (a :: L) ↔ (lo a ≤ m ∧ m ≤ hi a) ∨ m ∈ cover L := by
  simp [mem_cover]

@[simp] theorem mem_cover_append {L L' : List ρ} {m : Int} :
    m ∈ cover (L ++ L') ↔ m ∈ cover L ∨ m ∈ cover L' := by
  simp only [mem_cover, List.mem_append]
  constructor
  · rintro ⟨r, hr | hr, hm⟩
    · exact Or.inl ⟨r, hr, hm⟩
    · exact Or.inr ⟨r, hr, hm⟩
  · rintro (⟨r, hr, hm⟩ | ⟨r, hr, hm⟩)
    · exact ⟨r, Or.inl hr, hm⟩
    · exact ⟨r, Or.inr hr, hm⟩

theorem mem_cover_of_mem {L : List ρ} {r : ρ} {m : Int} (hr : r ∈ L) (h₁ : lo r ≤ m)
    (h₂ : m ≤ hi r) : m ∈ cover L := ⟨r, hr, h₁, h₂⟩

theorem lo_mem_cover {L : List ρ} {r : ρ} (hr : r ∈ L) : lo r ∈ cover L :=
  ⟨r, hr, le_refl _, lo_le_hi r⟩

theorem hi_mem_cover {L : List ρ} {r : ρ} (hr : r ∈ L) : hi r ∈ cover L :=
  ⟨r, hr, lo_le_hi r, le_refl _⟩

/-- Only the empty list covers nothing. -/
theorem cover_eq_empty {L : List ρ} : cover L = ∅ ↔ L = [] := by
  constructor
  · intro h
    cases L with
    | nil => rfl
    | cons a L =>
      have : lo a ∈ cover (a :: L) := lo_mem_cover List.mem_cons_self
      rw [h] at this
      exact this.elim
  · rintro rfl
    exact cover_nil

@[simp] theorem sep_nil : Sep ([] : List ρ) := List.Pairwise.nil

@[simp] theorem sep_singleton (a : ρ) : Sep [a] := List.pairwise_singleton _ a

theorem sep_cons {a : ρ} {L : List ρ} :
    Sep (a :: L) ↔ (∀ b ∈ L, hi a + 1 < lo b) ∧ Sep L := List.pairwise_cons

theorem sep_append {L L' : List ρ} :
    Sep (L ++ L') ↔ Sep L ∧ Sep L' ∧ ∀ a ∈ L, ∀ b ∈ L', hi a + 1 < lo b :=
  List.pairwise_append

/-! ## 2. What lies beyond the head -/

/-- Everything covered by the tail lies past the head and the gap after it. -/
theorem Sep.tail_gt {a : ρ} {L : List ρ} (h : Sep (a :: L)) {m : Int} (hm : m ∈ cover L) :
    hi a + 1 < m := by
  obtain ⟨r, hr, hlo, -⟩ := hm
  have := (sep_cons.mp h).1 r hr
  omega

/-- Everything covered is at or after the head's first integer. -/
theorem Sep.head_le {a : ρ} {L : List ρ} (h : Sep (a :: L)) {m : Int}
    (hm : m ∈ cover (a :: L)) : lo a ≤ m := by
  rcases mem_cover_cons.mp hm with hm | hm
  · exact hm.1
  · have h₁ := h.tail_gt hm
    have h₂ := lo_le_hi a
    omega

/-- Everything covered is at or before the last span's last integer. -/
theorem Sep.le_last {a : ρ} {L : List ρ} (h : Sep (L ++ [a])) {m : Int}
    (hm : m ∈ cover (L ++ [a])) : m ≤ hi a := by
  obtain ⟨r, hr, -, hhi⟩ := hm
  rcases List.mem_append.mp hr with hr | hr
  · have h₁ := (sep_append.mp h).2.2 r hr a (List.mem_singleton.mpr rfl)
    have h₂ := lo_le_hi a
    omega
  · rw [List.mem_singleton.mp hr] at hhi
    exact hhi

/-- The head's first integer is the least one covered. -/
theorem Sep.isLeast_head {a : ρ} {L : List ρ} (h : Sep (a :: L)) :
    IsLeast (cover (a :: L)) (lo a) :=
  ⟨lo_mem_cover List.mem_cons_self, fun _ hm => h.head_le hm⟩

/-- The last span's last integer is the greatest one covered. -/
theorem Sep.isGreatest_last {a : ρ} {L : List ρ} (h : Sep (L ++ [a])) :
    IsGreatest (cover (L ++ [a])) (hi a) :=
  ⟨hi_mem_cover (List.mem_append_right _ (List.mem_singleton.mpr rfl)),
    fun _ hm => h.le_last hm⟩

/-- A range is covered exactly when one span contains it: a gap cannot be bridged. -/
theorem Sep.icc_subset_iff : ∀ {L : List ρ}, Sep L → ∀ {f l : Int}, f ≤ l →
    (Set.Icc f l ⊆ cover L ↔ ∃ r ∈ L, lo r ≤ f ∧ l ≤ hi r)
  | [], _, f, l, hfl => by
    simp only [cover_nil, List.not_mem_nil, false_and, exists_false, iff_false]
    exact fun hsub => hsub (Set.left_mem_Icc.mpr hfl)
  | a :: L, h, f, l, hfl => by
    have ih := Sep.icc_subset_iff (sep_cons.mp h).2 hfl
    constructor
    · intro hsub
      by_cases ha : f ≤ hi a
      · refine ⟨a, List.mem_cons_self, h.head_le (hsub (Set.left_mem_Icc.mpr hfl)), ?_⟩
        -- otherwise the range runs into the gap after `a`
        by_contra hlt
        rcases mem_cover_cons.mp (hsub (Set.mem_Icc.mpr ⟨by omega, by omega⟩ :
          hi a + 1 ∈ Set.Icc f l)) with hm | hm
        · omega
        · have := h.tail_gt hm
          omega
      · have hsub' : Set.Icc f l ⊆ cover L := by
          intro m hm
          rcases mem_cover_cons.mp (hsub hm) with hm' | hm'
          · have := (Set.mem_Icc.mp hm).1
            omega
          · exact hm'
        obtain ⟨r, hr, hlo, hhi⟩ := ih.mp hsub'
        exact ⟨r, List.mem_cons_of_mem a hr, hlo, hhi⟩
    · rintro ⟨r, hr, hlo, hhi⟩ m hm
      obtain ⟨h₁, h₂⟩ := Set.mem_Icc.mp hm
      exact mem_cover_of_mem hr (by omega) (by omega)

/-- Spans that end before an integer do not matter for whether it is covered. -/
theorem mem_cover_dropWhile {m : Int} : ∀ {L : List ρ},
    m ∈ cover (L.dropWhile fun r => hi r < m) ↔ m ∈ cover L
  | [] => Iff.rfl
  | a :: L => by
    rw [List.dropWhile_cons]
    split
    · rename_i h
      rw [mem_cover_dropWhile, mem_cover_cons]
      have : ¬ m ≤ hi a := not_le.mpr (of_decide_eq_true h)
      tauto
    · rfl

/-- An integer up to the end of the head is covered when the head does not start after it. -/
theorem Sep.mem_cover_iff_head {a : ρ} {L : List ρ} (h : Sep (a :: L)) {m : Int} (hm : m ≤ hi a) :
    m ∈ cover (a :: L) ↔ lo a ≤ m :=
  ⟨h.head_le, fun hlo => mem_cover_cons.mpr (Or.inl ⟨hlo, hm⟩)⟩

/-! ## 3. The representation is canonical -/

/-- The bounds of a span, which is all that a list of spans says about it. -/
def bounds (r : ρ) : Int × Int := (lo r, hi r)

/-- Two separated lists that cover the same integers end their first span at the same
place: the longer one would cover an integer of the other's first gap. -/
theorem Sep.head_hi_le {a b : ρ} {as bs : List ρ} (ha : Sep (a :: as))
    (hlo : lo a = lo b) (hcov : cover (b :: bs) ⊆ cover (a :: as)) : hi b ≤ hi a := by
  by_contra hlt
  have h₁ : hi a + 1 ∈ cover (b :: bs) := by
    have := lo_le_hi a
    exact mem_cover_cons.mpr (Or.inl ⟨by omega, by omega⟩)
  rcases mem_cover_cons.mp (hcov h₁) with hm | hm
  · omega
  · have := ha.tail_gt hm
    omega

/-- A cover inclusion between lists that start with the same span holds of the tails. -/
theorem Sep.tail_subset {a b : ρ} {as bs : List ρ} (ha : Sep (a :: as))
    (hhi : hi a = hi b) (hcov : cover (a :: as) ⊆ cover (b :: bs)) : cover as ⊆ cover bs := by
  intro m hm
  have hgt := ha.tail_gt hm
  rcases mem_cover_cons.mp (hcov (mem_cover_cons.mpr (Or.inr hm))) with hb | hb
  · omega
  · exact hb

/-- **Canonicity.**  Two separated lists with the same cover have the same spans. -/
theorem Sep.canonical : ∀ {L L' : List ρ}, Sep L → Sep L' → cover L = cover L' →
    L.map bounds = L'.map bounds
  | [], L', _, _, hcov => by
    rw [cover_nil] at hcov
    rw [cover_eq_empty.mp hcov.symm]
  | a :: as, [], _, _, hcov => by
    rw [cover_nil] at hcov
    exact absurd (cover_eq_empty.mp hcov) (List.cons_ne_nil a as)
  | a :: as, b :: bs, ha, hb, hcov => by
    have hlo : lo a = lo b :=
      le_antisymm (ha.head_le (hcov ▸ lo_mem_cover List.mem_cons_self))
        (hb.head_le (hcov ▸ lo_mem_cover List.mem_cons_self))
    have hhi : hi a = hi b :=
      le_antisymm (hb.head_hi_le hlo.symm hcov.subset) (ha.head_hi_le hlo hcov.superset)
    have htail : cover as = cover bs :=
      Set.Subset.antisymm (ha.tail_subset hhi hcov.subset)
        (hb.tail_subset hhi.symm hcov.superset)
    have ih := Sep.canonical (sep_cons.mp ha).2 (sep_cons.mp hb).2 htail
    simp only [List.map_cons, bounds, hlo, hhi, List.cons.injEq, true_and]
    exact ih

end SpanList
