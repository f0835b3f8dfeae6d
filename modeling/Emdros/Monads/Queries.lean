/-
# What the queries on `SetOfMonads` answer

Each predicate is characterised by the set `mem s`.  The two-cursor loops of `part_of` and
`overlap` are followed case by case: every case either decides the question, or moves past an
element that can no longer matter.

`part_of` has a defect: past its shortcut it reads the first element of both lists, and the
empty set reaches that read unless the other set is a single range (`partOf_of_empty`).
`starts_in` looks up the cached lower bound, which is `MAX_MONAD` for the empty set
(`startsIn_of_empty`).
-/
import Emdros.Monads.SetAlgebra

namespace Emdros

open SpanList

namespace SetOfMonads

/-! ## 1. Membership -/

theorem isMemberOfLoop_iff {m : Int} : ∀ {l : List MonadSetElement}, Sep l →
    (isMemberOfLoop m l = true ↔ m ∈ cover l)
  | [], _ => by simp [isMemberOfLoop]
  | cur :: rest, hsep => by
    have ih := isMemberOfLoop_iff (m := m) (sep_cons.mp hsep).2
    have hgt : m ∈ cover rest → cur.lastM + 1 < m := fun hm => hsep.tail_gt hm
    have hcur := cur.first_le_last
    rw [mem_cover_cons_iff]
    simp only [isMemberOfLoop]
    split
    · rename_i hin
      simp [hin]
    · rename_i hin
      split
      · simp only [Bool.false_eq_true, false_iff]
        grind
      · rw [ih]
        grind

/-- `isMemberOf` decides membership. -/
theorem isMemberOf_iff {s : SetOfMonads} (h : s.RepInv) {m : Int} :
    s.isMemberOf m = true ↔ m ∈ s.mem := isMemberOfLoop_iff h.sep

/-! ## 2. `part_of` -/

/-- A list whose first element starts before everything in `bs` is not contained in it. -/
theorem not_subset_of_lt_head {a b : MonadSetElement} {as bs : List MonadSetElement}
    (hb : Sep (b :: bs)) (hlt : a.firstM < b.firstM) :
    ¬ cover (a :: as) ⊆ cover (b :: bs) := by
  intro hsub
  have ha : a.firstM ∈ cover (a :: as) := lo_mem_cover (r := a) List.mem_cons_self
  have := hb.head_le (hsub ha)
  simp only [MonadSetElement.spanned_lo] at this
  omega

/-- The loop of `part_of` decides inclusion. -/
theorem partOfLoop_iff : ∀ (as bs : List MonadSetElement), Sep as → Sep bs →
    (partOfLoop as bs = true ↔ cover as ⊆ cover bs) := by
  intro as bs
  induction as, bs using partOfLoop.induct with
  | case1 bs =>
    intro _ _
    simp [partOfLoop]
  | case2 a as =>
    intro _ _
    have : cover (a :: as) ≠ ∅ := fun h => List.cons_ne_nil a as (cover_eq_empty.mp h)
    simp only [partOfLoop, Bool.false_eq_true, cover_nil, Set.subset_empty_iff, false_iff]
    exact this
  | case3 a as b bs h₁ =>
    intro _ hb
    have ha := a.first_le_last
    rw [partOfLoop, if_pos h₁]
    simp only [Bool.false_eq_true, false_iff]
    exact not_subset_of_lt_head hb (by omega)
  | case4 a as b bs h₁ h₅ ih =>
    intro ha hb
    rw [partOfLoop, if_neg h₁, if_pos h₅, ih ha (sep_cons.mp hb).2]
    constructor
    · intro hsub m hm
      exact mem_cover_cons_iff.mpr (Or.inr (hsub hm))
    · intro hsub m hm
      have hge := ha.head_le hm
      simp only [MonadSetElement.spanned_lo] at hge
      rcases mem_cover_cons_iff.mp (hsub hm) with hb' | hb'
      · omega
      · exact hb'
  | case5 a as b bs h₁ h₅ h₃ ih =>
    intro ha hb
    rw [partOfLoop, if_neg h₁, if_neg h₅, if_pos h₃, ih (sep_cons.mp ha).2 hb]
    constructor
    · intro hsub m hm
      rcases mem_cover_cons_iff.mp hm with hm | hm
      · exact mem_cover_cons_iff.mpr (Or.inl ⟨by omega, by omega⟩)
      · exact hsub hm
    · intro hsub m hm
      exact hsub (mem_cover_cons_iff.mpr (Or.inr hm))
  | case6 a as b bs h₁ h₅ h₃ =>
    intro _ hb
    rw [partOfLoop, if_neg h₁, if_neg h₅, if_neg h₃]
    simp only [Bool.false_eq_true, false_iff]
    by_cases hlt : a.firstM < b.firstM
    · exact not_subset_of_lt_head hb hlt
    · -- the element sticks out on the right, into the gap after `b`
      intro hsub
      have hm : b.lastM + 1 ∈ cover (a :: as) :=
        mem_cover_cons_iff.mpr (Or.inl ⟨by omega, by omega⟩)
      rcases mem_cover_cons_iff.mp (hsub hm) with hm' | hm'
      · omega
      · have := hb.tail_gt hm'
        simp only [MonadSetElement.spanned_hi] at this
        omega

/-- A set with one element is the range between its cached bounds. -/
theorem RepInv.mem_of_one {s : SetOfMonads} (h : s.RepInv) (hone : s.hasOnlyOneMSE = true) :
    s.mem = Set.Icc s.mFirst s.mLast := by
  simp only [hasOnlyOneMSE, decide_eq_true_eq] at hone
  obtain ⟨e, he⟩ := List.length_eq_one_iff.mp hone
  rw [h.first_eq e (by rw [he]; rfl), h.last_eq e (by rw [he]; rfl), mem, he]
  ext m
  simp

/-- A non-empty set that is not inside the other's bounds is not contained in it. -/
theorem RepInv.not_subset_of_bounds {s other : SetOfMonads} (h : s.RepInv) (ho : other.RepInv)
    (hne : s.monadMs ≠ []) (hb : ¬ (s.mFirst ≥ other.mFirst ∧ s.mLast ≤ other.mLast)) :
    ¬ s.mem ⊆ other.mem := by
  intro hsub
  have hf := hsub (h.isLeast_first hne).1
  have hl := hsub (h.isGreatest_last hne).1
  have hone : other.monadMs ≠ [] := by
    intro hnil
    rw [mem_eq_empty.mpr hnil] at hf
    exact hf
  exact hb ⟨(ho.isLeast_first hone).2 hf, (ho.isGreatest_last hone).2 hl⟩

/-- The bounds of a non-empty set are in order. -/
theorem RepInv.first_le_last {s : SetOfMonads} (h : s.RepInv) (hne : s.monadMs ≠ []) :
    s.mFirst ≤ s.mLast := (h.isLeast_first hne).2 (h.isGreatest_last hne).1

/-- The cached bounds lie in `0 .. MAX_MONAD`, for the empty set too. -/
theorem RepInv.bounds_inRange {s : SetOfMonads} (h : s.RepInv) :
    s.mFirst ≤ maxMonad ∧ 0 ≤ s.mLast := by
  by_cases hne : s.monadMs = []
  · rw [(h.empty_eq hne).1, (h.empty_eq hne).2]
    exact ⟨le_refl _, le_refl _⟩
  · exact ⟨(inRange_of_mem_cover h.inRange (h.isLeast_first hne).1).2,
      (inRange_of_mem_cover h.inRange (h.isGreatest_last hne).1).1⟩

/-- **`part_of` decides inclusion for a non-empty set.** -/
theorem partOf_of_nonempty {s other : SetOfMonads} (h : s.RepInv) (ho : other.RepInv)
    (hne : s.monadMs ≠ []) :
    ∃ r, s.partOf other = some r ∧ (r = true ↔ s.mem ⊆ other.mem) := by
  unfold partOf
  split
  · rename_i hb
    split
    · rename_i hone
      refine ⟨true, rfl, ?_⟩
      simp only [true_iff]
      rw [ho.mem_of_one hone]
      intro m hm
      have h₁ := (h.isLeast_first hne).2 hm
      have h₂ := (h.isGreatest_last hne).2 hm
      exact ⟨by omega, by omega⟩
    · have hone : other.monadMs ≠ [] := by
        intro hnil
        have h₁ := (ho.empty_eq hnil).1
        have h₂ := (ho.empty_eq hnil).2
        have h₃ := h.first_le_last hne
        have h₄ := maxMonad_pos
        omega
      obtain ⟨a, as, hs⟩ := List.exists_cons_of_ne_nil hne
      obtain ⟨b, bs, hbs⟩ := List.exists_cons_of_ne_nil hone
      have hsa := h.sep
      have hsb := ho.sep
      rw [hs] at hsa
      rw [hbs] at hsb
      rw [hs, hbs]
      refine ⟨partOfLoop (a :: as) (b :: bs), rfl, ?_⟩
      rw [partOfLoop_iff _ _ hsa hsb, mem, mem, hs, hbs]
  · rename_i hb
    exact ⟨false, rfl, by simp [h.not_subset_of_bounds ho hne hb]⟩

/-- **`part_of` from the empty set** answers only when the other set is a single range;
otherwise it reads past the end of our list. -/
theorem partOf_of_empty {s other : SetOfMonads} (h : s.RepInv) (ho : other.RepInv)
    (hnil : s.monadMs = []) :
    s.partOf other = if other.hasOnlyOneMSE then some true else none := by
  have hb := ho.bounds_inRange
  have hs := h.empty_eq hnil
  unfold partOf
  rw [if_pos ⟨by omega, by omega⟩, hnil]

/-! ## 3. `starts_in`, `overlap`, `hasMonadsInRange` -/

/-- `starts_in` from a non-empty set asks for its least monad. -/
theorem startsIn_of_nonempty {s other : SetOfMonads} (h : s.RepInv) (ho : other.RepInv)
    (hne : s.monadMs ≠ []) :
    s.startsIn other = true ↔ ∃ m, IsLeast s.mem m ∧ m ∈ other.mem := by
  have hleast := h.isLeast_first hne
  rw [startsIn, isMemberOf_iff ho]
  constructor
  · intro hm
    exact ⟨s.mFirst, hleast, hm⟩
  · rintro ⟨m, hm, hin⟩
    rw [hleast.unique hm]
    exact hin

/-- `starts_in` from the empty set asks for `MAX_MONAD`. -/
theorem startsIn_of_empty {s other : SetOfMonads} (h : s.RepInv) (ho : other.RepInv)
    (hnil : s.monadMs = []) : s.startsIn other = true ↔ maxMonad ∈ other.mem := by
  rw [startsIn, isMemberOf_iff ho, (h.empty_eq hnil).1]

/-- The loop of `overlap` decides whether two lists share a monad. -/
theorem overlapLoop_iff : ∀ (as bs : List MonadSetElement), Sep as → Sep bs →
    (overlapLoop as bs = true ↔ (cover as ∩ cover bs).Nonempty) := by
  intro as bs
  induction as, bs using overlapLoop.induct with
  | case1 a as b bs h₁ ih =>
    intro ha hb
    rw [overlapLoop, if_pos h₁, ih (sep_cons.mp ha).2 hb]
    constructor
    · rintro ⟨m, hm, hm'⟩
      exact ⟨m, mem_cover_cons_iff.mpr (Or.inr hm), hm'⟩
    · rintro ⟨m, hm, hm'⟩
      have hge := hb.head_le hm'
      simp only [MonadSetElement.spanned_lo] at hge
      rcases mem_cover_cons_iff.mp hm with hm | hm
      · omega
      · exact ⟨m, hm, hm'⟩
  | case2 a as b bs h₁ h₅ ih =>
    intro ha hb
    rw [overlapLoop, if_neg h₁, if_pos h₅, ih ha (sep_cons.mp hb).2]
    constructor
    · rintro ⟨m, hm, hm'⟩
      exact ⟨m, hm, mem_cover_cons_iff.mpr (Or.inr hm')⟩
    · rintro ⟨m, hm, hm'⟩
      have hge := ha.head_le hm
      simp only [MonadSetElement.spanned_lo] at hge
      rcases mem_cover_cons_iff.mp hm' with hm' | hm'
      · omega
      · exact ⟨m, hm, hm'⟩
  | case3 a as b bs h₁ h₅ =>
    intro _ _
    have ha := a.first_le_last
    have hb := b.first_le_last
    rw [overlapLoop, if_neg h₁, if_neg h₅]
    simp only [true_iff]
    refine ⟨max a.firstM b.firstM, ?_, ?_⟩
    · exact mem_cover_cons_iff.mpr (Or.inl ⟨by omega, by omega⟩)
    · exact mem_cover_cons_iff.mpr (Or.inl ⟨by omega, by omega⟩)
  | case4 as bs h =>
    intro _ _
    cases as with
    | nil => simp [overlapLoop]
    | cons a as =>
      cases bs with
      | nil => simp [overlapLoop]
      | cons b bs => exact (h a as b bs rfl rfl).elim

/-- **`overlap` decides whether two sets share a monad.** -/
theorem overlap_iff {aset bset : SetOfMonads} (ha : aset.RepInv) (hb : bset.RepInv) :
    overlap aset bset = true ↔ (aset.mem ∩ bset.mem).Nonempty := by
  unfold overlap
  split
  · rename_i hempty
    simp only [Bool.false_eq_true, false_iff, Set.not_nonempty_iff_eq_empty]
    rcases Bool.or_eq_true _ _ ▸ hempty with h | h
    · rw [mem_eq_empty.mpr (isEmpty_iff.mp h), Set.empty_inter]
    · rw [mem_eq_empty.mpr (isEmpty_iff.mp h), Set.inter_empty]
  · exact overlapLoop_iff _ _ ha.sep hb.sep

theorem hasMonadsInRangeLoop_iff (other : MonadSetElement) :
    ∀ {l : List MonadSetElement}, Sep l →
      (hasMonadsInRangeLoop other l = true ↔ (cover l ∩ points other).Nonempty)
  | [], _ => by simp [hasMonadsInRangeLoop]
  | cur :: rest, hsep => by
    have ih := hasMonadsInRangeLoop_iff other (sep_cons.mp hsep).2
    have hcur := cur.first_le_last
    have hother := other.first_le_last
    simp only [hasMonadsInRangeLoop]
    split
    · rename_i hov
      rw [MonadSetElement.overlap_iff] at hov
      simp only [true_iff]
      refine ⟨max cur.firstM other.firstM,
        mem_cover_cons_iff.mpr (Or.inl ⟨by omega, by omega⟩), ?_⟩
      simp only [mem_points, MonadSetElement.spanned_lo, MonadSetElement.spanned_hi]
      omega
    · rename_i hov
      rw [MonadSetElement.overlap_iff] at hov
      split
      · rename_i hlt
        simp only [Bool.false_eq_true, false_iff]
        rintro ⟨m, hm, -, hm'⟩
        have := hsep.head_le hm
        simp only [MonadSetElement.spanned_lo, MonadSetElement.spanned_hi] at this hm'
        omega
      · rw [ih]
        constructor
        · rintro ⟨m, hm, hm'⟩
          exact ⟨m, mem_cover_cons_iff.mpr (Or.inr hm), hm'⟩
        · rintro ⟨m, hm, hm'⟩
          refine ⟨m, (mem_cover_cons_iff.mp hm).resolve_left ?_, hm'⟩
          simp only [mem_points, MonadSetElement.spanned_lo, MonadSetElement.spanned_hi] at hm'
          omega

/-- **`hasMonadsInRange` decides whether a range meets the set.** -/
theorem hasMonadsInRange_iff {s : SetOfMonads} (h : s.RepInv) {f l : Int} (hfl : f ≤ l) :
    ∃ r, s.hasMonadsInRange f l = some r ∧ (r = true ↔ (s.mem ∩ Set.Icc f l).Nonempty) := by
  refine ⟨hasMonadsInRangeLoop ⟨f, l, hfl⟩ s.monadMs, ?_, hasMonadsInRangeLoop_iff _ h.sep⟩
  simp [hasMonadsInRange, MonadSetElement.range_of_le hfl]

/-! ## 4. Membership with a hint -/

section Hint

variable {s : SetOfMonads} {m : Int} {hintIt : List MonadSetElement}

/-- The iterator has only passed elements that end before `m`, or is rewound. -/
theorem dropWhile_hint {current : MonadSetElement} {rest : List MonadSetElement}
    (hsep : Sep s.monadMs) (hsuffix : current :: rest <:+ s.monadMs) :
    (if current.firstM > m then s.monadMs else current :: rest).dropWhile (fun e => e.lastM < m)
      = s.monadMs.dropWhile fun e => e.lastM < m := by
  split
  · rfl
  · rename_i hfirst
    obtain ⟨passed, hpassed⟩ := hsuffix
    rw [← hpassed, List.dropWhile_append_of_pos]
    intro e he
    rw [← hpassed] at hsep
    have hbefore : e.lastM + 1 < current.firstM :=
      (sep_append.mp hsep).2.2 e he current List.mem_cons_self
    exact decide_eq_true (by omega)

/-- Up to the last member the answer is right and the iterator stays inside the set... -/
theorem isMemberOfHint_le (hsep : Sep s.monadMs) (hlast : IsGreatest s.mem s.last)
    (hne : hintIt ≠ []) (hsuffix : hintIt <:+ s.monadMs) (hm : m ≤ s.last) :
    ∃ hintIt', s.isMemberOfHint m hintIt = some (s.isMemberOf m, hintIt') ∧ hintIt' ≠ [] ∧
      hintIt' <:+ s.monadMs := by
  obtain ⟨current, rest, rfl⟩ := List.exists_cons_of_ne_nil hne
  have hdrop := dropWhile_hint (m := m) hsep hsuffix
  have hmem := mem_cover_dropWhile (m := m) (L := s.monadMs)
  have hsuf := List.dropWhile_suffix (l := s.monadMs) fun e => e.lastM < m
  rw [isMemberOfHint, if_neg (not_lt.mpr hm)]
  dsimp only
  rw [hdrop]
  cases hrest : s.monadMs.dropWhile fun e => e.lastM < m with
  | nil =>
    -- the element with the last member is not passed
    obtain ⟨e, he, -, hge⟩ := hlast.1
    have hall := List.dropWhile_eq_nil_iff.mp hrest e he
    have := of_decide_eq_true hall
    simp only [MonadSetElement.spanned_hi] at hge
    omega
  | cons e es =>
    rw [hrest] at hsuf
    have hge : ¬ e.lastM < m := by
      have hne' : (s.monadMs.dropWhile fun e => e.lastM < m) ≠ [] := by
        rw [hrest]
        exact List.cons_ne_nil e es
      simpa [hrest] using List.head_dropWhile_not (fun e : MonadSetElement => e.lastM < m) hne'
    have hsep' : Sep (e :: es) := hsep.sublist hsuf.sublist
    refine ⟨e :: es, ?_, List.cons_ne_nil e es, hsuf⟩
    have hiff : e.firstM ≤ m ↔ m ∈ s.mem := by
      rw [← MonadSetElement.spanned_lo, ← hsep'.mem_cover_iff_head (not_lt.mp hge), ← hrest]
      exact hmem
    have hanswer : decide (e.firstM ≤ m) = s.isMemberOf m := by
      rw [Bool.eq_iff_iff, decide_eq_true_iff, hiff]
      exact (isMemberOfLoop_iff hsep).symm
    simp only [hanswer]

/-- ...and beyond it the iterator is at the end. -/
theorem isMemberOfHint_gt (hm : s.last < m) : s.isMemberOfHint m hintIt = some (false, []) :=
  if_pos hm

/-- Successive calls of `isMemberOf(m, hint_it)` with one iterator. -/
def isMemberOfEach (s : SetOfMonads) (hintIt : List MonadSetElement) :
    List Int → Option (List Bool × List MonadSetElement)
  | [] => some ([], hintIt)
  | m :: ms =>
    (s.isMemberOfHint m hintIt).bind fun answer =>
      (isMemberOfEach s answer.2 ms).map fun answers => (answer.1 :: answers.1, answers.2)

/-- Beyond the last member all answers are the same. -/
theorem isMemberOfEach_gt (h : s.Canonical) (hne : s.monadMs ≠ []) {ms : List Int}
    (hms : ∀ m ∈ ms, s.last < m) : ∀ hintIt, ∃ hintIt',
      s.isMemberOfEach hintIt ms = some (ms.map s.isMemberOf, hintIt') := by
  induction ms with
  | nil => exact fun hintIt => ⟨hintIt, rfl⟩
  | cons m ms ih =>
    intro hintIt
    have hm := hms m List.mem_cons_self
    obtain ⟨hintIt', heach⟩ := ih (fun m' hm' => hms m' (List.mem_cons_of_mem m hm')) []
    have hnot : s.isMemberOf m = false := by
      rw [Bool.eq_false_iff, ne_eq, isMemberOf, isMemberOfLoop_iff h.sep]
      intro hmem
      exact absurd ((h.isGreatest_last hne).2 hmem) (not_le.mpr hm)
    refine ⟨hintIt', ?_⟩
    simp [isMemberOfEach, isMemberOfHint_gt hm, heach, hnot]

/-- The answers with an iterator that is inside the set. -/
theorem isMemberOfEach_inside (h : s.Canonical) {ms : List Int}
    (hms : ms.Pairwise fun a b => s.last < a → s.last < b) : ∀ hintIt, hintIt ≠ [] →
      hintIt <:+ s.monadMs → ∃ hintIt',
        s.isMemberOfEach hintIt ms = some (ms.map s.isMemberOf, hintIt') := by
  induction ms with
  | nil => exact fun hintIt _ _ => ⟨hintIt, rfl⟩
  | cons m ms ih =>
    intro hintIt hin hsuffix
    obtain ⟨hlater, hrest⟩ := List.pairwise_cons.mp hms
    have hne : s.monadMs ≠ [] := by
      rintro hnil
      rw [hnil, List.suffix_nil] at hsuffix
      exact hin hsuffix
    by_cases hm : m ≤ s.last
    · obtain ⟨hintIt', hmember, hin', hsuffix'⟩ :=
        isMemberOfHint_le h.sep (h.isGreatest_last hne) hin hsuffix hm
      obtain ⟨hintIt'', heach⟩ := ih hrest hintIt' hin' hsuffix'
      refine ⟨hintIt'', ?_⟩
      simp [isMemberOfEach, hmember, heach]
    · have hlt := not_le.mp hm
      refine isMemberOfEach_gt h hne (fun m' hm' => ?_) hintIt
      rcases List.mem_cons.mp hm' with rfl | hm'
      · exact hlt
      · exact hlater m' hm' hlt

/-- **With the hint, membership is what it is without**, for as long as no number up to the last
member is asked for after one that is beyond it; and the iterator is never read at its end. -/
theorem hinted_eq_plain (h : s.Canonical) (hne : s.monadMs ≠ []) {ms : List Int}
    (hms : ms.Pairwise fun a b => s.last < a → s.last < b) :
    ∃ hintIt, s.isMemberOfEach s.monadMs ms = some (ms.map s.isMemberOf, hintIt) :=
  isMemberOfEach_inside h hms s.monadMs hne (List.suffix_refl _)

/-- Two stretches: an iterator that is rewound, passes an element and comes to its end. -/
theorem hinted_eq_plain_two :
    ∃ hintIt, SetOfMonads.isMemberOfEach
      ⟨[⟨1, 2, by decide⟩, ⟨5, 6, by decide⟩], 1, 6⟩ [⟨1, 2, by decide⟩, ⟨5, 6, by decide⟩]
        [0, 5, 2, 3, 9, 7] = some ([false, true, true, false, false, false], hintIt) :=
  hinted_eq_plain (s := ⟨[⟨1, 2, by decide⟩, ⟨5, 6, by decide⟩], 1, 6⟩)
    (RepInv.canonical (by decide)) (by simp)
    (show [0, 5, 2, 3, 9, 7].Pairwise fun a b : Int => 6 < a → 6 < b by simp)

end Hint

end SetOfMonads

end Emdros
