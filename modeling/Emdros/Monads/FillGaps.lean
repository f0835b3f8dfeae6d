/-
# Filling gaps (`fillGaps`, `getGaps`)

`fillGaps(min_gap)` builds its result from the first element on: each further element is added
alone, or together with the gap before it where that is shorter than `min_gap`.  `getGaps()` adds
the gaps.

The gaps of a separated list are the stretches between neighbours (`isGap_cover_cons_cons`); what
the two make of a set is then a matter of sets of integers, where `closeGaps` closes the short gaps
of any set.  It is the least of the sets that contain the set and have no gap shorter than
`min_gap`, so that closing once more changes nothing and a greater bound closes more
(`fillGaps_least_closing`).  Both kinds of set, the one with a list and the one with a map, have the
same result.
-/
import Emdros.Base.Gaps
import Emdros.Monads.FastAlgebra

namespace Emdros

open SpanList IntGaps

namespace SetOfMonads

/-! ## 1. The gaps of a list -/

/-- One element has no gaps. -/
theorem not_isGap_cover_singleton {e : MonadSetElement} {x y : Int} : ¬ IsGap (cover [e]) x y := by
  intro h
  have hbefore := h.before
  have hafter := h.after
  have hle := h.le
  simp only [mem_cover_cons, cover_nil, Set.mem_empty_iff_false, or_false,
    MonadSetElement.spanned_lo, MonadSetElement.spanned_hi] at hbefore hafter
  refine h.missing x le_rfl hle (mem_cover_cons_iff.mpr (Or.inl ?_))
  omega

/-- **A gap of a list** is the one after its first element, or one of the others. -/
theorem isGap_cover_cons_cons {a b : MonadSetElement} {l : List MonadSetElement}
    (hsep : Sep (a :: b :: l)) {x y : Int} :
    IsGap (cover (a :: b :: l)) x y ↔
      (x = a.lastM + 1 ∧ y = b.firstM - 1) ∨ IsGap (cover (b :: l)) x y := by
  have ha := a.first_le_last
  have hb := b.first_le_last
  have hgap : a.lastM + 1 < b.firstM := (sep_cons.mp hsep).1 b List.mem_cons_self
  have hrest := (sep_cons.mp hsep).2
  have hfirst : ∀ {z}, z ∈ cover (b :: l) → b.firstM ≤ z := fun hz => hrest.head_le hz
  have hmem : b.firstM ∈ cover (b :: l) := lo_mem_cover (r := b) List.mem_cons_self
  constructor
  · intro h
    have hle := h.le
    rcases mem_cover_cons_iff.mp h.before with hx | hx
    · -- the gap starts after `a`, and so ends before `b`
      left
      have hxa : x = a.lastM + 1 := by
        by_contra hne
        exact h.missing x le_rfl hle (mem_cover_cons_iff.mpr (Or.inl (by omega)))
      have hyb : y < b.firstM := by
        by_contra hge
        exact h.missing b.firstM (by omega) (by omega) (mem_cover_cons_iff.mpr (Or.inr hmem))
      rcases mem_cover_cons_iff.mp h.after with hy | hy
      · omega
      · have := hfirst hy
        exact ⟨hxa, by omega⟩
    · right
      have hx' := hfirst hx
      rcases mem_cover_cons_iff.mp h.after with hy | hy
      · omega
      · exact ⟨hle, hx, hy, fun z hxz hzy hz =>
          h.missing z hxz hzy (mem_cover_cons_iff.mpr (Or.inr hz))⟩
  · rintro (⟨rfl, rfl⟩ | h)
    · refine ⟨by omega, ?_, ?_, ?_⟩
      · rw [add_sub_cancel_right]
        exact mem_cover_cons_iff.mpr (Or.inl ⟨ha, le_rfl⟩)
      · rw [sub_add_cancel]
        exact mem_cover_cons_iff.mpr (Or.inr hmem)
      · intro z hz hz' hcov
        rcases mem_cover_cons_iff.mp hcov with hz'' | hz''
        · omega
        · have := hfirst hz''
          omega
    · have hx := hfirst h.before
      refine ⟨h.le, mem_cover_cons_iff.mpr (Or.inr h.before),
        mem_cover_cons_iff.mpr (Or.inr h.after), fun z hxz hzy hz => ?_⟩
      rcases mem_cover_cons_iff.mp hz with hz' | hz'
      · omega
      · exact h.missing z hxz hzy hz'

/-! ## 2. `fillGaps` -/

/-- What is added covers what the short gaps and the elements cover. -/
theorem cover_fillGapsPieces (minGap : Int) : ∀ (l pieces : List MonadSetElement)
    (prev : MonadSetElement), Sep (prev :: l) →
      fillGapsPieces minGap prev.lastM l = some pieces →
        cover (prev :: pieces) = closeGaps minGap (cover (prev :: l))
  | [], pieces, prev, _, hpieces => by
    cases hpieces
    ext x
    constructor
    · exact fun hx => subset_closeGaps hx
    · rintro (hx | ⟨a, b, hgap, -⟩)
      · exact hx
      · exact absurd hgap not_isGap_cover_singleton
  | cur :: rest, pieces, prev, hsep, hpieces => by
    have hgap : prev.lastM + 1 < cur.firstM := (sep_cons.mp hsep).1 cur List.mem_cons_self
    have hp := prev.first_le_last
    have hc := cur.first_le_last
    rw [fillGapsPieces] at hpieces
    split at hpieces
    · rename_i hlong
      obtain ⟨others, hothers, rfl⟩ := Option.map_eq_some_iff.mp hpieces
      have ih := cover_fillGapsPieces minGap rest others cur (sep_cons.mp hsep).2 hothers
      ext x
      rw [mem_cover_cons_iff, ih]
      constructor
      · rintro (hx | hx | ⟨a, b, hab, hshort, hax, hxb⟩)
        · exact Or.inl (mem_cover_cons_iff.mpr (Or.inl hx))
        · exact Or.inl (mem_cover_cons_iff.mpr (Or.inr hx))
        · exact Or.inr ⟨a, b, (isGap_cover_cons_cons hsep).mpr (Or.inr hab), hshort, hax, hxb⟩
      · rintro (hx | ⟨a, b, hab, hshort, hax, hxb⟩)
        · rcases mem_cover_cons_iff.mp hx with hx | hx
          · exact Or.inl hx
          · exact Or.inr (Or.inl hx)
        · rcases (isGap_cover_cons_cons hsep).mp hab with ⟨rfl, rfl⟩ | hab
          · omega
          · exact Or.inr (Or.inr ⟨a, b, hab, hshort, hax, hxb⟩)
    · rename_i hshort
      rw [MonadSetElement.range_of_le (by omega), Option.bind_some] at hpieces
      obtain ⟨others, hothers, rfl⟩ := Option.map_eq_some_iff.mp hpieces
      have ih := cover_fillGapsPieces minGap rest others cur (sep_cons.mp hsep).2 hothers
      have hothersMem : ∀ x, x ∈ cover others → x ∈ closeGaps minGap (cover (cur :: rest)) :=
        fun x hx => by
          rw [← ih]
          exact mem_cover_cons_iff.mpr (Or.inr hx)
      have hcloses : ∀ x, x ∈ closeGaps minGap (cover (cur :: rest)) →
          x ∈ closeGaps minGap (cover (prev :: cur :: rest)) := by
        rintro x (hx | ⟨a, b, hab, hab', hax, hxb⟩)
        · exact Or.inl (mem_cover_cons_iff.mpr (Or.inr hx))
        · exact Or.inr ⟨a, b, (isGap_cover_cons_cons hsep).mpr (Or.inr hab), hab', hax, hxb⟩
      have hcover : ∀ x, x ∈ closeGaps minGap (cover (cur :: rest)) →
          (cur.firstM ≤ x ∧ x ≤ cur.lastM) ∨ x ∈ cover others := by
        intro x hx
        rw [← ih] at hx
        exact mem_cover_cons_iff.mp hx
      ext x
      rw [mem_cover_cons_iff, mem_cover_cons_iff]
      constructor
      · rintro (hx | hx | hx)
        · exact Or.inl (mem_cover_cons_iff.mpr (Or.inl hx))
        · -- the piece has the last monad before it, the gap and the element
          simp only at hx
          by_cases hin : x ≤ prev.lastM
          · exact Or.inl (mem_cover_cons_iff.mpr (Or.inl (by omega)))
          · by_cases hin' : cur.firstM ≤ x
            · exact hcloses x (Or.inl (mem_cover_cons_iff.mpr (Or.inl (by omega))))
            · exact Or.inr ⟨prev.lastM + 1, cur.firstM - 1,
                (isGap_cover_cons_cons hsep).mpr (Or.inl ⟨rfl, rfl⟩), by omega, by omega, by omega⟩
        · exact hcloses x (hothersMem x hx)
      · rintro (hx | ⟨a, b, hab, hab', hax, hxb⟩)
        · rcases mem_cover_cons_iff.mp hx with hx | hx
          · exact Or.inl hx
          · rcases hcover x (Or.inl hx) with hx | hx
            · exact Or.inr (Or.inl (by simp only; omega))
            · exact Or.inr (Or.inr hx)
        · rcases (isGap_cover_cons_cons hsep).mp hab with ⟨rfl, rfl⟩ | hab
          · exact Or.inr (Or.inl (by simp only; omega))
          · rcases hcover x (Or.inr ⟨a, b, hab, hab', hax, hxb⟩) with hx | hx
            · exact Or.inr (Or.inl (by simp only; omega))
            · exact Or.inr (Or.inr hx)

theorem closeGaps_empty {k : Int} : closeGaps k ∅ = ∅ := by
  refine Set.eq_empty_iff_forall_notMem.mpr ?_
  rintro x (hx | ⟨a, b, hgap, -⟩)
  · exact hx
  · exact hgap.before

/-- **`fillGaps` closes the short gaps.** -/
theorem fillGaps_spec {s : SetOfMonads} (h : s.RepInv) (minGap : Int) :
    ∃ r, s.fillGaps minGap = some r ∧ r.RepInv ∧ r.mem = closeGaps minGap s.mem := by
  obtain ⟨r, hr, hrep, -⟩ := FastSetOfMonads.fillGaps_ofSetOfMonads h minGap
  refine ⟨r, hr, hrep, ?_⟩
  unfold fillGaps at hr
  have hsep := h.sep
  have hin := h.inRange
  rw [mem, mem]
  cases hl : s.monadMs with
  | nil =>
    rw [hl] at hr
    cases hr
    rw [cover_nil, closeGaps_empty]
    exact cover_nil
  | cons cur rest =>
    rw [hl] at hr hsep hin
    obtain ⟨pieces, hpieces, rfl⟩ := Option.map_eq_some_iff.mp hr
    have hcur := hin cur List.mem_cons_self
    obtain ⟨pieces', hpieces', hrange⟩ := FastSetOfMonads.fillGapsPieces_spec minGap rest cur.lastM
      (sep_cons.mp hsep).2 (fun e he => hin e (List.mem_cons_of_mem cur he))
      (le_trans hcur.1 cur.first_le_last) (fun e he => by
        have h₁ := (sep_cons.mp hsep).1 e he
        have h₂ := e.first_le_last
        simp only [MonadSetElement.spanned_lo, MonadSetElement.spanned_hi] at h₁
        omega)
    rw [hpieces] at hpieces'
    cases hpieces'
    obtain ⟨hone, hmem⟩ := addMSE_spec repInv_empty hcur
    have hfold := (foldl_addMSE_spec pieces hone hrange).2
    rw [hmem, mem_empty, Set.empty_union, ← cover_cons] at hfold
    exact hfold.trans (cover_fillGapsPieces minGap rest pieces cur hsep hpieces)

/-! ## 3. `getGaps` -/

/-- The gaps that the loop adds. -/
theorem getGapsLoop_spec : ∀ (l : List MonadSetElement) (prev : MonadSetElement)
    (r : SetOfMonads), r.RepInv → Sep (prev :: l) → (∀ e ∈ prev :: l, InRange e) →
      ∃ r', getGapsLoop prev.lastM r l = some r' ∧ r'.RepInv ∧
        r'.mem = r.mem ∪ gaps (cover (prev :: l))
  | [], prev, r, hr, _, _ => by
    refine ⟨r, rfl, hr, ?_⟩
    have hnone : gaps (cover [prev]) = ∅ := by
      refine Set.eq_empty_iff_forall_notMem.mpr ?_
      rintro x ⟨a, b, hgap, -⟩
      exact not_isGap_cover_singleton hgap
    rw [hnone, Set.union_empty]
  | cur :: rest, prev, r, hr, hsep, hin => by
    have hgap : prev.lastM + 1 < cur.firstM := (sep_cons.mp hsep).1 cur List.mem_cons_self
    have hle : prev.lastM + 1 ≤ cur.firstM - 1 := by omega
    have hprev := hin prev List.mem_cons_self
    have hcur := hin cur (List.mem_cons_of_mem prev List.mem_cons_self)
    have hp := prev.first_le_last
    have hc := cur.first_le_last
    have hrange : InRange ⟨prev.lastM + 1, cur.firstM - 1, hle⟩ := by
      obtain ⟨h₁, -⟩ := hprev
      obtain ⟨-, h₂⟩ := hcur
      exact ⟨by simp only; omega, by simp only; omega⟩
    obtain ⟨hone, hmem⟩ := addMSE_spec hr hrange
    obtain ⟨r', hloop, hrep, hmem'⟩ := getGapsLoop_spec rest cur _ hone (sep_cons.mp hsep).2
      fun e he => hin e (List.mem_cons_of_mem prev he)
    refine ⟨r', ?_, hrep, ?_⟩
    · rw [getGapsLoop, add, MonadSetElement.range_of_le hle, Option.map_some, Option.bind_some]
      exact hloop
    · rw [hmem', hmem, Set.union_assoc]
      congr 1
      ext x
      constructor
      · rintro (hx | ⟨a, b, hab, hax, hxb⟩)
        · exact ⟨_, _, (isGap_cover_cons_cons hsep).mpr (Or.inl ⟨rfl, rfl⟩), hx.1, hx.2⟩
        · exact ⟨a, b, (isGap_cover_cons_cons hsep).mpr (Or.inr hab), hax, hxb⟩
      · rintro ⟨a, b, hab, hax, hxb⟩
        rcases (isGap_cover_cons_cons hsep).mp hab with ⟨rfl, rfl⟩ | hab
        · exact Or.inl ⟨hax, hxb⟩
        · exact Or.inr ⟨a, b, hab, hax, hxb⟩

/-- **`getGaps` has what is in the gaps.** -/
theorem getGaps_spec {s : SetOfMonads} (h : s.RepInv) :
    ∃ r, s.getGaps = some r ∧ r.RepInv ∧ r.mem = gaps s.mem := by
  have hsep := h.sep
  have hin := h.inRange
  rw [getGaps, mem]
  cases hl : s.monadMs with
  | nil =>
    refine ⟨empty, rfl, repInv_empty, ?_⟩
    have hnone : gaps (cover ([] : List MonadSetElement)) = ∅ := by
      refine Set.eq_empty_iff_forall_notMem.mpr ?_
      rintro x ⟨a, b, hgap, -⟩
      rw [cover_nil] at hgap
      exact hgap.before
    rw [hnone]
    exact mem_empty
  | cons mse rest =>
    rw [hl] at hsep hin
    obtain ⟨r, hr, hrep, hmem⟩ := getGapsLoop_spec rest mse empty repInv_empty hsep hin
    refine ⟨r, hr, hrep, ?_⟩
    rw [hmem, mem_empty, Set.empty_union]

/-! ## 4. The least closing -/

/-- `B` is the least closing of `A`, whose ends are `first` and `last`. -/
structure FillsGaps (A : Set Int) (first last minGap : Int) (B : Set Int) : Prop where
  isLeast : IsLeast {C | A ⊆ C ∧ C ⊆ Set.Icc first last ∧ GapsFrom minGap C} B
  mem_iff : ∀ x, x ∈ B ↔ x ∈ A ∨ ∃ a b, IsGap A a b ∧ b - a + 1 < minGap ∧ a ≤ x ∧ x ≤ b

/-- Between the cached bounds. -/
theorem RepInv.mem_bounds {s : SetOfMonads} (h : s.RepInv) :
    s.mFirst ∈ lowerBounds s.mem ∧ s.mLast ∈ upperBounds s.mem := by
  by_cases hne : s.monadMs = []
  · rw [mem_eq_empty.mpr hne]
    exact ⟨fun _ hx => hx.elim, fun _ hx => hx.elim⟩
  · exact ⟨(h.isLeast_first hne).2, (h.isGreatest_last hne).2⟩

theorem RepInv.fillsGaps {s : SetOfMonads} (h : s.RepInv) (minGap : Int) :
    FillsGaps s.mem s.mFirst s.mLast minGap (closeGaps minGap s.mem) where
  isLeast := by
    obtain ⟨hfirst, hlast⟩ := h.mem_bounds
    exact ⟨⟨subset_closeGaps, closeGaps_subset_Icc hfirst hlast, gapsFrom_closeGaps⟩,
      fun C hC => closeGaps_subset hC.1 hC.2.2⟩
  mem_iff := fun _ => Iff.rfl

/-- The set and its gaps are one range. -/
theorem unionWith_getGaps {s : SetOfMonads} (h : s.RepInv) :
    ∃ g, s.getGaps = some g ∧ g.RepInv ∧ Disjoint s.mem g.mem ∧
      ∀ hle : s.mFirst ≤ s.mLast,
        s.unionWith g = ⟨[⟨s.mFirst, s.mLast, hle⟩], s.mFirst, s.mLast⟩ := by
  obtain ⟨g, hg, hrep, hmem⟩ := getGaps_spec h
  refine ⟨g, hg, hrep, by rw [hmem]; exact disjoint_gaps, fun hle => ?_⟩
  have hne : s.monadMs ≠ [] := by
    intro hnil
    have h₁ := h.empty_eq hnil
    have h₂ := maxMonad_pos
    omega
  have hleast := h.isLeast_first hne
  have hgreatest := h.isGreatest_last hne
  obtain ⟨hunion, hcover⟩ := unionWith_spec h hrep
  have hfirst := inRange_of_mem_cover h.inRange hleast.1
  have hlast := inRange_of_mem_cover h.inRange hgreatest.1
  have hone : RepInv ⟨[⟨s.mFirst, s.mLast, hle⟩], s.mFirst, s.mLast⟩ := by
    have hrange : InRange ⟨s.mFirst, s.mLast, hle⟩ := ⟨hfirst.1, hlast.2⟩
    have := repInv_setBounds (sep_singleton ⟨s.mFirst, s.mLast, hle⟩)
      (fun e he => by rwa [List.mem_singleton.mp he])
    exact this
  refine hunion.ext hone ?_
  rw [hcover, hmem, union_gaps hleast hgreatest]
  ext x
  simp [mem, mem_cover_cons]

/-- What a set is filled to is not filled further. -/
theorem fillGaps_again {s : SetOfMonads} (h : s.RepInv) (minGap : Int) :
    ∃ r, s.fillGaps minGap = some r ∧ r.RepInv ∧ r.mem = closeGaps minGap s.mem ∧
      r.fillGaps minGap = some r := by
  obtain ⟨r, hr, hrep, hmem⟩ := fillGaps_spec h minGap
  obtain ⟨r', hr', hrep', hmem'⟩ := fillGaps_spec hrep minGap
  have hsame : r' = r := hrep'.ext hrep (by rw [hmem', hmem, closeGaps_closeGaps])
  exact ⟨r, hr, hrep, hmem, by rw [hr', hsame]⟩

/-- A fast set is built from a plain one, and so is what it is filled to. -/
theorem fillGaps_again_fast {f : FastSetOfMonads} (h : f.RepInv) (minGap : Int) :
    ∃ r : FastSetOfMonads, f.fillGaps minGap = some r ∧ r.RepInv ∧
      r.mem = closeGaps minGap f.mem ∧ r.fillGaps minGap = some r := by
  obtain ⟨r, hr, hrep, hmem, hagain⟩ := fillGaps_again h.set minGap
  obtain ⟨r₁, hr₁, -, hfill⟩ := FastSetOfMonads.fillGaps_ofSetOfMonads h.set minGap
  obtain ⟨r₂, hr₂, -, hrefill⟩ := FastSetOfMonads.fillGaps_ofSetOfMonads hrep minGap
  rw [hr] at hr₁
  cases hr₁
  rw [hagain] at hr₂
  cases hr₂
  rw [← h.eq_ofSetOfMonads] at hfill
  refine ⟨_, hfill, FastSetOfMonads.repInv_ofSetOfMonads hrep, ?_, hrefill⟩
  rw [FastSetOfMonads.mem_ofSetOfMonads hrep]
  exact hmem

/-- **`fillGaps` is the least closing**, of either kind of set: closing once more changes nothing,
a greater bound closes more, and the set with its gaps is one range. -/
theorem fillGaps_least_closing :
    (∀ {s : SetOfMonads}, s.RepInv → ∀ minGap : Int,
      (∃ r, s.fillGaps minGap = some r ∧ r.RepInv ∧
        FillsGaps s.mem s.mFirst s.mLast minGap r.mem ∧ r.fillGaps minGap = some r ∧
        ∀ minGap', minGap ≤ minGap' →
          ∃ r', s.fillGaps minGap' = some r' ∧ r.mem ⊆ r'.mem) ∧
      ∃ g, s.getGaps = some g ∧ Disjoint s.mem g.mem ∧
        ∀ hle : s.mFirst ≤ s.mLast,
          s.unionWith g = ⟨[⟨s.mFirst, s.mLast, hle⟩], s.mFirst, s.mLast⟩) ∧
    ∀ {f : FastSetOfMonads}, f.RepInv → ∀ minGap : Int,
      ∃ r, f.fillGaps minGap = some r ∧ r.RepInv ∧
        FillsGaps f.mem f.mFirst f.mLast minGap r.mem ∧ r.fillGaps minGap = some r ∧
        ∀ minGap', minGap ≤ minGap' →
          ∃ r', f.fillGaps minGap' = some r' ∧ r.mem ⊆ r'.mem := by
  refine ⟨fun {s} h minGap => ⟨?_, ?_⟩, fun {f} h minGap => ?_⟩
  · obtain ⟨r, hr, hrep, hmem, hagain⟩ := fillGaps_again h minGap
    refine ⟨r, hr, hrep, by rw [hmem]; exact h.fillsGaps minGap, hagain, fun minGap' hle => ?_⟩
    obtain ⟨r', hr', -, hmem', -⟩ := fillGaps_again h minGap'
    exact ⟨r', hr', by rw [hmem, hmem']; exact closeGaps_mono hle⟩
  · obtain ⟨g, hg, -, hdisjoint, hunion⟩ := unionWith_getGaps h
    exact ⟨g, hg, hdisjoint, hunion⟩
  · obtain ⟨r, hr, hrep, hmem, hagain⟩ := fillGaps_again_fast h minGap
    refine ⟨r, hr, hrep, by rw [hmem]; exact h.set.fillsGaps minGap, hagain, fun minGap' hle => ?_⟩
    obtain ⟨r', hr', -, hmem', -⟩ := fillGaps_again_fast h minGap'
    exact ⟨r', hr', by rw [hmem, hmem']; exact closeGaps_mono hle⟩

/-- A gap of one monad is filled by `fillGaps(3)`, one of three monads is not. -/
theorem fillGaps_least_closing_three :
    ∃ r, fillGaps ⟨[⟨1, 2, by decide⟩, ⟨4, 4, by decide⟩, ⟨8, 9, by decide⟩], 1, 9⟩ 3 = some r ∧
      r.RepInv ∧ FillsGaps
        (mem ⟨[⟨1, 2, by decide⟩, ⟨4, 4, by decide⟩, ⟨8, 9, by decide⟩], 1, 9⟩) 1 9 3 r.mem ∧
      r.fillGaps 3 = some r ∧ ∀ minGap', 3 ≤ minGap' →
        ∃ r', fillGaps ⟨[⟨1, 2, by decide⟩, ⟨4, 4, by decide⟩, ⟨8, 9, by decide⟩], 1, 9⟩ minGap'
          = some r' ∧ r.mem ⊆ r'.mem :=
  (fillGaps_least_closing.1
    (s := ⟨[⟨1, 2, by decide⟩, ⟨4, 4, by decide⟩, ⟨8, 9, by decide⟩], 1, 9⟩) (by decide) 3).1

end SetOfMonads

end Emdros
