/-
# The queries on `FastSetOfMonads` answer as those on `SetOfMonads`

Each query looks up where a range would start, and then reads the element there or the one
before it.  `Sep` makes those two the only ones that matter.  The queries are settled one by
one on a fast set built from a plain one; `run_agrees` then drives a plain and a fast set for
every variable with the same operations and finds them in agreement after every step.

The last section returns to the predicates of `SetOfMonads`, now that `part_of` for a fast set
is known too, and says exactly when all of them decide what they are documented to decide.
-/
import Emdros.Monads.FastAlgebra
import Emdros.Monads.Queries
import Emdros.Base.Run
import Mathlib.Logic.Function.Basic

namespace Emdros

open SpanList

namespace FastSetOfMonads

open SetOfMonads (InRange)

/-! ## 1. The two elements around a range -/

section Around

variable {ps vs : List MonadSetElement} {f l : Int}

/-- A range meets the set exactly if the last element that starts before it reaches into it, or
the first element that starts later starts inside it. -/
theorem meets_iff (hsep : Sep (ps ++ vs)) (hps : ∀ p ∈ ps, p.firstM ≤ f - 1)
    (hvs : ∀ v ∈ vs, f - 1 < v.firstM) (hfl : f ≤ l) :
    (cover (ps ++ vs) ∩ Set.Icc f l).Nonempty ↔
      (∃ p ∈ ps.getLast?, f ≤ p.lastM) ∨ ∃ v ∈ vs.head?, v.firstM ≤ l := by
  obtain ⟨hsep₁, hsep₂, -⟩ := sep_append.mp hsep
  constructor
  · rintro ⟨m, hm, h₁, h₂⟩
    rcases mem_cover_append.mp hm with hm | hm
    · left
      obtain ⟨q, hq, -, hqm⟩ := hm
      obtain ⟨ps', p, rfl⟩ := (List.eq_nil_or_concat ps).resolve_left (List.ne_nil_of_mem hq)
      rw [List.concat_eq_append] at *
      refine ⟨p, by simp, ?_⟩
      have hle := hsep₁.le_last (hi_mem_cover hq)
      simp only [MonadSetElement.spanned_hi] at hle hqm
      omega
    · right
      cases vs with
      | nil => exact absurd hm (by simp)
      | cons v vs =>
        have hle := hsep₂.head_le hm
        simp only [MonadSetElement.spanned_lo] at hle
        exact ⟨v, rfl, by omega⟩
  · rintro (⟨p, hp, hle⟩ | ⟨v, hv, hle⟩)
    · have hmem : p ∈ ps := List.mem_of_getLast? hp
      have := hps p hmem
      exact ⟨f, mem_cover_of_mem (List.mem_append_left vs hmem)
        (by simp only [MonadSetElement.spanned_lo]; omega) hle, le_refl f, hfl⟩
    · have hmem : v ∈ vs := List.mem_of_head? hv
      have h₁ := hvs v hmem
      have h₂ := v.first_le_last
      refine ⟨v.firstM, ?_, by omega, hle⟩
      exact mem_cover_of_mem (List.mem_append_right ps hmem) (le_refl v.firstM) h₂

/-- The first element of a set that starts before `k` is among those before the lookup. -/
theorem nonempty_before {s : SetOfMonads} (h : s.RepInv) (hl : s.monadMs = ps ++ vs)
    (hne : s.monadMs ≠ []) (hvs : ∀ v ∈ vs, s.mFirst < v.firstM) :
    ∃ ps' p, ps = ps' ++ [p] := by
  rcases List.eq_nil_or_concat ps with rfl | ⟨ps', p, rfl⟩
  · obtain ⟨v, vs', hv⟩ := List.exists_cons_of_ne_nil hne
    have h₁ := h.first_eq v (by rw [hv]; rfl)
    have h₂ := hvs v (by rw [← List.nil_append vs, ← hl, hv]; exact List.mem_cons_self)
    omega
  · exact ⟨ps', p, List.concat_eq_append⟩

end Around

section Queries

variable {s : SetOfMonads}

theorem hasOnlyOneMSE_ofSetOfMonads (h : s.RepInv) :
    (ofSetOfMonads s).hasOnlyOneMSE = s.hasOnlyOneMSE := by
  unfold hasOnlyOneMSE SetOfMonads.hasOnlyOneMSE
  rw [elements_ofSetOfMonads h.sep]
  rcases s.monadMs with _ | ⟨_, _ | ⟨_, _⟩⟩
  · rfl
  · rfl
  · simp

/-! ## 2. `hasMonadsInRange`, `isMemberOf`, `overlap` -/

/-- `hasMonadsInRange` decides whether the range meets the set. -/
theorem hasMonadsInRange_spec (h : s.RepInv) {f l : Int} (hfl : f ≤ l) :
    ∃ r, (ofSetOfMonads s).hasMonadsInRange f l = some r ∧
      (r = true ↔ (s.mem ∩ Set.Icc f l).Nonempty) := by
  have hm := holds_ofSetOfMonads h.sep
  unfold hasMonadsInRange
  rw [isEmpty_ofSetOfMonads h.sep, MonadSetElement.range_of_le hfl]
  show ∃ r, (if s.isEmpty = true then _ else if s.mFirst > l then _ else
    if s.mLast < f then _ else _) = some r ∧ _
  split
  · rename_i hempty
    refine ⟨false, rfl, ?_⟩
    rw [SetOfMonads.mem_eq_empty.mpr (SetOfMonads.isEmpty_iff.mp hempty)]
    simp
  · rename_i hsome
    have hne : s.monadMs ≠ [] := fun hnil => hsome (SetOfMonads.isEmpty_iff.mpr hnil)
    split
    · rename_i hgt
      refine ⟨false, rfl, iff_of_false (by simp) ?_⟩
      rintro ⟨m, hmem, h₁, h₂⟩
      have := (h.isLeast_first hne).2 hmem
      omega
    · split
      · rename_i hlt
        refine ⟨false, rfl, iff_of_false (by simp) ?_⟩
        rintro ⟨m, hmem, h₁, h₂⟩
        have := (h.isGreatest_last hne).2 hmem
        omega
      · obtain ⟨ps, vs, hl, hps, hvs, hub⟩ := hm.upperBound (f - 1)
        have hsep := h.sep
        rw [hl] at hsep hm
        rw [hub, SetOfMonads.mem, hl, meets_iff hsep hps hvs hfl]
        cases vs with
        | nil =>
          obtain ⟨ps', p, rfl⟩ := nonempty_before h hl hne (by simp)
          refine ⟨p.overlap ⟨f, l, hfl⟩, by simp [hm.back], ?_⟩
          have := hps p (by simp)
          rw [MonadSetElement.overlap_iff]
          simp only [List.getLast?_concat, List.head?_nil]
          grind
        | cons v vs =>
          simp only [List.head?_cons, Option.map_some, Option.bind_some, hm.value]
          by_cases hgt : v.firstM > l
          · rw [if_pos hgt]
            obtain ⟨ps', p, rfl⟩ := nonempty_before h hl hne (by
              intro r hr
              rcases List.mem_cons.mp hr with rfl | hr
              · omega
              · have := SetOfMonads.Sep.firstM_lt ((sep_cons.mp (sep_append.mp hsep).2.1).1 r hr)
                omega)
            have hprev := hm.prev
            have hm' : Holds (ofSetOfMonads s).monadMs (ps' ++ p :: v :: vs) := by
              simpa using hm
            simp only [List.head?_cons, Option.map_some] at hprev
            rw [hprev, hm'.value]
            refine ⟨p.overlap ⟨f, l, hfl⟩, rfl, ?_⟩
            have := hps p (by simp)
            rw [MonadSetElement.overlap_iff]
            simp only [List.getLast?_concat]
            grind
          · rw [if_neg hgt]
            have hv := hvs v List.mem_cons_self
            have hfl' := v.first_le_last
            split
            · refine ⟨v.overlap ⟨f, l, hfl⟩, rfl, iff_of_true ?_ (Or.inr ⟨v, rfl, by omega⟩)⟩
              rw [MonadSetElement.overlap_iff]
              simp only
              omega
            · exact ⟨true, rfl, iff_of_true rfl (Or.inr ⟨v, rfl, by omega⟩)⟩

/-- `isMemberOf` decides membership. -/
theorem isMemberOf_spec (h : s.RepInv) (m : Int) :
    ∃ r, (ofSetOfMonads s).isMemberOf m = some r ∧ (r = true ↔ m ∈ s.mem) := by
  have hm := holds_ofSetOfMonads h.sep
  have hmem : m ∈ s.mem ↔ (s.mem ∩ Set.Icc m m).Nonempty := by
    rw [Set.Icc_self, Set.inter_singleton_nonempty]
  unfold isMemberOf
  rw [isEmpty_ofSetOfMonads h.sep]
  split
  · rename_i hempty
    refine ⟨false, rfl, ?_⟩
    rw [SetOfMonads.mem_eq_empty.mpr (SetOfMonads.isEmpty_iff.mp hempty)]
    simp
  · rename_i hsome
    have hne : s.monadMs ≠ [] := fun hnil => hsome (SetOfMonads.isEmpty_iff.mpr hnil)
    obtain ⟨ps, vs, hl, hps, hvs, hub⟩ := hm.upperBound (m - 1)
    have hsep := h.sep
    rw [hl] at hsep hm
    rw [hub, hmem, SetOfMonads.mem, hl, meets_iff hsep hps hvs (le_refl m)]
    cases vs with
    | nil =>
      obtain ⟨ps', p, rfl⟩ := nonempty_before h hl hne (by simp)
      refine ⟨p.overlap (.single m), by simp [hm.back], ?_⟩
      have := hps p (by simp)
      rw [MonadSetElement.overlap_iff]
      simp only [List.getLast?_concat, List.head?_nil, MonadSetElement.single_firstM,
        MonadSetElement.single_lastM]
      grind
    | cons v vs =>
      have hv := hvs v List.mem_cons_self
      have hfl' := v.first_le_last
      simp only [List.head?_cons, Option.map_some, Option.bind_some, hm.value]
      by_cases hgt : v.firstM > m
      · rw [if_pos hgt, hm.begin]
        rcases List.eq_nil_or_concat ps with rfl | ⟨ps', p, rfl⟩
        · refine ⟨false, by simp, ?_⟩
          simp only [Bool.false_eq_true, false_iff, List.getLast?_nil]
          grind
        · rw [List.concat_eq_append] at *
          have hbegin : ¬ some v.firstM = (ps' ++ [p] ++ v :: vs).head?.map (·.firstM) := by
            obtain ⟨q, qs, hq⟩ := List.exists_cons_of_ne_nil (l := ps' ++ [p]) (by simp)
            have := hps q (hq ▸ List.mem_cons_self)
            rw [hq]
            simp only [List.cons_append, List.head?_cons, Option.map_some, Option.some.injEq]
            omega
          have hprev := hm.prev
          have hm' : Holds (ofSetOfMonads s).monadMs (ps' ++ p :: v :: vs) := by
            simpa using hm
          simp only [List.head?_cons, Option.map_some] at hprev
          rw [if_neg hbegin, hprev, hm'.value]
          refine ⟨_, rfl, ?_⟩
          have := hps p (by simp)
          simp only [List.getLast?_concat, decide_eq_true_eq]
          grind
      · rw [if_neg hgt, if_neg (by omega)]
        exact ⟨true, rfl, iff_of_true rfl (Or.inr ⟨v, rfl, by omega⟩)⟩

theorem overlapLoop_spec (h : s.RepInv) : ∀ (as : List MonadSetElement),
    ∃ r, (ofSetOfMonads s).overlapLoop as = some r ∧
      (r = true ↔ (cover as ∩ s.mem).Nonempty)
  | [] => ⟨false, rfl, by simp⟩
  | a :: as => by
    obtain ⟨r, hr, hiff⟩ := hasMonadsInRange_spec h a.first_le_last
    obtain ⟨r', hr', hiff'⟩ := overlapLoop_spec h as
    have hpoints : (points a ∩ s.mem).Nonempty ↔ (s.mem ∩ Set.Icc a.firstM a.lastM).Nonempty := by
      rw [Set.inter_comm]
      rfl
    rw [overlapLoop, hr, Option.bind_some, SetOfMonads.cover_cons, Set.union_inter_distrib_right,
      Set.union_nonempty, hpoints, ← hiff]
    cases r with
    | true => exact ⟨true, rfl, by simp⟩
    | false => exact ⟨r', hr', by rw [hiff']; simp⟩

/-- `overlap` decides whether the two sets share a monad. -/
theorem overlap_spec (h : s.RepInv) (aset : SetOfMonads) :
    ∃ r, overlap aset (ofSetOfMonads s) = some r ∧
      (r = true ↔ (aset.mem ∩ s.mem).Nonempty) := by
  unfold overlap
  rw [isEmpty_ofSetOfMonads h.sep]
  split
  · rename_i hempty
    refine ⟨false, rfl, iff_of_false (by simp) ?_⟩
    rw [Set.not_nonempty_iff_eq_empty]
    rcases Bool.or_eq_true _ _ ▸ hempty with h | h
    · rw [SetOfMonads.mem_eq_empty.mpr (SetOfMonads.isEmpty_iff.mp h), Set.empty_inter]
    · rw [SetOfMonads.mem_eq_empty.mpr (SetOfMonads.isEmpty_iff.mp h), Set.inter_empty]
  · exact overlapLoop_spec h aset.monadMs

/-! ## 3. `subsumesRange`, `gapExists` -/

/-- A set is inside its bounds, and with one element it is all between them. -/
theorem subset_bounds (h : s.RepInv) (hne : s.monadMs ≠ []) :
    s.mem ⊆ Set.Icc s.mFirst s.mLast := fun _ hm =>
  ⟨(h.isLeast_first hne).2 hm, (h.isGreatest_last hne).2 hm⟩

/-- `subsumesRange` decides whether the range lies in the set. -/
theorem subsumesRange_spec (h : s.RepInv) (range : MonadSetElement) :
    ∃ r, (ofSetOfMonads s).subsumesRange range = some r ∧
      (r = true ↔ Set.Icc range.firstM range.lastM ⊆ s.mem) := by
  have hm := holds_ofSetOfMonads h.sep
  have hfl := range.first_le_last
  unfold subsumesRange
  rw [isEmpty_ofSetOfMonads h.sep, hasOnlyOneMSE_ofSetOfMonads h]
  show ∃ r, (if s.isEmpty = true then _ else
    if s.mFirst ≤ range.firstM ∧ range.lastM ≤ s.mLast ∧ s.hasOnlyOneMSE = true then _ else
    if ¬ (s.mFirst ≤ range.firstM ∧ range.lastM ≤ s.mLast) ∧ s.mFirst > range.lastM then _ else
    if ¬ (s.mFirst ≤ range.firstM ∧ range.lastM ≤ s.mLast) ∧ s.mLast < range.firstM then _
    else _) = some r ∧ _
  split
  · rename_i hempty
    refine ⟨false, rfl, iff_of_false (by simp) ?_⟩
    rw [SetOfMonads.mem_eq_empty.mpr (SetOfMonads.isEmpty_iff.mp hempty)]
    exact fun hsub => hsub (Set.left_mem_Icc.mpr hfl)
  · rename_i hsome
    have hne : s.monadMs ≠ [] := fun hnil => hsome (SetOfMonads.isEmpty_iff.mpr hnil)
    have hbounds : Set.Icc range.firstM range.lastM ⊆ s.mem →
        s.mFirst ≤ range.firstM ∧ range.lastM ≤ s.mLast := fun hsub =>
      ⟨(subset_bounds h hne (hsub (Set.left_mem_Icc.mpr hfl))).1,
        (subset_bounds h hne (hsub (Set.right_mem_Icc.mpr hfl))).2⟩
    split
    · rename_i hone
      refine ⟨true, rfl, iff_of_true rfl ?_⟩
      rw [h.mem_of_one hone.2.2]
      exact Set.Icc_subset_Icc hone.1 hone.2.1
    · split
      · rename_i hout
        exact ⟨false, rfl, iff_of_false (by simp) fun hsub => hout.1 (hbounds hsub)⟩
      · split
        · rename_i hout
          exact ⟨false, rfl, iff_of_false (by simp) fun hsub => hout.1 (hbounds hsub)⟩
        · rename_i hfirst _
          have hle : s.mFirst ≤ range.lastM := by
            by_contra hgt
            exact hfirst ⟨fun hin => by omega, by omega⟩
          obtain ⟨ps, vs, hl, hps, hvs, hub⟩ := hm.upperBound (range.firstM - 1)
          have hsep := h.sep
          rw [hl] at hsep hm
          obtain ⟨hsep₁, hsep₂, hgap⟩ := sep_append.mp hsep
          rw [hub, SetOfMonads.mem, hl, hsep.icc_subset_iff hfl]
          -- elements before the last one of `ps` end before the range starts
          have hlast : ∀ {ps' : List MonadSetElement} {p : MonadSetElement}, ps = ps' ++ [p] →
              ∀ e ∈ ps, range.lastM ≤ e.lastM → e = p := by
            rintro ps' p rfl e he hle'
            rcases List.mem_append.mp he with he | he
            · have h₁ := (sep_append.mp hsep₁).2.2 e he p (List.mem_singleton.mpr rfl)
              have h₂ := hps p (by simp)
              simp only [MonadSetElement.spanned_lo, MonadSetElement.spanned_hi] at h₁
              omega
            · exact List.mem_singleton.mp he
          cases vs with
          | nil =>
            obtain ⟨ps', p, hp⟩ := nonempty_before h hl hne (by simp)
            refine ⟨p.subsumes range, by simp [hm.back, hp], ?_⟩
            rw [MonadSetElement.subsumes_iff]
            constructor
            · intro hin
              exact ⟨p, by simp [hp], hin⟩
            · rintro ⟨e, he, hlo, hhi⟩
              rw [← hlast hp e (by simpa using he) hhi]
              exact ⟨hlo, hhi⟩
          | cons v vs =>
            have hv := hvs v List.mem_cons_self
            have hafter : ∀ e ∈ vs, v.lastM + 1 < e.firstM := (sep_cons.mp hsep₂).1
            have hvfl := v.first_le_last
            simp only [List.head?_cons, Option.map_some, Option.bind_some, hm.value]
            by_cases hgt : v.firstM > range.lastM
            · obtain ⟨ps', p, rfl⟩ := nonempty_before h hl hne (by
                intro e he
                rcases List.mem_cons.mp he with rfl | he
                · omega
                · have := hafter e he
                  omega)
              have hprev := hm.prev
              have hm' : Holds (ofSetOfMonads s).monadMs (ps' ++ p :: v :: vs) := by
                simpa using hm
              simp only [List.head?_cons, Option.map_some] at hprev
              rw [if_pos hgt, hprev, hm'.value]
              refine ⟨p.subsumes range, rfl, ?_⟩
              rw [MonadSetElement.subsumes_iff]
              constructor
              · intro hin
                exact ⟨p, by simp, hin⟩
              · rintro ⟨e, he, hlo, hhi⟩
                rcases List.mem_append.mp he with he | he
                · rw [← hlast rfl e he hhi]
                  exact ⟨hlo, hhi⟩
                · simp only [MonadSetElement.spanned_lo] at hlo
                  rcases List.mem_cons.mp he with rfl | he
                  · omega
                  · have := hafter e he
                    omega
            · rw [if_neg hgt]
              refine ⟨v.subsumes range, rfl, ?_⟩
              rw [MonadSetElement.subsumes_iff]
              constructor
              · intro hin
                exact ⟨v, by simp, hin⟩
              · rintro ⟨e, he, hlo, hhi⟩
                simp only [MonadSetElement.spanned_lo, MonadSetElement.spanned_hi] at hlo hhi
                rcases List.mem_append.mp he with he | he
                · have := hgap e he v List.mem_cons_self
                  simp only [MonadSetElement.spanned_lo, MonadSetElement.spanned_hi] at this
                  omega
                · rcases List.mem_cons.mp he with rfl | he
                  · exact ⟨hlo, hhi⟩
                  · have := hafter e he
                    omega

/-- The scan of the plain `gapExists` stops between the last element that starts no later than
`sm` and the first one that starts later. -/
theorem gapExistsLoop_split {sm : Int} {p : MonadSetElement} {vs : List MonadSetElement} :
    ∀ {ps : List MonadSetElement}, Sep (ps ++ p :: vs) → p.firstM ≤ sm →
      (∀ v ∈ vs, sm < v.firstM) → (vs = [] → sm ≤ p.lastM) →
        SetOfMonads.gapExistsLoop sm (ps ++ p :: vs)
          = some (match vs.head? with
            | none => none
            | some v => if p.lastM + 1 = sm then some (v.firstM - 1) else none)
  | q :: ps, hsep, hp, hvs, hend => by
    have hgap := (sep_cons.mp hsep).1 p (List.mem_append_right ps List.mem_cons_self)
    simp only [MonadSetElement.spanned_lo, MonadSetElement.spanned_hi] at hgap
    rw [List.cons_append, SetOfMonads.gapExistsLoop.eq_def]
    simp only
    rw [if_neg (by omega), if_neg (by omega)]
    exact gapExistsLoop_split (sep_cons.mp hsep).2 hp hvs hend
  | [], hsep, hp, hvs, hend => by
    rw [List.nil_append, SetOfMonads.gapExistsLoop.eq_def]
    simp only
    cases vs with
    | nil =>
      have := hend rfl
      rw [if_neg (by omega)]
      split
      · rfl
      · rfl
    | cons v vs =>
      have h₁ := hvs v List.mem_cons_self
      have h₂ := v.first_le_last
      simp only [List.head?_cons]
      by_cases heq : sm = p.lastM + 1
      · rw [if_pos heq, if_pos heq.symm]
      · rw [if_neg heq, if_neg (show ¬ p.lastM + 1 = sm by omega)]
        split
        · rfl
        · rw [SetOfMonads.gapExistsLoop.eq_def]
          simp only
          rw [if_neg (by omega), if_pos (by omega)]

/-- `gapExists` answers as the plain one does, and neither reads past an end. -/
theorem gapExists_spec (h : s.RepInv) (sm : Int) :
    ∃ r, s.gapExists sm = some r ∧ (ofSetOfMonads s).gapExists sm = some r := by
  have hm := holds_ofSetOfMonads h.sep
  unfold gapExists SetOfMonads.gapExists
  rw [hasOnlyOneMSE_ofSetOfMonads h]
  show ∃ r, _ ∧ (if sm < s.mFirst ∨ sm > s.mLast then _ else _) = some r
  by_cases hout : sm < s.mFirst ∨ sm > s.mLast
  · rw [if_pos hout, if_pos hout]
    exact ⟨none, rfl, rfl⟩
  · rw [if_neg hout, if_neg hout]
    rw [not_or] at hout
    have hne : s.monadMs ≠ [] := by
      intro hnil
      have h₁ := h.empty_eq hnil
      have h₂ := maxMonad_pos
      omega
    obtain ⟨ps, vs, hl, hps, hvs, hub⟩ := hm.upperBound sm
    obtain ⟨ps, p, rfl⟩ := nonempty_before h hl hne (fun v hv => by
      have := hvs v hv
      omega)
    have hsep := h.sep
    rw [hl] at hsep hm
    have hm' : Holds (ofSetOfMonads s).monadMs (ps ++ p :: vs) := by simpa using hm
    have hsep' : Sep (ps ++ p :: vs) := by simpa using hsep
    have hl' : s.monadMs = ps ++ p :: vs := by simpa using hl
    have hend : vs = [] → sm ≤ p.lastM := by
      rintro rfl
      rw [← h.last_eq p (by rw [hl']; simp)]
      omega
    rw [hl', gapExistsLoop_split hsep' (hps p (by simp)) hvs hend, hub]
    refine ⟨_, rfl, ?_⟩
    cases vs with
    | nil =>
      split
      · rfl
      · rfl
    | cons v vs =>
      have h₁ := hvs v List.mem_cons_self
      have hmany : ¬ s.hasOnlyOneMSE = true := by
        simp only [SetOfMonads.hasOnlyOneMSE, hl', List.length_append, List.length_cons,
          decide_eq_true_eq]
        omega
      have hprev := hm.prev
      simp only [List.head?_cons, Option.map_some] at hprev
      simp only [if_neg hmany, List.head?_cons, Option.map_some, Option.bind_some, hm.value,
        if_pos h₁, hprev, hm'.value]

/-- Converting to a plain set gives back the set that the fast one was built from. -/
theorem toSetOfMonads_ofSetOfMonads (h : s.RepInv) : (ofSetOfMonads s).toSetOfMonads = s := by
  rw [toSetOfMonads, elements_ofSetOfMonads h.sep]
  exact h.foldl_addMSE

/-- The loop of `part_of` for a fast set. -/
theorem subsumesAll_spec (h : s.RepInv) : ∀ (as : List MonadSetElement),
    ∃ r, (ofSetOfMonads s).subsumesAll as = some r ∧ (r = true ↔ cover as ⊆ s.mem)
  | [] => ⟨true, rfl, by simp⟩
  | a :: as => by
    obtain ⟨r, hr, hiff⟩ := subsumesRange_spec h a
    obtain ⟨r', hr', hiff'⟩ := subsumesAll_spec h as
    have hpoints : points a ⊆ s.mem ↔ Set.Icc a.firstM a.lastM ⊆ s.mem := Iff.rfl
    rw [subsumesAll, hr, Option.bind_some, SetOfMonads.cover_cons, Set.union_subset_iff,
      hpoints, ← hiff]
    cases r with
    | true => exact ⟨r', hr', by rw [hiff']; simp⟩
    | false => exact ⟨false, rfl, by simp⟩

end Queries

/-! ## 4. A plain and a fast set side by side -/

/-- A fast set agrees with a plain one: the same elements and bounds, conversion either way is
exact, and every query has the same answer. -/
structure Agrees (s : SetOfMonads) (f : FastSetOfMonads) : Prop where
  elements : f.elements = s.monadMs
  first : f.first = s.first
  last : f.last = s.last
  toSet : f.toSetOfMonads = s
  back : ofSetOfMonads f.toSetOfMonads = f
  isMemberOf : ∀ m, f.isMemberOf m = some (s.isMemberOf m)
  hasMonadsInRange : ∀ a b, a ≤ b →
    ∃ r, s.hasMonadsInRange a b = some r ∧ f.hasMonadsInRange a b = some r
  gapExists : ∀ m, ∃ r, s.gapExists m = some r ∧ f.gapExists m = some r
  getCardinality : f.getCardinality = s.getCardinality
  fillGaps : ∀ k, ∃ s' f', s.fillGaps k = some s' ∧ f.fillGaps k = some f' ∧ f'.asSet = s'
  subsumesRange : ∀ e : MonadSetElement,
    ∃ r, f.subsumesRange e = some r ∧ (r = true ↔ Set.Icc e.firstM e.lastM ⊆ s.mem)

/-- Two Booleans that decide the same are the same. -/
theorem eq_of_iff_true {r r' : Bool} {P : Prop} (h : r = true ↔ P) (h' : r' = true ↔ P) :
    r = r' := Bool.eq_iff_iff.mpr (h.trans h'.symm)

/-- **A fast set built from a plain one agrees with it.** -/
theorem agrees_ofSetOfMonads {s : SetOfMonads} (h : s.RepInv) : Agrees s (ofSetOfMonads s) where
  elements := elements_ofSetOfMonads h.sep
  first := rfl
  last := rfl
  toSet := toSetOfMonads_ofSetOfMonads h
  back := by rw [toSetOfMonads_ofSetOfMonads h]
  isMemberOf := by
    intro m
    obtain ⟨r, hr, hiff⟩ := isMemberOf_spec h m
    rw [hr, eq_of_iff_true hiff (SetOfMonads.isMemberOf_iff h)]
  hasMonadsInRange := by
    intro a b hab
    obtain ⟨r, hr, hiff⟩ := hasMonadsInRange_spec h hab
    obtain ⟨r', hr', hiff'⟩ := SetOfMonads.hasMonadsInRange_iff h hab
    exact ⟨r', hr', by rw [hr, eq_of_iff_true hiff hiff']⟩
  gapExists := gapExists_spec h
  getCardinality := by
    rw [getCardinality, elements_ofSetOfMonads h.sep]
    rfl
  fillGaps := by
    intro k
    obtain ⟨s', hs', hrep, hfill⟩ := fillGaps_ofSetOfMonads h k
    exact ⟨s', _, hs', hfill, asSet_ofSetOfMonads hrep⟩
  subsumesRange := subsumesRange_spec h

/-- One operation on a pair of sets; `x` and `y` are the variables of pairs. -/
inductive PairOp where
  | add (x : Nat) (f l : Int)
  | removeMSE (x : Nat) (e : MonadSetElement)
  | unionWith (x y : Nat)
  | difference (x y : Nat)
  /-- `x = intersect(x, y)`. -/
  | intersect (x y : Nat)

/-- The ranges added lie in `1 .. MAX_MONAD`. -/
def PairOp.Fed : PairOp → Prop
  | .add _ f l => 1 ≤ f ∧ f ≤ l ∧ l ≤ maxMonad
  | _ => True

instance PairOp.decidableFed : ∀ op : PairOp, Decidable op.Fed
  | .add _ f l => inferInstanceAs (Decidable (1 ≤ f ∧ f ≤ l ∧ l ≤ maxMonad))
  | .removeMSE _ _ | .unionWith _ _ | .difference _ _ | .intersect _ _ => isTrue trivial

/-- The operation on the plain sets. -/
def PairOp.plain (σ : Nat → SetOfMonads) : PairOp → Option (Nat → SetOfMonads)
  | .add x f l => ((σ x).add f l).map (Function.update σ x)
  | .removeMSE x e => some (Function.update σ x ((σ x).removeMSE e))
  | .unionWith x y => some (Function.update σ x ((σ x).unionWith (σ y)))
  | .difference x y => some (Function.update σ x ((σ x).difference (σ y)))
  | .intersect x y => some (Function.update σ x (SetOfMonads.intersect (σ x) (σ y)))

/-- The operation on the fast sets. -/
def PairOp.fast (τ : Nat → FastSetOfMonads) : PairOp → Option (Nat → FastSetOfMonads)
  | .add x f l => ((τ x).add f l).map (Function.update τ x)
  | .removeMSE x e => ((τ x).removeMSE e).map (Function.update τ x)
  | .unionWith x y => ((τ x).unionWith (τ y)).map (Function.update τ x)
  | .difference x y => ((τ x).difference (τ y)).map (Function.update τ x)
  | .intersect x y => (FastSetOfMonads.intersect (τ x) (τ y)).map (Function.update τ x)

/-- The simulation relation: every fast set is the image of its plain partner, which has the
invariant. -/
def Simulates (σ : Nat → SetOfMonads) (τ : Nat → FastSetOfMonads) : Prop :=
  ∀ x, (σ x).RepInv ∧ τ x = ofSetOfMonads (σ x)

theorem Simulates.update {σ : Nat → SetOfMonads} {τ : Nat → FastSetOfMonads}
    (h : Simulates σ τ) {s : SetOfMonads} (hs : s.RepInv) (x : Nat) :
    Simulates (Function.update σ x s) (Function.update τ x (ofSetOfMonads s)) := by
  intro y
  by_cases hy : y = x
  · rw [hy, Function.update_self, Function.update_self]
    exact ⟨hs, rfl⟩
  · rw [Function.update_of_ne hy, Function.update_of_ne hy]
    exact h y

/-- **One operation keeps the pairs related**, and succeeds on both sides. -/
theorem simulates_step (σ : Nat → SetOfMonads) (τ : Nat → FastSetOfMonads) (op : PairOp)
    (h : Simulates σ τ) (hfed : op.Fed) :
    ∃ σ' τ', op.plain σ = some σ' ∧ op.fast τ = some τ' ∧ Simulates σ' τ' := by
  cases op with
  | add x f l =>
    obtain ⟨h₁, h₂, h₃⟩ := hfed
    have hin : InRange ⟨f, l, h₂⟩ := ⟨by simp only; omega, h₃⟩
    refine ⟨_, _, ?_, ?_, h.update (SetOfMonads.addMSE_spec (h x).1 hin).1 x⟩
    · rw [PairOp.plain, SetOfMonads.add, MonadSetElement.range_of_le h₂]
      rfl
    · rw [PairOp.fast, (h x).2, add, MonadSetElement.range_of_le h₂, Option.bind_some,
        addMSE_ofSetOfMonads (h x).1 hin]
      rfl
  | removeMSE x e =>
    refine ⟨_, _, rfl, ?_, h.update (SetOfMonads.removeMSE_spec (h x).1 e).1 x⟩
    rw [PairOp.fast, (h x).2, removeMSE_ofSetOfMonads (h x).1]
    rfl
  | unionWith x y =>
    refine ⟨_, _, rfl, ?_, h.update (SetOfMonads.unionWith_spec (h x).1 (h y).1).1 x⟩
    rw [PairOp.fast, (h x).2, (h y).2, unionWith_ofSetOfMonads (h x).1 (h y).1]
    rfl
  | difference x y =>
    refine ⟨_, _, rfl, ?_, h.update (SetOfMonads.difference_spec (h x).1 (σ y)).1 x⟩
    rw [PairOp.fast, (h x).2, (h y).2, difference_ofSetOfMonads (h x).1 (h y).1]
    rfl
  | intersect x y =>
    refine ⟨_, _, rfl, ?_, h.update (SetOfMonads.intersect_spec (h x).1 (h y).1).1 x⟩
    rw [PairOp.fast, (h x).2, (h y).2, intersect_ofSetOfMonads (h x).1 (h y).1]
    rfl

/-- **`FastSetOfMonads` refines `SetOfMonads`.**  After any sequence of operations on pairs
that start empty (and so after each step of one), every fast set agrees with its plain partner,
and `overlap` with any plain set of the run has the answer of the plain `overlap`. -/
theorem run_agrees (ops : List PairOp) (hfed : ∀ op ∈ ops, op.Fed) :
    ∃ σ τ, Machine.run PairOp.plain (fun _ => SetOfMonads.empty) ops = some σ ∧
      Machine.run PairOp.fast (fun _ => empty) ops = some τ ∧
      (∀ x, Agrees (σ x) (τ x)) ∧
      ∀ x y, overlap (σ x) (τ y) = some (SetOfMonads.overlap (σ x) (σ y)) := by
  have hadm : ∀ (ops : List PairOp) (σ : Nat → SetOfMonads), (∀ op ∈ ops, op.Fed) →
      Machine.Admits PairOp.plain (fun _ op => op.Fed) σ ops := by
    intro ops
    induction ops with
    | nil =>
      intro _ _
      trivial
    | cons op ops ih =>
      intro σ h
      exact ⟨h op List.mem_cons_self,
        fun σ' _ => ih σ' fun op' hop' => h op' (List.mem_cons_of_mem op hop')⟩
  obtain ⟨σ, τ, hσ, hτ, hsim⟩ := Machine.run_simulates (R := Simulates)
    simulates_step ops (fun _ => SetOfMonads.empty) (fun _ => empty)
    (fun _ => ⟨SetOfMonads.repInv_empty, rfl⟩) (hadm ops _ hfed)
  refine ⟨σ, τ, hσ, hτ, ?_, ?_⟩
  · intro x
    rw [(hsim x).2]
    exact agrees_ofSetOfMonads (hsim x).1
  · intro x y
    obtain ⟨r, hr, hiff⟩ := overlap_spec (hsim y).1 (σ x)
    rw [(hsim y).2, hr, eq_of_iff_true hiff (SetOfMonads.overlap_iff (hsim x).1 (hsim y).1)]

/-- Two fragmented pairs, one of which has a hole cut into it. -/
theorem run_agrees_example :
    ∃ σ τ, Machine.run PairOp.plain (fun _ => SetOfMonads.empty)
        [.add 0 1 9, .add 1 3 4, .difference 0 1, .add 1 20 30, .intersect 1 0] = some σ ∧
      Machine.run PairOp.fast (fun _ => empty)
        [.add 0 1 9, .add 1 3 4, .difference 0 1, .add 1 20 30, .intersect 1 0] = some τ ∧
      (∀ x, Agrees (σ x) (τ x)) ∧
      ∀ x y, overlap (σ x) (τ y) = some (SetOfMonads.overlap (σ x) (σ y)) :=
  run_agrees _ (by decide)

end FastSetOfMonads

/-! ## 5. When the predicates of `SetOfMonads` decide their relations -/

namespace SetOfMonads

/-- `part_of` for a fast set decides inclusion, of the empty set too. -/
theorem partOfFast_spec {s other : SetOfMonads} (h : s.RepInv) (ho : other.RepInv) :
    ∃ r, s.partOfFast (FastSetOfMonads.ofSetOfMonads other) = some r ∧
      (r = true ↔ s.mem ⊆ other.mem) := by
  unfold partOfFast
  rw [FastSetOfMonads.hasOnlyOneMSE_ofSetOfMonads ho]
  show ∃ r, (if s.mFirst ≥ other.mFirst ∧ s.mLast ≤ other.mLast then _ else _) = some r ∧ _
  by_cases hb : s.mFirst ≥ other.mFirst ∧ s.mLast ≤ other.mLast
  · rw [if_pos hb]
    split
    · rename_i hone
      refine ⟨true, rfl, iff_of_true rfl ?_⟩
      rw [ho.mem_of_one hone]
      intro m hm
      have hne : s.monadMs ≠ [] := by
        intro hnil
        rw [mem_eq_empty.mpr hnil] at hm
        exact hm
      have h₁ := (h.isLeast_first hne).2 hm
      have h₂ := (h.isGreatest_last hne).2 hm
      exact ⟨by omega, by omega⟩
    · exact FastSetOfMonads.subsumesAll_spec ho s.monadMs
  · rw [if_neg hb]
    refine ⟨false, rfl, iff_of_false (by simp) (h.not_subset_of_bounds ho ?_ hb)⟩
    intro hnil
    have h₁ := ho.bounds_inRange
    have h₂ := h.empty_eq hnil
    omega

/-- **When the predicates decide their relations.**  On sets with the invariant, `part_of`,
`overlap`, `starts_in` and `hasMonadsInRange` all decide what they are documented to decide,
and both overloads of `part_of` agree, exactly if the set they are called on has elements, or
the other set is a single range that ends before `MAX_MONAD`. -/
theorem relations_decided_iff {A B : SetOfMonads} (hA : A.RepInv) (hB : B.RepInv) :
    ((∃ r, A.partOf B = some r ∧ (r = true ↔ A.mem ⊆ B.mem)) ∧
      (overlap A B = true ↔ (A.mem ∩ B.mem).Nonempty) ∧
      (A.startsIn B = true ↔ ∃ m, IsLeast A.mem m ∧ m ∈ B.mem) ∧
      (∀ f l, f ≤ l → ∃ r, A.hasMonadsInRange f l = some r ∧
        (r = true ↔ (A.mem ∩ Set.Icc f l).Nonempty)) ∧
      (∀ F : FastSetOfMonads, F.RepInv → F.mem = B.mem → A.partOfFast F = A.partOf B)) ↔
    A.monadMs ≠ [] ∨ (B.hasOnlyOneMSE = true ∧ maxMonad ∉ B.mem) := by
  have hfast : ∀ r, A.partOf B = some r → (r = true ↔ A.mem ⊆ B.mem) →
      ∀ F : FastSetOfMonads, F.RepInv → F.mem = B.mem → A.partOfFast F = A.partOf B := by
    intro r hr hiff F hF hmem
    have heq : F.asSet = B := hF.set.ext hB hmem
    obtain ⟨r', hr', hiff'⟩ := partOfFast_spec hA hB
    rw [hF.eq_ofSetOfMonads, heq, hr, hr', FastSetOfMonads.eq_of_iff_true hiff' hiff]
  constructor
  · rintro ⟨⟨r, hr, -⟩, -, hstarts, -, -⟩
    by_cases hnil : A.monadMs = []
    · right
      rw [partOf_of_empty hA hB hnil] at hr
      refine ⟨?_, fun hmax => ?_⟩
      · by_contra hone
        rw [if_neg hone] at hr
        exact absurd hr (by simp)
      · obtain ⟨m, hm, -⟩ := hstarts.mp ((startsIn_of_empty hA hB hnil).mpr hmax)
        rw [mem_eq_empty.mpr hnil] at hm
        exact hm.1
    · exact Or.inl hnil
  · rintro hcond
    by_cases hnil : A.monadMs = []
    · obtain ⟨hone, hmax⟩ := hcond.resolve_left (fun hne => hne hnil)
      have hpart : A.partOf B = some true := by
        rw [partOf_of_empty hA hB hnil, if_pos hone]
      have hiff : true = true ↔ A.mem ⊆ B.mem := by
        rw [mem_eq_empty.mpr hnil]
        simp
      refine ⟨⟨true, hpart, hiff⟩, overlap_iff hA hB, ?_,
        fun f l hfl => hasMonadsInRange_iff hA hfl, hfast true hpart hiff⟩
      refine iff_of_false (fun hst => hmax ((startsIn_of_empty hA hB hnil).mp hst)) ?_
      rintro ⟨m, hm, -⟩
      rw [mem_eq_empty.mpr hnil] at hm
      exact hm.1
    · obtain ⟨r, hr, hiff⟩ := partOf_of_nonempty hA hB hnil
      exact ⟨⟨r, hr, hiff⟩, overlap_iff hA hB, startsIn_of_nonempty hA hB hnil,
        fun f l hfl => hasMonadsInRange_iff hA hfl, hfast r hr hiff⟩

/-- The predicates on `{2-3}` and `{1-5}`. -/
theorem relations_decided_example :
    ((∃ r, (setBounds [⟨2, 3, by decide⟩]).partOf (setBounds [⟨1, 5, by decide⟩]) = some r ∧
        (r = true ↔ (setBounds [⟨2, 3, by decide⟩]).mem ⊆ (setBounds [⟨1, 5, by decide⟩]).mem))) :=
  ((relations_decided_iff (A := setBounds [⟨2, 3, by decide⟩])
    (B := setBounds [⟨1, 5, by decide⟩]) (by decide) (by decide)).mpr
      (Or.inl (by decide))).1

/-- **The empty set reaches the read past the end, and `starts_in` answers wrongly for it**:
`part_of` from the empty set to itself reads an element that is not there, and the empty set is
said to start in a set that holds `MAX_MONAD`. -/
theorem empty_breaks_relations :
    empty.RepInv ∧ empty.partOf empty = none ∧
      (setBounds [⟨maxMonad, maxMonad, le_refl _⟩]).RepInv ∧
      empty.startsIn (setBounds [⟨maxMonad, maxMonad, le_refl _⟩]) = true ∧
      ¬ ∃ m, IsLeast empty.mem m ∧ m ∈ (setBounds [⟨maxMonad, maxMonad, le_refl _⟩]).mem := by
  refine ⟨repInv_empty, rfl, by decide, by decide, ?_⟩
  rintro ⟨m, hm, -⟩
  rw [mem_empty] at hm
  exact hm.1

end SetOfMonads

end Emdros
