/-
# Sets that reach above `MAX_MONAD` (`monads.cpp`)

Nothing in `SetOfMonads` compares a monad with `MAX_MONAD`, and a statement can list greater
numbers.  What the class relies on is less than that all monads are in range.  An empty set has
`MAX_MONAD` for its `m_first`, and `addMSE` takes the lesser of `m_first` and the first monad of
what it adds.  So a set that is built from nothing has the lesser of `MAX_MONAD` and its first monad
there (`Clipped`), and this is right exactly if not all of its monads lie above
(`Clipped.canonical_iff`).

The list is right all the same, but for one branch of `addMSE`: an element that ends just before
`m_first` is melted into the first element of the list, with all that lies between.  In a set that
lies above `MAX_MONAD` this happens to an element that ends at `MAX_MONAD - 1`, and what is added
with it is the stretch from `MAX_MONAD` to the set (`bridge`).  `Clipped.addMSE_spec` says that
nothing else goes wrong.

A set whose bounds are right stays so, whatever is added to it (`Canonical.addMSE_of_ne_nil`), and
`removeMSE` sets them from the list (`Canonical.difference_spec`).  So the operations on two sets
with right bounds always have the right monads, and section 3 says when the bounds of the result are
right.
-/
import Emdros.Monads.SetAlgebra

namespace Emdros

open SpanList

namespace SetOfMonads

/-! ## 1. Adding an element -/

/-- The invariant but for `m_first`, which `MAX_MONAD` may come before. -/
structure Clipped (s : SetOfMonads) : Prop where
  sep : Sep s.monadMs
  first_eq : ∀ front, s.monadMs.head? = some front → s.mFirst = min maxMonad front.firstM
  last_eq : ∀ back, s.monadMs.getLast? = some back → s.mLast = back.lastM
  empty_eq : s.monadMs = [] → s.mFirst = maxMonad ∧ s.mLast = 0

theorem clipped_empty : Clipped empty where
  sep := sep_nil
  first_eq := by simp [empty]
  last_eq := by simp [empty]
  empty_eq := fun _ => ⟨rfl, rfl⟩

/-- The stretch that `addMSE` adds beside the element: from `MAX_MONAD` to a set that lies above,
where the element ends before `MAX_MONAD`. -/
def bridge (s : SetOfMonads) (mse : MonadSetElement) : Set Int :=
  {m | s.monadMs ≠ [] ∧ (∀ x ∈ s.mem, maxMonad < x) ∧ mse.lastM = maxMonad - 1 ∧ maxMonad ≤ m ∧
    ∀ x ∈ s.mem, m < x}

/-- What a set that is built from nothing must have for its bounds to be right. -/
def Low (A : Set Int) : Prop := A = ∅ ∨ ∃ m ∈ A, m ≤ maxMonad

section Clipped

variable {s : SetOfMonads}

/-- The bounds are right if some monad is not above `MAX_MONAD`. -/
theorem Clipped.canonical_iff (h : s.Clipped) :
    s.Canonical ↔ Low s.mem := by
  constructor
  · intro hcanonical
    cases hl : s.monadMs with
    | nil => exact .inl (mem_eq_empty.mpr hl)
    | cons front rest =>
      have hfront : s.monadMs.head? = some front := by rw [hl, List.head?_cons]
      have hfirst := hcanonical.first_eq front hfront
      rw [h.first_eq front hfront] at hfirst
      refine .inr ⟨front.firstM, ?_, by omega⟩
      rw [mem, hl]
      exact lo_mem_cover List.mem_cons_self
  · intro hmem
    refine ⟨h.sep, fun front hfront => ?_, h.last_eq, h.empty_eq⟩
    obtain ⟨rest, hl⟩ := List.head?_eq_some_iff.mp hfront
    have hsep := h.sep
    rw [hl] at hsep
    rcases hmem with hnone | ⟨m, hm, hle⟩
    · rw [mem_eq_empty.mp hnone] at hl
      cases hl
    · rw [mem, hl] at hm
      have hleast := hsep.isLeast_head.2 hm
      rw [h.first_eq front hfront]
      simp only [MonadSetElement.spanned_lo] at hleast
      omega

/-- **The list after `addMSE`.** -/
theorem Clipped.addMSEList_spec (h : s.Clipped) (mse : MonadSetElement) :
    Sep (s.addMSEList mse) ∧
      cover (s.addMSEList mse) = s.mem ∪ points mse ∪ s.bridge mse := by
  by_cases hin : Low s.mem
  · -- The bounds are right.
    obtain ⟨hsep, hcov⟩ := SetOfMonads.addMSEList_spec (h.canonical_iff.mpr hin) mse
    have hnone : s.bridge mse = ∅ := by
      refine Set.eq_empty_of_forall_notMem ?_
      rintro m ⟨hne, habove, -⟩
      rcases hin with hnil | ⟨x, hx, hle⟩
      · exact hne (mem_eq_empty.mp hnil)
      · exact absurd (habove x hx) (not_lt.mpr hle)
    exact ⟨hsep, by rw [hcov, hnone, Set.union_empty]⟩
  unfold Low at hin
  push Not at hin
  obtain ⟨hne, habove⟩ := hin
  have hne' : s.monadMs ≠ [] := fun hnil => by
    rw [mem_eq_empty.mpr hnil] at hne
    exact Set.not_nonempty_empty hne
  obtain ⟨front, rest, hl⟩ := List.exists_cons_of_ne_nil hne'
  have hsep := h.sep
  rw [hl] at hsep
  have hleast : IsLeast s.mem front.firstM := by
    rw [mem, hl]
    exact hsep.isLeast_head
  have hfront : maxMonad < front.firstM := habove _ hleast.1
  have hfirst : s.mFirst = maxMonad := by
    rw [h.first_eq front (by rw [hl, List.head?_cons])]
    omega
  obtain ⟨back, hback⟩ : ∃ back, s.monadMs.getLast? = some back := by
    rw [hl]
    exact ⟨_, List.getLast?_eq_some_getLast (List.cons_ne_nil _ _)⟩
  have hlast := h.last_eq back hback
  have hbackmem : back.firstM ∈ s.mem := lo_mem_cover (List.mem_of_getLast? hback)
  have hbackle := back.first_le_last
  have hbackabove := habove _ hbackmem
  have hmse := mse.first_le_last
  by_cases hend : mse.lastM = maxMonad - 1
  · -- The branch that melts the element into the first one.
    have hlist : s.addMSEList mse = front.subsume mse :: rest := by
      rw [addMSEList, hback]
      simp only
      rw [if_neg (by omega), if_neg (by omega), if_pos (by omega), hl, List.modifyHead_cons]
    rw [hlist]
    refine ⟨sep_extend_front hsep (by omega), ?_⟩
    rw [mem, hl]
    ext m
    have hbridge : m ∈ s.bridge mse ↔ maxMonad ≤ m ∧ m < front.firstM := by
      constructor
      · rintro ⟨-, -, -, hge, hlt⟩
        exact ⟨hge, hlt _ hleast.1⟩
      · rintro ⟨hge, hlt⟩
        exact ⟨hne', fun x hx => habove x hx, hend, hge, fun x hx => lt_of_lt_of_le hlt
          (hleast.2 hx)⟩
    have hf := front.first_le_last
    simp only [Set.mem_union, hbridge, mem_cover_cons, mem_points, MonadSetElement.spanned_lo,
      MonadSetElement.spanned_hi, MonadSetElement.subsume_firstM, MonadSetElement.subsume_lastM]
    by_cases hrest : m ∈ cover rest
    · exact iff_of_true (.inr hrest) (.inl (.inl (.inr hrest)))
    · simp only [hrest, or_false]
      omega
  · -- With the right `m_first` the list would be the same, or the loop makes it.
    have hnone : s.bridge mse = ∅ := by
      refine Set.eq_empty_of_forall_notMem ?_
      rintro m ⟨-, -, hlast', -⟩
      exact hend hlast'
    rw [hnone, Set.union_empty]
    have hcanonical : Canonical { s with mFirst := front.firstM } := by
      refine ⟨h.sep, fun f hf => ?_, h.last_eq, fun hnil => absurd hnil hne'⟩
      rw [hl, List.head?_cons, Option.some.injEq] at hf
      rw [hf]
    by_cases hbefore : mse.lastM = front.firstM - 1 ∧ ¬ mse.firstM > s.mLast + 1 ∧
        ¬ mse.firstM ≥ back.firstM
    · have hlist : s.addMSEList mse = addMSELoop mse s.monadMs := by
        rw [addMSEList, hback]
        simp only
        rw [if_neg hbefore.2.1, if_neg hbefore.2.2, if_neg (by omega)]
      rw [hlist]
      exact ⟨sep_addMSELoop _ mse h.sep, cover_addMSELoop _ mse⟩
    · have hlist : s.addMSEList mse = addMSEList { s with mFirst := front.firstM } mse := by
        rw [addMSEList, addMSEList, hback]
        simp only
        split
        · rfl
        · split
          · rfl
          · rw [if_neg (by omega), if_neg (by omega)]
      rw [hlist]
      exact SetOfMonads.addMSEList_spec hcanonical mse

/-- **`addMSE` adds the monads of the element**, and those of the bridge. -/
theorem Clipped.addMSE_spec (h : s.Clipped) {mse : MonadSetElement} (hlast : 0 ≤ mse.lastM) :
    (s.addMSE mse).Clipped ∧ (s.addMSE mse).mem = s.mem ∪ points mse ∪ s.bridge mse := by
  obtain ⟨hsep, hcov⟩ := h.addMSEList_spec mse
  have hmse := mse.first_le_last
  have hfirstmem : mse.firstM ∈ cover (s.addMSEList mse) := by
    rw [hcov]
    exact .inl (.inr ⟨le_refl _, hmse⟩)
  have hlastmem : mse.lastM ∈ cover (s.addMSEList mse) := by
    rw [hcov]
    exact .inl (.inr ⟨hmse, le_refl _⟩)
  refine ⟨⟨hsep, fun front hfront => ?_, fun back hback => ?_, fun hnil => ?_⟩, hcov⟩
  · obtain ⟨rest, hl⟩ := List.head?_eq_some_iff.mp hfront
    change s.addMSEList mse = front :: rest at hl
    change (if mse.firstM < s.mFirst then mse.firstM else s.mFirst) = _
    rw [hl] at hsep
    have hleast := hsep.isLeast_head
    rw [← hl] at hleast
    have hle := hleast.2 hfirstmem
    have hin := hleast.1
    rw [hcov] at hin
    simp only [MonadSetElement.spanned_lo] at hle hin
    cases hs : s.monadMs with
    | nil =>
      obtain ⟨hfirst, -⟩ := h.empty_eq hs
      rw [hfirst]
      rcases hin with (hin | hin) | ⟨hne, -⟩
      · rw [mem_eq_empty.mpr hs] at hin
        exact hin.elim
      · simp only [mem_points, MonadSetElement.spanned_lo] at hin
        split <;> omega
      · exact absurd hs hne
    | cons f r =>
      have hfirst := h.first_eq f (by rw [hs, List.head?_cons])
      have hsep' := h.sep
      rw [hs] at hsep'
      have hleast' : IsLeast s.mem f.firstM := by
        rw [mem, hs]
        exact hsep'.isLeast_head
      have hle' : front.firstM ≤ f.firstM := by
        refine hleast.2 ?_
        rw [hcov]
        exact .inl (.inl hleast'.1)
      rw [hfirst]
      rcases hin with (hin | hin) | ⟨-, -, -, hge, -⟩
      · have := hleast'.2 hin
        split <;> omega
      · simp only [mem_points, MonadSetElement.spanned_lo] at hin
        split <;> omega
      · split <;> omega
  · obtain ⟨init, hl⟩ := List.getLast?_eq_some_iff.mp hback
    change s.addMSEList mse = init ++ [back] at hl
    change (if mse.lastM > s.mLast then mse.lastM else s.mLast) = _
    rw [hl] at hsep
    have hgreatest := hsep.isGreatest_last
    rw [← hl] at hgreatest
    have hle := hgreatest.2 hlastmem
    have hin := hgreatest.1
    rw [hcov] at hin
    simp only [MonadSetElement.spanned_hi] at hle hin
    rcases List.eq_nil_or_concat s.monadMs with hs | ⟨i, b, hs⟩
    · obtain ⟨-, hlast'⟩ := h.empty_eq hs
      rw [hlast']
      rcases hin with (hin | hin) | ⟨hne, -⟩
      · rw [mem_eq_empty.mpr hs] at hin
        exact hin.elim
      · simp only [mem_points, MonadSetElement.spanned_hi] at hin
        split <;> omega
      · exact absurd hs hne
    · rw [List.concat_eq_append] at hs
      have hlast' := h.last_eq b (by rw [hs]; simp)
      have hsep' := h.sep
      rw [hs] at hsep'
      have hgreatest' : IsGreatest s.mem b.lastM := by
        rw [mem, hs]
        exact hsep'.isGreatest_last
      have hle' : b.lastM ≤ back.lastM := by
        refine hgreatest.2 ?_
        rw [hcov]
        exact .inl (.inl hgreatest'.1)
      rw [hlast']
      rcases hin with (hin | hin) | ⟨-, -, -, -, hlt⟩
      · have := hgreatest'.2 hin
        split <;> omega
      · simp only [mem_points, MonadSetElement.spanned_hi] at hin
        split <;> omega
      · have := hlt _ hgreatest'.1
        split <;> omega
  · change s.addMSEList mse = [] at hnil
    rw [hnil, cover_nil] at hfirstmem
    exact hfirstmem.elim

end Clipped

/-! ## 2. Loops that add elements -/

/-- Elements that are added in the order of their first monads add nothing else. -/
theorem foldl_addMSE_clipped (l : List MonadSetElement)
    (hasc : l.Pairwise fun a b => a.firstM < b.firstM) (hpos : ∀ e ∈ l, 0 ≤ e.lastM) :
    (l.foldl addMSE empty).Clipped ∧ (l.foldl addMSE empty).mem = cover l := by
  induction l using List.reverseRecOn with
  | nil => exact ⟨clipped_empty, by rw [List.foldl_nil, mem_empty, cover_nil]⟩
  | append_singleton l e ih =>
    obtain ⟨hinit, -, hlt⟩ := List.pairwise_append.mp hasc
    obtain ⟨hclipped, hmem⟩ := ih hinit fun a ha => hpos a (List.mem_append_left _ ha)
    obtain ⟨hclipped', hmem'⟩ := hclipped.addMSE_spec (hpos e (by simp))
    rw [List.foldl_append, List.foldl_cons, List.foldl_nil]
    have hnone : (l.foldl addMSE empty).bridge e = ∅ := by
      refine Set.eq_empty_of_forall_notMem ?_
      rintro m ⟨hne, habove, hend, -⟩
      -- What has been added before starts before the element.
      obtain ⟨a, ha⟩ : ∃ a, a ∈ l := by
        refine List.exists_mem_of_ne_nil l fun hnil => hne ?_
        rw [hnil]
        rfl
      have hin := habove a.firstM (by rw [hmem]; exact lo_mem_cover ha)
      have hlt' := hlt a ha e (List.mem_singleton_self e)
      have he := e.first_le_last
      omega
    refine ⟨hclipped', ?_⟩
    rw [hmem', hmem, hnone, Set.union_empty, cover_append, cover_cons, cover_nil, Set.union_empty]

theorem pairwise_firstM_of_sep {l : List MonadSetElement} (hsep : Sep l) :
    l.Pairwise fun a b => a.firstM < b.firstM := by
  refine List.Pairwise.imp (fun {a b} hab => ?_) hsep
  have ha := a.first_le_last
  simp only [MonadSetElement.spanned_lo, MonadSetElement.spanned_hi] at hab
  omega

/-- A set whose bounds are right stays so, and gets the monads of the elements. -/
theorem Canonical.foldl_addMSE_of_ne_nil (l : List MonadSetElement) :
    ∀ {s : SetOfMonads}, s.Canonical → s.monadMs ≠ [] →
      (l.foldl addMSE s).Canonical ∧ (l.foldl addMSE s).mem = s.mem ∪ cover l := by
  induction l with
  | nil => exact fun hs _ => ⟨hs, by simp⟩
  | cons e l ih =>
    intro s hs hne
    obtain ⟨hone, hmem⟩ := hs.addMSE_of_ne_nil hne e
    have hne' : (s.addMSE e).monadMs ≠ [] := by
      intro hnil
      have hin : e.firstM ∈ (s.addMSE e).mem := by
        rw [hmem]
        exact .inr ⟨le_refl _, e.first_le_last⟩
      rw [mem_eq_empty.mpr hnil] at hin
      exact hin
    obtain ⟨hall, hmem'⟩ := ih hone hne'
    refine ⟨hall, ?_⟩
    rw [List.foldl_cons, hmem', hmem, cover_cons, Set.union_assoc]

/-! ## 3. Operations on sets whose bounds are right -/

section Operations

variable {s other : SetOfMonads}

theorem Canonical.eq_empty (h : s.Canonical) (hnil : s.monadMs = []) : s = empty := by
  obtain ⟨hfirst, hlast⟩ := h.empty_eq hnil
  obtain ⟨l, f, g⟩ := s
  simp only at hnil hfirst hlast
  rw [hnil, hfirst, hlast]
  rfl

/-- **`unionWith`.**  An empty set takes the elements of the other one by one. -/
theorem Canonical.unionWith_iff (h : s.Canonical) (ho : other.Canonical)
    (hpos : ∀ m ∈ other.mem, 0 ≤ m) :
    (s.unionWith other).mem = s.mem ∪ other.mem ∧
      ((s.unionWith other).Canonical ↔
        s.mem ≠ ∅ ∨ Low other.mem) := by
  by_cases hnil : s.monadMs = []
  · have hs := h.eq_empty hnil
    subst hs
    obtain ⟨hclipped, hmem⟩ := foldl_addMSE_clipped other.monadMs (pairwise_firstM_of_sep ho.sep)
      fun e he => hpos _ (hi_mem_cover he)
    have hmem' : (empty.unionWith other).mem = other.mem := hmem
    refine ⟨by rw [hmem', mem_empty, Set.empty_union], ?_⟩
    rw [unionWith, hclipped.canonical_iff, hmem]
    have hnone : ¬ empty.mem ≠ ∅ := fun hne => hne mem_empty
    exact ⟨fun hin => .inr hin, fun hin => hin.resolve_left hnone⟩
  · obtain ⟨hall, hmem⟩ := Canonical.foldl_addMSE_of_ne_nil other.monadMs h hnil
    exact ⟨hmem, iff_of_true hall (.inl fun hempty => hnil (mem_eq_empty.mp hempty))⟩

/-- What `intersect` adds starts no earlier than the elements of both sets. -/
theorem exists_le_of_mem_intersectPieces {r : MonadSetElement} : ∀ {as bs : List MonadSetElement},
    r ∈ intersectPieces as bs →
      (∃ a ∈ as, a.firstM ≤ r.firstM) ∧ ∃ b ∈ bs, b.firstM ≤ r.firstM := by
  intro as bs
  have hcons : ∀ {P : MonadSetElement → Prop} {x : MonadSetElement} {l : List MonadSetElement},
      (∃ y ∈ l, P y) → ∃ y ∈ x :: l, P y := fun ⟨y, hy, hP⟩ => ⟨y, List.mem_cons_of_mem _ hy, hP⟩
  induction as, bs using intersectPieces.induct with
  | case1 a as b bs h₁ ih =>
    intro hr
    rw [intersectPieces, dif_pos h₁] at hr
    exact ⟨hcons (ih hr).1, (ih hr).2⟩
  | case2 a as b bs h₁ h₅ ih =>
    intro hr
    rw [intersectPieces, dif_neg h₁, dif_pos h₅] at hr
    exact ⟨(ih hr).1, hcons (ih hr).2⟩
  | case3 a as b bs h₁ h₅ h₃ ih =>
    intro hr
    rw [intersectPieces, dif_neg h₁, dif_neg h₅, if_pos h₃] at hr
    rcases List.mem_cons.mp hr with rfl | hr
    · exact ⟨⟨r, List.mem_cons_self, le_refl _⟩, b, List.mem_cons_self, h₃.1⟩
    · exact ⟨hcons (ih hr).1, (ih hr).2⟩
  | case4 a as b bs h₁ h₅ h₃ h₆ ih =>
    intro hr
    rw [intersectPieces, dif_neg h₁, dif_neg h₅, if_neg h₃, if_pos h₆] at hr
    rcases List.mem_cons.mp hr with rfl | hr
    · exact ⟨⟨a, List.mem_cons_self, h₆.1.le⟩, r, List.mem_cons_self, le_refl _⟩
    · exact ⟨(ih hr).1, hcons (ih hr).2⟩
  | case5 a as b bs h₁ h₅ h₃ h₆ h₂ ih =>
    intro hr
    rw [intersectPieces, dif_neg h₁, dif_neg h₅, if_neg h₃, if_neg h₆, if_pos h₂] at hr
    rcases List.mem_cons.mp hr with rfl | hr
    · exact ⟨⟨a, List.mem_cons_self, h₂.le⟩, b, List.mem_cons_self, le_refl _⟩
    · exact ⟨hcons (ih hr).1, (ih hr).2⟩
  | case6 a as b bs h₁ h₅ h₃ h₆ h₂ ih =>
    intro hr
    rw [intersectPieces, dif_neg h₁, dif_neg h₅, if_neg h₃, if_neg h₆, if_neg h₂] at hr
    rcases List.mem_cons.mp hr with rfl | hr
    · exact ⟨⟨a, List.mem_cons_self, le_refl _⟩, b, List.mem_cons_self, not_lt.mp h₂⟩
    · exact ⟨(ih hr).1, hcons (ih hr).2⟩
  | case7 as bs h =>
    intro hr
    cases as with
    | nil => simp [intersectPieces] at hr
    | cons a as =>
      cases bs with
      | nil => simp [intersectPieces] at hr
      | cons b bs => exact (h a as b bs rfl rfl).elim

/-- The pieces come in the order of their first monads. -/
theorem pairwise_intersectPieces : ∀ {as bs : List MonadSetElement}, Sep as → Sep bs →
    (intersectPieces as bs).Pairwise fun a b => a.firstM < b.firstM := by
  intro as bs
  -- A piece starts no later than the element that is left behind ends.
  have hpast : ∀ {x r : MonadSetElement} {l : List MonadSetElement}, Sep (x :: l) →
      (∃ y ∈ l, y.firstM ≤ r.firstM) → x.lastM < r.firstM := by
    rintro x r l hsep ⟨y, hy, hle⟩
    have hlt := (sep_cons.mp hsep).1 y hy
    simp only [MonadSetElement.spanned_lo, MonadSetElement.spanned_hi] at hlt
    omega
  induction as, bs using intersectPieces.induct with
  | case1 a as b bs h₁ ih =>
    intro ha hb
    rw [intersectPieces, dif_pos h₁]
    exact ih (sep_cons.mp ha).2 hb
  | case2 a as b bs h₁ h₅ ih =>
    intro ha hb
    rw [intersectPieces, dif_neg h₁, dif_pos h₅]
    exact ih ha (sep_cons.mp hb).2
  | case3 a as b bs h₁ h₅ h₃ ih =>
    intro ha hb
    rw [intersectPieces, dif_neg h₁, dif_neg h₅, if_pos h₃]
    refine List.pairwise_cons.mpr ⟨fun r hr => ?_, ih (sep_cons.mp ha).2 hb⟩
    have := hpast ha (exists_le_of_mem_intersectPieces hr).1
    have := a.first_le_last
    omega
  | case4 a as b bs h₁ h₅ h₃ h₆ ih =>
    intro ha hb
    rw [intersectPieces, dif_neg h₁, dif_neg h₅, if_neg h₃, if_pos h₆]
    refine List.pairwise_cons.mpr ⟨fun r hr => ?_, ih ha (sep_cons.mp hb).2⟩
    have := hpast hb (exists_le_of_mem_intersectPieces hr).2
    have := b.first_le_last
    omega
  | case5 a as b bs h₁ h₅ h₃ h₆ h₂ ih =>
    intro ha hb
    rw [intersectPieces, dif_neg h₁, dif_neg h₅, if_neg h₃, if_neg h₆, if_pos h₂]
    refine List.pairwise_cons.mpr ⟨fun r hr => ?_, ih (sep_cons.mp ha).2 hb⟩
    have := hpast ha (exists_le_of_mem_intersectPieces hr).1
    simp only
    omega
  | case6 a as b bs h₁ h₅ h₃ h₆ h₂ ih =>
    intro ha hb
    rw [intersectPieces, dif_neg h₁, dif_neg h₅, if_neg h₃, if_neg h₆, if_neg h₂]
    refine List.pairwise_cons.mpr ⟨fun r hr => ?_, ih ha (sep_cons.mp hb).2⟩
    have := hpast hb (exists_le_of_mem_intersectPieces hr).2
    simp only
    omega
  | case7 as bs h =>
    intro _ _
    cases as with
    | nil => simp [intersectPieces]
    | cons a as =>
      cases bs with
      | nil => simp [intersectPieces]
      | cons b bs => exact (h a as b bs rfl rfl).elim

/-- **`intersect`**, which builds its result from nothing. -/
theorem Canonical.intersect_iff (h : s.Canonical) (ho : other.Canonical)
    (hpos : ∀ m ∈ s.mem, 0 ≤ m) :
    (intersect s other).mem = s.mem ∩ other.mem ∧
      ((intersect s other).Canonical ↔ Low (s.mem ∩ other.mem)) := by
  unfold intersect
  split
  · next hempty =>
    have hnone : s.mem ∩ other.mem = ∅ := by
      rcases Bool.or_eq_true _ _ ▸ hempty with h | h
      · rw [mem_eq_empty.mpr (isEmpty_iff.mp h), Set.empty_inter]
      · rw [mem_eq_empty.mpr (isEmpty_iff.mp h), Set.inter_empty]
    exact ⟨by rw [mem_empty, hnone], iff_of_true repInv_empty.canonical (.inl hnone)⟩
  · have hcov := cover_intersectPieces _ _ h.sep ho.sep
    obtain ⟨hclipped, hmem⟩ := foldl_addMSE_clipped _ (pairwise_intersectPieces h.sep ho.sep)
      fun e he => by
        have hin := hi_mem_cover he
        rw [hcov] at hin
        exact hpos _ hin.1
    rw [hcov] at hmem
    refine ⟨hmem, ?_⟩
    rw [hclipped.canonical_iff, hmem]
    rfl

end Operations

end SetOfMonads

end Emdros
