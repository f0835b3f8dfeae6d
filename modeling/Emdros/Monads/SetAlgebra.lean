/-
# `SetOfMonads` is a set algebra

What a `SetOfMonads` stands for is the set `mem s` of monads its elements cover.  Under the
representation invariant `RepInv`, which is the comment above the class made precise and
completed by what the methods assume of the two cached bounds:

* every mutating operation has the effect on `mem` that its name says and re-establishes the
  invariant (`addMSE_spec`, `unionWith_spec`, `removeRange_spec`, `difference_spec`,
  `intersect_spec`);
* the representation is canonical, so that `operator==`, which compares representations,
  decides equality of the sets (`equal_iff`).
-/
import Emdros.Monads.SetOfMonads

namespace Emdros

open SpanList

namespace SetOfMonads

/-! ## 1. Meaning and invariant -/

/-- The monads of a set. -/
def mem (s : SetOfMonads) : Set Int := cover s.monadMs

/-- A monad set element inside `0 .. MAX_MONAD`. -/
def InRange (e : MonadSetElement) : Prop := 0 ≤ e.firstM ∧ e.lastM ≤ maxMonad

/-- **The representation invariant.**  The elements are ascending with at least one missing
monad between any two; the cached bounds are the first monad of the first element and the
last monad of the last one, or `MAX_MONAD` and `0` when there are no elements. -/
structure RepInv (s : SetOfMonads) : Prop where
  sep : Sep s.monadMs
  inRange : ∀ e ∈ s.monadMs, InRange e
  first_eq : ∀ front, s.monadMs.head? = some front → s.mFirst = front.firstM
  last_eq : ∀ back, s.monadMs.getLast? = some back → s.mLast = back.lastM
  empty_eq : s.monadMs = [] → s.mFirst = maxMonad ∧ s.mLast = 0

theorem isEmpty_iff {s : SetOfMonads} : s.isEmpty = true ↔ s.monadMs = [] := by
  simp [isEmpty]

/-- The part of the invariant that says nothing about where the monads lie. -/
structure Canonical (s : SetOfMonads) : Prop where
  sep : Sep s.monadMs
  first_eq : ∀ front, s.monadMs.head? = some front → s.mFirst = front.firstM
  last_eq : ∀ back, s.monadMs.getLast? = some back → s.mLast = back.lastM
  empty_eq : s.monadMs = [] → s.mFirst = maxMonad ∧ s.mLast = 0

theorem RepInv.canonical {s : SetOfMonads} (h : s.RepInv) : s.Canonical :=
  ⟨h.sep, h.first_eq, h.last_eq, h.empty_eq⟩

theorem repInv_empty : RepInv empty where
  sep := sep_nil
  inRange := by simp [empty]
  first_eq := by simp [empty]
  last_eq := by simp [empty]
  empty_eq := fun _ => ⟨rfl, rfl⟩

@[simp] theorem mem_empty : empty.mem = ∅ := cover_nil

theorem mem_eq_empty {s : SetOfMonads} : s.mem = ∅ ↔ s.monadMs = [] := cover_eq_empty

/-- The cached lower bound is the least monad. -/
theorem Canonical.isLeast_first {s : SetOfMonads} (h : s.Canonical) (hne : s.monadMs ≠ []) :
    IsLeast s.mem s.mFirst := by
  obtain ⟨front, rest, hl⟩ := List.exists_cons_of_ne_nil hne
  have hsep := h.sep
  rw [hl] at hsep
  rw [h.first_eq front (by rw [hl]; rfl), mem, hl]
  exact hsep.isLeast_head

/-- The cached upper bound is the greatest monad. -/
theorem Canonical.isGreatest_last {s : SetOfMonads} (h : s.Canonical) (hne : s.monadMs ≠ []) :
    IsGreatest s.mem s.mLast := by
  obtain ⟨init, back, hl⟩ := (List.eq_nil_or_concat s.monadMs).resolve_left hne
  rw [List.concat_eq_append] at hl
  have hsep := h.sep
  rw [hl] at hsep
  rw [h.last_eq back (by rw [hl]; simp), mem, hl]
  exact hsep.isGreatest_last

theorem RepInv.isLeast_first {s : SetOfMonads} (h : s.RepInv) (hne : s.monadMs ≠ []) :
    IsLeast s.mem s.mFirst := h.canonical.isLeast_first hne

theorem RepInv.isGreatest_last {s : SetOfMonads} (h : s.RepInv) (hne : s.monadMs ≠ []) :
    IsGreatest s.mem s.mLast := h.canonical.isGreatest_last hne

/-- An invariant set is known by its elements: the bounds are determined. -/
theorem RepInv.eq_setBounds {s : SetOfMonads} (h : s.RepInv) : s = setBounds s.monadMs := by
  obtain ⟨l, f, g⟩ := s
  cases l with
  | nil =>
    obtain ⟨hf, hg⟩ := h.empty_eq rfl
    simp only at hf hg
    simp [setBounds, hf, hg]
  | cons front rest =>
    have hf := h.first_eq front rfl
    obtain ⟨back, hb⟩ : ∃ back, (front :: rest).getLast? = some back := by
      simp [List.getLast?_cons]
    have hg := h.last_eq back hb
    simp only at hf hg
    simp [setBounds, hf, hg, hb]

/-- The bounds that are set from the list are right. -/
theorem canonical_setBounds {l : List MonadSetElement} (hsep : Sep l) :
    (setBounds l).Canonical where
  sep := hsep
  first_eq := by
    intro front hf
    simp only [setBounds] at hf ⊢
    rw [hf]
  last_eq := by
    intro back hb
    simp only [setBounds] at hb ⊢
    rw [hb]
  empty_eq := by
    intro hl
    simp only [setBounds] at hl ⊢
    rw [hl]
    exact ⟨rfl, rfl⟩

/-- Bounds set from a well-formed list make a well-formed set. -/
theorem repInv_setBounds {l : List MonadSetElement} (hsep : Sep l)
    (hin : ∀ e ∈ l, InRange e) : RepInv (setBounds l) := by
  obtain ⟨-, hfirst, hlast, hempty⟩ := canonical_setBounds hsep
  exact ⟨hsep, hin, hfirst, hlast, hempty⟩

instance (e : MonadSetElement) : Decidable (InRange e) :=
  inferInstanceAs (Decidable (0 ≤ e.firstM ∧ e.lastM ≤ maxMonad))

/-- The invariant, as what can be read off the list. -/
theorem repInv_iff {s : SetOfMonads} :
    s.RepInv ↔ Sep s.monadMs ∧ (∀ e ∈ s.monadMs, InRange e) ∧ s = setBounds s.monadMs := by
  constructor
  · intro h
    exact ⟨h.sep, h.inRange, h.eq_setBounds⟩
  · rintro ⟨hsep, hin, heq⟩
    rw [heq]
    exact repInv_setBounds hsep hin

instance (s : SetOfMonads) : Decidable s.RepInv :=
  haveI : Decidable (Sep s.monadMs) :=
    inferInstanceAs (Decidable (s.monadMs.Pairwise fun a b => a.lastM + 1 < b.firstM))
  decidable_of_iff _ repInv_iff.symm

@[simp] theorem setBounds_monadMs (l : List MonadSetElement) : (setBounds l).monadMs = l := rfl

/-- A non-empty well-formed list whose extreme monads are the given bounds. -/
theorem Canonical.of_extremes {l : List MonadSetElement} {f g : Int} (hsep : Sep l)
    (hne : l ≠ []) (hf : IsLeast (cover l) f) (hg : IsGreatest (cover l) g) :
    Canonical ⟨l, f, g⟩ where
  sep := hsep
  first_eq := by
    intro front hl
    obtain ⟨rest, rfl⟩ := List.head?_eq_some_iff.mp hl
    exact hf.unique hsep.isLeast_head
  last_eq := by
    intro back hl
    obtain ⟨init, rfl⟩ := List.getLast?_eq_some_iff.mp hl
    exact hg.unique hsep.isGreatest_last
  empty_eq := fun hl => absurd hl hne

/-- Covered monads of a list in range are in range. -/
theorem inRange_of_mem_cover {l : List MonadSetElement} (hin : ∀ e ∈ l, InRange e) {m : Int}
    (hm : m ∈ cover l) : 0 ≤ m ∧ m ≤ maxMonad := by
  obtain ⟨e, he, h₁, h₂⟩ := hm
  obtain ⟨h₃, h₄⟩ := hin e he
  simp only [MonadSetElement.spanned_lo, MonadSetElement.spanned_hi] at h₁ h₂
  omega

/-- ...and a list that covers only monads in range is in range. -/
theorem inRange_of_cover {l : List MonadSetElement}
    (h : ∀ m ∈ cover l, 0 ≤ m ∧ m ≤ maxMonad) : ∀ e ∈ l, InRange e := by
  intro e he
  exact ⟨(h _ (lo_mem_cover he)).1, (h _ (hi_mem_cover he)).2⟩

/-! ## 2. `addMSE` -/

/-- Merging two elements that overlap or touch adds no monad between them. -/
theorem points_subsume {a b : MonadSetElement}
    (h : a.overlap b = true ∨ a.adjacent b = true) :
    points (a.subsume b) = points a ∪ points b := by
  have ha := a.first_le_last
  have hb := b.first_le_last
  rw [MonadSetElement.overlap_iff, MonadSetElement.adjacent_iff] at h
  ext m
  simp only [mem_points, Set.mem_union, MonadSetElement.spanned_lo, MonadSetElement.spanned_hi,
    MonadSetElement.subsume_firstM, MonadSetElement.subsume_lastM]
  omega

theorem cover_cons (a : MonadSetElement) (l : List MonadSetElement) :
    cover (a :: l) = points a ∪ cover l := by
  ext m; simp

theorem cover_append (l l' : List MonadSetElement) : cover (l ++ l') = cover l ∪ cover l' := by
  ext m; simp

/-- What the loop leaves starts no earlier than what it was given. -/
theorem addMSELoop_lower {x : Int} : ∀ (l : List MonadSetElement) (current : MonadSetElement),
    x < current.firstM → (∀ r ∈ l, x < r.firstM) →
      ∀ r ∈ addMSELoop current l, x < r.firstM
  | [], current, hc, _ => by
    intro r hr
    simp only [addMSELoop, List.mem_singleton] at hr
    exact hr ▸ hc
  | itmse :: rest, current, hc, hl => by
    have hit : x < itmse.firstM := hl itmse List.mem_cons_self
    have hrest : ∀ r ∈ rest, x < r.firstM := fun r hr => hl r (List.mem_cons_of_mem _ hr)
    simp only [addMSELoop]
    split
    · exact addMSELoop_lower rest _ (by rw [MonadSetElement.subsume_firstM]; omega) hrest
    · split
      · intro r hr
        rcases List.mem_cons.mp hr with rfl | hr
        · exact hc
        · exact hl r hr
      · intro r hr
        rcases List.mem_cons.mp hr with rfl | hr
        · exact hit
        · exact addMSELoop_lower rest current hc hrest r hr

/-- An element that is neither touched by `current` nor past it lies before it, with a gap. -/
theorem gap_before {current itmse : MonadSetElement}
    (h₁ : ¬ (current.overlap itmse || current.adjacent itmse) = true)
    (h₂ : ¬ itmse.past current = true) : itmse.lastM + 1 < current.firstM := by
  have hi := itmse.first_le_last
  rw [Bool.or_eq_true, MonadSetElement.overlap_iff, MonadSetElement.adjacent_iff] at h₁
  rw [MonadSetElement.past_iff] at h₂
  omega

/-- The loop keeps the list separated. -/
theorem sep_addMSELoop : ∀ (l : List MonadSetElement) (current : MonadSetElement),
    Sep l → Sep (addMSELoop current l)
  | [], current, _ => sep_singleton current
  | itmse :: rest, current, hsep => by
    obtain ⟨hgap, hrest⟩ := sep_cons.mp hsep
    simp only [addMSELoop]
    split
    · exact sep_addMSELoop rest _ hrest
    · rename_i htouch
      split
      · rename_i hpast
        rw [MonadSetElement.past_iff] at hpast
        refine sep_cons.mpr ⟨?_, hsep⟩
        intro r hr
        rcases List.mem_cons.mp hr with rfl | hr
        · exact hpast
        · have h₁ := hgap r hr
          have h₂ := itmse.first_le_last
          simp only [MonadSetElement.spanned_lo, MonadSetElement.spanned_hi] at h₁ ⊢
          omega
      · rename_i hpast
        refine sep_cons.mpr ⟨?_, sep_addMSELoop rest current hrest⟩
        exact addMSELoop_lower rest current (gap_before htouch hpast) hgap

/-- The loop adds exactly the monads of `current`. -/
theorem cover_addMSELoop : ∀ (l : List MonadSetElement) (current : MonadSetElement),
    cover (addMSELoop current l) = cover l ∪ points current
  | [], current => by
    simp only [addMSELoop, cover_cons, cover_nil, Set.union_empty, Set.empty_union]
  | itmse :: rest, current => by
    simp only [addMSELoop]
    split
    · rename_i htouch
      rw [cover_addMSELoop rest, points_subsume (by simpa using htouch), cover_cons]
      ext m; simp only [Set.mem_union]; tauto
    · split
      · rw [cover_cons current]
        exact Set.union_comm _ _
      · rw [cover_cons, cover_addMSELoop rest current, cover_cons, Set.union_assoc]

/-- The elements of an invariant set end no later than its cached upper bound. -/
theorem Canonical.lastM_le {s : SetOfMonads} (h : s.Canonical) {e : MonadSetElement}
    (he : e ∈ s.monadMs) : e.lastM ≤ s.mLast :=
  (h.isGreatest_last (List.ne_nil_of_mem he)).2 (hi_mem_cover he)

/-- ...and start no earlier than the lower one. -/
theorem RepInv.le_firstM {s : SetOfMonads} (h : s.RepInv) {e : MonadSetElement}
    (he : e ∈ s.monadMs) : s.mFirst ≤ e.firstM :=
  (h.isLeast_first (List.ne_nil_of_mem he)).2 (lo_mem_cover he)

/-- Pushing an element that starts past the last monad and the gap after it. -/
theorem sep_push_back {s : SetOfMonads} (h : s.Canonical) {mse : MonadSetElement}
    (hgt : mse.firstM > s.mLast + 1) : Sep (s.monadMs ++ [mse]) := by
  refine sep_append.mpr ⟨h.sep, sep_singleton mse, ?_⟩
  intro a ha b hb
  have := h.lastM_le ha
  rw [List.mem_singleton.mp hb]
  simp only [MonadSetElement.spanned_lo, MonadSetElement.spanned_hi]
  omega

/-- Widening the last element to the right keeps the list separated. -/
theorem sep_extend_back {init : List MonadSetElement} {back mse : MonadSetElement}
    (hsep : Sep (init ++ [back])) (hge : mse.firstM ≥ back.firstM) :
    Sep (init ++ [back.subsume mse]) := by
  obtain ⟨hinit, -, hgap⟩ := sep_append.mp hsep
  refine sep_append.mpr ⟨hinit, sep_singleton _, ?_⟩
  intro a ha b hb
  have := hgap a ha back (List.mem_singleton.mpr rfl)
  rw [List.mem_singleton.mp hb]
  simp only [MonadSetElement.spanned_lo, MonadSetElement.spanned_hi,
    MonadSetElement.subsume_firstM] at this ⊢
  omega

/-- Widening the first element to the left keeps the list separated. -/
theorem sep_extend_front {rest : List MonadSetElement} {front mse : MonadSetElement}
    (hsep : Sep (front :: rest)) (hlt : mse.lastM < front.firstM) :
    Sep (front.subsume mse :: rest) := by
  obtain ⟨hgap, hrest⟩ := sep_cons.mp hsep
  refine sep_cons.mpr ⟨?_, hrest⟩
  intro b hb
  have h₁ := hgap b hb
  have h₂ := front.first_le_last
  simp only [MonadSetElement.spanned_lo, MonadSetElement.spanned_hi,
    MonadSetElement.subsume_lastM] at h₁ ⊢
  omega

/-- **The list after `addMSE`**, in each of its five branches: separated, and the union. -/
theorem addMSEList_spec {s : SetOfMonads} (h : s.Canonical) (mse : MonadSetElement) :
    Sep (s.addMSEList mse) ∧ cover (s.addMSEList mse) = s.mem ∪ points mse := by
  have hpoint : cover [mse] = points mse := by simp [cover_cons]
  unfold addMSEList
  cases hl : s.monadMs.getLast? with
  | none =>
    rw [List.getLast?_eq_none_iff.mp hl, mem, List.getLast?_eq_none_iff.mp hl]
    exact ⟨sep_singleton mse, by simp [hpoint]⟩
  | some back =>
    simp only
    have hlast : s.mLast = back.lastM := h.last_eq back hl
    obtain ⟨init, hinit⟩ := List.getLast?_eq_some_iff.mp hl
    split
    · rename_i hgt
      exact ⟨sep_push_back h hgt, by rw [cover_append, hpoint]; rfl⟩
    · rename_i hgt
      split
      · rename_i hge
        have htouch : back.overlap mse = true ∨ back.adjacent mse = true := by
          have hb := back.first_le_last
          have hm := mse.first_le_last
          rw [MonadSetElement.overlap_iff, MonadSetElement.adjacent_iff]
          omega
        have hsep := h.sep
        rw [hinit] at hsep
        rw [mem, hinit, List.dropLast_concat]
        refine ⟨sep_extend_back hsep hge, ?_⟩
        rw [cover_append, cover_cons, points_subsume htouch, cover_append, cover_cons]
        simp only [cover_nil, Set.union_empty, Set.union_assoc]
      · split
        · rename_i heq
          obtain ⟨front, rest, hcons⟩ : ∃ front rest, s.monadMs = front :: rest :=
            List.exists_cons_of_ne_nil (by rw [hinit]; simp)
          have hfirst : s.mFirst = front.firstM := h.first_eq front (by rw [hcons]; rfl)
          have htouch : front.overlap mse = true ∨ front.adjacent mse = true := by
            rw [MonadSetElement.overlap_iff, MonadSetElement.adjacent_iff]
            omega
          have hsep := h.sep
          rw [hcons] at hsep
          rw [mem, hcons, List.modifyHead_cons]
          refine ⟨sep_extend_front hsep (by omega), ?_⟩
          rw [cover_cons, points_subsume htouch, cover_cons]
          ext m; simp only [Set.mem_union]; tauto
        · exact ⟨sep_addMSELoop _ mse h.sep, cover_addMSELoop _ mse⟩

/-- A set that has monads, and right bounds, keeps them whatever is added to it. -/
theorem Canonical.addMSE_of_ne_nil {s : SetOfMonads} (h : s.Canonical) (hne : s.monadMs ≠ [])
    (mse : MonadSetElement) :
    (s.addMSE mse).Canonical ∧ (s.addMSE mse).mem = s.mem ∪ points mse := by
  obtain ⟨hsep, hcov⟩ := addMSEList_spec h mse
  have hfl := mse.first_le_last
  refine ⟨Canonical.of_extremes hsep ?_ ?_ ?_, hcov⟩
  · intro hnil
    rw [hnil, cover_nil] at hcov
    have : mse.firstM ∈ s.mem ∪ points mse := Or.inr ⟨le_refl _, hfl⟩
    rw [← hcov] at this
    exact this.elim
  · rw [hcov]
    have := (h.isLeast_first hne).union
      (show IsLeast (points mse) mse.firstM from ⟨⟨le_refl _, hfl⟩, fun m hm => hm.1⟩)
    have heq : (if mse.firstM < s.mFirst then mse.firstM else s.mFirst)
        = min s.mFirst mse.firstM := by split <;> omega
    rw [heq]
    exact this
  · rw [hcov]
    have := (h.isGreatest_last hne).union
      (show IsGreatest (points mse) mse.lastM from ⟨⟨hfl, le_refl _⟩, fun m hm => hm.2⟩)
    have heq : (if mse.lastM > s.mLast then mse.lastM else s.mLast)
        = max s.mLast mse.lastM := by split <;> omega
    rw [heq]
    exact this

/-- `addMSE` adds the monads of the element; into an empty set, if these are within what the
bounds of an empty set are made for. -/
theorem Canonical.addMSE_spec {s : SetOfMonads} (h : s.Canonical) {mse : MonadSetElement}
    (hfirst : mse.firstM ≤ maxMonad) (hlast : 0 ≤ mse.lastM) :
    (s.addMSE mse).Canonical ∧ (s.addMSE mse).mem = s.mem ∪ points mse := by
  by_cases hne : s.monadMs = []
  · obtain ⟨hsep, hcov⟩ := addMSEList_spec h mse
    have hfl := mse.first_le_last
    obtain ⟨hmin, hmax⟩ := h.empty_eq hne
    refine ⟨Canonical.of_extremes hsep ?_ ?_ ?_, hcov⟩
    · intro hnil
      rw [hnil, cover_nil] at hcov
      have : mse.firstM ∈ s.mem ∪ points mse := Or.inr ⟨le_refl _, hfl⟩
      rw [← hcov] at this
      exact this.elim
    · rw [hcov, mem_eq_empty.mpr hne, Set.empty_union, hmin]
      have : (if mse.firstM < maxMonad then mse.firstM else maxMonad) = mse.firstM := by
        split <;> omega
      rw [this]
      exact ⟨⟨le_refl _, hfl⟩, fun m hm => hm.1⟩
    · rw [hcov, mem_eq_empty.mpr hne, Set.empty_union, hmax]
      have : (if mse.lastM > 0 then mse.lastM else 0) = mse.lastM := by
        split <;> omega
      rw [this]
      exact ⟨⟨hfl, le_refl _⟩, fun m hm => hm.2⟩
  · exact h.addMSE_of_ne_nil hne mse

/-- A set that has only monads in range. -/
theorem Canonical.repInv {s : SetOfMonads} (h : s.Canonical)
    (hin : ∀ m ∈ s.mem, 0 ≤ m ∧ m ≤ maxMonad) : s.RepInv :=
  ⟨h.sep, inRange_of_cover hin, h.first_eq, h.last_eq, h.empty_eq⟩

/-- **`addMSE` adds the monads of the element and keeps the invariant.** -/
theorem addMSE_spec {s : SetOfMonads} (h : s.RepInv) {mse : MonadSetElement}
    (hmse : InRange mse) : (s.addMSE mse).RepInv ∧ (s.addMSE mse).mem = s.mem ∪ points mse := by
  obtain ⟨h₁, h₂⟩ := hmse
  have hfl := mse.first_le_last
  obtain ⟨hcanonical, hmem⟩ :=
    h.canonical.addMSE_spec (le_trans hfl h₂) (le_trans h₁ hfl)
  refine ⟨hcanonical.repInv fun m hm => ?_, hmem⟩
  rw [hmem] at hm
  rcases hm with hm | hm
  · exact inRange_of_mem_cover h.inRange hm
  · simp only [mem_points, MonadSetElement.spanned_lo, MonadSetElement.spanned_hi] at hm
    omega

/-- Loops that add elements one after the other. -/
theorem foldl_addMSE_spec : ∀ (l : List MonadSetElement) {s : SetOfMonads}, s.RepInv →
    (∀ e ∈ l, InRange e) →
      (l.foldl addMSE s).RepInv ∧ (l.foldl addMSE s).mem = s.mem ∪ cover l
  | [], s, h, _ => ⟨h, by simp⟩
  | e :: l, s, h, hin => by
    obtain ⟨h₁, hm₁⟩ := addMSE_spec h (hin e List.mem_cons_self)
    obtain ⟨h₂, hm₂⟩ := foldl_addMSE_spec l h₁ (fun r hr => hin r (List.mem_cons_of_mem _ hr))
    refine ⟨h₂, ?_⟩
    rw [List.foldl_cons, hm₂, hm₁, cover_cons, Set.union_assoc]

/-- **`unionWith` is union.** -/
theorem unionWith_spec {s other : SetOfMonads} (h : s.RepInv) (ho : other.RepInv) :
    (s.unionWith other).RepInv ∧ (s.unionWith other).mem = s.mem ∪ other.mem :=
  foldl_addMSE_spec other.monadMs h ho.inRange

/-! ## 3. `removeMSE` -/

/-- Truncation on the right, when the element starts before the cut. -/
theorem truncate_of_lt {a : MonadSetElement} {bFirst : Int} (bLast : Int) (h : a.firstM < bFirst) :
    (a.truncate bFirst bLast).firstM = a.firstM ∧
      (a.truncate bFirst bLast).lastM = bFirst - 1 := by
  simp [MonadSetElement.truncate, h]

/-- Truncation on the left, when the element only ends after the cut. -/
theorem truncate_of_ge {a : MonadSetElement} {bFirst bLast : Int} (h : ¬ a.firstM < bFirst)
    (h' : a.lastM > bLast) :
    (a.truncate bFirst bLast).firstM = bLast + 1 ∧
      (a.truncate bFirst bLast).lastM = a.lastM := by
  simp [MonadSetElement.truncate, h, h']

/-- What the loop leaves starts no earlier than what it was given. -/
theorem removeMSELoop_lower (bFirst bLast : Int) {x : Int} : ∀ (l : List MonadSetElement),
    (∀ r ∈ l, x < r.firstM) → ∀ r ∈ removeMSELoop bFirst bLast l, x < r.firstM
  | [], _ => by simp [removeMSELoop]
  | a :: rest, hl => by
    have ha : x < a.firstM := hl a List.mem_cons_self
    have hrest : ∀ r ∈ rest, x < r.firstM := fun r hr => hl r (List.mem_cons_of_mem _ hr)
    have ih := removeMSELoop_lower bFirst bLast rest hrest
    intro r hr
    simp only [removeMSELoop] at hr
    split at hr
    · rcases List.mem_cons.mp hr with rfl | hr
      · exact ha
      · exact ih r hr
    · split at hr
      · exact hl r hr
      · split at hr
        · exact ih r hr
        · split at hr
          · rename_i hsix
            rcases List.mem_cons.mp hr with rfl | hr
            · rw [(truncate_of_lt bLast hsix.1).1]; exact ha
            · rcases List.mem_cons.mp hr with rfl | hr
              · simp only
                omega
              · exact hrest r hr
          · split at hr
            · rename_i hlt
              rcases List.mem_cons.mp hr with rfl | hr
              · rw [(truncate_of_lt bLast hlt).1]; exact ha
              · exact ih r hr
            · rename_i hlt
              rcases List.mem_cons.mp hr with rfl | hr
              · rw [(truncate_of_ge hlt (by omega)).1]; omega
              · exact ih r hr

/-- The loop keeps the list separated. -/
theorem sep_removeMSELoop {bFirst bLast : Int} (hb : bFirst ≤ bLast) :
    ∀ (l : List MonadSetElement), Sep l → Sep (removeMSELoop bFirst bLast l)
  | [], _ => sep_nil
  | a :: rest, hsep => by
    obtain ⟨hgap, hrest⟩ := sep_cons.mp hsep
    have ih := sep_removeMSELoop hb rest hrest
    have hlow := removeMSELoop_lower bFirst bLast rest hgap
    simp only [removeMSELoop]
    split
    · exact sep_cons.mpr ⟨hlow, ih⟩
    · split
      · exact hsep
      · split
        · exact ih
        · split
          · rename_i hsix
            refine sep_cons.mpr ⟨?_, sep_cons.mpr ⟨hgap, hrest⟩⟩
            intro r hr
            rw [MonadSetElement.spanned_hi, (truncate_of_lt bLast hsix.1).2]
            rcases List.mem_cons.mp hr with rfl | hr
            · simp only [MonadSetElement.spanned_lo]
              omega
            · have := hgap r hr
              simp only [MonadSetElement.spanned_lo, MonadSetElement.spanned_hi] at this ⊢
              omega
          · split
            · rename_i hlt
              refine sep_cons.mpr ⟨?_, ih⟩
              intro r hr
              have := hlow r hr
              rw [MonadSetElement.spanned_hi, (truncate_of_lt bLast hlt).2]
              simp only [MonadSetElement.spanned_lo, MonadSetElement.spanned_hi] at this ⊢
              omega
            · rename_i hlt
              refine sep_cons.mpr ⟨?_, ih⟩
              intro r hr
              rw [MonadSetElement.spanned_hi, (truncate_of_ge hlt (by omega)).2]
              exact hlow r hr

/-- Membership in a list that starts with `a`, with the bounds spelled out. -/
theorem mem_cover_cons_iff {a : MonadSetElement} {l : List MonadSetElement} {m : Int} :
    m ∈ cover (a :: l) ↔ (a.firstM ≤ m ∧ m ≤ a.lastM) ∨ m ∈ cover l := mem_cover_cons

/-- The loop removes exactly the monads of the range. -/
theorem cover_removeMSELoop {bFirst bLast : Int} (hb : bFirst ≤ bLast) :
    ∀ (l : List MonadSetElement), Sep l →
      cover (removeMSELoop bFirst bLast l) = cover l \ Set.Icc bFirst bLast
  | [], _ => by simp [removeMSELoop]
  | a :: rest, hsep => by
    have ih := cover_removeMSELoop hb rest (sep_cons.mp hsep).2
    have ha := a.first_le_last
    ext m
    have hgt : m ∈ cover rest → a.lastM + 1 < m := fun hm => hsep.tail_gt hm
    have hm : m ∈ cover (removeMSELoop bFirst bLast rest)
        ↔ m ∈ cover rest ∧ ¬ (bFirst ≤ m ∧ m ≤ bLast) := by
      rw [ih, Set.mem_sdiff, Set.mem_Icc]
    rw [Set.mem_sdiff, Set.mem_Icc, mem_cover_cons_iff]
    simp only [removeMSELoop]
    split
    · rw [mem_cover_cons_iff, hm]
      grind
    · split
      · rw [mem_cover_cons_iff]
        grind
      · split
        · rw [hm]
          grind
        · split
          · rename_i hsix
            rw [mem_cover_cons_iff, mem_cover_cons_iff, (truncate_of_lt bLast hsix.1).1,
              (truncate_of_lt bLast hsix.1).2]
            simp only
            grind
          · split
            · rename_i hlt
              rw [mem_cover_cons_iff, hm, (truncate_of_lt bLast hlt).1, (truncate_of_lt bLast hlt).2]
              grind
            · rename_i hlt
              rw [mem_cover_cons_iff, hm, (truncate_of_ge hlt (by omega)).1,
                (truncate_of_ge hlt (by omega)).2]
              grind

/-- **`removeMSE(b, l)` removes the monads from `b` to `l`**, and sets the bounds from the list. -/
theorem Canonical.removeRange_spec {s : SetOfMonads} (h : s.Canonical) {bFirst bLast : Int}
    (hb : bFirst ≤ bLast) :
    (s.removeRange bFirst bLast).Canonical ∧
      (s.removeRange bFirst bLast).mem = s.mem \ Set.Icc bFirst bLast := by
  unfold removeRange
  split
  · rename_i hempty
    refine ⟨h, ?_⟩
    rw [mem_eq_empty.mpr (isEmpty_iff.mp hempty), Set.empty_sdiff]
  · exact ⟨canonical_setBounds (sep_removeMSELoop hb _ h.sep),
      cover_removeMSELoop hb s.monadMs h.sep⟩

/-- **`difference` is set difference**; the induction is on the elements that are removed. -/
theorem Canonical.difference_spec {s : SetOfMonads} (h : s.Canonical) (other : SetOfMonads) :
    (s.difference other).Canonical ∧ (s.difference other).mem = s.mem \ other.mem := by
  have hfold : ∀ (l : List MonadSetElement) {s : SetOfMonads}, s.Canonical →
      (l.foldl removeMSE s).Canonical ∧ (l.foldl removeMSE s).mem = s.mem \ cover l := by
    intro l
    induction l with
    | nil => exact fun h => ⟨h, by simp⟩
    | cons b l ih =>
      intro s h
      obtain ⟨hone, hmem⟩ := h.removeRange_spec b.first_le_last
      obtain ⟨hall, hmem'⟩ := ih hone
      refine ⟨hall, ?_⟩
      rw [List.foldl_cons, removeMSE, hmem', hmem, cover_cons, Set.sdiff_sdiff]
      rfl
  exact hfold other.monadMs h

/-- What is left of a set in range is in range. -/
theorem RepInv.of_subset {s r : SetOfMonads} (h : s.RepInv) (hr : r.Canonical)
    (hsub : r.mem ⊆ s.mem) : r.RepInv :=
  hr.repInv fun _ hm => inRange_of_mem_cover h.inRange (hsub hm)

/-- `removeMSE(b, l)` keeps the invariant. -/
theorem removeRange_spec {s : SetOfMonads} (h : s.RepInv) {bFirst bLast : Int}
    (hb : bFirst ≤ bLast) :
    (s.removeRange bFirst bLast).RepInv ∧
      (s.removeRange bFirst bLast).mem = s.mem \ Set.Icc bFirst bLast := by
  obtain ⟨hcanonical, hmem⟩ := h.canonical.removeRange_spec hb
  exact ⟨h.of_subset hcanonical (hmem ▸ Set.sdiff_subset), hmem⟩

/-- `removeMSE(B)`. -/
theorem removeMSE_spec {s : SetOfMonads} (h : s.RepInv) (b : MonadSetElement) :
    (s.removeMSE b).RepInv ∧ (s.removeMSE b).mem = s.mem \ points b :=
  removeRange_spec h b.first_le_last

theorem difference_spec {s : SetOfMonads} (h : s.RepInv) (other : SetOfMonads) :
    (s.difference other).RepInv ∧ (s.difference other).mem = s.mem \ other.mem := by
  obtain ⟨hcanonical, hmem⟩ := h.canonical.difference_spec other
  exact ⟨h.of_subset hcanonical (hmem ▸ Set.sdiff_subset), hmem⟩

/-! ## 4. `intersect` -/

/-- **The pieces that `intersect` adds cover the intersection.**  In each case the cursor that
moves on leaves behind an element whose whole share of the intersection has been added. -/
theorem cover_intersectPieces : ∀ (as bs : List MonadSetElement), Sep as → Sep bs →
    cover (intersectPieces as bs) = cover as ∩ cover bs := by
  intro as bs
  induction as, bs using intersectPieces.induct with
  | case1 a as b bs h₁ ih =>
    intro ha hb
    ext m
    have hgb : m ∈ cover bs → b.lastM + 1 < m := fun hm => hb.tail_gt hm
    have hlb := b.first_le_last
    rw [intersectPieces, dif_pos h₁, ih (sep_cons.mp ha).2 hb]
    simp only [Set.mem_inter_iff, mem_cover_cons_iff]
    constructor
    · rintro ⟨hm, hm'⟩
      exact ⟨Or.inr hm, hm'⟩
    · rintro ⟨hm | hm, hm'⟩
      · grind
      · exact ⟨hm, hm'⟩
  | case2 a as b bs h₁ h₅ ih =>
    intro ha hb
    ext m
    have hga : m ∈ cover as → a.lastM + 1 < m := fun hm => ha.tail_gt hm
    have hla := a.first_le_last
    rw [intersectPieces, dif_neg h₁, dif_pos h₅, ih ha (sep_cons.mp hb).2]
    simp only [Set.mem_inter_iff, mem_cover_cons_iff]
    constructor
    · rintro ⟨hm, hm'⟩
      exact ⟨hm, Or.inr hm'⟩
    · rintro ⟨hm, hm' | hm'⟩
      · grind
      · exact ⟨hm, hm'⟩
  | case3 a as b bs h₁ h₅ h₃ ih =>
    intro ha hb
    ext m
    have hgb : m ∈ cover bs → b.lastM + 1 < m := fun hm => hb.tail_gt hm
    rw [intersectPieces, dif_neg h₁, dif_neg h₅, if_pos h₃, mem_cover_cons_iff,
      ih (sep_cons.mp ha).2 hb]
    simp only [Set.mem_inter_iff, mem_cover_cons_iff]
    grind
  | case4 a as b bs h₁ h₅ h₃ h₆ ih =>
    intro ha hb
    ext m
    have hga : m ∈ cover as → a.lastM + 1 < m := fun hm => ha.tail_gt hm
    rw [intersectPieces, dif_neg h₁, dif_neg h₅, if_neg h₃, if_pos h₆, mem_cover_cons_iff,
      ih ha (sep_cons.mp hb).2]
    simp only [Set.mem_inter_iff, mem_cover_cons_iff]
    grind
  | case5 a as b bs h₁ h₅ h₃ h₆ h₂ ih =>
    intro ha hb
    ext m
    have hgb : m ∈ cover bs → b.lastM + 1 < m := fun hm => hb.tail_gt hm
    rw [intersectPieces, dif_neg h₁, dif_neg h₅, if_neg h₃, if_neg h₆, if_pos h₂,
      mem_cover_cons_iff, ih (sep_cons.mp ha).2 hb]
    simp only [Set.mem_inter_iff, mem_cover_cons_iff]
    grind
  | case6 a as b bs h₁ h₅ h₃ h₆ h₂ ih =>
    intro ha hb
    ext m
    have hga : m ∈ cover as → a.lastM + 1 < m := fun hm => ha.tail_gt hm
    rw [intersectPieces, dif_neg h₁, dif_neg h₅, if_neg h₃, if_neg h₆, if_neg h₂,
      mem_cover_cons_iff, ih ha (sep_cons.mp hb).2]
    simp only [Set.mem_inter_iff, mem_cover_cons_iff]
    grind
  | case7 as bs h =>
    intro _ _
    cases as with
    | nil => simp [intersectPieces]
    | cons a as =>
      cases bs with
      | nil => simp [intersectPieces]
      | cons b bs => exact (h a as b bs rfl rfl).elim

/-- **`intersect` is intersection.** -/
theorem intersect_spec {aset bset : SetOfMonads} (ha : aset.RepInv) (hb : bset.RepInv) :
    (intersect aset bset).RepInv ∧ (intersect aset bset).mem = aset.mem ∩ bset.mem := by
  unfold intersect
  split
  · rename_i hempty
    refine ⟨repInv_empty, ?_⟩
    rw [mem_empty]
    rcases Bool.or_eq_true _ _ ▸ hempty with h | h
    · rw [mem_eq_empty.mpr (isEmpty_iff.mp h), Set.empty_inter]
    · rw [mem_eq_empty.mpr (isEmpty_iff.mp h), Set.inter_empty]
  · have hcov := cover_intersectPieces _ _ ha.sep hb.sep
    have hin : ∀ e ∈ intersectPieces aset.monadMs bset.monadMs, InRange e := by
      refine inRange_of_cover fun m hm => ?_
      rw [hcov] at hm
      exact inRange_of_mem_cover ha.inRange hm.1
    obtain ⟨hrep, hmem⟩ := foldl_addMSE_spec _ repInv_empty hin
    exact ⟨hrep, by rw [hmem, mem_empty, Set.empty_union, hcov]; rfl⟩

/-! ## 5. `operator==` -/

theorem equalLoop_iff : ∀ {us them : List MonadSetElement},
    equalLoop us them = true ↔ us = them
  | [], [] => by simp [equalLoop]
  | [], _ :: _ => by simp [equalLoop]
  | _ :: _, [] => by simp [equalLoop]
  | a :: us, b :: them => by
    simp only [equalLoop]
    split
    · rename_i hab
      rw [equalLoop_iff, hab, List.cons.injEq, eq_self, true_and]
    · rename_i hab
      simp [hab]

/-- Sets with the invariant are equal as values when they hold the same monads. -/
theorem RepInv.ext {s other : SetOfMonads} (h : s.RepInv) (ho : other.RepInv)
    (hmem : s.mem = other.mem) : s = other := by
  have hl : s.monadMs = other.monadMs :=
    MonadSetElement.bounds_injective.list_map (h.sep.canonical ho.sep hmem)
  rw [h.eq_setBounds, ho.eq_setBounds, hl]

/-- Adding the elements of a set to a new one, in order, rebuilds it. -/
theorem RepInv.foldl_addMSE {s : SetOfMonads} (h : s.RepInv) :
    s.monadMs.foldl addMSE empty = s := by
  obtain ⟨hrep, hmem⟩ := foldl_addMSE_spec s.monadMs repInv_empty h.inRange
  refine hrep.ext h ?_
  rw [hmem, mem_empty, Set.empty_union]
  rfl

/-- **`operator==` decides equality of the sets of monads.** -/
theorem equal_iff {s other : SetOfMonads} (h : s.RepInv) (ho : other.RepInv) :
    s.equal other = true ↔ s.mem = other.mem := by
  constructor
  · intro heq
    unfold equal at heq
    split at heq
    · rename_i hs
      rw [mem_eq_empty.mpr (isEmpty_iff.mp hs), mem_eq_empty.mpr (isEmpty_iff.mp heq)]
    · split at heq
      · exact absurd heq (by simp)
      · rw [mem, mem, equalLoop_iff.mp heq]
  · intro hmem
    rw [← h.ext ho hmem]
    unfold equal
    split
    · rename_i hs
      exact hs
    · simp [equalLoop_iff]

/-! ## 6. The set algebra -/

/-- **`SetOfMonads` is a faithful set algebra.**  On sets with the invariant each operation
computes what its name says on the sets of monads and re-establishes the invariant, and
`operator==` is equality of those sets. -/
theorem setAlgebra {A B : SetOfMonads} (hA : A.RepInv) (hB : B.RepInv) :
    (∀ e : MonadSetElement, 0 ≤ e.firstM → e.lastM ≤ maxMonad →
      (A.addMSE e).RepInv ∧ (A.addMSE e).mem = A.mem ∪ Set.Icc e.firstM e.lastM) ∧
    ((A.unionWith B).RepInv ∧ (A.unionWith B).mem = A.mem ∪ B.mem) ∧
    (∀ b l : Int, b ≤ l →
      (A.removeRange b l).RepInv ∧ (A.removeRange b l).mem = A.mem \ Set.Icc b l) ∧
    ((A.difference B).RepInv ∧ (A.difference B).mem = A.mem \ B.mem) ∧
    ((intersect A B).RepInv ∧ (intersect A B).mem = A.mem ∩ B.mem) ∧
    (A.equal B = true ↔ A.mem = B.mem) :=
  ⟨fun _ h₁ h₂ => addMSE_spec hA ⟨h₁, h₂⟩, unionWith_spec hA hB,
    fun _ _ hb => removeRange_spec hA hb, difference_spec hA B, intersect_spec hA hB,
    equal_iff hA hB⟩

/-- The algebra at `{1-3, 5}` and `{3-9}`. -/
theorem setAlgebra_example :
    (∀ e : MonadSetElement, 0 ≤ e.firstM → e.lastM ≤ maxMonad →
      ((setBounds [⟨1, 3, by decide⟩, ⟨5, 5, by decide⟩]).addMSE e).RepInv) ∧
    (intersect (setBounds [⟨1, 3, by decide⟩, ⟨5, 5, by decide⟩])
        (setBounds [⟨3, 9, by decide⟩])).mem
      = (setBounds [⟨1, 3, by decide⟩, ⟨5, 5, by decide⟩]).mem
        ∩ (setBounds [⟨3, 9, by decide⟩]).mem := by
  have h := setAlgebra (A := setBounds [⟨1, 3, by decide⟩, ⟨5, 5, by decide⟩])
    (B := setBounds [⟨3, 9, by decide⟩]) (by decide) (by decide)
  exact ⟨fun e h₁ h₂ => (h.1 e h₁ h₂).1, h.2.2.2.2.1.2⟩

end SetOfMonads

end Emdros
