/-
# Inserting a range (`SetOfMonads::fillInsertRange`)

The monads from `first` on make room for the range: those before it stay, those from it on move by
its length.  An element that straddles `first`, or that lies in what is inserted, grows to the
left, so that nothing is lost at the borders.

A set that does not start before `last` is copied and offset as a whole, also when it is empty and
`first` is not a monad; there the bounds are offset that say "empty" (`fillInsertRange_shifts_iff`).
-/
import Emdros.Monads.Store

namespace Emdros

open SpanList

namespace SetOfMonads

/-! ## 1. The operation -/

/-- The body of the loop; the cases are numbered as in the source. -/
def fillInsertOne (first last monadsToAdd : Int) (result : SetOfMonads) (a : MonadSetElement) :
    Option SetOfMonads :=
  if a.lastM < first then some (result.addMSE a)                                            -- 1
  else if a.firstM > last then
    result.add (a.firstM + monadsToAdd) (a.lastM + monadsToAdd)                             -- 5
  else if a.firstM ≥ first ∧ a.lastM ≤ last then result.add first (a.lastM + monadsToAdd)   -- 3
  else if a.firstM < first ∧ a.lastM > last then
    result.add a.firstM (a.lastM + monadsToAdd)                                             -- 6
  else if a.firstM < first then result.add a.firstM (a.lastM + monadsToAdd)                 -- 2
  else result.add first (a.lastM + monadsToAdd)                                             -- 4

/-- `fillInsertRange`.  The first element is read before the loop asks whether there is one. -/
def fillInsertRange (s : SetOfMonads) (first last : Int) : Option SetOfMonads :=
  if first ≤ last then
    let monadsToAdd := last - first + 1
    if s.mLast < first then some (empty.copyOther s)
    else if s.mFirst ≥ last then some ((empty.copyOther s).offset monadsToAdd)
    else
      match s.monadMs with
      | [] => none
      | _ :: _ =>
        (s.monadMs.foldlM (fillInsertOne first last monadsToAdd) empty).bind fun result =>
          result.add first last
  else none

/-- What the result is to be. -/
structure Shifts (s : SetOfMonads) (first last : Int) (r : SetOfMonads) : Prop where
  canonical : r.Canonical
  inRange : 0 ≤ first → ∀ x ∈ r.mem, 0 ≤ x ∧ x ≤ maxMonad
  before : ∀ x < first, x ∈ r.mem ↔ x ∈ s.mem
  after : ∀ x ∈ s.mem, first ≤ x → x + (last - first + 1) ∈ r.mem
  unchanged : s.mLast < first → r = s
  inserted : first ≤ s.mLast → s.mFirst < last → Set.Icc first last ⊆ r.mem
  last_eq : s.monadMs ≠ [] → first ≤ s.mLast → r.mLast = s.mLast + (last - first + 1)

/-! ## 2. The elements of the result -/

/-- What an element becomes. -/
def shifted (first last : Int) (h : first ≤ last) (a : MonadSetElement) : MonadSetElement :=
  if hcase : a.lastM < first then a
  else
    { firstM := if a.firstM > last then a.firstM + (last - first + 1) else min a.firstM first
      lastM := a.lastM + (last - first + 1)
      first_le_last := by
        have := a.first_le_last
        split <;> omega }

section Loop

variable {first last : Int} (h : first ≤ last)

theorem shifted_before {a : MonadSetElement} (ha : a.lastM < first) : shifted first last h a = a :=
  dif_pos ha

theorem shifted_lastM {a : MonadSetElement} (ha : first ≤ a.lastM) :
    (shifted first last h a).lastM = a.lastM + (last - first + 1) := by
  rw [shifted, dif_neg (not_lt.mpr ha)]

theorem shifted_firstM {a : MonadSetElement} (ha : first ≤ a.lastM) :
    (shifted first last h a).firstM
      = if a.firstM > last then a.firstM + (last - first + 1) else min a.firstM first := by
  rw [shifted, dif_neg (not_lt.mpr ha)]

/-- Adding an element whose borders are computed. -/
theorem add_eq_addMSE (s : SetOfMonads) {f l : Int} {e : MonadSetElement} (hf : f = e.firstM)
    (hl : l = e.lastM) : s.add f l = some (s.addMSE e) := by
  rw [add, hf, hl, MonadSetElement.range_of_le e.first_le_last, Option.map_some]

/-- Each of the six cases adds what the element becomes. -/
theorem fillInsertOne_eq (s : SetOfMonads) (a : MonadSetElement) :
    fillInsertOne first last (last - first + 1) s a = some (s.addMSE (shifted first last h a)) := by
  by_cases hcase : a.lastM < first
  · rw [fillInsertOne, if_pos hcase, shifted_before h hcase]
  · have hge := not_lt.mp hcase
    have hlast := shifted_lastM h hge
    have hfirst := shifted_firstM h hge
    rw [fillInsertOne, if_neg hcase]
    split
    · exact add_eq_addMSE s (by rw [hfirst]; split <;> omega) hlast.symm
    · split
      · exact add_eq_addMSE s (by rw [hfirst]; split <;> omega) hlast.symm
      · split
        · exact add_eq_addMSE s (by rw [hfirst]; split <;> omega) hlast.symm
        · split
          · exact add_eq_addMSE s (by rw [hfirst]; split <;> omega) hlast.symm
          · exact add_eq_addMSE s (by rw [hfirst]; split <;> omega) hlast.symm

/-- The loop adds what the elements become. -/
theorem foldlM_fillInsertOne (l : List MonadSetElement) : ∀ s : SetOfMonads,
    l.foldlM (fillInsertOne first last (last - first + 1)) s
      = some ((l.map (shifted first last h)).foldl addMSE s) := by
  induction l with
  | nil => exact fun s => rfl
  | cons a l ih =>
    intro s
    rw [List.foldlM_cons, fillInsertOne_eq h, Option.bind_eq_bind, Option.bind_some, ih]
    rfl

/-- Up to `first`, what an element becomes has the monads that the element has. -/
theorem mem_shifted_before {a : MonadSetElement} {x : Int} (hx : x < first) :
    x ∈ points (shifted first last h a) ↔ x ∈ points a := by
  by_cases hcase : a.lastM < first
  · rw [shifted_before h hcase]
  · have hge := not_lt.mp hcase
    simp only [mem_points, MonadSetElement.spanned_lo, MonadSetElement.spanned_hi,
      shifted_lastM h hge, shifted_firstM h hge]
    split <;> omega

/-- From `first` on the monads have moved. -/
theorem mem_shifted_after {a : MonadSetElement} {x : Int} (hx : first ≤ x) (ha : x ∈ points a) :
    x + (last - first + 1) ∈ points (shifted first last h a) := by
  simp only [mem_points, MonadSetElement.spanned_lo, MonadSetElement.spanned_hi] at ha ⊢
  have hge : first ≤ a.lastM := le_trans hx ha.2
  rw [shifted_lastM h hge, shifted_firstM h hge]
  split <;> omega

/-- No element ends beyond the new end. -/
theorem shifted_lastM_le (a : MonadSetElement) :
    a.lastM ≤ (shifted first last h a).lastM ∧
      (shifted first last h a).lastM ≤ a.lastM + (last - first + 1) := by
  by_cases hcase : a.lastM < first
  · rw [shifted_before h hcase]
    omega
  · rw [shifted_lastM h (not_lt.mp hcase)]
    omega

theorem mem_cover_map {l : List MonadSetElement} {f : MonadSetElement → MonadSetElement} {x : Int} :
    x ∈ cover (l.map f) ↔ ∃ a ∈ l, x ∈ points (f a) := by
  simp [mem_cover]

end Loop

/-! ## 3. What comes of it -/

/-- Elements that fit the bounds of an empty set are added one after the other. -/
theorem Canonical.foldl_addMSE_spec (l : List MonadSetElement) : ∀ {s : SetOfMonads}, s.Canonical →
    (∀ e ∈ l, e.firstM ≤ maxMonad ∧ 0 ≤ e.lastM) →
      (l.foldl addMSE s).Canonical ∧ (l.foldl addMSE s).mem = s.mem ∪ cover l := by
  induction l with
  | nil => exact fun hs _ => ⟨hs, by simp⟩
  | cons e l ih =>
    intro s hs hin
    obtain ⟨hfirst, hlast⟩ := hin e List.mem_cons_self
    obtain ⟨hone, hmem⟩ := hs.addMSE_spec hfirst hlast
    obtain ⟨hall, hmem'⟩ := ih hone fun f hf => hin f (List.mem_cons_of_mem e hf)
    refine ⟨hall, ?_⟩
    rw [List.foldl_cons, hmem', hmem, cover_cons, Set.union_assoc]

theorem mem_offset {s : SetOfMonads} {m x : Int} : x ∈ (s.offset m).mem ↔ x - m ∈ s.mem := by
  simp only [mem, offset, mem_cover, List.mem_map]
  constructor
  · rintro ⟨_, ⟨a, ha, rfl⟩, h₁, h₂⟩
    simp only [MonadSetElement.spanned_lo, MonadSetElement.spanned_hi,
      MonadSetElement.offset_firstM, MonadSetElement.offset_lastM] at h₁ h₂
    exact ⟨a, ha, by simp only [MonadSetElement.spanned_lo]; omega,
      by simp only [MonadSetElement.spanned_hi]; omega⟩
  · rintro ⟨a, ha, h₁, h₂⟩
    simp only [MonadSetElement.spanned_lo, MonadSetElement.spanned_hi] at h₁ h₂
    refine ⟨_, ⟨a, ha, rfl⟩, ?_, ?_⟩
    · simp only [MonadSetElement.spanned_lo, MonadSetElement.offset_firstM]
      omega
    · simp only [MonadSetElement.spanned_hi, MonadSetElement.offset_lastM]
      omega

section Cases

variable {s : SetOfMonads} {first last : Int}

/-- The range lies beyond the set. -/
theorem shifts_of_beyond (hs : s.RepInv) (hlt : s.mLast < first) : s.Shifts first last s where
  canonical := hs.canonical
  inRange := fun _ x hx => inRange_of_mem_cover hs.inRange hx
  before := fun _ _ => Iff.rfl
  after := by
    intro x hx hge
    obtain ⟨a, ha, -, hxa⟩ := hx
    have := hs.canonical.lastM_le ha
    simp only [MonadSetElement.spanned_hi] at hxa
    omega
  unchanged := fun _ => rfl
  inserted := fun hge => absurd hlt (not_lt.mpr hge)
  last_eq := fun _ hge => absurd hlt (not_lt.mpr hge)

/-- The range lies before the set, which is not empty. -/
theorem shifts_of_before (hs : s.RepInv) (hne : s.monadMs ≠ []) (h : first ≤ last)
    (hmax : s.mLast + (last - first + 1) ≤ maxMonad) (hge : first ≤ s.mLast)
    (hbefore : last ≤ s.mFirst) : s.Shifts first last (s.offset (last - first + 1)) := by
  have hrep : (s.offset (last - first + 1)).RepInv :=
    offset_repInv hs (by omega) (fun e he => by
      have := hs.canonical.lastM_le he
      omega) hne
  have hleast := (hs.isLeast_first hne).2
  refine ⟨hrep.canonical, fun _ x hx => inRange_of_mem_cover hrep.inRange hx, ?_, ?_, ?_, ?_, ?_⟩
  · intro x hx
    rw [mem_offset]
    constructor
    · intro hmem
      have := hleast hmem
      omega
    · intro hmem
      have := hleast hmem
      omega
  · intro x hx _
    rw [mem_offset, Int.add_sub_cancel]
    exact hx
  · exact fun hlt => absurd hlt (not_lt.mpr hge)
  · exact fun _ hlt => absurd hlt (not_lt.mpr hbefore)
  · exact fun _ _ => rfl

/-- The range starts before the set ends, and the set before the range ends. -/
theorem shifts_of_across (hs : s.RepInv) (hne : s.monadMs ≠ []) (h : first ≤ last)
    (hmax : s.mLast + (last - first + 1) ≤ maxMonad) (hge : first ≤ s.mLast)
    (hlt : s.mFirst < last) :
    s.Shifts first last (((s.monadMs.map (shifted first last h)).foldl addMSE empty).addMSE
      ⟨first, last, h⟩) := by
  have hrange : ∀ e ∈ s.monadMs.map (shifted first last h),
      e.firstM ≤ maxMonad ∧ 0 ≤ e.lastM := by
    intro e he
    obtain ⟨a, ha, rfl⟩ := List.mem_map.mp he
    have h₁ := shifted_lastM_le h a
    have h₂ := (shifted first last h a).first_le_last
    have h₃ := hs.canonical.lastM_le ha
    have h₄ := (hs.inRange a ha).1
    have h₅ := a.first_le_last
    omega
  have hfirst := ((hs.isLeast_first hne).1)
  have hzero := inRange_of_mem_cover hs.inRange hfirst
  obtain ⟨hloop, hmemLoop⟩ := Canonical.foldl_addMSE_spec _ repInv_empty.canonical hrange
  have hfirstMax : (⟨first, last, h⟩ : MonadSetElement).firstM ≤ maxMonad := by
    change first ≤ maxMonad
    omega
  have hlastZero : 0 ≤ (⟨first, last, h⟩ : MonadSetElement).lastM := by
    change 0 ≤ last
    omega
  obtain ⟨hcanonical, hmem⟩ := hloop.addMSE_spec hfirstMax hlastZero
  rw [hmemLoop, mem_empty, Set.empty_union] at hmem
  have hr : ∀ x, x ∈ (((s.monadMs.map (shifted first last h)).foldl addMSE empty).addMSE
      ⟨first, last, h⟩).mem ↔
        (∃ a ∈ s.monadMs, x ∈ points (shifted first last h a)) ∨ first ≤ x ∧ x ≤ last := by
    intro x
    rw [hmem, Set.mem_union, mem_cover_map]
    rfl
  have hupper : ∀ x ∈ (((s.monadMs.map (shifted first last h)).foldl addMSE empty).addMSE
      ⟨first, last, h⟩).mem, x ≤ s.mLast + (last - first + 1) := by
    intro x hx
    rcases (hr x).mp hx with ⟨a, ha, hx⟩ | hx
    · have h₁ := shifted_lastM_le h a
      have h₂ := hs.canonical.lastM_le ha
      simp only [mem_points, MonadSetElement.spanned_hi] at hx
      omega
    · omega
  refine ⟨hcanonical, ?_, ?_, ?_, ?_, ?_, ?_⟩
  · intro hpos x hx
    refine ⟨?_, le_trans (hupper x hx) hmax⟩
    by_contra hneg
    rcases (hr x).mp hx with ⟨a, ha, hx⟩ | hx
    · rw [mem_shifted_before h (by omega)] at hx
      have := (hs.inRange a ha).1
      simp only [mem_points, MonadSetElement.spanned_lo] at hx
      omega
    · omega
  · intro x hx
    rw [hr]
    constructor
    · rintro (⟨a, ha, hxa⟩ | hrange)
      · exact ⟨a, ha, (mem_shifted_before h hx).mp hxa⟩
      · omega
    · rintro ⟨a, ha, hxa⟩
      exact Or.inl ⟨a, ha, (mem_shifted_before h hx).mpr hxa⟩
  · rintro x ⟨a, ha, hxa⟩ hx
    exact (hr _).mpr (Or.inl ⟨a, ha, mem_shifted_after h hx hxa⟩)
  · exact fun hless => absurd hless (not_lt.mpr hge)
  · exact fun _ _ x hx => (hr x).mpr (Or.inr hx)
  · intro _ _
    -- the last element of the set is the last of the result
    obtain ⟨a, ha, -, hlast⟩ := (hs.isGreatest_last hne).1
    have hend : s.mLast + (last - first + 1) ∈
        (((s.monadMs.map (shifted first last h)).foldl addMSE empty).addMSE
          ⟨first, last, h⟩).mem :=
      (hr _).mpr (Or.inl ⟨a, ha, mem_shifted_after h hge ⟨by
        have h₁ := a.first_le_last
        have h₂ := hs.canonical.lastM_le ha
        simp only [MonadSetElement.spanned_hi] at hlast
        simp only [MonadSetElement.spanned_lo]
        omega, hlast⟩⟩)
    have hnil : (((s.monadMs.map (shifted first last h)).foldl addMSE empty).addMSE
        ⟨first, last, h⟩).monadMs ≠ [] := fun hnil => by
      rw [mem_eq_empty.mpr hnil] at hend
      exact hend
    exact (hcanonical.isGreatest_last hnil).unique ⟨hend, hupper⟩

/-- **Exactly when a range is inserted as it should be**: into any set that has monads, and into
the empty set if the range starts at a monad that the empty set ends before. -/
theorem fillInsertRange_shifts_iff (hs : s.RepInv) (h : first ≤ last)
    (hmax : s.mLast + (last - first + 1) ≤ maxMonad) :
    (∃ r, s.fillInsertRange first last = some r ∧ s.Shifts first last r) ↔
      s.monadMs ≠ [] ∨ 0 < first := by
  have hcopy : empty.copyOther s = s := rfl
  rw [fillInsertRange, if_pos h, hcopy]
  dsimp only
  by_cases hlt : s.mLast < first
  · rw [if_pos hlt]
    refine iff_of_true ⟨s, rfl, shifts_of_beyond hs hlt⟩ ?_
    by_cases hne : s.monadMs = []
    · have := (hs.empty_eq hne).2
      exact Or.inr (by omega)
    · exact Or.inl hne
  · have hge := not_lt.mp hlt
    rw [if_neg hlt]
    by_cases hbefore : s.mFirst ≥ last
    · rw [if_pos hbefore]
      constructor
      · rintro ⟨r, hr, hshifts⟩
        cases hr
        refine Or.inl fun hnil => ?_
        -- the bounds of the empty set are offset too
        have h₁ := (hs.empty_eq hnil).2
        have h₂ := (hshifts.canonical.empty_eq (by simp [offset, hnil])).2
        simp only [offset] at h₂
        omega
      · intro hcond
        have hne : s.monadMs ≠ [] := by
          rcases hcond with hne | hpos
          · exact hne
          · intro hnil
            have := (hs.empty_eq hnil).2
            omega
        exact ⟨_, rfl, shifts_of_before hs hne h hmax hge hbefore⟩
    · rw [if_neg hbefore]
      have hne : s.monadMs ≠ [] := by
        intro hnil
        obtain ⟨h₁, h₂⟩ := hs.empty_eq hnil
        omega
      obtain ⟨a, l, hl⟩ := List.exists_cons_of_ne_nil hne
      refine iff_of_true ⟨_, ?_, shifts_of_across hs hne h hmax hge (not_le.mp hbefore)⟩ (Or.inl hne)
      rw [foldlM_fillInsertOne h, hl]
      exact add_eq_addMSE _ rfl rfl

end Cases

/-- Inserting `3-4` into `1-3, 7`: the first element straddles the border. -/
theorem fillInsertRange_shifts_iff_two :
    (∃ r, fillInsertRange ⟨[⟨1, 3, by decide⟩, ⟨7, 7, by decide⟩], 1, 7⟩ 3 4 = some r ∧
        Shifts ⟨[⟨1, 3, by decide⟩, ⟨7, 7, by decide⟩], 1, 7⟩ 3 4 r) ↔
      (⟨[⟨1, 3, by decide⟩, ⟨7, 7, by decide⟩], 1, 7⟩ : SetOfMonads).monadMs ≠ [] ∨
        (0 : Int) < 3 :=
  fillInsertRange_shifts_iff (by decide) (by decide) (by decide)

/-- The empty set is offset by the length of a range that starts at zero. -/
theorem not_shifts_empty :
    ¬ ∀ (s : SetOfMonads) (first last : Int), s.RepInv → first ≤ last →
      s.mLast + (last - first + 1) ≤ maxMonad →
        ∃ r, s.fillInsertRange first last = some r ∧ s.Shifts first last r := by
  intro hall
  obtain ⟨r, hr, hshifts⟩ := hall empty 0 0 repInv_empty (le_refl 0) (by decide)
  cases hr
  exact absurd (hshifts.canonical.empty_eq rfl).2 (by decide)

end SetOfMonads

end Emdros
