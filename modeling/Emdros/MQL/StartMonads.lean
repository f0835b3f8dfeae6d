/-
# Where a block may start (`getSMI` in `mql_query.cpp`)

`getSMI` makes an iterator over the monads at which a block is tried.  A `StartMonadIterator` is
modelled as what it yields, with its substrate: the set that an `OR` of block strings takes from
the iterators of its parts.

`ObjectBlock::getSMI` looks in the block's inst between two bounds.  They come from the start
monad, the substrate and the monads of the database (`all_m_1`), and for `overlap` from the length
of the largest object too.
-/
import Emdros.EMdF.Inst
import Emdros.EMdF.StringFunc
import Emdros.MQL.Retrieval
import Emdros.Monads.Queries

namespace Emdros

open SpanList

/-! ## 1. The monads of a set -/

namespace SetOfMonads

/-- What `SOMConstMonadIterator` yields, from its current monad and element on. -/
def monadsFrom : Int → List MonadSetElement → List Int
  | _, [] => []
  | curMonad, mse :: rest =>
    curMonad :: (List.range (mse.lastM - curMonad).toNat).map (fun i => curMonad + 1 + i) ++
      monadsFrom (match rest with | [] => maxMonad | mse :: _ => mse.firstM) rest

/-- What `SOMConstMonadIterator(som)` yields. -/
def constMonads (s : SetOfMonads) : List Int :=
  monadsFrom (if s.monadMs.isEmpty then maxMonad else s.first) s.monadMs

end SetOfMonads

/-! ## 2. Iterators -/

/-- `StartMonadIterator`: `m_Su`, and what `next()` returns while `hasNext()`. -/
structure StartMonadIterator where
  getSu : SetOfMonads
  monads : List Int

/-- `MonadSetStartMonadIterator(Su, Sm, isGaps)`. -/
def monadSetStartMonadIterator (Su : SetOfMonads) (Sm : Int) (isGaps : Bool) :
    Option StartMonadIterator := do
  let Su ← if isGaps then Su.getGaps else some Su
  some ⟨Su, Su.constMonads.dropWhile fun current => current < Sm⟩

/-- `InstStartMonadIterator(pInst, U, Su, Sm)`. -/
def instStartMonadIterator (contents : SkipList) (U Su : SetOfMonads) (Sm : Int) :
    Option StartMonadIterator :=
  (instStartMonads contents U Sm).map fun monads => ⟨Su, monads⟩

/-! ## 3. `ObjectBlock::getSMI` -/

/-- What `ObjectBlock::getSMI` reads of the block, apart from its inst. -/
structure StartMonadInfo where
  operation : EMonadSetRelationOperation
  ourMonadSet : List UInt8
  largestObjectLength : Int
  isNOTEXIST : Bool
  blockStringHasOnlyNOTEXIST : Bool
  deriving DecidableEq

namespace StartMonadInfo

/-- Is the relation on the objects' own monads? -/
def isMonads (b : StartMonadInfo) : Bool :=
  strcmpNocase b.ourMonadSet (Lexer.bytes "monads") = 0

/-- `lower_bound_Sm`. -/
def lowerBoundSm (b : StartMonadInfo) (allM1 : SetOfMonads) (Sm : Int) : Int :=
  if b.isMonads then
    match b.operation with
    | .kMSROPartOf => max allM1.first Sm
    | .kMSROOverlap => max 1 (Sm - b.largestObjectLength)
    | .kMSROStartsIn => max allM1.first Sm
  else 1

/-- `upper_bound_Universe_end`, which is the same for all operations. -/
def upperBoundUniverseEnd (b : StartMonadInfo) (allM1 Su : SetOfMonads) : Int :=
  if b.isMonads then if Su.isEmpty then allM1.last else min allM1.last Su.last else maxMonad

/-- `Suping` for `part_of` and `starts_in`: what of the substrate is between the bounds. -/
def narrowed (Su : SetOfMonads) (lower upper : Int) : Option SetOfMonads :=
  if Su.isEmpty then some Su
  else (SetOfMonads.empty.add lower upper).map fun range => SetOfMonads.intersect Su range

/-- `Suping` for `overlap`: the substrate, and what is between it and the bounds. -/
def widened (Su : SetOfMonads) (lower upper : Int) : Option SetOfMonads :=
  if Su.isEmpty then Su.add lower upper
  else (Su.add lower Su.first).bind fun Suping => Suping.add Suping.last upper

/-- `Suping`. -/
def suping (b : StartMonadInfo) (allM1 Su : SetOfMonads) (Sm : Int) : Option SetOfMonads :=
  let lower := b.lowerBoundSm allM1 Sm
  let upper := b.upperBoundUniverseEnd allM1 Su
  match b.operation with
  | .kMSROPartOf => narrowed Su lower upper
  | .kMSROOverlap => widened Su lower upper
  | .kMSROStartsIn => narrowed Su lower upper

/-- `Uping`: the range of `Suping`, if it is not empty. -/
def uping (Suping : SetOfMonads) : Option SetOfMonads :=
  if Suping.isEmpty then some Suping else SetOfMonads.empty.add Suping.first Suping.last

/-- `ObjectBlock::getSMI`; the inst is that of `R_inst`. -/
def getSMI (b : StartMonadInfo) (allM1 : SetOfMonads) (inst : SkipList) (Su : SetOfMonads)
    (Sm : Int) (bCameFromBlockString : Bool) : Option StartMonadIterator := do
  let lower := b.lowerBoundSm allM1 Sm
  let Suping ← b.suping allM1 Su Sm
  let Uping ← uping Suping
  if b.isNOTEXIST then
    if b.blockStringHasOnlyNOTEXIST && bCameFromBlockString then
      monadSetStartMonadIterator (SetOfMonads.empty.addMonad lower) lower false
    else monadSetStartMonadIterator Suping lower false
  else instStartMonadIterator inst Uping Suping lower

/-! ## 4. The bounds -/

section Bounds

variable {b : StartMonadInfo} {allM1 Su : SetOfMonads} {Sm lower upper : Int}

theorem ne_nil_of_mem {s : SetOfMonads} {m : Int} (hm : m ∈ s.mem) : s.monadMs ≠ [] := by
  intro hnil
  rw [SetOfMonads.mem_eq_empty.mpr hnil] at hm
  exact hm

/-- The cached bounds are the extreme members. -/
theorem first_of_isLeast {s : SetOfMonads} (hs : s.RepInv) {m : Int} (h : IsLeast s.mem m) :
    s.first = m := (hs.isLeast_first (ne_nil_of_mem h.1)).unique h

theorem last_of_isGreatest {s : SetOfMonads} (hs : s.RepInv) {m : Int}
    (h : IsGreatest s.mem m) : s.last = m := (hs.isGreatest_last (ne_nil_of_mem h.1)).unique h

/-- `add(first, last)` throws when the range is upside down... -/
theorem add_of_gt (s : SetOfMonads) (h : upper < lower) : s.add lower upper = none := by
  rw [SetOfMonads.add, MonadSetElement.range, dif_neg (not_le.mpr h)]
  rfl

/-- ...and adds it otherwise. -/
theorem add_spec {s : SetOfMonads} (hs : s.RepInv) (h : lower ≤ upper) (h₀ : 0 ≤ lower)
    (hmax : upper ≤ maxMonad) :
    ∃ s', s.add lower upper = some s' ∧ s'.RepInv ∧ s'.mem = s.mem ∪ Set.Icc lower upper := by
  refine ⟨s.addMSE ⟨lower, upper, h⟩, ?_, SetOfMonads.addMSE_spec hs ⟨h₀, hmax⟩⟩
  rw [SetOfMonads.add, MonadSetElement.range_of_le h]
  rfl

theorem isEmpty_of_ne (h : Su.monadMs ≠ []) : Su.isEmpty = false := by
  rw [SetOfMonads.isEmpty]
  simpa using h

/-- `narrowed` fails where the bounds have crossed... -/
theorem narrowed_of_gt (hne : Su.monadMs ≠ []) (h : upper < lower) :
    narrowed Su lower upper = none := by
  rw [narrowed, isEmpty_of_ne hne, if_neg Bool.false_ne_true, add_of_gt _ h]
  rfl

/-- ...and is the part of the substrate between them otherwise. -/
theorem narrowed_spec (hSu : Su.RepInv) (hne : Su.monadMs ≠ []) (h : lower ≤ upper)
    (h₀ : 0 ≤ lower) (hmax : upper ≤ maxMonad) :
    ∃ Suping, narrowed Su lower upper = some Suping ∧ Suping.RepInv ∧
      Suping.mem = Su.mem ∩ Set.Icc lower upper := by
  obtain ⟨range, hadd, hrange, hmem⟩ := add_spec SetOfMonads.repInv_empty h h₀ hmax
  obtain ⟨hrep, hinter⟩ := SetOfMonads.intersect_spec hSu hrange
  refine ⟨_, ?_, hrep, ?_⟩
  · rw [narrowed, isEmpty_of_ne hne, if_neg Bool.false_ne_true, hadd, Option.map_some]
  · rw [hinter, hmem, SetOfMonads.mem_empty, Set.empty_union]

/-- `widened` fails where the lower bound is beyond the start of the substrate... -/
theorem widened_of_gt (hne : Su.monadMs ≠ []) (h : Su.first < lower) :
    widened Su lower upper = none := by
  rw [widened, isEmpty_of_ne hne, if_neg Bool.false_ne_true, add_of_gt _ h]
  rfl

/-- ...and reaches from the lower bound to the end of the substrate otherwise. -/
theorem widened_spec (hSu : Su.RepInv) (hne : Su.monadMs ≠ []) (h : lower ≤ Su.first)
    (h₀ : 0 ≤ lower) (hupper : upper = Su.last) :
    ∃ Suping, widened Su lower upper = some Suping ∧ Suping.RepInv ∧
      IsLeast Suping.mem lower ∧ IsGreatest Suping.mem Su.last ∧
      Suping.mem = Su.mem ∪ Set.Icc lower Su.first := by
  have hleast : IsLeast Su.mem Su.first := hSu.isLeast_first hne
  have hgreatest : IsGreatest Su.mem Su.last := hSu.isGreatest_last hne
  obtain ⟨-, hmax⟩ := SetOfMonads.inRange_of_mem_cover hSu.inRange hgreatest.1
  have hfl : Su.first ≤ Su.last := hleast.2 hgreatest.1
  obtain ⟨s₁, hadd₁, hs₁, hmem₁⟩ := add_spec hSu h h₀ (le_trans hfl hmax)
  have hgreatest₁ : IsGreatest s₁.mem Su.last := by
    rw [hmem₁]
    refine ⟨Or.inl hgreatest.1, ?_⟩
    rintro m (hm | hm)
    · exact hgreatest.2 hm
    · exact le_trans hm.2 hfl
  have hlast₁ : s₁.last = Su.last := last_of_isGreatest hs₁ hgreatest₁
  obtain ⟨s₂, hadd₂, hs₂, hmem₂⟩ := add_spec hs₁ (le_refl Su.last) (by omega) hmax
  have hsame : s₂.mem = s₁.mem := by
    rw [hmem₂, Set.Icc_self]
    exact Set.union_eq_self_of_subset_right (Set.singleton_subset_iff.mpr hgreatest₁.1)
  refine ⟨s₂, ?_, hs₂, ?_, hsame ▸ hgreatest₁, hsame.trans hmem₁⟩
  · rw [widened, isEmpty_of_ne hne, if_neg Bool.false_ne_true, hadd₁, Option.bind_some, hlast₁,
      hupper, hadd₂]
  · rw [hsame, hmem₁]
    refine ⟨Or.inr ⟨le_refl _, h⟩, ?_⟩
    rintro m (hm | hm)
    · exact le_trans h (hleast.2 hm)
    · exact hm.1

/-- `Uping` is the range of `Suping`. -/
theorem uping_spec {Suping : SetOfMonads} (hs : Suping.RepInv) :
    ∃ Uping, uping Suping = some Uping ∧ Uping.first = Suping.first ∧
      Uping.last = Suping.last := by
  by_cases hnil : Suping.monadMs = []
  · have hempty : Suping.isEmpty = true := SetOfMonads.isEmpty_iff.mpr hnil
    exact ⟨Suping, by rw [uping, if_pos hempty], rfl, rfl⟩
  · have hleast : IsLeast Suping.mem Suping.first := hs.isLeast_first hnil
    have hgreatest : IsGreatest Suping.mem Suping.last := hs.isGreatest_last hnil
    have hfl : Suping.first ≤ Suping.last := hleast.2 hgreatest.1
    obtain ⟨Uping, hadd, hrep, hmem⟩ := add_spec SetOfMonads.repInv_empty hfl
      (SetOfMonads.inRange_of_mem_cover hs.inRange hleast.1).1
      (SetOfMonads.inRange_of_mem_cover hs.inRange hgreatest.1).2
    rw [SetOfMonads.mem_empty, Set.empty_union] at hmem
    refine ⟨Uping, ?_, first_of_isLeast hrep ?_, last_of_isGreatest hrep ?_⟩
    · rw [uping, isEmpty_of_ne hnil, if_neg Bool.false_ne_true, hadd]
    · exact hmem ▸ isLeast_Icc hfl
    · exact hmem ▸ isGreatest_Icc hfl

end Bounds

end StartMonadInfo

/-! ## 5. Completeness -/

/-- The relation of an object's monads to the substrate. -/
def EMonadSetRelationOperation.Relates : EMonadSetRelationOperation → Set Int → Set Int → Prop
  | .kMSROPartOf, monads, Su => monads ⊆ Su
  | .kMSROStartsIn, monads, Su => ∃ m, IsLeast monads m ∧ m ∈ Su
  | .kMSROOverlap, monads, Su => (monads ∩ Su).Nonempty

namespace StartMonadInfo

/-- The start monads for which `getSMI` has bounds that have not crossed. -/
def InReach (b : StartMonadInfo) (Su : SetOfMonads) (Sm : Int) : Prop :=
  match b.operation with
  | .kMSROPartOf => Sm ≤ Su.last
  | .kMSROStartsIn => Sm ≤ Su.last
  | .kMSROOverlap => max 1 (Sm - b.largestObjectLength) ≤ Su.first

/-- The least start monad that may come. -/
def leastStart (b : StartMonadInfo) (Sm : Int) : Int :=
  match b.operation with
  | .kMSROPartOf => Sm
  | .kMSROStartsIn => Sm
  | .kMSROOverlap => max 1 (Sm - b.largestObjectLength)

section Complete

variable {b : StartMonadInfo} {allM1 Su : SetOfMonads} {Sm : Int}

theorem leastStart_le (hmonads : b.isMonads = true) : b.leastStart Sm ≤ b.lowerBoundSm allM1 Sm := by
  unfold leastStart lowerBoundSm
  rw [if_pos hmonads]
  cases b.operation with
  | kMSROPartOf => exact le_max_right _ _
  | kMSROStartsIn => exact le_max_right _ _
  | kMSROOverlap => exact le_refl _

/-- Below the bounds there is no object that starts in the substrate. -/
theorem narrowed_complete (hall : allM1.RepInv) (hSu : Su.RepInv) (hne : Su.monadMs ≠ [])
    (hsub : Su.mem ⊆ allM1.mem) (hSm : Sm ≤ Su.last) :
    ∃ Suping, narrowed Su (max allM1.first Sm) (min allM1.last Su.last) = some Suping ∧
      Suping.RepInv ∧ ∀ m ∈ Su.mem, Sm ≤ m →
        max allM1.first Sm ≤ m ∧ Suping.first ≤ m ∧ m ≤ Suping.last := by
  have hlast : IsGreatest Su.mem Su.last := hSu.isGreatest_last hne
  have hallne := ne_nil_of_mem (hsub hlast.1)
  have hleastAll : IsLeast allM1.mem allM1.first := hall.isLeast_first hallne
  have hgreatestAll : IsGreatest allM1.mem allM1.last := hall.isGreatest_last hallne
  have hmin := (SetOfMonads.inRange_of_mem_cover hall.inRange hleastAll.1).1
  have hmax := (SetOfMonads.inRange_of_mem_cover hall.inRange hgreatestAll.1).2
  have hle : max allM1.first Sm ≤ min allM1.last Su.last :=
    max_le (le_min (hleastAll.2 hgreatestAll.1) (hleastAll.2 (hsub hlast.1)))
      (le_min (le_trans hSm (hgreatestAll.2 (hsub hlast.1))) hSm)
  obtain ⟨Suping, hsuping, hrep, hmem⟩ := narrowed_spec hSu hne hle
    (le_trans hmin (le_max_left _ _)) (le_trans (min_le_left _ _) hmax)
  refine ⟨Suping, hsuping, hrep, ?_⟩
  intro m hm hSm'
  have hlower : max allM1.first Sm ≤ m := max_le (hleastAll.2 (hsub hm)) hSm'
  have hupper : m ≤ min allM1.last Su.last := le_min (hgreatestAll.2 (hsub hm)) (hlast.2 hm)
  have hin : m ∈ Suping.mem := by
    rw [hmem]
    exact ⟨hm, hlower, hupper⟩
  have hSupne := ne_nil_of_mem hin
  exact ⟨hlower, (hrep.isLeast_first hSupne).2 hin, (hrep.isGreatest_last hSupne).2 hin⟩

/-- An object that overlaps the substrate starts before its end. -/
theorem widened_complete (hall : allM1.RepInv) (hSu : Su.RepInv) (hne : Su.monadMs ≠ [])
    (hsub : Su.mem ⊆ allM1.mem) {lower : Int} (h₀ : 0 ≤ lower) (hlower : lower ≤ Su.first) :
    ∃ Suping, widened Su lower (min allM1.last Su.last) = some Suping ∧
      Suping.RepInv ∧ ∀ m, lower ≤ m → m ≤ Su.last → Suping.first ≤ m ∧ m ≤ Suping.last := by
  have hlast : IsGreatest Su.mem Su.last := hSu.isGreatest_last hne
  have hgreatestAll : IsGreatest allM1.mem allM1.last :=
    hall.isGreatest_last (ne_nil_of_mem (hsub hlast.1))
  obtain ⟨Suping, hsuping, hrep, hleast, hgreatest, -⟩ := widened_spec hSu hne hlower h₀
    (min_eq_right (hgreatestAll.2 (hsub hlast.1)))
  refine ⟨Suping, hsuping, hrep, ?_⟩
  intro m hm hm'
  rw [first_of_isLeast hrep hleast, last_of_isGreatest hrep hgreatest]
  exact ⟨hm, hm'⟩

/-- `Suping` of any relation: an object from the start monad on that is related to the substrate
starts between its bounds. -/
theorem suping_complete (hmonads : b.isMonads = true) (hlength : 0 ≤ b.largestObjectLength)
    (hall : allM1.RepInv) (hSu : Su.RepInv) (hne : Su.monadMs ≠ []) (hsub : Su.mem ⊆ allM1.mem)
    (hSm : 1 ≤ Sm) (hreach : b.InReach Su Sm) :
    ∃ Suping, b.suping allM1 Su Sm = some Suping ∧ Suping.RepInv ∧
      ∀ (monads : Set Int) (m : Int), IsLeast monads m → Sm ≤ m →
        b.operation.Relates monads Su.mem →
        b.lowerBoundSm allM1 Sm ≤ m ∧ Suping.first ≤ m ∧ m ≤ Suping.last := by
  have hupper : b.upperBoundUniverseEnd allM1 Su = min allM1.last Su.last := by
    rw [upperBoundUniverseEnd, if_pos hmonads, isEmpty_of_ne hne, if_neg Bool.false_ne_true]
  revert hreach
  unfold suping InReach lowerBoundSm
  rw [if_pos hmonads, hupper]
  cases b.operation with
  | kMSROPartOf =>
    intro hreach
    obtain ⟨Suping, hsuping, hrep, hin⟩ := narrowed_complete hall hSu hne hsub hreach
    exact ⟨Suping, hsuping, hrep, fun monads m hleast hge hrel => hin m (hrel hleast.1) hge⟩
  | kMSROStartsIn =>
    intro hreach
    obtain ⟨Suping, hsuping, hrep, hin⟩ := narrowed_complete hall hSu hne hsub hreach
    refine ⟨Suping, hsuping, hrep, ?_⟩
    rintro monads m hleast hge ⟨m', hleast', hm'⟩
    rw [hleast.unique hleast'] at hge ⊢
    exact hin m' hm' hge
  | kMSROOverlap =>
    intro hreach
    have h₀ : 0 ≤ max 1 (Sm - b.largestObjectLength) := le_trans zero_le_one (le_max_left _ _)
    obtain ⟨Suping, hsuping, hrep, hin⟩ := widened_complete hall hSu hne hsub h₀ hreach
    refine ⟨Suping, hsuping, hrep, ?_⟩
    rintro monads m hleast hge ⟨m', hm', hSu'⟩
    have hlower : max 1 (Sm - b.largestObjectLength) ≤ m := max_le (by omega) (by omega)
    exact ⟨hlower, hin m hlower (le_trans (hleast.2 hm') ((hSu.isGreatest_last hne).2 hSu'))⟩

/-- **`ObjectBlock::getSMI`** on an object block whose relation is on the monads of the objects: it
returns, its iterator ascends from the least start monad, and no object from the start monad on
that is related to the substrate is missed. -/
theorem getSMI_complete (b : StartMonadInfo) (hmonads : b.isMonads = true)
    (hnotexist : b.isNOTEXIST = false) (hlength : 0 ≤ b.largestObjectLength)
    {allM1 Su : SetOfMonads} (hall : allM1.RepInv) (hSu : Su.RepInv) (hne : Su.monadMs ≠ [])
    (hsub : Su.mem ⊆ allM1.mem) {Sm : Int} (hSm : 1 ≤ Sm) (hreach : b.InReach Su Sm)
    (ins : List (MonadedObject × Nat)) (hkey : ∀ i ∈ ins, i.1.first < nilKey)
    (hrandom : ∀ i ∈ ins, i.2 ≤ maxLevel) (bCameFromBlockString : Bool) :
    ∃ inst smi, SkipList.insertAll (ins.map fun i => (i.1.toInstObject, i.2)) = some inst ∧
      b.getSMI allM1 inst Su Sm bCameFromBlockString = some smi ∧
      smi.monads.Pairwise (· < ·) ∧ (∀ s ∈ smi.monads, b.leastStart Sm ≤ s) ∧
      ∀ i ∈ ins, IsLeast i.1.monads.mem i.1.first → Sm ≤ i.1.first →
        b.operation.Relates i.1.monads.mem Su.mem → i.1.first ∈ smi.monads := by
  obtain ⟨inst, hinst, hspec⟩ := instStartMonads_insertAll
    (ins.map fun i => (i.1.toInstObject, i.2)) (List.forall_mem_map.mpr hkey)
    (List.forall_mem_map.mpr hrandom)
  obtain ⟨Suping, hsuping, hrep, hin⟩ :=
    suping_complete hmonads hlength hall hSu hne hsub hSm hreach
  obtain ⟨Uping, huping, hfirst, hlast⟩ := uping_spec hrep
  have hkeyU : Uping.first ≤ nilKey := by
    rw [hfirst]
    exact le_trans hrep.bounds_inRange.1 (by decide)
  obtain ⟨ks, hks, hasc, hfrom, -, hcomplete⟩ := hspec Uping (b.lowerBoundSm allM1 Sm) hkeyU
  refine ⟨inst, ⟨Suping, ks⟩, hinst, ?_, hasc, ?_, ?_⟩
  · rw [getSMI, hsuping, Option.bind_eq_bind, Option.bind_some, huping, Option.bind_some,
      hnotexist, if_neg Bool.false_ne_true, instStartMonadIterator, hks]
    rfl
  · intro s hs
    exact le_trans (leastStart_le hmonads) (hfrom s hs).1
  · intro i hi hleast hge hrel
    obtain ⟨hlower, hfirst', hlast'⟩ := hin i.1.monads.mem i.1.first hleast hge hrel
    refine hcomplete i.1.toInstObject ?_ hlower (hfirst ▸ hfirst') (hlast ▸ hlast')
    simp only [List.map_map, List.mem_map, Function.comp_apply]
    exact ⟨i, hi, rfl⟩

/-- Otherwise `getSMI` throws, whatever is in the inst. -/
theorem getSMI_of_not_inReach (hmonads : b.isMonads = true) (hne : Su.monadMs ≠ [])
    (hreach : ¬ b.InReach Su Sm) (inst : SkipList) (bCameFromBlockString : Bool) :
    b.getSMI allM1 inst Su Sm bCameFromBlockString = none := by
  have hsuping : b.suping allM1 Su Sm = none := by
    have hupper : b.upperBoundUniverseEnd allM1 Su ≤ Su.last := by
      rw [upperBoundUniverseEnd, if_pos hmonads, isEmpty_of_ne hne, if_neg Bool.false_ne_true]
      exact min_le_right _ _
    revert hreach
    unfold suping InReach lowerBoundSm
    rw [if_pos hmonads]
    cases b.operation with
    | kMSROPartOf =>
      intro hreach
      exact narrowed_of_gt hne
        (lt_of_le_of_lt hupper (lt_of_lt_of_le (not_le.mp hreach) (le_max_right _ _)))
    | kMSROStartsIn =>
      intro hreach
      exact narrowed_of_gt hne
        (lt_of_le_of_lt hupper (lt_of_lt_of_le (not_le.mp hreach) (le_max_right _ _)))
    | kMSROOverlap =>
      intro hreach
      exact widened_of_gt hne (not_le.mp hreach)
  rw [getSMI, hsuping]
  rfl

end Complete

section Example

/-- The range of two monads. -/
def monadRange (first last : Int) (h : first ≤ last) : SetOfMonads :=
  SetOfMonads.empty.addMSE ⟨first, last, h⟩

/-- An object of the range of two monads. -/
def rangeObject (idD : Nat) (first last : Int) (h : first ≤ last) : MonadedObject where
  idD := idD
  first := first
  last := last
  monads := monadRange first last h
  idD_nonneg := Int.natCast_nonneg idD

/-- An object of the monads 3 to 5, and one of the monad 8. -/
def twoObjects : List (MonadedObject × Nat) :=
  [(rangeObject 7 3 5 (by decide), 2), (rangeObject 8 8 8 (by decide), 0)]

/-- `[Object overlap(monads, substrate)]`, or with another relation. -/
def relatedBlock (operation : EMonadSetRelationOperation) : StartMonadInfo where
  operation := operation
  ourMonadSet := Lexer.bytes "monads"
  largestObjectLength := 3
  isNOTEXIST := false
  blockStringHasOnlyNOTEXIST := false

theorem monadRange_repInv {first last : Int} (h : first ≤ last) (h₀ : 0 ≤ first)
    (hmax : last ≤ maxMonad) : (monadRange first last h).RepInv ∧
      (monadRange first last h).mem = Set.Icc first last := by
  have hrange : SetOfMonads.InRange ⟨first, last, h⟩ := ⟨h₀, hmax⟩
  obtain ⟨hrep, hmem⟩ := SetOfMonads.addMSE_spec SetOfMonads.repInv_empty hrange
  refine ⟨hrep, ?_⟩
  rw [monadRange, hmem, SetOfMonads.mem_empty, Set.empty_union]
  rfl

/-- From 6 on in the substrate 4 to 10: the object at 3 overlaps it, and is one of the starts. -/
theorem getSMI_complete_overlap :
    ∃ inst smi, SkipList.insertAll (twoObjects.map fun i => (i.1.toInstObject, i.2)) = some inst ∧
      (relatedBlock .kMSROOverlap).getSMI (monadRange 1 20 (by decide)) inst
        (monadRange 4 10 (by decide)) 6 true = some smi ∧
      smi.monads.Pairwise (· < ·) ∧ (∀ s ∈ smi.monads, 3 ≤ s) ∧
      ∀ i ∈ twoObjects, IsLeast i.1.monads.mem i.1.first → 6 ≤ i.1.first →
        (i.1.monads.mem ∩ (monadRange 4 10 (by decide)).mem).Nonempty →
          i.1.first ∈ smi.monads := by
  have hall := @monadRange_repInv 1 20 (by decide) (by decide) (by decide)
  have hSu := @monadRange_repInv 4 10 (by decide) (by decide) (by decide)
  refine getSMI_complete (relatedBlock .kMSROOverlap) (by decide) rfl (by decide) hall.1 hSu.1
    (by decide) ?_ (by decide) ?_ twoObjects (by decide) (by decide) true
  · rw [hall.2, hSu.2]
    exact Set.Icc_subset_Icc (by decide) (by decide)
  · change max 1 (6 - 3) ≤ (4 : Int)
    decide

/-- With `overlap` a start monad comes before the one asked for, and with `part_of` there is an
exception when that is beyond the substrate. -/
theorem getSMI_overlap_before :
    (∃ inst smi, SkipList.insertAll (twoObjects.map fun i => (i.1.toInstObject, i.2)) = some inst ∧
      (relatedBlock .kMSROOverlap).getSMI (monadRange 1 20 (by decide)) inst
        (monadRange 4 10 (by decide)) 6 true = some smi ∧ ∃ s ∈ smi.monads, s < 6) ∧
    ∀ inst, (relatedBlock .kMSROPartOf).getSMI (monadRange 1 20 (by decide)) inst
      (monadRange 4 10 (by decide)) 11 true = none :=
  ⟨⟨_, _, rfl, rfl, 3, by decide, by decide⟩, fun _ => rfl⟩

end Example

end StartMonadInfo

/-! ## 6. `getSMI` of the other classes -/

/-- What `getSMI` reads of the rest: `all_m_1`, and for each object block its monad set, the length
of the largest object of its type, and whether its block string has only `NOTEXIST` blocks. -/
structure StartMonadEnv where
  allM1 : SetOfMonads
  ourMonadSet : ObjectBlockBase → List UInt8
  largestObjectLength : ObjectBlockBase → Int
  blockStringHasOnlyNOTEXIST : ObjectBlockBase → Bool

section GetSMI

variable {C S σ : Type} (e : StartMonadEnv)

/-- What `ObjectBlock::getSMI` reads of a block. -/
def StartMonadEnv.infoOf (isNOTEXIST : Bool) (info : ObjectBlockInfo C) : StartMonadInfo where
  operation := info.msrc.operation
  ourMonadSet := e.ourMonadSet info.obb
  largestObjectLength := e.largestObjectLength info.obb
  isNOTEXIST := isNOTEXIST
  blockStringHasOnlyNOTEXIST := e.blockStringHasOnlyNOTEXIST info.obb

/-- `ObjectBlock::getSMI`, with the inst made from its objects. -/
def ObjectBlock.getSMI (isNOTEXIST : Bool) : ObjectBlock C → SetOfMonads → Int → Bool →
    Option StartMonadIterator
  | .mk info _, Su, Sm, bCameFromBlockString => do
    let inst ← SkipList.insertAll (info.inst.map fun o => (o.toInstObject, 0))
    (e.infoOf isNOTEXIST info).getSMI e.allM1 inst Su Sm bCameFromBlockString

/-- `Block::getSMI`. -/
def Block.getSMI : Block C → SetOfMonads → SetOfMonads → Int → Bool → Option StartMonadIterator
  | .optGapBlock _, U, _, Sm, _ => monadSetStartMonadIterator U Sm false
  | .gapBlock _, _, Su, Sm, _ => monadSetStartMonadIterator Su Sm true
  | .powerBlock _, _, _, _, _ => none
  | .objectBlockNOTEXIST b, _, Su, Sm, bCameFromBlockString =>
    b.getSMI e true Su Sm bCameFromBlockString
  | .objectBlock b, _, Su, Sm, bCameFromBlockString =>
    b.getSMI e false Su Sm bCameFromBlockString

/-- The iterator of an `OR`, from those of its parts. -/
def orStartMonadIterator (bs2SMI bsSMI : StartMonadIterator) (Sm : Int) :
    Option StartMonadIterator :=
  let newSu := bs2SMI.getSu
  let newSm := if newSu.isEmpty then Sm else min newSu.first Sm
  let newSu := newSu.unionWith bsSMI.getSu
  let newSm := if newSu.isEmpty then newSm else min newSu.first newSm
  monadSetStartMonadIterator newSu newSm false

mutual

/-- `BlockString0::getSMI`. -/
def BlockString0.getSMI : BlockString0 C → SetOfMonads → SetOfMonads → Int →
    Option StartMonadIterator
  | .block b, U, Su, Sm => b.getSMI e U Su Sm true
  | .blockString blockString, U, Su, Sm => blockString.getSMI U Su Sm

/-- `BlockString1::getSMI`. -/
def BlockString1.getSMI : BlockString1 C → SetOfMonads → SetOfMonads → Int →
    Option StartMonadIterator
  | .nonStar blockString0, U, Su, Sm => blockString0.getSMI U Su Sm
  | .star blockString0 starSOM, U, Su, Sm =>
    if starSOM.isMemberOf 0 then monadSetStartMonadIterator Su Sm false
    else blockString0.getSMI U Su Sm

/-- `getBlockString1()->getSMI` on a `BlockString2`. -/
def BlockString2.getSMI : BlockString2 C → SetOfMonads → SetOfMonads → Int →
    Option StartMonadIterator
  | .blockString1 _ blockString1, U, Su, Sm => blockString1.getSMI U Su Sm
  | .sequence _ blockString1 _, U, Su, Sm => blockString1.getSMI U Su Sm

/-- `BlockString::getSMI`. -/
def BlockString.getSMI : BlockString C → SetOfMonads → SetOfMonads → Int →
    Option StartMonadIterator
  | .blockString2 blockString2, U, Su, Sm => blockString2.getSMI U Su Sm
  | .or blockString2 blockString, U, Su, Sm => do
    let bs2SMI ← blockString2.getSMI U Su Sm
    let bsSMI ← blockString.getSMI U Su Sm
    orStartMonadIterator bs2SMI bsSMI Sm

end

/-- The environment whose start monads are those of `getSMI`; only `R_block` on a `NOTEXIST` block
asks for those of an object block without coming from a block string. -/
def QueryEnv.withStartMonads (env : QueryEnv C S σ) : QueryEnv C S σ :=
  { env with
    getSMIBlockString := fun b U Su Sm =>
      Partial.ofOption ((b.getSMI e U Su Sm).map StartMonadIterator.monads)
    getSMIBlockString1 := fun b U Su Sm =>
      Partial.ofOption ((b.getSMI e U Su Sm).map StartMonadIterator.monads)
    getSMIObjectBlock := fun b _ Su Sm bCameFromBlockString =>
      Partial.ofOption ((b.getSMI e (!bCameFromBlockString) Su Sm bCameFromBlockString).map
        StartMonadIterator.monads) }

end GetSMI

end Emdros
