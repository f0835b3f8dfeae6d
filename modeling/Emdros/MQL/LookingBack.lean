/-
# Matches from before the lower limit

Behind a power block, `R_block_string2` asks `getSMI` for the start monads from the lower limit on,
and tests each against the upper limit only.  Which blocks make `getSMI` begin earlier is read off
the block that comes next and off the data (`BlockString1.BackTo`): an object block does for
`overlap`, by the length of the largest object, and for a relation on another monad set, where the
bound is 1; so does a `NOTEXIST` block, and an `OR` begins again at the start of the sets that its
parts walk through.

A string `LooksBack` if some match of the block in front of a power block is followed by such an
early start monad from where the rest of the string matches.  The matches keep to their lower limits
if it does not, and exactly then if the blocks are settled (`rBlockString2_inOrder_iff`).
-/
import Emdros.MQL.SearchedStarts
import Emdros.MQL.Spans

namespace Emdros

open Partial SpanList IntGaps

/-! ## 1. What iterators yield before the monad that they are asked for -/

section BackTo

variable {C : Type} (e : StartMonadEnv) (U Su : SetOfMonads) (Sm : Int)

/-- `Suping` has the monad. -/
def ObjectBlockInfo.Walks (info : ObjectBlockInfo C) (isNOTEXIST : Bool) (s : Int) : Prop :=
  ∃ Suping, (e.infoOf isNOTEXIST info).suping e.allM1 Su Sm = some Suping ∧ s ∈ Suping.mem

/-- An object of the inst starts there, and neither the lower bound nor `Suping` leaves it out. -/
def ObjectBlockInfo.FindsEarly (info : ObjectBlockInfo C) (s : Int) : Prop :=
  (∃ o ∈ info.inst, o.first = s) ∧ (e.infoOf false info).lowerBoundSm e.allM1 Sm ≤ s ∧
    ∃ Suping, (e.infoOf false info).suping e.allM1 Su Sm = some Suping ∧ Suping.first ≤ s

/-- The monad is in the set that the iterator of a block walks through. -/
def Block.Walks : Block C → Int → Prop
  | .optGapBlock _, s => s ∈ U.mem
  | .gapBlock _, s => s ∈ gaps Su.mem
  | .powerBlock _, _ => False
  | .objectBlock (.mk info _), s => info.Walks e Su Sm false s
  | .objectBlockNOTEXIST (.mk info _), s =>
    if e.blockStringHasOnlyNOTEXIST info.obb then
      s = (e.infoOf true info).lowerBoundSm e.allM1 Sm
    else info.Walks e Su Sm true s

/-- The iterator of a block yields the monad although it is before the one asked for. -/
def Block.BackTo : Block C → Int → Prop
  | .optGapBlock _, _ => False
  | .gapBlock _, _ => False
  | .powerBlock _, _ => False
  | .objectBlock (.mk info _), s => info.FindsEarly e Su Sm s
  | .objectBlockNOTEXIST (.mk info optBlocks), s =>
    (e.infoOf true info).lowerBoundSm e.allM1 Sm ≤ s ∧
      (Block.objectBlockNOTEXIST (.mk info optBlocks)).Walks e U Su Sm s

mutual

def BlockString0.Walks : BlockString0 C → Int → Prop
  | .block b, s => b.Walks e U Su Sm s
  | .blockString b, s => b.Walks s

def BlockString1.Walks : BlockString1 C → Int → Prop
  | .nonStar b, s => b.Walks s
  | .star b starSOM, s => if starSOM.isMemberOf 0 then s ∈ Su.mem else b.Walks s

def BlockString2.Walks : BlockString2 C → Int → Prop
  | .blockString1 _ b, s => b.Walks s
  | .sequence _ b _, s => b.Walks s

def BlockString.Walks : BlockString C → Int → Prop
  | .blockString2 b, s => b.Walks s
  | .or b rest, s => b.Walks s ∨ rest.Walks s

end

mutual

/-- The iterator of a string is that of its first block; an `OR` walks through all of the sets of
its parts. -/
def BlockString0.BackTo : BlockString0 C → Int → Prop
  | .block b, s => b.BackTo e U Su Sm s
  | .blockString b, s => b.BackTo s

def BlockString1.BackTo : BlockString1 C → Int → Prop
  | .nonStar b, s => b.BackTo s
  | .star b starSOM, s => starSOM.isMemberOf 0 = false ∧ b.BackTo s

def BlockString2.BackTo : BlockString2 C → Int → Prop
  | .blockString1 _ b, s => b.BackTo s
  | .sequence _ b _, s => b.BackTo s

def BlockString.BackTo : BlockString C → Int → Prop
  | .blockString2 b, s => b.BackTo s
  | .or b rest, s => b.Walks e U Su Sm s ∨ rest.Walks e U Su Sm s

end

/-- What the callers of `R_block_string2` promise of the sets, and the database of the lengths. -/
structure StartMonadEnv.Promised (e : StartMonadEnv) (U Su : SetOfMonads) : Prop where
  allM1 : e.allM1.RepInv
  universeRep : U.RepInv
  substrateRep : Su.RepInv
  subset : Su.mem ⊆ e.allM1.mem
  length : ∀ obb, 0 ≤ e.largestObjectLength obb

end BackTo

/-! ## 2. The iterators -/

namespace StartMonadInfo

variable {b : StartMonadInfo} {allM1 Su Suping : SetOfMonads} {Sm s : Int}

theorem lowerBoundSm_nonneg (hall : allM1.RepInv) (hne : allM1.monadMs ≠ []) :
    0 ≤ b.lowerBoundSm allM1 Sm := by
  have hfirst : 0 ≤ allM1.first :=
    (SetOfMonads.inRange_of_mem_cover hall.inRange (hall.isLeast_first hne).1).1
  unfold lowerBoundSm
  split
  · split <;> omega
  · exact zero_le_one

/-- The lower bound is one of the database, or before the start monad. -/
theorem lowerBoundSm_le (hall : allM1.RepInv) (hlength : 0 ≤ b.largestObjectLength)
    (hSm : Sm ≤ maxMonad) : b.lowerBoundSm allM1 Sm ≤ maxMonad := by
  have hfirst : allM1.first ≤ maxMonad := hall.bounds_inRange.1
  have hone : (1 : Int) ≤ maxMonad := by decide
  unfold lowerBoundSm
  split
  · split <;> omega
  · exact hone

theorem upperBoundUniverseEnd_le (hall : allM1.RepInv) :
    b.upperBoundUniverseEnd allM1 Su ≤ maxMonad := by
  have hlast : allM1.last ≤ maxMonad := by
    by_cases hne : allM1.monadMs = []
    · rw [SetOfMonads.last, (hall.empty_eq hne).2]
      decide
    · exact (SetOfMonads.inRange_of_mem_cover hall.inRange (hall.isGreatest_last hne).1).2
  unfold upperBoundUniverseEnd
  split
  · split
    · exact hlast
    · exact le_trans (min_le_left _ _) hlast
  · exact le_rfl

theorem le_of_add {som som' : SetOfMonads} {lower upper : Int}
    (h : som.add lower upper = some som') : lower ≤ upper := by
  by_contra hlt
  rw [add_of_gt som (not_le.mp hlt)] at h
  cases h

/-- `Suping` where there is a substrate.  It ends behind whatever is looked up before the start
monad, since that is not behind the end of the substrate. -/
theorem suping_of_some (hall : allM1.RepInv) (hSu : Su.RepInv) (hne : Su.monadMs ≠ [])
    (hallne : allM1.monadMs ≠ []) (h : b.suping allM1 Su Sm = some Suping) :
    Suping.RepInv ∧ (b.lowerBoundSm allM1 Sm ≤ s → s < Sm → Sm ≤ Su.last → s ≤ Suping.last) := by
  have hzero : 0 ≤ b.lowerBoundSm allM1 Sm := lowerBoundSm_nonneg hall hallne
  have hupper : b.upperBoundUniverseEnd allM1 Su ≤ maxMonad := upperBoundUniverseEnd_le hall
  have hgreatest : IsGreatest Su.mem Su.last := hSu.isGreatest_last hne
  have hnarrowed : b.operation ≠ .kMSROOverlap →
      narrowed Su (b.lowerBoundSm allM1 Sm) (b.upperBoundUniverseEnd allM1 Su) = some Suping →
      Suping.RepInv ∧ (b.lowerBoundSm allM1 Sm ≤ s → s < Sm → Sm ≤ Su.last → s ≤ Suping.last) := by
    intro hop hsuping
    have hle : b.lowerBoundSm allM1 Sm ≤ b.upperBoundUniverseEnd allM1 Su := by
      by_contra hgt
      rw [narrowed_of_gt hne (not_le.mp hgt)] at hsuping
      cases hsuping
    obtain ⟨Suping', hsuping', hrep, hmem⟩ := narrowed_spec hSu hne hle hzero hupper
    cases hsuping.symm.trans hsuping'
    refine ⟨hrep, fun hlower hlt hlast => ?_⟩
    -- the relation is on another monad set, so the bounds are 1 and the greatest monad
    have hmonads : b.isMonads = false := by
      rw [Bool.eq_false_iff]
      intro hmonads
      unfold lowerBoundSm at hlower
      rw [if_pos hmonads] at hlower
      cases hoperation : b.operation with
      | kMSROOverlap => exact hop hoperation
      | kMSROPartOf =>
        rw [hoperation] at hlower
        dsimp only at hlower
        omega
      | kMSROStartsIn =>
        rw [hoperation] at hlower
        dsimp only at hlower
        omega
    have hlowerOne : b.lowerBoundSm allM1 Sm = 1 := by
      rw [lowerBoundSm, hmonads, if_neg Bool.false_ne_true]
    have hupperMax : b.upperBoundUniverseEnd allM1 Su = maxMonad := by
      rw [upperBoundUniverseEnd, hmonads, if_neg Bool.false_ne_true]
    have hmax := (SetOfMonads.inRange_of_mem_cover hSu.inRange hgreatest.1).2
    have hin : Su.last ∈ Suping.mem := by
      rw [hmem, hlowerOne, hupperMax]
      exact ⟨hgreatest.1, by omega, hmax⟩
    have := (hrep.isGreatest_last (ne_nil_of_mem hin)).2 hin
    exact le_trans (le_of_lt (lt_of_lt_of_le hlt hlast)) this
  unfold suping at h
  cases hop : b.operation with
  | kMSROPartOf =>
    rw [hop] at h
    exact hnarrowed (by rw [hop]; decide) h
  | kMSROStartsIn =>
    rw [hop] at h
    exact hnarrowed (by rw [hop]; decide) h
  | kMSROOverlap =>
    rw [hop] at h
    dsimp only at h
    rw [widened, isEmpty_of_ne hne, if_neg Bool.false_ne_true] at h
    obtain ⟨s₁, hadd₁, hadd₂⟩ := Option.bind_eq_some_iff.mp h
    have hmax := (SetOfMonads.inRange_of_mem_cover hSu.inRange (hSu.isLeast_first hne).1).2
    obtain ⟨s₁', hadd₁', hrep₁, hmem₁⟩ := add_spec hSu (le_of_add hadd₁) hzero hmax
    cases hadd₁.symm.trans hadd₁'
    obtain ⟨s₂', hadd₂', hrep₂, hmem₂⟩ :=
      add_spec hrep₁ (le_of_add hadd₂) hrep₁.bounds_inRange.2 hupper
    cases hadd₂.symm.trans hadd₂'
    refine ⟨hrep₂, fun _ hlt hlast => ?_⟩
    have hin : Su.last ∈ Suping.mem := by
      rw [hmem₂, hmem₁]
      exact Or.inl (Or.inl hgreatest.1)
    have := (hrep₂.isGreatest_last (ne_nil_of_mem hin)).2 hin
    exact le_trans (le_of_lt (lt_of_lt_of_le hlt hlast)) this

end StartMonadInfo

/-- What an iterator is like: it ascends, its set is the one it walks through, and before the monad
asked for it yields just those that it goes back to. -/
structure StartMonadIterator.Yields (smi : StartMonadIterator) (walks backTo : Int → Prop)
    (Sm : Int) : Prop where
  ascending : smi.monads.Pairwise (· < ·)
  repInv : smi.getSu.RepInv
  walks : ∀ s, s ∈ smi.getSu.mem ↔ walks s
  back : ∀ s, s < Sm → (s ∈ smi.monads ↔ backTo s)

section Iterators

variable {C : Type} {e : StartMonadEnv} {U Su : SetOfMonads} {Sm : Int}

/-- An iterator over the monads of a set from some monad on. -/
theorem yields_monads {som : SetOfMonads} (hsom : som.RepInv) {walks backTo : Int → Prop}
    {from_ : Int} (hwalks : ∀ s, s ∈ som.mem ↔ walks s)
    (hback : ∀ s, s < Sm → (s ∈ som.mem ∧ from_ ≤ s ↔ backTo s)) :
    StartMonadIterator.Yields ⟨som, som.constMonads.dropWhile fun current => current < from_⟩
      walks backTo Sm := by
  refine ⟨(SetOfMonads.constMonads_ascends hsom).sublist (List.dropWhile_sublist _), hsom, hwalks,
    fun s hs => ?_⟩
  rw [mem_dropWhile_lt ((SetOfMonads.constMonads_ascends hsom).imp le_of_lt),
    SetOfMonads.mem_constMonads hsom]
  exact hback s hs

theorem objectBlock_yields (h : e.Promised U Su) (hne : Su.monadMs ≠ []) (hSm : Sm ≤ Su.last)
    {info : ObjectBlockInfo C} {optBlocks : OptBlocks C}
    (hinst : (Block.objectBlock (.mk info optBlocks)).InstSound) {smi : StartMonadIterator}
    (hsmi : (ObjectBlock.mk info optBlocks).getSMI e false Su Sm true = some smi) :
    smi.Yields (info.Walks e Su Sm false) (info.FindsEarly e Su Sm) Sm := by
  have hallne : e.allM1.monadMs ≠ [] :=
    StartMonadInfo.ne_nil_of_mem (h.subset (h.substrateRep.isLeast_first hne).1)
  have hkey : ∀ o ∈ info.inst, o.first < nilKey := fun o ho => by
    obtain ⟨hrep, hone, hfirst, -⟩ := hinst o ho
    rw [← hfirst]
    exact lt_of_le_of_lt hrep.bounds_inRange.1 (by decide)
  obtain ⟨inst, hinsert, hspec⟩ := instStartMonads_insertAll
    (info.inst.map fun o => (o.toInstObject, 0)) (List.forall_mem_map.mpr hkey)
    (List.forall_mem_map.mpr fun o _ => Nat.zero_le _)
  rw [List.map_map] at hspec
  rw [ObjectBlock.getSMI, hinsert, Option.bind_eq_bind, Option.bind_some,
    StartMonadInfo.getSMI] at hsmi
  obtain ⟨Suping, hsuping, hsmi⟩ := Option.bind_eq_some_iff.mp hsmi
  obtain ⟨Uping, huping, hsmi⟩ := Option.bind_eq_some_iff.mp hsmi
  change instStartMonadIterator inst Uping Suping _ = some smi at hsmi
  have hsound := fun s => StartMonadInfo.suping_of_some (s := s) h.allM1 h.substrateRep hne hallne
    hsuping
  have hrep := (hsound 0).1
  obtain ⟨Uping', huping', hfirst, hlast⟩ := StartMonadInfo.uping_spec hrep
  cases huping.symm.trans huping'
  obtain ⟨ks, hks, hstarts⟩ := hspec Uping ((e.infoOf false info).lowerBoundSm e.allM1 Sm)
    (hfirst ▸ le_trans hrep.bounds_inRange.1 (by decide))
  rw [instStartMonadIterator, hks] at hsmi
  cases hsmi
  refine ⟨hstarts.ascending, hrep, fun s => ⟨fun hs => ⟨Suping, hsuping, hs⟩, ?_⟩,
    fun s hs => ⟨fun hk => ?_, ?_⟩⟩
  · rintro ⟨Suping', hsuping', hs⟩
    cases hsuping.symm.trans hsuping'
    exact hs
  · obtain ⟨o, ho, hofirst⟩ := hstarts.of_object s hk
    obtain ⟨o', ho', rfl⟩ := List.mem_map.mp ho
    obtain ⟨hlower, hUping⟩ := hstarts.from_Sm s hk
    exact ⟨⟨o', ho', hofirst⟩, hlower, Suping, hsuping, hfirst ▸ hUping⟩
  · rintro ⟨⟨o, ho, rfl⟩, hlower, Suping', hsuping', hge⟩
    cases hsuping.symm.trans hsuping'
    refine hstarts.complete o.toInstObject (List.mem_map_of_mem ho) hlower (hfirst ▸ hge) ?_
    exact hlast ▸ (hsound o.first).2 hlower hs hSm

theorem notExist_yields (h : e.Promised U Su) (hne : Su.monadMs ≠ []) (hSm : Sm ≤ Su.last)
    {info : ObjectBlockInfo C} {optBlocks : OptBlocks C} {smi : StartMonadIterator}
    (hsmi : (ObjectBlock.mk info optBlocks).getSMI e true Su Sm true = some smi) :
    smi.Yields ((Block.objectBlockNOTEXIST (.mk info optBlocks)).Walks e U Su Sm)
      ((Block.objectBlockNOTEXIST (.mk info optBlocks)).BackTo e U Su Sm) Sm := by
  have hallne : e.allM1.monadMs ≠ [] :=
    StartMonadInfo.ne_nil_of_mem (h.subset (h.substrateRep.isLeast_first hne).1)
  have hmax : Su.last ≤ maxMonad :=
    (SetOfMonads.inRange_of_mem_cover h.substrateRep.inRange
      (h.substrateRep.isGreatest_last hne).1).2
  rw [ObjectBlock.getSMI] at hsmi
  obtain ⟨inst, -, hsmi⟩ := Option.bind_eq_some_iff.mp hsmi
  rw [StartMonadInfo.getSMI] at hsmi
  obtain ⟨Suping, hsuping, hsmi⟩ := Option.bind_eq_some_iff.mp hsmi
  obtain ⟨Uping, -, hsmi⟩ := Option.bind_eq_some_iff.mp hsmi
  change (if (e.blockStringHasOnlyNOTEXIST info.obb && true) = true then _ else _) = some smi
    at hsmi
  rw [Bool.and_true] at hsmi
  by_cases honly : e.blockStringHasOnlyNOTEXIST info.obb = true
  · rw [if_pos honly] at hsmi
    cases hsmi
    have hlower : 0 ≤ (e.infoOf true info).lowerBoundSm e.allM1 Sm :=
      StartMonadInfo.lowerBoundSm_nonneg h.allM1 hallne
    have hupper := StartMonadInfo.lowerBoundSm_le (b := e.infoOf true info) h.allM1
      (h.length info.obb) (le_trans hSm hmax)
    obtain ⟨hrep, hmem⟩ := StartMonadInfo.monadRange_repInv
      (le_refl ((e.infoOf true info).lowerBoundSm e.allM1 Sm)) hlower hupper
    refine yields_monads hrep (fun s => ?_) fun s _ => ?_
    · rw [hmem, Set.Icc_self, Set.mem_singleton_iff, Block.Walks, if_pos honly]
    · rw [hmem, Set.Icc_self, Set.mem_singleton_iff, Block.BackTo, Block.Walks, if_pos honly,
        and_comm]
  · rw [if_neg honly] at hsmi
    cases hsmi
    have hrep :=
      (StartMonadInfo.suping_of_some (s := 0) h.allM1 h.substrateRep hne hallne hsuping).1
    have hwalks : ∀ s, s ∈ Suping.mem ↔ info.Walks e Su Sm true s := fun s => by
      refine ⟨fun hs => ⟨Suping, hsuping, hs⟩, ?_⟩
      rintro ⟨Suping', hsuping', hs⟩
      cases hsuping.symm.trans hsuping'
      exact hs
    refine yields_monads hrep (fun s => ?_) fun s _ => ?_
    · rw [Block.Walks, if_neg honly, hwalks]
    · rw [Block.BackTo, Block.Walks, if_neg honly, hwalks, and_comm]

theorem block_yields (h : e.Promised U Su) (hne : Su.monadMs ≠ []) (hSm : Sm ≤ Su.last) :
    ∀ {b : Block C} {smi : StartMonadIterator}, b.InstSound → b.getSMI e U Su Sm true = some smi →
      smi.Yields (b.Walks e U Su Sm) (b.BackTo e U Su Sm) Sm
  | .optGapBlock b, smi, _, hsmi => by
    rw [Block.getSMI, monadSetStartMonadIterator, if_neg Bool.false_ne_true] at hsmi
    cases hsmi
    exact yields_monads h.universeRep (fun s => Iff.rfl)
      fun s hs => iff_of_false (fun hin => not_lt.mpr hin.2 hs) id
  | .gapBlock b, smi, _, hsmi => by
    obtain ⟨r, hr, hrep, hmem⟩ := SetOfMonads.getGaps_spec h.substrateRep
    rw [Block.getSMI, monadSetStartMonadIterator, if_pos rfl, hr] at hsmi
    cases hsmi
    exact yields_monads hrep (fun s => by rw [hmem, Block.Walks])
      fun s hs => iff_of_false (fun hin => not_lt.mpr hin.2 hs) id
  | .objectBlock (.mk info optBlocks), smi, hb, hsmi => by
    rw [Block.getSMI] at hsmi
    exact objectBlock_yields h hne hSm hb hsmi
  | .objectBlockNOTEXIST (.mk info optBlocks), smi, _, hsmi => by
    rw [Block.getSMI] at hsmi
    exact notExist_yields h hne hSm hsmi

/-- The iterator of an `OR` begins at the first monad of the sets of its parts. -/
theorem or_yields {walks walks' backTo backTo' : Int → Prop} {smi smi' both : StartMonadIterator}
    (h : smi.Yields walks backTo Sm) (h' : smi'.Yields walks' backTo' Sm)
    (hboth : orStartMonadIterator smi smi' Sm = some both) :
    both.Yields (fun s => walks s ∨ walks' s) (fun s => walks s ∨ walks' s) Sm := by
  obtain ⟨hrep, hmem⟩ := SetOfMonads.unionWith_spec h.repInv h'.repInv
  have hwalks : ∀ s, s ∈ (smi.getSu.unionWith smi'.getSu).mem ↔ walks s ∨ walks' s := fun s => by
    rw [hmem, Set.mem_union, h.walks, h'.walks]
  cases hboth
  refine yields_monads hrep hwalks fun s _ => ?_
  rw [← hwalks s]
  refine and_iff_left_of_imp fun hs => ?_
  have hne := StartMonadInfo.ne_nil_of_mem hs
  rw [StartMonadInfo.isEmpty_of_ne hne, if_neg Bool.false_ne_true]
  exact le_trans (min_le_left _ _) ((hrep.isLeast_first hne).2 hs)

mutual

theorem blockString0_yields (h : e.Promised U Su) (hne : Su.monadMs ≠ []) (hSm : Sm ≤ Su.last) :
    ∀ {b : BlockString0 C} {smi : StartMonadIterator}, b.AllBlocks Block.InstSound →
      b.getSMI e U Su Sm = some smi → smi.Yields (b.Walks e U Su Sm) (b.BackTo e U Su Sm) Sm
  | .block b, smi, hb, hsmi => by
    rw [BlockString0.getSMI] at hsmi
    exact block_yields h hne hSm hb hsmi
  | .blockString b, smi, hb, hsmi => by
    rw [BlockString0.getSMI] at hsmi
    exact blockString_yields h hne hSm hb hsmi

theorem blockString1_yields (h : e.Promised U Su) (hne : Su.monadMs ≠ []) (hSm : Sm ≤ Su.last) :
    ∀ {b : BlockString1 C} {smi : StartMonadIterator}, b.AllBlocks Block.InstSound →
      b.getSMI e U Su Sm = some smi → smi.Yields (b.Walks e U Su Sm) (b.BackTo e U Su Sm) Sm
  | .nonStar b, smi, hb, hsmi => by
    rw [BlockString1.getSMI] at hsmi
    exact blockString0_yields h hne hSm hb hsmi
  | .star b starSOM, smi, hb, hsmi => by
    rw [BlockString1.getSMI] at hsmi
    by_cases hzero : starSOM.isMemberOf 0 = true
    · rw [if_pos hzero, monadSetStartMonadIterator, if_neg Bool.false_ne_true] at hsmi
      cases hsmi
      refine yields_monads h.substrateRep (fun s => ?_) fun s hs => ?_
      · rw [BlockString1.Walks, if_pos hzero]
      · rw [BlockString1.BackTo, hzero]
        exact iff_of_false (fun hin => not_lt.mpr hin.2 hs) fun hback => Bool.noConfusion hback.1
    · rw [if_neg hzero] at hsmi
      have hyields := blockString0_yields h hne hSm hb hsmi
      refine ⟨hyields.ascending, hyields.repInv, fun s => ?_, fun s hs => ?_⟩
      · rw [BlockString1.Walks, if_neg hzero, hyields.walks]
      · rw [BlockString1.BackTo, and_iff_right (Bool.eq_false_iff.mpr hzero), hyields.back s hs]

theorem blockString2_yields (h : e.Promised U Su) (hne : Su.monadMs ≠ []) (hSm : Sm ≤ Su.last) :
    ∀ {b : BlockString2 C} {smi : StartMonadIterator}, b.AllBlocks Block.InstSound →
      b.getSMI e U Su Sm = some smi → smi.Yields (b.Walks e U Su Sm) (b.BackTo e U Su Sm) Sm
  | .blockString1 _ b, smi, hb, hsmi => by
    rw [BlockString2.getSMI] at hsmi
    exact blockString1_yields h hne hSm hb hsmi
  | .sequence _ b _, smi, hb, hsmi => by
    rw [BlockString2.getSMI] at hsmi
    exact blockString1_yields h hne hSm hb.1 hsmi

theorem blockString_yields (h : e.Promised U Su) (hne : Su.monadMs ≠ []) (hSm : Sm ≤ Su.last) :
    ∀ {b : BlockString C} {smi : StartMonadIterator}, b.AllBlocks Block.InstSound →
      b.getSMI e U Su Sm = some smi → smi.Yields (b.Walks e U Su Sm) (b.BackTo e U Su Sm) Sm
  | .blockString2 b, smi, hb, hsmi => by
    rw [BlockString.getSMI] at hsmi
    exact blockString2_yields h hne hSm hb hsmi
  | .or b rest, smi, hb, hsmi => by
    rw [BlockString.getSMI] at hsmi
    obtain ⟨smi₁, hsmi₁, hsmi⟩ := Option.bind_eq_some_iff.mp hsmi
    obtain ⟨smi₂, hsmi₂, hsmi⟩ := Option.bind_eq_some_iff.mp hsmi
    exact or_yields (blockString2_yields h hne hSm hb.1 hsmi₁)
      (blockString_yields h hne hSm hb.2 hsmi₂) hsmi

end

end Iterators

/-! ## 3. Blocks that do not look back -/

section Kinds

variable {C : Type} (e : StartMonadEnv)

/-- The relation of the block is on `monads` and is not `overlap`.  In an `OR` a gap begins again at
the first gap, so it does not count there. -/
def Block.KeepsForward (inOr : Bool) : Block C → Prop
  | .gapBlock _ => inOr = false
  | .optGapBlock _ => inOr = false
  | .powerBlock _ => True
  | .objectBlock (.mk info _) =>
    (e.infoOf false info).isMonads = true ∧ info.msrc.operation ≠ .kMSROOverlap
  | .objectBlockNOTEXIST (.mk info _) =>
    (e.infoOf true info).isMonads = true ∧ info.msrc.operation ≠ .kMSROOverlap

mutual

def BlockString0.KeepsForward (inOr : Bool) : BlockString0 C → Prop
  | .block b => b.KeepsForward e inOr
  | .blockString b => b.KeepsForward inOr

def BlockString1.KeepsForward (inOr : Bool) : BlockString1 C → Prop
  | .nonStar b => b.KeepsForward inOr
  | .star b starSOM => if starSOM.isMemberOf 0 then inOr = false else b.KeepsForward inOr

def BlockString2.KeepsForward (inOr : Bool) : BlockString2 C → Prop
  | .blockString1 _ b => b.KeepsForward inOr
  | .sequence _ b _ => b.KeepsForward inOr

def BlockString.KeepsForward (inOr : Bool) : BlockString C → Prop
  | .blockString2 b => b.KeepsForward inOr
  | .or b rest => b.KeepsForward true ∧ rest.KeepsForward true

end

/-- The first block of a string is of such a kind, and the objects of its inst are in order. -/
def BlockString1.StaysForward (b : BlockString1 C) : Prop :=
  b.AllBlocks Block.InstSound ∧ b.KeepsForward e false

variable {e} {U Su : SetOfMonads} {Sm s : Int} {inOr : Bool}

/-- `Suping` begins at the start monad. -/
theorem le_of_walks (h : e.Promised U Su) (hSm : Sm ≤ Su.last) {info : ObjectBlockInfo C}
    {isNOTEXIST : Bool} (hmonads : (e.infoOf isNOTEXIST info).isMonads = true)
    (hop : info.msrc.operation ≠ .kMSROOverlap) (hs : info.Walks e Su Sm isNOTEXIST s) :
    Sm ≤ s := by
  obtain ⟨Suping, hsuping, hs⟩ := hs
  obtain ⟨Suping', hsuping', -, hmem⟩ := StartMonadInfo.suping_spec
    (b := e.infoOf isNOTEXIST info) hmonads hop h.allM1 h.substrateRep h.subset fun _ => hSm
  cases hsuping.symm.trans hsuping'
  rw [hmem] at hs
  exact le_trans (le_max_right _ _) hs.2

theorem le_of_lowerBoundSm {info : ObjectBlockInfo C} {isNOTEXIST : Bool}
    (hmonads : (e.infoOf isNOTEXIST info).isMonads = true)
    (hop : info.msrc.operation ≠ .kMSROOverlap)
    (hs : (e.infoOf isNOTEXIST info).lowerBoundSm e.allM1 Sm ≤ s) : Sm ≤ s := by
  rw [StartMonadInfo.lowerBoundSm_eq (b := e.infoOf isNOTEXIST info) hmonads hop] at hs
  exact le_trans (le_max_right _ _) hs

theorem block_keepsForward (h : e.Promised U Su) (hSm : Sm ≤ Su.last) (hs : s < Sm) :
    ∀ {b : Block C}, b.KeepsForward e inOr →
      ¬ b.BackTo e U Su Sm s ∧ (inOr = true → ¬ b.Walks e U Su Sm s)
  | .gapBlock _, hb => ⟨id, fun hin => Bool.noConfusion (hb.symm.trans hin)⟩
  | .optGapBlock _, hb => ⟨id, fun hin => Bool.noConfusion (hb.symm.trans hin)⟩
  | .powerBlock _, _ => ⟨id, fun _ => id⟩
  | .objectBlock (.mk info _), hb =>
    ⟨fun hback => not_le.mpr hs (le_of_lowerBoundSm hb.1 hb.2 hback.2.1),
      fun _ hwalks => not_le.mpr hs (le_of_walks h hSm hb.1 hb.2 hwalks)⟩
  | .objectBlockNOTEXIST (.mk info optBlocks), hb => by
    refine ⟨fun hback => not_le.mpr hs (le_of_lowerBoundSm hb.1 hb.2 hback.1), fun _ hwalks => ?_⟩
    rw [Block.Walks] at hwalks
    split at hwalks
    · exact not_le.mpr hs (le_of_lowerBoundSm hb.1 hb.2 (ge_of_eq hwalks))
    · exact not_le.mpr hs (le_of_walks h hSm hb.1 hb.2 hwalks)

mutual

theorem BlockString0.not_backTo (h : e.Promised U Su) (hSm : Sm ≤ Su.last) (hs : s < Sm)
    {inOr : Bool} : ∀ {b : BlockString0 C}, b.KeepsForward e inOr →
      ¬ b.BackTo e U Su Sm s ∧ (inOr = true → ¬ b.Walks e U Su Sm s)
  | .block _, hb => block_keepsForward h hSm hs hb
  | .blockString _, hb => BlockString.not_backTo h hSm hs hb

theorem BlockString1.not_backTo (h : e.Promised U Su) (hSm : Sm ≤ Su.last) (hs : s < Sm)
    {inOr : Bool} : ∀ {b : BlockString1 C}, b.KeepsForward e inOr →
      ¬ b.BackTo e U Su Sm s ∧ (inOr = true → ¬ b.Walks e U Su Sm s)
  | .nonStar _, hb => BlockString0.not_backTo h hSm hs hb
  | .star b starSOM, hb => by
    rw [BlockString1.KeepsForward] at hb
    rw [BlockString1.BackTo, BlockString1.Walks]
    by_cases hzero : starSOM.isMemberOf 0 = true
    · rw [if_pos hzero] at hb
      rw [hzero]
      exact ⟨fun hback => Bool.noConfusion hback.1, fun hin => Bool.noConfusion (hb.symm.trans hin)⟩
    · rw [if_neg hzero] at hb ⊢
      obtain ⟨hback, hwalks⟩ := BlockString0.not_backTo h hSm hs hb
      exact ⟨fun h => hback h.2, hwalks⟩

theorem BlockString2.not_backTo (h : e.Promised U Su) (hSm : Sm ≤ Su.last) (hs : s < Sm)
    {inOr : Bool} : ∀ {b : BlockString2 C}, b.KeepsForward e inOr →
      ¬ b.BackTo e U Su Sm s ∧ (inOr = true → ¬ b.Walks e U Su Sm s)
  | .blockString1 _ _, hb => BlockString1.not_backTo h hSm hs hb
  | .sequence _ _ _, hb => BlockString1.not_backTo h hSm hs hb

theorem BlockString.not_backTo (h : e.Promised U Su) (hSm : Sm ≤ Su.last) (hs : s < Sm)
    {inOr : Bool} : ∀ {b : BlockString C}, b.KeepsForward e inOr →
      ¬ b.BackTo e U Su Sm s ∧ (inOr = true → ¬ b.Walks e U Su Sm s)
  | .blockString2 _, hb => BlockString2.not_backTo h hSm hs hb
  | .or _ _, hb => by
    have hfirst := (BlockString2.not_backTo h hSm hs hb.1).2 rfl
    have hrest := (BlockString.not_backTo h hSm hs hb.2).2 rfl
    exact ⟨fun hback => hback.elim hfirst hrest, fun _ hwalks => hwalks.elim hfirst hrest⟩

end

/-- Their iterators do not look back. -/
theorem BlockString1.StaysForward.looksForward {S σ : Type} {env : QueryEnv C S σ}
    (hstarts : env.StartsBy e) (h : e.Promised U Su) (b : BlockString1 C)
    (hb : b.StaysForward e) : LooksForward env U Su b := by
  intro Sm hrest
  obtain ⟨hne, hSm⟩ := le_last_of_rRestrict h.substrateRep hrest
  rw [hstarts.blockString1]
  refine Ensures.ofOption fun monads hmonads s hs => ?_
  obtain ⟨smi, hsmi, rfl⟩ := Option.map_eq_some_iff.mp hmonads
  by_contra hlt
  have hlt := not_le.mp hlt
  exact (BlockString1.not_backTo h hSm hlt hb.2).1
    (((blockString1_yields h hne hSm hb.1 hsmi).back s hlt).mp hs)

end Kinds

/-! ## 4. Strings that look back -/

section Strings

variable {C S σ : Type} (env : QueryEnv C S σ)
  (rGroup : ObjectBlockString C → Option (MQLResultCallback σ) → Bool →
    List (List Straw) → Eval σ Sheaf)
  (e : StartMonadEnv) (U Su : SetOfMonads) (maxRange : Int)

/-- The string is tried behind a power block at a monad that is below the lower limit. -/
def BlockString2.StartsEarly (b : BlockString2 C) (power : Power) (last s : Int) : Prop :=
  power.Leaves U Su maxRange last ∧ s < last + 1 + power.low maxRange ∧
    s ≤ power.upper Su maxRange last ∧
    b.getBlockString1.BackTo e U Su (last + 1 + power.low maxRange) s

/-- Some match of what is in front of a power block is followed by a match of the rest from a monad
below the lower limit. -/
def BlockString2.LooksBack : BlockString2 C → Int → Prop
  | .sequence _ b (.sequence node next nextButOne), m =>
    ∃ d, b.Spans env rGroup e U Su maxRange m d ∧
      match next.getPowerBlock with
      | some power =>
        (∃ s, nextButOne.StartsEarly e U Su maxRange power d s ∧
          ∃ last, nextButOne.Spans env rGroup e U Su maxRange s last) ∨
        ∃ s, nextButOne.StartsBehind e U Su maxRange power d s ∧ nextButOne.LooksBack s
      | none => (BlockString2.sequence node next nextButOne).LooksBack (d + 1)
  | _, _ => False

/-- The blocks behind power blocks are of kinds that do not look back. -/
def BlockString2.NextKeepsForward : BlockString2 C → Prop
  | .sequence _ _ (.sequence node next nextButOne) =>
    match next.getPowerBlock with
    | some _ => nextButOne.getBlockString1.KeepsForward e false ∧ nextButOne.NextKeepsForward
    | none => (BlockString2.sequence node next nextButOne).NextKeepsForward
  | _ => True

variable {env rGroup e U Su maxRange}

/-- The start monads below the lower limit are those that `getSMI` goes back to. -/
theorem startsBehind_early_iff (h : e.Promised U Su) {b : BlockString2 C}
    (hb : b.AllBlocks Block.InstSound) {power : Power} {last s : Int} {smi : StartMonadIterator}
    (hsmi : b.getBlockString1.getSMI e U Su (last + 1 + power.low maxRange) = some smi) :
    b.StartsBehind e U Su maxRange power last s ∧ s < last + 1 + power.low maxRange ↔
      b.StartsEarly e U Su maxRange power last s := by
  have hfirst : b.getBlockString1.AllBlocks Block.InstSound := by
    cases b with
    | blockString1 _ b => exact hb
    | sequence _ b _ => exact hb.1
  have hyields : power.Leaves U Su maxRange last → smi.Yields
      (b.getBlockString1.Walks e U Su (last + 1 + power.low maxRange))
      (b.getBlockString1.BackTo e U Su (last + 1 + power.low maxRange))
      (last + 1 + power.low maxRange) := by
    intro hleaves
    obtain ⟨hne, hSm⟩ := le_last_of_rRestrict h.substrateRep hleaves.2
    exact blockString1_yields h hne hSm hfirst hsmi
  constructor
  · rintro ⟨⟨hleaves, smi', hsmi', hs⟩, hlt⟩
    cases hsmi.symm.trans hsmi'
    refine ⟨hleaves, hlt, of_decide_eq_true (List.all_eq_true.mp List.all_takeWhile s hs), ?_⟩
    exact ((hyields hleaves).back s hlt).mp ((List.takeWhile_sublist _).subset hs)
  · rintro ⟨hleaves, hlt, hupper, hback⟩
    have hin := ((hyields hleaves).back s hlt).mpr hback
    refine ⟨⟨hleaves, smi, hsmi, ?_⟩, hlt⟩
    exact (mem_takeWhile_le (hyields hleaves).ascending).mpr ⟨hin, hupper⟩

/-- Where no block looks back there is no such start monad. -/
theorem BlockString2.not_looksBack (h : e.Promised U Su) (b : BlockString2 C)
    (hb : b.NextKeepsForward e) (m : Int) : ¬ b.LooksBack env rGroup e U Su maxRange m := by
  induction b using BlockString2.chainInduction generalizing m with
  | single => exact id
  | pair => exact id
  | chain node b node' next nextButOne hnext hbutOne =>
    rw [BlockString2.NextKeepsForward] at hb
    rw [BlockString2.LooksBack]
    rintro ⟨d, -, hback⟩
    cases hpower : next.getPowerBlock with
    | some power =>
      rw [hpower] at hb hback
      rcases hback with ⟨s, ⟨hleaves, hlt, -, hback⟩, -⟩ | ⟨s, -, hback⟩
      · have hSm := (le_last_of_rRestrict h.substrateRep hleaves.2).2
        exact (BlockString1.not_backTo h hSm hlt hb.1).1 hback
      · exact hbutOne hb.2 s hback
    | none =>
      rw [hpower] at hb hback
      exact hnext hb _ hback

theorem returns_chainMatches {b : BlockString2 C} {m : Int} {ms : List ChainMatch}
    (h : Returns (chainMatches env rGroup b U Su m maxRange) ms) :
    Returns (Evaluator.rBlockString2 env rGroup b U Su m maxRange) (ms.map ChainMatch.toStraw) := by
  obtain ⟨s, s', hrun⟩ := h
  exact ⟨s, s', by rw [← map_chainMatches, run_bind_of_some hrun]; rfl⟩

/-- **Matches below a lower limit.**  If there is one the string looks back, and if the blocks are
settled a string that looks back has one. -/
theorem aboveLow_chainMatches (hstarts : env.StartsBy e) (h : e.Promised U Su)
    (b : BlockString2 C) (hstars : b.StarSets) (hinst : b.AllBlocks Block.InstSound) (Sm : Int)
    {ms : List ChainMatch} (hms : Returns (chainMatches env rGroup b U Su Sm maxRange) ms) :
    (∀ m ∈ ms, ¬ m.AboveLow maxRange b → b.LooksBack env rGroup e U Su maxRange Sm) ∧
      (b.AllBlocks (Block.Settled env rGroup) → b.LooksBack env rGroup e U Su maxRange Sm →
        ∃ m ∈ ms, m.toStraw.isEmpty = false ∧ ¬ m.AboveLow maxRange b) := by
  induction b using BlockString2.chainInduction generalizing Sm ms with
  | single node b =>
    exact ⟨fun m _ hlow => absurd (by cases m <;> trivial) hlow, fun _ hback => hback.elim⟩
  | pair node b node' next =>
    exact ⟨fun m _ hlow => absurd (by cases m <;> trivial) hlow, fun _ hback => hback.elim⟩
  | chain node b node' next nextButOne hnext hbutOne =>
    have hfirst := @finds_rBlockString1 C S σ env rGroup e U Su maxRange hstarts b hstars.1 Sm
    rw [chainMatches, chainWith] at hms
    cases hpower : next.getPowerBlock with
    | some power =>
      rw [hpower] at hms
      obtain ⟨fronts, hfronts, hof, hall⟩ := returns_powerChain hstarts hms
      have hfinds := hfirst fronts hfronts
      constructor
      · intro m hm hlow
        obtain ⟨front, hfront, s, hs, ms', hms', hmem⟩ := hof m hm
        obtain ⟨m', hm', hne, rfl⟩ := mem_prependMatch.mp hmem
        rw [BlockString2.LooksBack]
        refine ⟨front.last, (hfinds.sound front hfront).2, ?_⟩
        rw [ChainMatch.AboveLow, hpower] at hlow
        rw [hpower]
        have hstart := (hms'.ensured (ensures_inOrder nextButOne U Su s maxRange) m' hm').1
        rw [hstart, not_and_or, not_le] at hlow
        rcases hlow with hlt | hlow
        · refine Or.inl ⟨s, ?_, m'.toStraw.last, ?_⟩
          · obtain ⟨-, smi, hsmi, -⟩ := id hs
            exact (startsBehind_early_iff h hinst.2.2 hsmi).mp ⟨hs, hlt⟩
          · exact ((finds_rBlockString2 hstarts nextButOne hstars.2.2 s _
              (returns_chainMatches hms')).sound _ (List.mem_map_of_mem hm')).2
        · exact Or.inr ⟨s, hs, (hbutOne hstars.2.2 hinst.2.2 s hms').1 m' hm' hlow⟩
      · intro hsettled hback
        rw [BlockString2.LooksBack, hpower] at hback
        obtain ⟨d, hd, hback⟩ := hback
        obtain ⟨front, hfront, rfl⟩ := hfinds.complete hsettled.1 d hd
        have hadd : ∀ m' : ChainMatch, m'.toStraw.isEmpty = false →
            (ChainMatch.cons Sm front m').toStraw.isEmpty = false := fun m' hne =>
          prepend_isEmpty hne
        rcases hback with ⟨s, hearly, last, hlast⟩ | ⟨s, hs, hback⟩
        · obtain ⟨smi, hsmi, hnext⟩ := hall front hfront hearly.1
          obtain ⟨hs, hlt⟩ := (startsBehind_early_iff h hinst.2.2 hsmi).mpr hearly
          obtain ⟨ms', hms', hin⟩ := hnext s hs
          have hrest := finds_rBlockString2 hstarts nextButOne hstars.2.2 s _
            (returns_chainMatches hms')
          obtain ⟨straw, hstraw, -⟩ := hrest.complete hsettled.2.2 last hlast
          have hne := (hrest.sound straw hstraw).1
          obtain ⟨m', hm', rfl⟩ := List.mem_map.mp hstraw
          refine ⟨.cons Sm front m', hin (mem_prependMatch.mpr ⟨m', hm', hne, rfl⟩),
            hadd m' hne, ?_⟩
          have hstart := (hms'.ensured (ensures_inOrder nextButOne U Su s maxRange) m' hm').1
          rw [ChainMatch.AboveLow, hpower]
          dsimp only
          rw [hstart]
          exact fun hlow => not_le.mpr hlt hlow.1
        · obtain ⟨smi, hsmi, hnext⟩ := hall front hfront hs.1
          obtain ⟨ms', hms', hin⟩ := hnext s hs
          obtain ⟨m', hm', hne, hlow⟩ :=
            (hbutOne hstars.2.2 hinst.2.2 s hms').2 hsettled.2.2 hback
          refine ⟨.cons Sm front m', hin (mem_prependMatch.mpr ⟨m', hm', hne, rfl⟩),
            hadd m' hne, ?_⟩
          rw [ChainMatch.AboveLow, hpower]
          exact fun habove => hlow habove.2
    | none =>
      rw [hpower] at hms
      obtain ⟨fronts, hfronts, hof, hall⟩ := returns_nonPowerChain hms
      have hfinds := hfirst fronts hfronts
      constructor
      · intro m hm hlow
        obtain ⟨front, hfront, ms', hms', hmem⟩ := hof m hm
        obtain ⟨m', hm', hne, rfl⟩ := mem_prependMatch.mp hmem
        rw [ChainMatch.AboveLow, hpower] at hlow
        rw [BlockString2.LooksBack]
        refine ⟨front.last, (hfinds.sound front hfront).2, ?_⟩
        rw [hpower]
        exact (hnext hstars.2 hinst.2 _ hms').1 m' hm' hlow
      · intro hsettled hback
        rw [BlockString2.LooksBack, hpower] at hback
        obtain ⟨d, hd, hback⟩ := hback
        obtain ⟨front, hfront, rfl⟩ := hfinds.complete hsettled.1 d hd
        obtain ⟨ms', hms', hin⟩ := hall front hfront
        obtain ⟨m', hm', hne, hlow⟩ := (hnext hstars.2 hinst.2 _ hms').2 hsettled.2 hback
        refine ⟨.cons Sm front m', hin (mem_prependMatch.mpr ⟨m', hm', hne, rfl⟩),
          prepend_isEmpty hne, ?_⟩
        rw [ChainMatch.AboveLow, hpower]
        exact hlow

end Strings

/-! ## 5. The order of a string -/

section Words

/-- `[word] .. [Object overlap(monads, substrate)]`: a word at 3, and an object of the monads from
`first` to `last`. -/
def wordThenObject (first last : Int) (h : first ≤ last) : BlockString2 Unit :=
  .sequence 1
    (.nonStar (.block (.objectBlock (.mk
      { obb := ⟨1, .kRetrieve⟩
        firstLast := .kNoFirstLast
        msrc := ⟨.kMSROStartsIn, .kMSNSubstrate⟩
        featureConstraints := none
        hasNonParentORUs := false
        isAfterNonNOTEXISTInBlockString := false
        inst := [wordAt 7 3] } .null))))
    (.sequence 2 (.nonStar (.block (.powerBlock ⟨0, 4⟩))) (.blockString1 3
      (.nonStar (.block (.objectBlock (.mk
        { obb := ⟨2, .kRetrieve⟩
          firstLast := .kNoFirstLast
          msrc := ⟨.kMSROOverlap, .kMSNSubstrate⟩
          featureConstraints := none
          hasNonParentORUs := false
          isAfterNonNOTEXISTInBlockString := false
          inst := [StartMonadInfo.rangeObject 8 first last h] } .null))))))

/-- What `getSMI` reads of their database. -/
def wordThenObjectStarts : StartMonadEnv where
  allM1 := StartMonadInfo.monadRange 1 10 (by decide)
  ourMonadSet _ := Lexer.bytes "monads"
  largestObjectLength _ := 4
  blockStringHasOnlyNOTEXIST _ := false

def wordThenObjectEnv : QueryEnv Unit Unit Unit := wordEnv.withStartMonads wordThenObjectStarts

/-- The evaluation at 3, in the substrate from 1 to 10. -/
def evalWordThenObject (b : BlockString2 Unit) : Eval Unit (List Straw) :=
  Evaluator.rBlockString2 wordThenObjectEnv (fun _ => rBlocksOfUnorderedGroup) b
    (StartMonadInfo.monadRange 1 10 (by decide)) (StartMonadInfo.monadRange 1 10 (by decide)) 3
    maxMonad

/-- The objects of straws, with their first monads. -/
def objectsOf (los : List Straw) : List (List (Int × Int)) :=
  los.map fun t => t.list.map fun mo => (mo.idD, mo.getMonads.first)

theorem wordThenObjectStarts_promised :
    wordThenObjectStarts.Promised (StartMonadInfo.monadRange 1 10 (by decide))
      (StartMonadInfo.monadRange 1 10 (by decide)) where
  allM1 := (StartMonadInfo.monadRange_repInv (by decide) (by decide) (by decide)).1
  universeRep := (StartMonadInfo.monadRange_repInv (by decide) (by decide) (by decide)).1
  substrateRep := (StartMonadInfo.monadRange_repInv (by decide) (by decide) (by decide)).1
  subset := subset_rfl
  length _ := (by decide : (0 : Int) ≤ 4)

/-- The two blocks of the string. -/
theorem wordThenObject_sound {first last : Int} (h : first ≤ last) (hfirst : 1 ≤ first)
    (hlast : last ≤ maxMonad) :
    (wordThenObject first last h).AllBlocks Block.InstSound ∧
      (wordThenObject first last h).AllBlocks
        (Block.Settled wordThenObjectEnv fun _ => rBlocksOfUnorderedGroup) := by
  obtain ⟨hrep, hmem⟩ := StartMonadInfo.monadRange_repInv h (by omega) hlast
  have hleast : IsLeast (StartMonadInfo.monadRange first last h).mem first := hmem ▸ isLeast_Icc h
  refine ⟨⟨?_, trivial, ?_⟩, ?_, trivial, ?_⟩
  · intro o ho
    rw [List.mem_singleton.mp ho]
    exact wordAt_sound 7 (by decide) (by decide)
  · intro o ho
    rw [List.mem_singleton.mp ho]
    exact ⟨hrep, StartMonadInfo.ne_nil_of_mem hleast.1,
      StartMonadInfo.first_of_isLeast hrep hleast, hfirst⟩
  · exact Block.settled_of_features fun o b b' hb hb' => hb.of_pure.trans hb'.of_pure.symm
  · exact Block.settled_of_features fun o b b' hb hb' => hb.of_pure.trans hb'.of_pure.symm

/-- Where the first part of a match ends and the second one was tried. -/
def ChainMatch.joint : ChainMatch → Option (Int × Int)
  | one _ _ => none
  | cons _ straw m => some (straw.last, m.start)

end Words

end Emdros
